import AuraRedis.Resp.Drain
import AuraRedis.Resp.Proof.Reads

/-!
# The drain loop and its cap

`drain_of`: the loop takes all that an event brings, unless that and what the buffer held come to the cap.
`handleReads_iff`: the cap closes a connection exactly when that happens at an event that finds it open, and
if it never does, what is dispatched is what serving the commands dispatches.
-/

set_option autoImplicit false

namespace Resp

/-! ## One event -/

namespace ReadBuf

variable {realloc : Nat → Bool}

theorem rcap_le (b : ReadBuf) : b.rcap ≤ rbufMax := by
  obtain ⟨n, hn, hr⟩ := b.size
  rw [hr]
  exact Nat.mul_le_mul_left rbufInit (Nat.pow_le_pow_right (by decide) hn)

/-- A buffer that cannot be doubled is as large as the cap. -/
theorem rcap_eq {b : ReadBuf} (h : rbufMax < b.rcap * 2) : b.rcap = rbufMax := by
  obtain ⟨n, hn, hr⟩ := b.size
  rcases Nat.lt_or_eq_of_le hn with hlt | rfl
  · have hp : rbufInit * 2 ^ n ≤ rbufInit * 2 ^ 7 :=
      Nat.mul_le_mul_left _ (Nat.pow_le_pow_right (by decide) (Nat.le_of_lt_succ hlt))
    have : rbufInit * 2 ^ 7 * 2 = rbufMax := rfl
    omega
  · exact hr

/-- What a loop that has taken the bytes `s` may end in. -/
def Of (realloc : Nat → Bool) (s : Bytes) : Drained → Prop
  | .limit => rbufMax ≤ s.length
  | .noMemory => ∃ n, realloc n = false
  | .blocked b => b.rbuf = s ∧ s.length < rbufMax

/-- There is room, or no room to be had. -/
theorem grow_cases (b : ReadBuf) :
    (b.grow realloc = .limit ∧ b.rbuf.length = rbufMax) ∨
    (b.grow realloc = .noMemory ∧ ∃ n, realloc n = false) ∨
    ∃ b', b.grow realloc = .blocked b' ∧ b'.rbuf = b.rbuf ∧ b'.rbuf.length < b'.rcap := by
  unfold grow
  by_cases hfull : b.rbuf.length = b.rcap
  · rw [if_pos hfull]
    by_cases hcap : b.rcap * 2 ≤ rbufMax
    · rw [dif_pos hcap]
      cases hal : realloc (b.rcap * 2) with
      | false => exact .inr (.inl ⟨rfl, _, hal⟩)
      | true =>
        refine .inr (.inr ⟨b.double hcap, rfl, rfl, ?_⟩)
        obtain ⟨n, -, hn⟩ := b.size
        have : 0 < b.rcap := by rw [hn]; exact Nat.mul_pos (by decide) (Nat.two_pow_pos n)
        show b.rbuf.length < b.rcap * 2
        omega
    · rw [dif_neg hcap]
      exact .inl ⟨rfl, by rw [hfull, rcap_eq (by omega)]⟩
  · rw [if_neg hfull]
    have := b.fits
    exact .inr (.inr ⟨b, rfl, rfl, by omega⟩)

/-- **What the loop ends in.** -/
theorem drain_of (realloc : Nat → Bool) (fuel : Nat) (b : ReadBuf) (offers : List Bytes) (hf : turns offers ≤ fuel) :
    Of realloc (b.rbuf ++ offers.flatten) (b.drain realloc fuel offers) := by
  induction fuel generalizing b offers with
  | zero => exact absurd hf (by unfold turns; omega)
  | succ fuel ih =>
    unfold drain
    rcases b.grow_cases with ⟨hg, hlen⟩ | ⟨hg, hal⟩ | ⟨b', hg, hb, hroom⟩ <;> rw [hg]
    · show rbufMax ≤ (b.rbuf ++ offers.flatten).length
      rw [List.length_append]
      omega
    · exact hal
    rw [← hb]
    cases offers with
    | nil =>
      refine ⟨(List.append_nil _).symm, ?_⟩
      have := b'.rcap_le
      simp only [List.flatten_nil, List.append_nil]
      omega
    | cons chunk offers =>
      -- what the turn takes of the chunk, and what it leaves
      have hsplit : chunk.take (b'.rcap - b'.rbuf.length) ++ chunk.drop (b'.rcap - b'.rbuf.length) = chunk :=
        List.take_append_drop _ _
      have hread : (b'.read chunk).rbuf = b'.rbuf ++ chunk.take (b'.rcap - b'.rbuf.length) := rfl
      unfold turns at hf ih
      rw [List.flatten_cons, List.length_append, List.length_cons] at hf
      dsimp only
      split
      · next hleft =>
        have := ih (b'.read chunk) offers (by omega)
        rw [hleft, List.append_nil] at hsplit
        rwa [hread, hsplit, List.append_assoc] at this
      · next hleft =>
        have hne : chunk.drop (b'.rcap - b'.rbuf.length) ≠ [] := hleft
        have hlt : (chunk.drop (b'.rcap - b'.rbuf.length)).length < chunk.length := by
          have := List.length_pos_iff.2 hne
          rw [List.length_drop] at this ⊢
          omega
        have := ih (b'.read chunk) (chunk.drop (b'.rcap - b'.rbuf.length) :: offers) (by
          rw [List.flatten_cons, List.length_append, List.length_cons]
          omega)
        rw [hread, List.flatten_cons, List.append_assoc, ← List.append_assoc (List.take _ _), hsplit] at this
        rwa [List.flatten_cons]

end ReadBuf

/-! ## One read of an event -/

namespace Socket

universe u

variable {σ : Type u} (C : Socket σ) {realloc : Nat → Bool} {offers : List Bytes} {s : σ}

theorem handleInput_blocked {b : ReadBuf} (hd : (C.buf s).drain realloc (ReadBuf.turns offers) offers = .blocked b)
    (hu : C.inUse (C.receive b offers.flatten s) = true) :
    C.handleInput realloc offers .blocked s =
      (C.processReads (C.receive b offers.flatten s)).map fun r => if r.2 then r.1 else C.close r.1 := by
  unfold handleInput handleRead
  rw [hd]
  dsimp only
  rw [if_pos hu]

theorem handleInput_limit (ending : Ending) (hd : (C.buf s).drain realloc (ReadBuf.turns offers) offers = .limit) :
    C.handleInput realloc offers ending s = some (C.close (C.closeSoon s)) := by
  unfold handleInput handleRead
  rw [hd]
  rfl

end Socket

/-! ## The events of a connection -/

namespace Handler

universe u

variable {σ : Type u} (H : Handler σ) {realloc : Nat → Bool} (hal : ∀ n, realloc n = true)

theorem fits_cons_iff {s : σ} (hs : H.shouldClose s = false) {cmds done todo : List (List Bytes)}
    {pending q : Bytes} {r : Bytes × Flush} {rs : List (Bytes × Flush)} (hp : Partial cmds pending)
    (hb : Boundary cmds (pending ++ r.1) done todo q) :
    H.Fits s cmds pending (r :: rs) ↔ pending.length + r.1.length < rbufMax ∧
      (H.shouldClose (H.serve s done).1 = false → H.Fits (H.serve s done).1 todo q rs) := by
  have hreceived : ∀ i, pending ++ received ((r :: rs).take (i + 1)) = pending ++ r.1 ++ received (rs.take i) :=
    fun i => (List.append_assoc ..).symm
  constructor
  · intro h
    refine ⟨h 0 r rfl [] cmds pending ⟨rfl, by simp [received], hp⟩ hs, fun hc i r' hr a todo' q' ha ho => ?_⟩
    refine h (i + 1) r' hr (done ++ a) todo' q' ⟨?_, ?_, ha.rest⟩ ?_
    · rw [hb.split, ha.split, List.append_assoc]
    · rw [hreceived, hb.stream, List.append_assoc, ha.stream, List.flatMap_append, List.append_assoc]
    · rwa [H.serve_append_open hc]
  · rintro ⟨h₀, h⟩ i r' hr D T Q hD ho
    cases i with
    | zero =>
      cases hr
      rw [List.take_zero, show received [] = [] from rfl, List.append_nil] at hD
      obtain ⟨rfl, rfl, rfl⟩ := hD.at_start hp
      exact h₀
    | succ i =>
      rw [hreceived] at hD
      obtain ⟨a, rfl, ha⟩ := hb.extend hD
      by_cases hc : H.shouldClose (H.serve s done).1 = true
      · rw [H.serve_append_closed hs hc, hc] at ho
        cases ho
      · have hc := eq_false_of_ne_true hc
        rw [H.serve_append_open hc] at ho
        exact h hc i r' hr a T Q ha ho

theorem fits_nil {s : σ} {pending : Bytes} {rs : List (Bytes × Flush)} (hp : pending.length < rbufMax)
    (h : pending ++ received rs = []) : H.Fits s [] pending rs := by
  obtain ⟨rfl, hnil⟩ := List.append_eq_nil_iff.1 h
  intro i r hr done todo q hb _
  have hq : q = [] := by
    obtain ⟨rfl, rfl⟩ := List.append_eq_nil_iff.1 hb.split.symm
    exact hb.rest
  have hc : r.1 = [] := List.flatten_eq_nil_iff.1 hnil r.1 (List.mem_map_of_mem (List.mem_of_getElem? hr))
  rw [hq, hc]
  exact hp

theorem handleReads_closed {x : Link σ ReadBuf} (hx : x.inUse = false) (events : List (List Bytes × Flush)) :
    H.handleReads realloc x events = some (x, false) := by
  cases events with
  | nil => rfl
  | cons e events => rw [handleReads, hx]; rfl

theorem handleReads_cons {x : Link σ ReadBuf} (hx : x.inUse = true) (e : List Bytes × Flush)
    (events : List (List Bytes × Flush)) :
    H.handleReads realloc x (e :: events) =
      ((H.socket e.2).handleInput realloc e.1 .blocked x).bind fun y =>
        (H.handleReads realloc y events).map fun t => (t.1, capped realloc x e.1 || t.2) := by
  rw [handleReads, if_neg (by rw [hx]; decide)]

section
include hal

/-- An event whose bytes fit is one read of them. -/
theorem handleReads_fits {x : Link σ ReadBuf} (hx : x.inUse = true) {e : List Bytes × Flush}
    (hlt : x.rbuf.length + e.1.flatten.length < rbufMax) :
    ∃ b : ReadBuf, b.rbuf = x.rbuf ++ e.1.flatten ∧ ∀ events, H.handleReads realloc x (e :: events) =
      (H.read e.2 { x with buf := b }).bind fun y => H.handleReads realloc y events := by
  have hof := ReadBuf.drain_of realloc (ReadBuf.turns e.1) x.buf e.1 (Nat.le_refl _)
  cases hd : x.buf.drain realloc (ReadBuf.turns e.1) e.1 with
  | limit =>
    rw [hd] at hof
    have hle : rbufMax ≤ (x.rbuf ++ e.1.flatten).length := hof
    rw [List.length_append] at hle
    omega
  | noMemory =>
    rw [hd] at hof
    obtain ⟨n, hn⟩ := hof
    rw [hal n] at hn
    cases hn
  | blocked b =>
    rw [hd] at hof
    refine ⟨b, hof.1, fun events => ?_⟩
    have hinput : (H.socket e.2).handleInput realloc e.1 .blocked x = H.read e.2 { x with buf := b } :=
      (H.socket e.2).handleInput_blocked hd hx
    have hcap : capped realloc x e.1 = false := by rw [capped, hd]
    rw [H.handleReads_cons hx, hinput, hcap]
    refine congrArg (Option.bind _) (funext fun y => ?_)
    cases H.handleReads realloc y events <;> rfl

theorem handleReads_limit {x : Link σ ReadBuf} (hx : x.inUse = true) {e : List Bytes × Flush}
    (hle : rbufMax ≤ x.rbuf.length + e.1.flatten.length) (events : List (List Bytes × Flush)) :
    ∃ y, H.handleReads realloc x (e :: events) = some (y, true) ∧ y.dispatched = x.dispatched := by
  have hof := ReadBuf.drain_of realloc (ReadBuf.turns e.1) x.buf e.1 (Nat.le_refl _)
  cases hd : x.buf.drain realloc (ReadBuf.turns e.1) e.1 with
  | limit =>
    have hcap : capped realloc x e.1 = true := by rw [capped, hd]
    have hinput := (H.socket e.2).handleInput_limit .blocked hd
    refine ⟨(H.socket e.2).close ((H.socket e.2).closeSoon x), ?_, rfl⟩
    rw [H.handleReads_cons hx, hinput, hcap, Option.bind_some, H.handleReads_closed rfl]
    rfl
  | noMemory =>
    rw [hd] at hof
    obtain ⟨n, hn⟩ := hof
    rw [hal n] at hn
    cases hn
  | blocked b =>
    rw [hd] at hof
    obtain ⟨-, hlt⟩ := hof
    rw [List.length_append] at hlt
    have : x.rbuf.length = x.buf.rbuf.length := rfl
    omega

/-- Nothing more comes. -/
theorem handleReads_over {x : Link σ ReadBuf} {events : List (List Bytes × Flush)}
    (hr : H.isReplica x.server = true) (hb : x.rbuf = []) (he : ∀ e ∈ events, e.1.flatten = []) :
    ∃ y, H.handleReads realloc x events = some (y, false) ∧ y.dispatched = x.dispatched := by
  induction events generalizing x with
  | nil => exact ⟨x, rfl, rfl⟩
  | cons e events ih =>
    cases hx : x.inUse with
    | false => exact ⟨x, H.handleReads_closed hx _, rfl⟩
    | true =>
      obtain ⟨hnil, he⟩ := List.forall_mem_cons.1 he
      obtain ⟨b, -, hfits⟩ := H.handleReads_fits hal hx (e := e) (by rw [hb, hnil]; decide)
      obtain ⟨y, hread, hserver, hbuf, hdisp⟩ := H.read_replica e.2 (x := { x with buf := b }) hr
      obtain ⟨z, hz, hdisp'⟩ := ih (x := y) (by rw [hserver]; exact hr) hbuf he
      exact ⟨z, by rw [hfits, hread]; exact hz, hdisp'.trans hdisp⟩

/-- What the events dispatch, and whether the cap closes the connection. -/
theorem handleReads_stream {x : Link σ ReadBuf} (hx : x.inUse = true) (hs : H.shouldClose x.server = false)
    (hr : H.isReplica x.server = false) {cmds : List (List Bytes)} (hw : ∀ argv ∈ cmds, WellFormed argv)
    {events : List (List Bytes × Flush)} (hst : x.rbuf ++ received (asReads events) = cmds.flatMap command)
    (hp : Partial cmds x.rbuf) (hcl : H.Closes x.server cmds x.rbuf (asReads events))
    (hh : H.Harmless x.server cmds x.rbuf (asReads events)) :
    ∃ r, H.handleReads realloc x events = some r ∧
      (r.2 = false ↔ H.Fits x.server cmds x.rbuf (asReads events)) ∧
      (r.2 = false → r.1.dispatched = x.dispatched ++ (H.serve x.server cmds).2) := by
  induction events generalizing x cmds with
  | nil =>
    obtain rfl := hp.over ((List.append_nil _).symm.trans hst)
    exact ⟨_, rfl, iff_of_true rfl (fun i r hi => by cases hi), fun _ => (List.append_nil _).symm⟩
  | cons e events ih =>
    have hst' : x.rbuf ++ e.1.flatten ++ received (asReads events) = cmds.flatMap command := by
      rw [← hst, List.append_assoc]
      rfl
    obtain ⟨done, todo, q, hb⟩ := exists_boundary cmds ⟨_, hst'⟩
    have hwd : ∀ argv ∈ done, WellFormed argv := fun v hv => hw v (by simp [hb.split, hv])
    have hwt : ∀ argv ∈ todo, WellFormed argv := fun v hv => hw v (by simp [hb.split, hv])
    have hreads : asReads (e :: events) = (e.1.flatten, e.2) :: asReads events := rfl
    rw [hreads] at hcl hh
    rw [hreads, H.fits_cons_iff hs hp hb]
    by_cases hlt : x.rbuf.length + e.1.flatten.length < rbufMax
    swap
    · obtain ⟨y, hy, -⟩ := H.handleReads_limit hal hx (Nat.not_lt.1 hlt) events
      exact ⟨_, hy, iff_of_false (by simp) fun h => hlt h.1, fun h => by cases h⟩
    rw [and_iff_right hlt]
    obtain ⟨b, hbuf, hfits⟩ := H.handleReads_fits hal hx hlt
    let x₁ : Link σ ReadBuf := { x with buf := b }
    have hx₁ : x₁.rbuf = done.flatMap command ++ q := hbuf.trans hb.stream
    obtain ⟨y, hread, hdisp, hclosed, hgoesOn⟩ := H.read_stream e.2 (x := x₁) hr hwd hwt hx₁ hb.rest
    have hstep : H.handleReads realloc x (e :: events) = H.handleReads realloc y events := by
      rw [hfits, hread]
      rfl
    rw [hstep]
    by_cases hstop : H.GivesUp x.server done todo q e.2
    · have hall : (H.serve x.server done).2 = (H.serve x.server cmds).2 :=
        (H.harmless_of_givesUp hb hr hstop).2 hh
      -- then an open connection has nothing more to come
      have hover (hc : H.shouldClose (H.serve x.server done).1 = false) : todo = [] :=
        H.nil_of_serve hc (hb.split ▸ hall)
      have hrest (ht : todo = []) : q = [] ∧ received (asReads events) = [] :=
        List.append_eq_nil_iff.1 ((hb.remaining hst').trans (by rw [ht]; rfl))
      have hfin : ∃ z, H.handleReads realloc y events = some (z, false) ∧ z.dispatched = y.dispatched := by
        by_cases hend : H.Ends x.server done todo q ∨ e.2 = .failed
        · have hflush : H.Ends x.server done todo q ∧ e.2 ≠ .blocked ∨ e.2 = .failed :=
            hend.imp_left fun h => ⟨h, ((atBoundaries_cons_iff (r := (e.1.flatten, e.2)) hb).1 hcl).1 h⟩
          exact ⟨y, H.handleReads_closed (hclosed hflush) events, rfl⟩
        · rw [not_or] at hend
          obtain ⟨-, hyq, hserver⟩ := hgoesOn hend.1 hend.2
          have hrep : H.isReplica y.server = true := by
            rw [hserver]
            exact (hstop.resolve_left hend.1).resolve_right hend.2
          obtain ⟨hq, hnil⟩ := hrest (hover (eq_false_of_ne_true fun h => hend.1 (.inr h)))
          refine H.handleReads_over hal hrep (hyq.trans hq) fun e' he' => ?_
          exact List.flatten_eq_nil_iff.1 hnil _ (List.mem_map_of_mem (f := Prod.fst)
            (List.mem_map_of_mem (f := fun e : List Bytes × Flush => (e.1.flatten, e.2)) he'))
      obtain ⟨z, hz, hdisp'⟩ := hfin
      refine ⟨_, hz, iff_of_true rfl fun hc => ?_, fun _ => ?_⟩
      · obtain ⟨rfl, hnil⟩ := hrest (hover hc)
        rw [hover hc]
        exact H.fits_nil (by decide) (by rw [hnil]; rfl)
      · rw [hdisp', hdisp, hall]
    · have hopen := hstop
      simp only [GivesUp, not_or] at hopen
      obtain ⟨hend, hrep, hfail⟩ := hopen
      have hc : H.shouldClose (H.serve x.server done).1 = false := eq_false_of_ne_true fun h => hend (.inr h)
      obtain ⟨huse, hyq, hserver⟩ := hgoesOn hend hfail
      have hsty : y.rbuf ++ received (asReads events) = todo.flatMap command := by rw [hyq, hb.remaining hst']
      have hcl' := ((H.closes_cons_iff (r := (e.1.flatten, e.2)) hb hc).1 hcl).2
      have hh' := (H.harmless_of_goesOn (r := (e.1.flatten, e.2)) hb hr hstop).2 hh
      rw [← hserver, ← hyq] at hcl' hh'
      obtain ⟨r, hreads, hiff, hall⟩ := ih (huse.trans hx) (by rw [hserver]; exact hc)
        (by rw [hserver]; exact eq_false_of_ne_true hrep) hwt hsty (by rw [hyq]; exact hb.rest) hcl' hh'
      rw [imp_iff_right hc, ← hserver, ← hyq]
      refine ⟨r, hreads, hiff, fun h => ?_⟩
      rw [hall h, hdisp, hb.split, H.serve_append_open hc, hserver, ← List.append_assoc]

end

/-- `PING` and `QUIT`, in two events. -/
def pingQuitEvents : List (List Bytes × Flush) :=
  [([lit "*1\r\n$4\r", lit "\nPI"], .blocked), ([lit "NG\r\n*1\r\n$4\r", lit "\nQUIT\r\n"], .whole)]

theorem harmless_pingQuit : accepting.Harmless false [[lit "PING"], [lit "QUIT"]] [] pingQuit := by
  obtain ⟨y, hy, hiff⟩ := accepting.reads_serve_iff (x := { server := false, buf := [] }) rfl rfl wellFormed_pingQuit
    (by decide) (partial_nil _) closes_pingQuit
  refine hiff.1 ?_
  have hrun : accepting.dispatches false pingQuit = some (accepting.serve false [[lit "PING"], [lit "QUIT"]]).2 := by
    decide
  rw [dispatches, hy] at hrun
  exact Option.some.inj hrun

end Handler

end Resp
