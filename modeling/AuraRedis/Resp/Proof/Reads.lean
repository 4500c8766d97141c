import AuraRedis.Resp.Proof.Parse
import AuraRedis.Resp.Reads

/-!
# The read loop on a cut stream

`readLoop_stream`: on the part of a stream of commands that has been read, the loop serves the complete commands and
keeps the rest, unless the rest ends where a bulk begins. `reads_serve_iff`: the reads dispatch what serving the
commands dispatches exactly when every boundary at which the rest is given up is harmless.
-/

set_option autoImplicit false

namespace Resp

universe u v

/-! ## A turn of the loop -/

namespace Endpoint

variable {σ : Type u} (C : Endpoint σ) {s : σ} {pos fuel : Nat}

theorem readLoop_incomplete (h : parseCommand ((C.rbuf s).drop pos) = .incomplete) :
    C.readLoop fuel pos s = some (s, pos) := by
  cases fuel with
  | zero => rfl
  | succ fuel =>
    rw [readLoop, h]
    exact ite_self _

theorem readLoop_error (h : parseCommand ((C.rbuf s).drop pos) = .error) :
    C.readLoop (fuel + 1) pos s = some (C.closeSoon (C.replyErr "ERR Protocol error" s), pos) := by
  have hlt : pos < (C.rbuf s).length := by
    by_contra hge
    rw [List.drop_of_length_le (Nat.not_lt.1 hge)] at h
    cases h
  rw [readLoop, if_pos hlt, h]

theorem readLoop_ok (fuel : Nat) {argv : List Bytes} {rest : Bytes} (h : parseCommand ((C.rbuf s).drop pos) = .ok argv rest) :
    C.readLoop (fuel + 1) pos s =
      if !(C.command argv s).2 then some (C.closeSoon (C.command argv s).1, pos)
      else if C.shouldClose (C.commandDone argv (C.command argv s).1) then
        some (C.commandDone argv (C.command argv s).1, (C.rbuf s).length - rest.length)
      else C.readLoop fuel ((C.rbuf s).length - rest.length) (C.commandDone argv (C.command argv s).1) := by
  have hlt : pos < (C.rbuf s).length := by
    by_contra hge
    rw [List.drop_of_length_le (Nat.not_lt.1 hge)] at h
    cases h
  rw [readLoop, if_pos hlt, h]

/-- What the turns of the loop keep. -/
theorem readLoop_invariant {I : Nat → σ → Prop}
    (herr : ∀ pos s, I pos s → I pos (C.closeSoon (C.replyErr "ERR Protocol error" s)))
    (hfail : ∀ pos s argv, I pos s → I pos (C.closeSoon (C.command argv s).1))
    (hdone : ∀ pos s argv rest, I pos s → pos < (C.rbuf s).length →
      parseCommand ((C.rbuf s).drop pos) = .ok argv rest →
      I ((C.rbuf s).length - rest.length) (C.commandDone argv (C.command argv s).1))
    {r : σ × Nat} (h : I pos s) (hr : C.readLoop fuel pos s = some r) : I r.2 r.1 := by
  induction fuel generalizing pos s with
  | zero =>
    cases hr
    exact h
  | succ fuel ih =>
    unfold readLoop at hr
    split at hr
    · next hlt =>
      split at hr
      · cases hr
        exact h
      · cases hr
        exact herr pos s h
      · cases hr
      · next argv rest hp =>
        dsimp only at hr
        split at hr
        · cases hr
          exact hfail pos s argv h
        · have hnext := hdone pos s argv rest h hlt hp
          split at hr
          · cases hr
            exact hnext
          · exact ih hnext hr
    · cases hr
      exact h

end Endpoint

/-! ## Buffers -/

section
variable {σ : Type u} {β : Type v} [Buffer β] (x : Link σ β)

@[simp] theorem Link.rbuf_consume (pos : Nat) : (x.consume pos).rbuf = x.rbuf.drop pos := Buffer.bytes_drop pos x.buf

@[simp] theorem Link.rbuf_empty : x.empty.rbuf = [] := by
  rw [Link.empty, Link.rbuf_consume, List.drop_length]

end

namespace Handler

variable {σ : Type u} (H : Handler σ)

/-! ## Serving -/

theorem serve_append_open {s : σ} {a : List (List Bytes)} (ha : H.shouldClose (H.serve s a).1 = false)
    (b : List (List Bytes)) :
    H.serve s (a ++ b) =
      ((H.serve (H.serve s a).1 b).1, (H.serve s a).2 ++ (H.serve (H.serve s a).1 b).2) := by
  induction a generalizing s with
  | nil => simp [serve]
  | cons argv a ih =>
    by_cases hc : H.shouldClose (H.step s argv) = true
    · simp [serve, hc] at ha
    · simp only [serve, if_neg hc] at ha
      simp only [List.cons_append, serve, if_neg hc, ih ha]

theorem serve_append_closed {s : σ} (hs : H.shouldClose s = false) {a : List (List Bytes)}
    (ha : H.shouldClose (H.serve s a).1 = true) (b : List (List Bytes)) : H.serve s (a ++ b) = H.serve s a := by
  induction a generalizing s with
  | nil => rw [serve, hs] at ha; cases ha
  | cons argv a ih =>
    by_cases hc : H.shouldClose (H.step s argv) = true
    · simp [serve, hc]
    · simp only [serve, if_neg hc] at ha
      simp only [List.cons_append, serve, if_neg hc, ih (eq_false_of_ne_true hc) ha]

/-- More commands are dispatched after those that are there. -/
theorem serve_prefix (s : σ) (a b : List (List Bytes)) : (H.serve s a).2 <+: (H.serve s (a ++ b)).2 := by
  induction a generalizing s with
  | nil => exact List.nil_prefix
  | cons argv a ih =>
    rw [List.cons_append]
    unfold serve
    split
    · exact List.prefix_refl _
    · exact List.cons_prefix_cons.2 ⟨rfl, ih _⟩

theorem serve_ne_nil (s : σ) (argv : List Bytes) (a : List (List Bytes)) :
    (H.serve s (argv :: a)).2 ≠ [] := by
  rw [serve]
  split <;> simp

/-- A connection that stays open has been dispatched all there is to dispatch only when there is no more. -/
theorem nil_of_serve {s : σ} {a b : List (List Bytes)} (ha : H.shouldClose (H.serve s a).1 = false)
    (h : (H.serve s a).2 = (H.serve s (a ++ b)).2) : b = [] := by
  rw [H.serve_append_open ha] at h
  cases b with
  | nil => rfl
  | cons argv b => exact (H.serve_ne_nil _ argv b (List.self_eq_append_right.1 h)).elim

/-- When some of the commands bring all that is dispatched of them, so do more of them. -/
theorem serve_eq_of_eq {s : σ} {a b c : List (List Bytes)} (h : (H.serve s a).2 = (H.serve s (a ++ (b ++ c))).2) :
    (H.serve s (a ++ b)).2 = (H.serve s (a ++ (b ++ c))).2 := by
  have h₁ := H.serve_prefix s a b
  have h₂ := H.serve_prefix s (a ++ b) c
  rw [List.append_assoc] at h₂
  exact h₂.eq_of_length_le (h ▸ h₁.length_le)

/-! ## The loop -/

section
variable {β : Type v} [Buffer β] (flush : Flush) {x : Link σ β} {pre q : Bytes} {fuel : Nat}

/-- A connection after some commands. -/
def after (x : Link σ β) (a : List (List Bytes)) : Link σ β :=
  { x with server := (H.serve x.server a).1, dispatched := x.dispatched ++ (H.serve x.server a).2 }

omit [Buffer β] in
theorem after_nil (x : Link σ β) : H.after x [] = x := by simp [after, serve]

omit [Buffer β] in
theorem after_cons {argv : List Bytes} {a : List (List Bytes)} (hc : H.shouldClose (H.step x.server argv) = false) :
    H.after (H.after x [argv]) a = H.after x (argv :: a) := by
  simp [after, serve, hc]

/-- One turn, on a complete command. -/
theorem readLoop_turn (fuel : Nat) {argv : List Bytes} (hw : WellFormed argv) (hx : x.rbuf = pre ++ command argv ++ q) :
    ∃ pos ≤ x.rbuf.length, (H.endpoint flush).readLoop (fuel + 1) pre.length x =
      if H.shouldClose (H.step x.server argv) then some (H.after x [argv], pos)
      else (H.endpoint flush).readLoop fuel (pre ++ command argv).length (H.after x [argv]) := by
  have hp : parseCommand (((H.endpoint flush).rbuf x).drop pre.length) = .ok argv q := by
    show parseCommand (x.rbuf.drop pre.length) = _
    rw [hx, List.append_assoc, List.drop_left, parseCommand_command hw]
  have hnext : x.rbuf.length - q.length = (pre ++ command argv).length := by
    rw [hx, List.length_append, Nat.add_sub_cancel]
  have hpre : pre.length ≤ (pre ++ command argv).length := by simp
  have hle : (pre ++ command argv).length ≤ x.rbuf.length := hnext ▸ Nat.sub_le ..
  have hafter : H.after x [argv] =
      { x with server := H.step x.server argv, dispatched := x.dispatched ++ [argv] } := by
    unfold after serve
    split <;> rfl
  have hturn := (H.endpoint flush).readLoop_ok fuel hp
  change _ = if (!decide (0 ≤ (H.dispatch x.server argv).2)) = true then
      some ({ x with server := H.setClose (H.dispatch x.server argv).1, dispatched := x.dispatched ++ [argv] },
        pre.length)
    else if H.shouldClose (H.dispatch x.server argv).1 = true then
      some ({ x with server := (H.dispatch x.server argv).1, dispatched := x.dispatched ++ [argv] },
        x.rbuf.length - q.length)
    else (H.endpoint flush).readLoop fuel (x.rbuf.length - q.length)
      { x with server := (H.dispatch x.server argv).1, dispatched := x.dispatched ++ [argv] } at hturn
  rw [hturn, hnext, hafter]
  unfold step
  by_cases hd : (H.dispatch x.server argv).2 < 0
  · refine ⟨pre.length, hpre.trans hle, ?_⟩
    rw [if_pos (by simpa using hd)]
    dsimp only
    rw [if_pos hd, if_pos (H.shouldClose_setClose _)]
  · refine ⟨_, hle, ?_⟩
    rw [if_neg (by simpa using hd)]
    dsimp only
    rw [if_neg hd]

/-- The loop serves the complete commands at `pre.length`, until one of them closes the connection. -/
theorem readLoop_append {a : List (List Bytes)} (hw : ∀ argv ∈ a, WellFormed argv)
    (hx : x.rbuf = pre ++ (a.flatMap command ++ q)) (hf : (a.flatMap command ++ q).length ≤ fuel) :
    (H.shouldClose (H.serve x.server a).1 = true → a ≠ [] →
      ∃ pos ≤ x.rbuf.length, (H.endpoint flush).readLoop fuel pre.length x = some (H.after x a, pos)) ∧
    (H.shouldClose (H.serve x.server a).1 = false ∨ a = [] →
      ∃ fuel', q.length ≤ fuel' ∧ (H.endpoint flush).readLoop fuel pre.length x =
        (H.endpoint flush).readLoop fuel' (pre ++ a.flatMap command).length (H.after x a)) := by
  induction a generalizing x pre fuel with
  | nil =>
    refine ⟨fun _ h => absurd rfl h, fun _ => ⟨fuel, by simpa using hf, ?_⟩⟩
    rw [H.after_nil, List.flatMap_nil, List.append_nil]
  | cons argv a ih =>
    obtain ⟨hargv, hwa⟩ := List.forall_mem_cons.1 hw
    have hpos := hargv.length_command_pos
    rw [List.flatMap_cons, List.append_assoc] at hx hf
    rw [List.length_append] at hf
    obtain ⟨fuel, rfl⟩ : ∃ f, fuel = f + 1 := ⟨fuel - 1, by omega⟩
    rw [← List.append_assoc] at hx
    obtain ⟨pos, hle, hturn⟩ := H.readLoop_turn flush fuel hargv hx
    rw [hturn]
    by_cases hc : H.shouldClose (H.step x.server argv) = true
    · have hserve : ∀ b, H.serve x.server (argv :: b) = (H.step x.server argv, [argv]) := fun b => by
        rw [serve, if_pos hc]
      rw [if_pos hc, hserve a]
      refine ⟨fun _ _ => ⟨pos, hle, ?_⟩, fun h => ?_⟩
      · unfold after
        rw [hserve a, hserve []]
      · obtain h | h := h
        · rw [hc] at h
          cases h
        · cases h
    · have hc := eq_false_of_ne_true hc
      have hserve : (H.serve x.server (argv :: a)).1 = (H.serve (H.step x.server argv) a).1 := by
        rw [serve, if_neg (by rw [hc]; exact Bool.false_ne_true)]
      have hstep : (H.after x [argv]).server = H.step x.server argv := by
        unfold after serve
        split <;> rfl
      obtain ⟨h₁, h₂⟩ := ih (x := H.after x [argv]) hwa hx (show _ ≤ fuel by omega)
      rw [hstep, H.after_cons hc] at h₁ h₂
      rw [if_neg (by rw [hc]; exact Bool.false_ne_true), hserve, List.flatMap_cons, ← List.append_assoc]
      refine ⟨fun hcl _ => ?_, fun ho => ?_⟩
      · cases a with
        | nil =>
          rw [serve, hc] at hcl
          cases hcl
        | cons _ _ => exact h₁ hcl (List.cons_ne_nil _ _)
      · exact h₂ (ho.imp_right fun h => by cases h)

theorem not_cutNext_nil (todo : List (List Bytes)) : ¬ CutNext todo [] := by
  cases todo with
  | nil => exact id
  | cons argv todo => exact not_cut_nil

/-- What the parser makes of what is left of the next command. -/
theorem parseCommand_partial {todo : List (List Bytes)} (hw : ∀ argv ∈ todo, WellFormed argv) (hq : Partial todo q) :
    (CutNext todo q → parseCommand q = .error) ∧ (¬CutNext todo q → parseCommand q = .incomplete) := by
  cases todo with
  | nil =>
    obtain rfl : q = [] := hq
    exact ⟨fun h => h.elim, fun _ => rfl⟩
  | cons argv todo => exact (reads_parseCommand (hw _ (.head _))).cut q hq

/-- **The loop on a part of a stream**: it serves the complete commands and keeps the rest, unless the connection is
to be closed. -/
theorem readLoop_stream {done todo : List (List Bytes)} (hwd : ∀ argv ∈ done, WellFormed argv)
    (hwt : ∀ argv ∈ todo, WellFormed argv) (hx : x.rbuf = done.flatMap command ++ q) (hq : Partial todo q) :
    ∃ y pos, (H.endpoint flush).readLoop x.rbuf.length 0 x = some (y, pos) ∧ pos ≤ x.rbuf.length ∧
      y.buf = x.buf ∧ y.inUse = x.inUse ∧ y.dispatched = x.dispatched ++ (H.serve x.server done).2 ∧
      (H.Ends x.server done todo q → H.shouldClose y.server = true) ∧
      (¬H.Ends x.server done todo q → y.server = (H.serve x.server done).1 ∧ x.rbuf.drop pos = q) := by
  obtain ⟨hclosed, hopen⟩ := H.readLoop_append flush hwd (show x.rbuf = [] ++ (done.flatMap command ++ q) from hx)
    (congrArg List.length hx).ge
  by_cases hc : H.shouldClose (H.serve x.server done).1 = true ∧ done ≠ []
  · obtain ⟨pos, hle, hloop⟩ := hclosed hc.1 hc.2
    exact ⟨_, pos, hloop, hle, rfl, rfl, rfl, fun _ => hc.1, fun h => absurd (.inr hc.1) h⟩
  · have hor : H.shouldClose (H.serve x.server done).1 = false ∨ done = [] := by
      rw [not_and_or, not_ne_iff] at hc
      exact hc.imp_left eq_false_of_ne_true
    obtain ⟨fuel, hfuel, hloop⟩ := hopen hor
    have hdrop : x.rbuf.drop (done.flatMap command).length = q := by rw [hx, List.drop_left]
    have hlen : (done.flatMap command).length ≤ x.rbuf.length := by
      rw [hx, List.length_append]
      exact Nat.le_add_right ..
    rw [List.nil_append, List.length_nil] at hloop
    obtain ⟨herr, hinc⟩ := parseCommand_partial hwt hq
    have hparse : ((H.endpoint flush).rbuf (H.after x done)).drop (done.flatMap command).length = q := hdrop
    by_cases hcut : CutNext todo q
    · obtain ⟨fuel, rfl⟩ : ∃ f, fuel = f + 1 := by
        refine ⟨fuel - 1, ?_⟩
        have : q ≠ [] := fun h => not_cutNext_nil todo (h ▸ hcut)
        have := List.length_pos_iff.2 this
        omega
      rw [(H.endpoint flush).readLoop_error (hparse ▸ herr hcut)] at hloop
      exact ⟨_, _, hloop, hlen, rfl, rfl, rfl, fun _ => H.shouldClose_setClose _, fun h => absurd (.inl hcut) h⟩
    · rw [(H.endpoint flush).readLoop_incomplete (s := H.after x done) (by rw [hparse]; exact hinc hcut)] at hloop
      exact ⟨_, _, hloop, hlen, rfl, rfl, rfl, fun h => h.resolve_left hcut, fun _ => ⟨rfl, hdrop⟩⟩

/-! ## A read -/

/-- A connection after the flush that ends a read. -/
def flushed (flush : Flush) (z : Link σ β) : Link σ β :=
  match flush with
  | .whole => if H.shouldClose z.server then z.close else z
  | .blocked => z
  | .failed => z.close

theorem dispatched_flushed (flush : Flush) (z : Link σ β) : (H.flushed flush z).dispatched = z.dispatched := by
  cases flush with
  | whole =>
    show (if H.shouldClose z.server = true then z.close else z).dispatched = _
    split <;> rfl
  | blocked | failed => rfl

/-- What `process_reads` comes to when the loop has come to an end. -/
theorem read_of_loop {y : Link σ β} {pos : Nat} (hr : H.isReplica x.server = false)
    (hloop : (H.endpoint flush).readLoop x.rbuf.length 0 x = some (y, pos)) (hle : pos ≤ x.rbuf.length)
    (hbuf : y.buf = x.buf) :
    ∃ z : Link σ β, z.rbuf = x.rbuf.drop pos ∧ z.server = y.server ∧ z.inUse = y.inUse ∧ z.dispatched = y.dispatched ∧
      H.read flush x = some (H.flushed flush z) := by
  have hy : y.rbuf = x.rbuf := congrArg Buffer.bytes hbuf
  have hproc : (H.endpoint flush).processReads x =
      if pos = 0 then some ((H.endpoint flush).flush y)
      else if pos ≤ y.rbuf.length then some ((H.endpoint flush).flush (y.consume pos)) else none := by
    unfold Endpoint.processReads
    change (if H.isReplica x.server = true then _ else
      ((H.endpoint flush).readLoop x.rbuf.length 0 x).bind _) = _
    rw [hr, hloop]
    rfl
  have hread : ∀ z : Link σ β, (H.endpoint flush).processReads x = some ((H.endpoint flush).flush z) →
      H.read flush x = some (H.flushed flush z) := fun z hz => by
    unfold read
    rw [hz]
    cases flush <;> rfl
  by_cases h0 : pos = 0
  · rw [if_pos h0] at hproc
    exact ⟨y, by rw [hy, h0, List.drop_zero], rfl, rfl, rfl, hread y hproc⟩
  · rw [if_neg h0, if_pos (hy ▸ hle)] at hproc
    exact ⟨y.consume pos, by rw [Link.rbuf_consume, hy], rfl, rfl, rfl, hread _ hproc⟩

/-- **A read of a part of a stream** passes the complete commands to `dispatch`. It closes the connection, or leaves
the rest for the next read. -/
theorem read_stream {done todo : List (List Bytes)} (hr : H.isReplica x.server = false)
    (hwd : ∀ argv ∈ done, WellFormed argv) (hwt : ∀ argv ∈ todo, WellFormed argv)
    (hx : x.rbuf = done.flatMap command ++ q) (hq : Partial todo q) :
    ∃ y, H.read flush x = some y ∧ y.dispatched = x.dispatched ++ (H.serve x.server done).2 ∧
      (H.Ends x.server done todo q ∧ flush ≠ .blocked ∨ flush = .failed → y.inUse = false) ∧
      (¬H.Ends x.server done todo q → flush ≠ .failed →
        y.inUse = x.inUse ∧ y.rbuf = q ∧ y.server = (H.serve x.server done).1) := by
  obtain ⟨y, pos, hloop, hle, hbuf, huse, hdisp, hclose, hopen⟩ := H.readLoop_stream flush hwd hwt hx hq
  obtain ⟨z, hrest, hs, hu, hz, hread⟩ := H.read_of_loop flush hr hloop hle hbuf
  refine ⟨_, hread, by rw [dispatched_flushed, hz, hdisp], fun hend => ?_, fun hend hf => ?_⟩
  · cases flush with
    | whole =>
      have := hclose (hend.resolve_right (by simp)).1
      unfold flushed
      rw [hs, if_pos this]
      rfl
    | blocked =>
      obtain h | h := hend
      · exact absurd rfl h.2
      · cases h
    | failed => rfl
  · obtain ⟨hserver, hdrop⟩ := hopen hend
    rw [hserver] at hs
    have hno : H.shouldClose z.server = false := by
      rw [hs]
      exact eq_false_of_ne_true fun h => hend (.inr h)
    have hsame : H.flushed flush z = z := by
      cases flush with
      | whole =>
        unfold flushed
        rw [hno]
        rfl
      | blocked => rfl
      | failed => exact absurd rfl hf
    rw [hsame]
    exact ⟨hu.trans huse, hrest.trans hdrop, hs⟩

/-- A read of a replica's connection: what it says is dropped. -/
theorem read_replica (hr : H.isReplica x.server = true) :
    ∃ y, H.read flush x = some y ∧ y.server = x.server ∧ y.rbuf = [] ∧ y.dispatched = x.dispatched := by
  have hproc : (H.endpoint flush).processReads x = some ((H.endpoint flush).flush x.empty) := if_pos hr
  unfold read
  rw [hproc]
  have hclose : x.empty.close.rbuf = [] := by
    show x.empty.empty.rbuf = []
    exact Link.rbuf_empty _
  cases flush with
  | whole =>
    show ∃ y, some (if H.shouldClose x.server = true then x.empty.close else x.empty) = some y ∧ _
    split
    · exact ⟨_, rfl, rfl, hclose, rfl⟩
    · exact ⟨_, rfl, rfl, Link.rbuf_empty x, rfl⟩
  | blocked => exact ⟨_, rfl, rfl, Link.rbuf_empty x, rfl⟩
  | failed => exact ⟨_, rfl, rfl, hclose, rfl⟩

end

/-! ## Boundaries -/

theorem partial_nil (cmds : List (List Bytes)) : Partial cmds [] := by
  cases cmds with
  | nil => rfl
  | cons argv cmds =>
    refine ⟨List.nil_prefix, ?_⟩
    rw [command]
    exact (arrayHdr_append_ne_nil _ _).symm

/-- Every part of a stream ends somewhere. -/
theorem exists_boundary (cmds : List (List Bytes)) {p : Bytes} (hp : p <+: cmds.flatMap command) :
    ∃ done todo q, Boundary cmds p done todo q := by
  induction cmds generalizing p with
  | nil => exact ⟨[], [], [], rfl, by simpa using hp, rfl⟩
  | cons argv cmds ih =>
    rw [List.flatMap_cons] at hp
    by_cases he : p = command argv ++ cmds.flatMap command
    · exact ⟨argv :: cmds, [], [], by simp, by simp [he], rfl⟩
    · rcases StrictPrefix.of_append ⟨hp, he⟩ with h | ⟨y, rfl, hy⟩
      · exact ⟨[], argv :: cmds, p, rfl, rfl, h⟩
      · obtain ⟨done, todo, q, hb⟩ := ih hy.1
        exact ⟨argv :: done, todo, q, by simp [hb.split], by simp [hb.stream], hb.rest⟩

/-- A stream that is read to its end is cut nowhere. -/
theorem Partial.over {cmds : List (List Bytes)} {q : Bytes} (h : Partial cmds q) (hst : q = cmds.flatMap command) :
    cmds = [] := by
  cases cmds with
  | nil => rfl
  | cons argv cmds =>
    have := h.length_lt
    simp only [hst, List.flatMap_cons, List.length_append] at this
    omega

/-- What comes after a boundary goes on with what it has of the next command. -/
theorem Boundary.remaining {cmds done todo : List (List Bytes)} {p q rest : Bytes} (h : Boundary cmds p done todo q)
    (hst : p ++ rest = cmds.flatMap command) : q ++ rest = todo.flatMap command := by
  rw [h.stream, h.split, List.flatMap_append, List.append_assoc] at hst
  exact List.append_cancel_left hst

/-- A boundary further on completes at least the same commands. -/
theorem Boundary.extend {cmds done todo done' todo' : List (List Bytes)} {p q r q' : Bytes}
    (h : Boundary cmds p done todo q) (h' : Boundary cmds (p ++ r) done' todo' q') :
    ∃ a, done' = done ++ a ∧ Boundary todo (q ++ r) a todo' q' := by
  rcases List.append_eq_append_iff.1 (h.split.symm.trans h'.split) with
    ⟨a, rfl, ht⟩ | ⟨a, rfl, ht⟩
  · refine ⟨a, rfl, ht, ?_, h'.rest⟩
    have := h.stream ▸ h'.stream
    rw [List.flatMap_append, List.append_assoc, List.append_assoc] at this
    exact List.append_cancel_left this
  · cases a with
    | nil =>
      refine ⟨[], by simp, ht.symm, ?_, h'.rest⟩
      have := h.stream ▸ h'.stream
      rw [List.append_nil, List.append_assoc] at this
      exact List.append_cancel_left this
    | cons argv a =>
      -- the later boundary would end inside a command that the earlier one completes
      have hlt : StrictPrefix q' (command argv) := by
        have := h'.rest
        rw [ht] at this
        exact this
      have hs := congrArg List.length (h.stream ▸ h'.stream)
      have := hlt.length_lt
      simp only [List.flatMap_append, List.flatMap_cons, List.length_append] at hs
      omega

/-- Only `cmds` themselves are left at a boundary inside the first command. -/
theorem Boundary.at_start {cmds done todo : List (List Bytes)} {p q : Bytes}
    (h : Boundary cmds p done todo q) (hp : Partial cmds p) : done = [] ∧ todo = cmds ∧ q = p := by
  have h₀ : Boundary cmds (p ++ []) [] cmds p := ⟨rfl, by simp, hp⟩
  obtain ⟨a, ha, -⟩ := h.extend h₀
  obtain ⟨rfl, -⟩ := List.append_eq_nil_iff.1 ha.symm
  exact ⟨rfl, by simpa using h.split.symm, by simpa using h.stream.symm⟩

/-- There is one boundary at a place. -/
theorem Boundary.unique {cmds done todo done' todo' : List (List Bytes)} {p q q' : Bytes}
    (h : Boundary cmds p done todo q) (h' : Boundary cmds p done' todo' q') :
    done' = done ∧ todo' = todo ∧ q' = q := by
  rw [← List.append_nil p] at h'
  obtain ⟨a, rfl, ha⟩ := h.extend h'
  rw [List.append_nil] at ha
  obtain ⟨rfl, rfl, rfl⟩ := ha.at_start h.rest
  exact ⟨List.append_nil _, rfl, rfl⟩

/-- The boundaries after the first one are boundaries of what it leaves. -/
theorem atBoundaries_cons_iff {P : List (List Bytes) → List (List Bytes) → Bytes → Flush → Prop}
    {cmds done todo : List (List Bytes)} {pending q : Bytes} {r : Bytes × Flush} {rs : List (Bytes × Flush)}
    (hb : Boundary cmds (pending ++ r.1) done todo q) :
    AtBoundaries P cmds pending (r :: rs) ↔
      P done todo q r.2 ∧ AtBoundaries (fun a => P (done ++ a)) todo q rs := by
  have hreceived : ∀ i, pending ++ received ((r :: rs).take (i + 1)) = pending ++ r.1 ++ received (rs.take i) := by
    intro i
    rw [List.take_succ_cons, received, List.map_cons, List.flatten_cons, List.append_assoc]
    rfl
  constructor
  · intro h
    refine ⟨h 0 r rfl done todo q ?_, fun i r' hr a todo' q' ha => h (i + 1) r' hr (done ++ a) todo' q' ⟨?_, ?_, ha.rest⟩⟩
    · rw [hreceived, List.take_zero]
      simpa [received] using hb
    · rw [hb.split, ha.split, List.append_assoc]
    · rw [hreceived, hb.stream, List.append_assoc, ha.stream, List.flatMap_append, List.append_assoc]
  · rintro ⟨h₀, h⟩ i r' hr D T Q hD
    rw [hreceived] at hD
    obtain ⟨a, rfl, ha⟩ := hb.extend hD
    cases i with
    | zero =>
      cases hr
      rw [List.take_zero] at ha
      obtain ⟨rfl, rfl, rfl⟩ := ha.at_start (by simpa [received] using hb.rest)
      simpa [received] using h₀
    | succ i => exact h i r' hr a T Q ha

section
variable {s : σ} {cmds done todo : List (List Bytes)} {pending q : Bytes} {r : Bytes × Flush}
  {rs : List (Bytes × Flush)} (hb : Boundary cmds (pending ++ r.1) done todo q)

theorem ends_append (hc : H.shouldClose (H.serve s done).1 = false) (a todo' : List (List Bytes)) (q' : Bytes) :
    H.Ends s (done ++ a) todo' q' ↔ H.Ends (H.serve s done).1 a todo' q' := by
  unfold Ends
  rw [H.serve_append_open hc]

theorem givesUp_append (hc : H.shouldClose (H.serve s done).1 = false) (a todo' : List (List Bytes)) (q' : Bytes)
    (f : Flush) : H.GivesUp s (done ++ a) todo' q' f ↔ H.GivesUp (H.serve s done).1 a todo' q' f := by
  unfold GivesUp
  rw [H.ends_append hc, H.serve_append_open hc]

include hb

theorem closes_cons_iff (hc : H.shouldClose (H.serve s done).1 = false) :
    H.Closes s cmds pending (r :: rs) ↔
      (H.Ends s done todo q → r.2 ≠ .blocked) ∧ H.Closes (H.serve s done).1 todo q rs := by
  unfold Closes
  rw [atBoundaries_cons_iff hb]
  simp only [H.ends_append hc]

/-- The rest is given up after the commands read so far. -/
theorem harmless_of_givesUp (hr : H.isReplica s = false) (hstop : H.GivesUp s done todo q r.2) :
    (H.serve s done).2 = (H.serve s cmds).2 ↔ H.Harmless s cmds pending (r :: rs) := by
  have hserved : ∀ cs, H.served s cs = (H.serve s cs).2 := fun cs => by
    unfold served
    rw [hr]
    rfl
  unfold Harmless
  rw [atBoundaries_cons_iff hb]
  simp only [hserved]
  refine ⟨fun h => ⟨fun _ => h, fun i r' _ a todo' q' ha _ => ?_⟩, fun h => h.1 hstop⟩
  rw [hb.split, ha.split] at h ⊢
  exact H.serve_eq_of_eq h

/-- The reader goes on after the commands read so far. -/
theorem harmless_of_goesOn (hr : H.isReplica s = false) (hon : ¬H.GivesUp s done todo q r.2) :
    H.Harmless (H.serve s done).1 todo q rs ↔ H.Harmless s cmds pending (r :: rs) := by
  have hopen := hon
  simp only [GivesUp, Ends, not_or, Bool.not_eq_true] at hopen
  obtain ⟨⟨-, hc⟩, hr', -⟩ := hopen
  have hserved : ∀ cs, H.served s (done ++ cs) = (H.serve s done).2 ++ H.served (H.serve s done).1 cs := fun cs => by
    unfold served
    rw [hr, hr', H.serve_append_open hc]
    rfl
  unfold Harmless
  rw [atBoundaries_cons_iff hb, hb.split]
  simp only [H.givesUp_append hc, hserved, List.append_cancel_left_eq]
  exact (and_iff_right fun h => absurd h hon).symm

end

/-! ## The reads -/

theorem reads_closed {x : Link σ Bytes} (hx : x.inUse = false) (rs : List (Bytes × Flush)) :
    H.reads x rs = some x := by
  cases rs with
  | nil => rfl
  | cons r rs => rw [reads, hx]; rfl

theorem reads_cons {x : Link σ Bytes} (hx : x.inUse = true) (r : Bytes × Flush) (rs : List (Bytes × Flush)) :
    H.reads x (r :: rs) = (H.read r.2 { x with buf := x.buf ++ r.1 }).bind fun y => H.reads y rs := by
  rw [reads, hx]
  rfl

theorem reads_replica {x : Link σ Bytes} (hr : H.isReplica x.server = true) (rs : List (Bytes × Flush)) :
    ∃ y, H.reads x rs = some y ∧ y.dispatched = x.dispatched := by
  induction rs generalizing x with
  | nil => exact ⟨x, rfl, rfl⟩
  | cons r rs ih =>
    cases hx : x.inUse with
    | false => exact ⟨x, H.reads_closed hx _, rfl⟩
    | true =>
      obtain ⟨y, hread, hserver, -, hdisp⟩ := H.read_replica r.2 (x := { x with buf := x.buf ++ r.1 }) hr
      obtain ⟨z, hz, hdisp'⟩ := ih (x := y) (by rw [hserver]; exact hr)
      exact ⟨z, by rw [H.reads_cons hx, hread]; exact hz, hdisp'.trans hdisp⟩

/-- **Reads in pieces**: they dispatch what serving the commands dispatches exactly when the rest of the stream is
given up at no boundary where there is more to dispatch. -/
theorem reads_serve_iff {x : Link σ Bytes} (hx : x.inUse = true) (hr : H.isReplica x.server = false)
    {cmds : List (List Bytes)} (hw : ∀ argv ∈ cmds, WellFormed argv) {rs : List (Bytes × Flush)}
    (hst : x.buf ++ received rs = cmds.flatMap command) (hp : Partial cmds x.buf)
    (hcl : H.Closes x.server cmds x.buf rs) :
    ∃ y, H.reads x rs = some y ∧
      (y.dispatched = x.dispatched ++ (H.serve x.server cmds).2 ↔ H.Harmless x.server cmds x.buf rs) := by
  induction rs generalizing x cmds with
  | nil =>
    obtain rfl := hp.over ((List.append_nil _).symm.trans hst)
    exact ⟨x, rfl, iff_of_true (List.append_nil _).symm fun i r hi => by cases hi⟩
  | cons r rs ih =>
    have hst' : x.buf ++ r.1 ++ received rs = cmds.flatMap command := by
      rw [← hst, List.append_assoc]
      rfl
    obtain ⟨done, todo, q, hb⟩ := exists_boundary cmds ⟨_, hst'⟩
    have hwd : ∀ argv ∈ done, WellFormed argv := fun v hv => hw v (by simp [hb.split, hv])
    have hwt : ∀ argv ∈ todo, WellFormed argv := fun v hv => hw v (by simp [hb.split, hv])
    let x₁ : Link σ Bytes := { x with buf := x.buf ++ r.1 }
    have hx₁ : x₁.rbuf = done.flatMap command ++ q := hb.stream
    obtain ⟨y, hread, hdisp, hclosed, hgoesOn⟩ := H.read_stream r.2 (x := x₁) hr hwd hwt hx₁ hb.rest
    by_cases hstop : H.GivesUp x.server done todo q r.2
    · -- nothing more is dispatched
      have hnone : ∃ y, H.reads x (r :: rs) = some y ∧
          y.dispatched = x.dispatched ++ (H.serve x.server done).2 := by
        rw [H.reads_cons hx, hread, Option.bind_some]
        by_cases hend : H.Ends x.server done todo q ∨ r.2 = .failed
        · have hflush : H.Ends x.server done todo q ∧ r.2 ≠ .blocked ∨ r.2 = .failed :=
            hend.imp_left fun h => ⟨h, ((atBoundaries_cons_iff hb).1 hcl).1 h⟩
          exact ⟨y, H.reads_closed (hclosed hflush) rs, hdisp⟩
        · rw [not_or] at hend
          obtain ⟨-, -, hserver⟩ := hgoesOn hend.1 hend.2
          have hrep : H.isReplica y.server = true := by
            rw [hserver]
            exact (hstop.resolve_left hend.1).resolve_right hend.2
          obtain ⟨z, hz, hdisp'⟩ := H.reads_replica hrep rs
          exact ⟨z, hz, hdisp'.trans hdisp⟩
      obtain ⟨y, hy, hdisp⟩ := hnone
      refine ⟨y, hy, ?_⟩
      rw [hdisp, List.append_cancel_left_eq]
      exact H.harmless_of_givesUp hb hr hstop
    · have hopen := hstop
      simp only [GivesUp, not_or] at hopen
      obtain ⟨hend, hrep, hfail⟩ := hopen
      have hc : H.shouldClose (H.serve x.server done).1 = false := eq_false_of_ne_true fun h => hend (.inr h)
      obtain ⟨huse, hbuf, hserver⟩ := hgoesOn hend hfail
      have hbuf : y.buf = q := hbuf
      have hsty : y.buf ++ received rs = todo.flatMap command := by rw [hbuf, hb.remaining hst']
      obtain ⟨z, hz, hiff⟩ := ih (huse.trans hx) (by rw [hserver]; exact eq_false_of_ne_true hrep) hwt hsty
        (by rw [hbuf]; exact hb.rest) (by rw [hserver, hbuf]; exact ((H.closes_cons_iff hb hc).1 hcl).2)
      refine ⟨z, by rw [H.reads_cons hx, hread]; exact hz, ?_⟩
      rw [← H.harmless_of_goesOn hb hr hstop, ← hbuf, ← hserver, ← hiff, hdisp, hb.split, H.serve_append_open hc,
        hserver, ← List.append_assoc]

/-- One read of the whole stream serves the commands. -/
theorem dispatches_whole (s : σ) {cmds : List (List Bytes)} (hw : ∀ argv ∈ cmds, WellFormed argv) (flush : Flush) :
    H.dispatches s [(cmds.flatMap command, flush)] = some (H.served s cmds) := by
  let x₁ : Link σ Bytes := { server := s, buf := [] ++ cmds.flatMap command }
  have hread : ∃ y, H.read flush x₁ = some y ∧ y.dispatched = H.served s cmds := by
    cases hr : H.isReplica s with
    | true =>
      obtain ⟨y, hread, -, -, hdisp⟩ := H.read_replica flush (x := x₁) hr
      exact ⟨y, hread, by rw [hdisp, served, if_pos hr]⟩
    | false =>
      have hx₁ : x₁.rbuf = cmds.flatMap command ++ [] := (List.append_nil _).symm
      rw [served, if_neg (by rw [hr]; exact Bool.false_ne_true)]
      obtain ⟨y, hread, hdisp, -⟩ := H.read_stream flush (x := x₁) hr hw (fun _ h => by cases h) hx₁
        (partial_nil [])
      exact ⟨y, hread, hdisp⟩
  obtain ⟨y, hread, hdisp⟩ := hread
  rw [dispatches, H.reads_cons rfl, hread]
  exact congrArg some hdisp

/-- A server to which `QUIT` is a command; its state is `should_close`. -/
def accepting : Handler Bool where
  isReplica _ := false
  shouldClose s := s
  dispatch s argv := (s || decide (argv = [lit "QUIT"]), 0)
  replyErr s _ := s
  setClose _ := true
  shouldClose_setClose _ := rfl

-- while the socket blocks, a connection that is to be closed is read on
example :
    accepting.dispatches false [(command [lit "QUIT"], .blocked), (command [lit "PING"], .whole)] =
        some [[lit "QUIT"], [lit "PING"]] ∧
      accepting.dispatches false [([[lit "QUIT"], [lit "PING"]].flatMap command, .whole)] = some [[lit "QUIT"]] := by
  decide

/-- Two reads, the first of which ends within `PING` and blocks at its flush. -/
def pingQuit : List (Bytes × Flush) :=
  [(lit "*1\r\n$4\r\nPI", .blocked), (lit "NG\r\n*1\r\n$4\r\nQUIT\r\n", .whole)]

theorem wellFormed_ping : WellFormed [lit "PING"] := ⟨by decide, by decide, by decide⟩

theorem wellFormed_pingQuit : ∀ argv ∈ [[lit "PING"], [lit "QUIT"]], WellFormed argv := by
  intro argv h
  rcases List.mem_cons.1 h with rfl | h
  · exact wellFormed_ping
  · rw [List.mem_singleton.1 h]
    exact ⟨by decide, by decide, by decide⟩

theorem closes_pingQuit : accepting.Closes false [[lit "PING"], [lit "QUIT"]] [] pingQuit := by
  have hfirst : Boundary [[lit "PING"], [lit "QUIT"]] ([] ++ lit "*1\r\n$4\r\nPI") [] [[lit "PING"], [lit "QUIT"]]
      (lit "*1\r\n$4\r\nPI") := ⟨rfl, by decide, by decide, by decide⟩
  have hlast : Boundary [[lit "PING"], [lit "QUIT"]] (lit "*1\r\n$4\r\nPI" ++ lit "NG\r\n*1\r\n$4\r\nQUIT\r\n")
      [[lit "PING"], [lit "QUIT"]] [] [] := ⟨rfl, by decide, rfl⟩
  refine (atBoundaries_cons_iff hfirst).2 ⟨fun hend => ?_, (atBoundaries_cons_iff hlast).2
    ⟨fun _ => by decide, fun i r h => by cases h⟩⟩
  obtain ⟨j, hj, hcut⟩ | hclose := hend
  · obtain rfl : j = 0 := by
      have : j < 1 := hj
      omega
    revert hcut
    decide
  · cases hclose

end Handler

end Resp
