import AuraRedis.Resp.Proof.Drain
import AuraRedis.Resp.Proof.Onward
import AuraRedis.Server.Loop
import AuraRedis.Server.Proof.Frame

/-!
# What becomes of the input

In every run of the event loop, the commands a connection has had carried out are those that parse off what has come
from its peer, each once and in their order, and what is left of it is what its read buffer has: `done_in_order`.
Neither the other connections nor the way the input comes in pieces matter.
-/

set_option autoImplicit false

namespace AuraRedis

open Code
open Resp (ReadBuf Ending parseCommand extends_parseCommand length_parseCommand)

/-! ## One read buffer -/

/-- The commands done are those at the front of what has been got, and the rest is in the buffer. -/
def Inbox.Kept (b : Inbox) : Prop := Parses parseCommand b.got b.done b.buf.rbuf

namespace Inbox.Kept

variable {b : Inbox}

theorem empty (b : Inbox) : b.empty.Kept := .nil []

theorem receive (h : b.Kept) {buf : ReadBuf} {data : Bytes} (hb : buf.rbuf = b.buf.rbuf ++ data) :
    (b.receive buf data).Kept := by
  unfold Inbox.Kept Inbox.receive
  rw [hb]
  exact h.append extends_parseCommand data

end Inbox.Kept

namespace Proc

/-- Every buffer. -/
def Kept (p : Proc) : Prop := ∀ c, (p.inbox c).Kept

/-- In the middle of `process_reads` of `c`: nothing is done of what is behind `pos`, unless the buffer has been
emptied under the loop. -/
structure KeptAt (c pos : Nat) (p : Proc) : Prop where
  others : ∀ i, i ≠ c → (p.inbox i).Kept
  parses : pos ≤ (p.rbuf c).length → Parses parseCommand (p.inbox c).got (p.inbox c).done ((p.rbuf c).drop pos)

variable {p p' : Proc} {c i pos : Nat} {H : Host}

/-! ## Code -/

/-- The buffers as they were, or emptied. -/
def SomeEmptied (p p' : Proc) : Prop := ∀ i, p'.inbox i = p.inbox i ∨ (p'.inbox i) = (p.inbox i).empty

theorem SomeEmptied.refl (p : Proc) : p.SomeEmptied p := fun _ => .inl rfl

theorem SomeEmptied.trans {p'' : Proc} (h : p.SomeEmptied p') (h' : p'.SomeEmptied p'') : p.SomeEmptied p'' := by
  intro i
  obtain h' | h' := h' i
  · rw [h']
    exact h i
  · obtain h | h := h i
    · exact .inr (by rw [h', h])
    · exact .inr (by rw [h', h]; rfl)

theorem inboxAfter_cases (inbox : Nat → Inbox) (w : World) (e : Eff) (a : e.Ans) (i : Nat) :
    inboxAfter inbox w e a i = inbox i ∨ inboxAfter inbox w e a i = (inbox i).empty := by
  have hupd : ∀ c, Function.update inbox c (inbox c).empty i = inbox i ∨
      Function.update inbox c (inbox c).empty i = (inbox i).empty := fun c => by
    by_cases hi : i = c
    · subst hi
      exact .inr (Function.update_self ..)
    · exact .inl (Function.update_of_ne hi ..)
  cases e with
  | connAlloc fd =>
    cases a with
    | none => exact .inl rfl
    | some c => exact hupd c
  | flush c | close c =>
    simp only [inboxAfter]
    split
    · exact .inl rfl
    · exact hupd c
  | _ => exact .inl rfl

theorem someEmptied_perform (O : Outside) (e : Eff) (p : Proc) : p.SomeEmptied (p.perform O e).1 :=
  inboxAfter_cases _ _ e _

theorem someEmptied_run {α : Type} (code : Code α) (p : Proc) : p.SomeEmptied (p.run H code).1 :=
  code.run_invariant (perform H.toOutside) (fun e _ h => h.trans (someEmptied_perform _ e _)) (.refl p)

theorem Kept.someEmptied (h : p.Kept) (hs : p.SomeEmptied p') : p'.Kept := by
  intro i
  obtain hi | hi := hs i <;> rw [hi]
  · exact h i
  · exact .empty _

theorem Kept.run {α : Type} (h : p.Kept) (code : Code α) : (p.run H code).1.Kept :=
  h.someEmptied (someEmptied_run code p)

theorem KeptAt.someEmptied (h : p.KeptAt c pos) (hs : p.SomeEmptied p') : p'.KeptAt c pos where
  others i hi := by
    obtain he | he := hs i <;> rw [he]
    · exact h.others i hi
    · exact .empty _
  parses := by
    unfold rbuf
    obtain he | he := hs c <;> rw [he]
    · exact h.parses
    · intro hle
      obtain rfl : pos = 0 := Nat.le_zero.1 hle
      exact .nil []

/-! ## The loop -/

theorem rbuf_didCommand (q : Proc) (argv : List Bytes) :
    (q.updInbox c fun b => b.didCommand argv).rbuf c = q.rbuf c := by
  unfold rbuf
  rw [inbox_updInbox_self]
  rfl

/-- A command that has been carried out. -/
theorem KeptAt.didCommand {rest : Bytes} {argv : List Bytes} (h : p.KeptAt c pos) (hlt : pos < (p.rbuf c).length)
    (hp : parseCommand ((p.rbuf c).drop pos) = .ok argv rest) (hs : p.SomeEmptied p') :
    (p'.updInbox c fun b => b.didCommand argv).KeptAt c ((p.rbuf c).length - rest.length) := by
  have hrest := length_parseCommand hp
  rw [List.length_drop] at hrest
  have h' := h.someEmptied hs
  refine ⟨fun i hi => ?_, fun hle => ?_⟩
  · rw [inbox_updInbox_of_ne _ _ hi]
    exact h'.others i hi
  · rw [rbuf_didCommand] at hle ⊢
    rw [inbox_updInbox_self]
    obtain he | he := hs c
    · have hbuf : p'.rbuf c = p.rbuf c := by
        unfold rbuf
        rw [he]
      have hdrop : (p.rbuf c).drop ((p.rbuf c).length - rest.length) = rest := by
        obtain ⟨x, hx⟩ := Resp.consumes_parseCommand _ _ _ hp
        have hsuf : rest <:+ p.rbuf c :=
          ⟨(p.rbuf c).take pos ++ x, by rw [List.append_assoc, hx, List.take_append_drop]⟩
        exact (List.suffix_iff_eq_drop.1 hsuf).symm
      rw [hbuf, hdrop]
      have hkept := h'.parses (by rw [hbuf]; exact hlt.le)
      rw [hbuf] at hkept
      exact hkept.snoc hp
    · -- the buffer has been emptied under the loop
      have hbuf : p'.rbuf c = [] := by
        unfold rbuf
        rw [he]
        rfl
      rw [hbuf] at hle
      exact absurd hle (by rw [List.length_nil]; omega)

theorem someEmptied_of_inbox {p p' : Proc} (h : p'.inbox = p.inbox) : p.SomeEmptied p' := fun i => .inl (by rw [h])

theorem someEmptied_updConn (p : Proc) (f : ArConn → ArConn) : p.SomeEmptied (p.updConn c f) :=
  someEmptied_of_inbox rfl

theorem someEmptied_command [Libc] (argv : List Bytes) (p : Proc) : p.SomeEmptied (p.command H c argv).1 := by
  have happlying : ∀ (q : Proc) b, q.SomeEmptied (q.applying c b) := fun q b => by
    refine someEmptied_of_inbox ?_
    unfold applying
    split <;> rfl
  have hdrop : ∀ q : Proc, q.SomeEmptied (q.dropOutput c) := fun q => by
    refine someEmptied_of_inbox ?_
    unfold dropOutput
    split <;> rfl
  have htick : ∀ q : Proc, q.SomeEmptied q.tick := fun q => someEmptied_of_inbox rfl
  have hrun : ∀ {α : Type} (code : Code α) (q : Proc), q.SomeEmptied (q.run H code).1 := fun code q =>
    someEmptied_run code q
  unfold command
  dsimp only
  refine (happlying p true).trans ((hrun (dispatch c argv) _).trans ?_)
  exact (happlying _ false).trans ((hdrop _).trans ((htick _).trans (hrun _ _)))

theorem KeptAt.commandDone {rest : Bytes} {argv : List Bytes} (h : p.KeptAt c pos) (hlt : pos < (p.rbuf c).length)
    (hp : parseCommand ((p.rbuf c).drop pos) = .ok argv rest) (hs : p.SomeEmptied p') :
    (p'.commandDone H c argv).KeptAt c ((p.rbuf c).length - rest.length) := by
  unfold Proc.commandDone
  dsimp only
  refine h.didCommand hlt hp (hs.trans ?_)
  exact (someEmptied_perform H.toOutside .now p').trans (someEmptied_updConn _ _)

theorem keptAt_readLoop [Libc] {fuel : Nat} {r : Proc × Nat} (h : p.KeptAt c pos)
    (hr : (socket H c).readLoop fuel pos p = some r) : r.1.KeptAt c r.2 :=
  (socket H c).readLoop_invariant (I := fun pos p => p.KeptAt c pos)
    (fun _ p h => h.someEmptied ((someEmptied_run _ p).trans (someEmptied_updConn _ _)))
    (fun _ p argv h => h.someEmptied ((someEmptied_command argv p).trans (someEmptied_updConn _ _)))
    (fun _ p argv _ h hlt hp => h.commandDone hlt hp (someEmptied_command argv p)) h hr

theorem Kept.at_zero (h : p.Kept) : p.KeptAt c 0 := ⟨fun i _ => h i, fun _ => h c⟩

theorem kept_updInbox {f : Inbox → Inbox} (h : ∀ i, i ≠ c → (p.inbox i).Kept) (hf : (f (p.inbox c)).Kept) :
    (p.updInbox c f).Kept := by
  intro i
  by_cases hi : i = c
  · subst hi
    rw [inbox_updInbox_self]
    exact hf
  · rw [inbox_updInbox_of_ne _ _ hi]
    exact h i hi

theorem KeptAt.consume (h : p.KeptAt c pos) (hle : pos ≤ (p.rbuf c).length) :
    (p.updInbox c fun b => b.consume pos).Kept := kept_updInbox h.others (h.parses hle)

theorem KeptAt.kept (h : p.KeptAt c 0) : p.Kept := by
  intro i
  by_cases hi : i = c
  · subst hi
    exact h.parses (Nat.zero_le _)
  · exact h.others i hi

theorem Kept.perform (h : p.Kept) (e : Eff) : (p.perform H.toOutside e).1.Kept :=
  h.someEmptied (someEmptied_perform _ e _)

theorem Kept.flush (h : p.Kept) : (p.flush H c).1.Kept := h.perform (.flush c)

theorem Kept.close (h : p.Kept) : (p.close H c).Kept := h.perform (.close c)

theorem kept_processReads [Libc] {r : Proc × Bool} (h : p.Kept) (hr : (socket H c).processReads p = some r) :
    r.1.Kept := by
  unfold Resp.Endpoint.processReads at hr
  split at hr
  · cases hr
    exact Kept.flush (kept_updInbox (fun i _ => h i) (.empty _))
  · obtain ⟨t, ht, hr⟩ := Option.bind_eq_some_iff.1 hr
    have hloop := keptAt_readLoop (h.at_zero (c := c)) ht
    split at hr
    · next h0 =>
      cases hr
      rw [h0] at hloop
      exact hloop.kept.flush
    · split at hr
      · next hle =>
        cases hr
        exact (hloop.consume hle).flush
      · cases hr

theorem kept_handleRead [Libc] {realloc : Nat → Bool} {offers : List Bytes} {ending : Ending} {r : Proc × Bool}
    (h : p.Kept) (hr : (socket H c).handleRead realloc offers ending p = some r) : r.1.Kept := by
  unfold Resp.Socket.handleRead at hr
  have hof := ReadBuf.drain_of realloc (ReadBuf.turns offers) ((socket H c).buf p) offers (Nat.le_refl _)
  cases hd : ((socket H c).buf p).drain realloc (ReadBuf.turns offers) offers with
  | limit | noMemory =>
    rw [hd] at hr
    cases hr
    exact h
  | blocked buf =>
    rw [hd] at hof hr
    have hrec : (p.tick.updInbox c fun b => b.receive buf offers.flatten).Kept :=
      kept_updInbox (fun i _ => h i) ((h c).receive hof.1)
    cases ending with
    | failed =>
      cases hr
      exact hrec
    | eof =>
      cases hr
      exact hrec.close
    | blocked =>
      dsimp only at hr
      split at hr
      · exact kept_processReads hrec hr
      · cases hr
        exact hrec

/-! ## A round -/

theorem kept_greet (peer : Peer) (h : p.Kept) : (p.greet H peer c).Kept := by
  unfold greet
  dsimp only
  have hnow : (p.now H).1.Kept := h.perform .now
  generalize (p.now H) = t at hnow
  have hsrv : ∀ f g, (((t.1.updConn c f).perform H.toOutside (.setSrv g)).1).Kept := fun f g =>
    Kept.perform (p := t.1.updConn c f) hnow (.setSrv g)
  split
  · exact (hsrv _ _).perform .ask
  · exact ((hsrv _ _).perform .ask).close

theorem kept_accept (peer : Peer) (h : p.Kept) : (p.accept H peer).Kept := by
  unfold accept
  dsimp only
  split
  · exact h
  split
  · exact h
  split
  · exact h.perform _
  · exact kept_greet peer (h.perform _)

theorem kept_acceptClientsOn (peers : List Peer) (h : p.Kept) : (p.acceptClientsOn H peers).Kept := by
  unfold acceptClientsOn
  split
  · exact h
  · next hopen =>
    clear hopen
    induction peers generalizing p with
    | nil => exact h
    | cons peer peers ih => exact ih (kept_accept peer h)

theorem kept_handleInput [Libc] {input : Option (List Bytes × Ending)} (h : p.Kept)
    (hr : p.handleInput H c input = some p') : p'.Kept := by
  cases input with
  | none =>
    cases hr
    exact h
  | some x =>
    obtain ⟨r, hread, rfl⟩ := Option.map_eq_some_iff.1 hr
    have hkept := kept_handleRead h hread
    split
    · exact hkept
    · exact hkept.close

theorem kept_handleOutput (h : p.Kept) (output : Bool) : (p.handleOutput H c output).Kept := by
  unfold handleOutput
  dsimp only
  split
  · split
    · exact h.flush
    · exact h.flush.close
  · exact h

theorem kept_handleEvent [Libc] {e : Event} (h : p.Kept) (hr : p.handleEvent H e = some p') : p'.Kept := by
  cases e with
  | accept peers =>
    cases hr
    exact kept_acceptClientsOn peers h
  | conn c hup input output =>
    unfold handleEvent at hr
    dsimp only at hr
    split at hr
    · cases hr
      exact h
    split at hr
    · cases hr
      exact h.close
    obtain ⟨q, hq, rfl⟩ := Option.map_eq_some_iff.1 hr
    exact kept_handleOutput (kept_handleInput h hq) output

theorem kept_serveOnce [Libc] {wake : Wake} {r : Proc × Bool} (h : p.Kept) (hr : p.serveOnce H wake = some r) :
    r.1.Kept := by
  have hkept := h.run (H := H) housekeeping
  unfold serveOnce at hr
  dsimp only at hr
  generalize (p.run H housekeeping).1 = q at hkept hr
  cases wake with
  | failed | interrupted =>
    cases hr
    exact hkept
  | events es =>
    obtain ⟨q', hes, rfl⟩ := Option.map_eq_some_iff.1 hr
    clear hr
    induction es generalizing q with
    | nil =>
      cases hes
      exact hkept
    | cons e es ih =>
      rw [List.foldlM_cons] at hes
      obtain ⟨q₁, he, hes⟩ := Option.bind_eq_some_iff.1 hes
      exact ih q₁ (kept_handleEvent hkept he) hes

theorem kept_serve [Libc] {wakes : List Wake} (h : p.Kept) (hr : p.serve H wakes = some p') : p'.Kept := by
  induction wakes generalizing p with
  | nil =>
    cases hr
    exact h
  | cons wake wakes ih =>
    unfold serve at hr
    split at hr
    · cases hr
      exact h
    · obtain ⟨r, hround, hr⟩ := Option.bind_eq_some_iff.1 hr
      have hkept := kept_serveOnce h hround
      split at hr
      · exact ih hkept hr
      · cases hr
        exact hkept

end Proc

/-- **In order, and once.** Of the commands that a peer sends, the first have been carried out, each once, and the
read buffer has what has come of the rest: in every run, whatever the other connections do. -/
theorem done_in_order [Libc] {H : Host} {p p' : Proc} {wakes : List Wake} (hp : ∀ c, p.inbox c = {})
    (hr : p.serve H wakes = some p') (c : Nat) :
    Parses parseCommand (p'.inbox c).got (p'.inbox c).done (p'.rbuf c) ∧
      ∀ cmds : List (List Bytes), (∀ argv ∈ cmds, Resp.WellFormed argv) → (p'.inbox c).got <+: cmds.flatMap Resp.command →
        ∃ todo, cmds = (p'.inbox c).done ++ todo ∧
          (p'.inbox c).got = (p'.inbox c).done.flatMap Resp.command ++ p'.rbuf c := by
  have hkept : p.Kept := fun i => by
    rw [hp i]
    exact .nil []
  have hparses := Proc.kept_serve hkept hr c
  refine ⟨hparses, fun cmds hw hpre => ?_⟩
  obtain ⟨t, ht⟩ := hpre
  exact Resp.parses_commands hparses hw ht

/-! ## Two clients -/

def steadyHost : Host := { Outside.steady 5 with us := fun _ => 0, realloc := fun _ _ => true }

/-- A server with two free slots. -/
def twoFree : Proc := { world := { core := { ArCore.arCoreCreate with conns := [{}, {}] } } }

def loopback (fd : Int) : Peer := { fd, ip := 0x7F000001#32, port := 4000#16 }

/-- A command in three pieces, and one of another client between them. -/
def pingsInPieces : List Wake :=
  [.events [.accept [loopback 7, loopback 8]],
   .events [.conn 0 false (some ([lit "*1\r\n$4\r\nPI"], .blocked)) false],
   .events [.conn 1 false (some ([lit "*1\r\n$4\r\nPING\r\n"], .blocked)) false,
     .conn 0 false (some ([lit "NG\r", lit "\n*1\r\n"], .blocked)) false]]

theorem done_in_order_pings :
    let _ : Libc := smallLibc
    ∃ p', twoFree.serve steadyHost pingsInPieces = some p' ∧ (p'.inbox 0).done = [[lit "PING"]] ∧
      Parses parseCommand (p'.inbox 0).got (p'.inbox 0).done (p'.rbuf 0) := by
  intro _
  have hrun : ((twoFree.serve steadyHost pingsInPieces).map fun p => (p.inbox 0).done) = some [[lit "PING"]] := by
    decide +kernel
  obtain ⟨p', hp', hdone⟩ := Option.map_eq_some_iff.1 hrun
  exact ⟨p', hp', hdone, (done_in_order (fun _ => rfl) hp' 0).1⟩

end AuraRedis
