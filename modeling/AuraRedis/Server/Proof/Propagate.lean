import AuraRedis.Server.Proof.Frame
import AuraRedis.Server.Repl

/-!
# Passing a command on

`repl_propagate` writes to the connections of replicas, and may close them. It does not fail, leaves the
dictionary as it is and is not seen by another connection: `exec_replPropagate`.
-/

set_option autoImplicit false

namespace AuraRedis

open Code Prog

/-- A look at the core, or the connection `r` is written to or closed. -/
def Sends (r : Nat) : Eff → Prop
  | .core => True
  | .append i _ | .flush i | .close i => i = r
  | _ => False

section
variable {c r : Nat} {argv : List Bytes}

theorem sends_wbufAppend (data : Bytes) : (wbufAppend r data).Only (Sends r) :=
  .step rfl fun _ => .ite (.ret _ _) (.fail _)

theorem sends_respAppendBulk (p : Bytes) : (respAppendBulk r p).Only (Sends r) := by
  unfold respAppendBulk
  refine (sends_wbufAppend _).bind fun _ => ?_
  exact .ite ((sends_wbufAppend p).bind fun _ => sends_wbufAppend _) (sends_wbufAppend _)

theorem sends_respAppendCommand : (respAppendCommand r argv).Only (Sends r) :=
  (sends_wbufAppend _).bind fun _ => .each sends_respAppendBulk argv

theorem sends_replArmFlush : (replArmFlush r).Only (Sends r) :=
  .step trivial fun _ => .ite (.ret _ _) (.step rfl fun _ => .ite (.perform rfl) (.ret _ _))

theorem sends_replFeed : (replFeed argv r).Only (Sends r) := by
  refine .step trivial fun core => .ite (.ret _ _) (sends_respAppendCommand.attempt.bind fun o => ?_)
  cases o with
  | none => exact .perform rfl
  | some _ => exact sends_replArmFlush

theorem sends_replPropagate : (replPropagate argv).Only fun e => ∃ r, Sends r e := by
  have heach : ∀ rs, (Prog.each (replFeed argv) rs).Only fun e => ∃ r, Sends r e := fun rs =>
    .each (fun r => sends_replFeed.mono fun _ he => ⟨r, he⟩) rs
  unfold replPropagate
  generalize List.range maxConn = rs
  exact .ite (.ret _ _) (.step ⟨0, trivial⟩ fun _ => .ite (.ret _ _) (heach rs))

/-! ## It returns -/

theorem succeeds_replArmFlush : (replArmFlush r).Succeeds :=
  fun _ => .ite trivial fun _ => .ite (fun _ => trivial) trivial

theorem succeeds_replFeed : (replFeed argv r).Succeeds := by
  refine fun core => .ite trivial ((Succeeds.attempt _).bind fun o => ?_)
  cases o with
  | none => exact fun _ => trivial
  | some _ => exact succeeds_replArmFlush

theorem succeeds_replPropagate : (replPropagate argv).Succeeds := by
  unfold replPropagate
  generalize List.range maxConn = rs
  exact .ite trivial fun _ => .ite trivial (.each (fun _ => succeeds_replFeed) rs)

/-! ## Other connections -/

/-- Connections are written to or closed, but not `c`, which is no replica. -/
def aside (c : Nat) : Contract Eff.Ans Unit where
  may e := ∃ r, r ≠ c ∧ Sends r e
  answers
    | .core, core => (core.conn c).isReplica = false
    | _, _ => True
  writes _ _ := []

theorem aside_core : (aside c).may .core := ⟨c + 1, by omega, trivial⟩

theorem aside_replFeed : (replFeed argv r).Obeys (aside c) := by
  by_cases hr : r = c
  · subst hr
    refine .step aside_core fun core hcore => .ite (fun _ => trivial) fun hn => ?_
    exact absurd (by simp [show (core.conn r).isReplica = false from hcore]) hn
  · exact .of_only sends_replFeed fun e he => ⟨r, hr, he⟩

theorem aside_replPropagate : (replPropagate argv).Obeys (aside c) := by
  unfold replPropagate
  generalize List.range maxConn = rs
  exact .ite (fun _ => trivial) fun _ => .step aside_core fun _ _ => .ite (fun _ => trivial) fun _ =>
    .each fun _ _ => aside_replFeed

end

section
variable {O : Outside} {w : World} {c r : Nat} {e : Eff}

theorem slots_wbufAppend (E : Env) (core : ArCore) (data : Bytes) :
    (core.wbufAppend E r data).1.conns.length = core.conns.length ∧
      (c ≠ r → (core.wbufAppend E r data).1.conn c = core.conn c) := by
  unfold ArCore.wbufAppend
  dsimp only
  split
  · exact ⟨List.length_modify .., fun hc => conn_updConn_of_ne core hc _⟩
  · split
    · exact ⟨rfl, fun _ => rfl⟩
    · exact ⟨List.length_modify .., fun hc => conn_updConn_of_ne (core.malloc E).1 hc _⟩

theorem slots_connClose (core : ArCore) : (core.connClose r).conns.length = core.conns.length ∧
    (c ≠ r → (core.connClose r).conn c = core.conn c) := by
  unfold ArCore.connClose
  split
  · exact ⟨List.length_modify .., fun hc => conn_updConn_of_ne core hc _⟩
  · exact ⟨rfl, fun _ => rfl⟩

theorem slots_flushWrites (core : ArCore) (taken : Nat) (fails : Bool) :
    (core.flushWrites r taken fails).1.conns.length = core.conns.length ∧
      (c ≠ r → (core.flushWrites r taken fails).1.conn c = core.conn c) := by
  unfold ArCore.flushWrites
  dsimp only
  split
  · split
    · obtain ⟨hlen, hconn⟩ := slots_connClose (c := c) (r := r)
        (core.updConn r fun x => { x with sock := x.out, wbuf := [], woff := 0 })
      exact ⟨hlen.trans (List.length_modify ..), fun hc => (hconn hc).trans (conn_updConn_of_ne core hc _)⟩
    · exact ⟨List.length_modify .., fun hc => conn_updConn_of_ne core hc _⟩
  · exact ⟨List.length_modify .., fun hc => conn_updConn_of_ne core hc _⟩

/-- **One effect**: the dictionary stays, and the other connections do. -/
theorem slots_perform (h : Sends r e) : (e.perform O w).1.core.dict = w.core.dict ∧
    (e.perform O w).1.core.conns.length = w.core.conns.length ∧
    (c ≠ r → (e.perform O w).1.conn c = w.conn c) := by
  refine ⟨Eff.perform_dict O w fun o ho => ?_, ?_⟩
  · rw [ho] at h
    exact h
  · cases e with
    | core => exact ⟨rfl, fun _ => rfl⟩
    | append i data =>
      obtain rfl : i = r := h
      exact slots_wbufAppend (O.env w.calls) w.core data
    | flush i =>
      obtain rfl : i = r := h
      exact slots_flushWrites w.core _ _
    | close i =>
      obtain rfl : i = r := h
      exact slots_connClose w.core
    | _ => exact h.elim

/-- What is sent does not change the dictionary. -/
theorem dict_of_sends {α : Type} {p : Code α} (hp : p.Only fun e => ∃ r, Sends r e) (O : Outside) (w : World) :
    (p.exec O w).1.core.dict = w.core.dict := by
  refine hp.run_invariant (I := fun w' : World => w'.core.dict = w.core.dict) ?_ rfl
  rintro e w' ⟨r, he⟩ hd
  exact (slots_perform (O := O) (w := w') (c := r) he).1.trans hd

/-- **Passing on** leaves the dictionary, and a connection that is no replica. -/
theorem exec_replPropagate (O : Outside) (w : World) (argv : List Bytes) (c : Nat) :
    ∃ w', (replPropagate argv).exec O w = (w', some ()) ∧ w'.core.dict = w.core.dict ∧
      w'.core.conns.length = w.core.conns.length ∧ ((w.conn c).isReplica = false → w'.conn c = w.conn c) := by
  have hsucc : (replPropagate argv).Succeeds := succeeds_replPropagate
  obtain ⟨a, ha⟩ := hsucc.run (h := Eff.perform O) w
  have hkept : ((replPropagate argv).run (Eff.perform O) w).1.core.dict = w.core.dict ∧
      ((replPropagate argv).run (Eff.perform O) w).1.core.conns.length = w.core.conns.length := by
    refine sends_replPropagate.run_invariant
      (I := fun w' : World => w'.core.dict = w.core.dict ∧ w'.core.conns.length = w.core.conns.length) ?_ ⟨rfl, rfl⟩
    rintro e w' ⟨r, he⟩ ⟨hd, hl⟩
    obtain ⟨hd', hl', -⟩ := slots_perform (O := O) (w := w') (c := c) he
    exact ⟨hd'.trans hd, hl'.trans hl⟩
  refine ⟨_, Prod.ext rfl ha, hkept.1, hkept.2, fun hc => ?_⟩
  refine (aside_replPropagate (c := c)).run_invariant (I := fun w' : World => w'.conn c = w.conn c) ?_ rfl
  rintro e w' hw ⟨r, hr, he⟩
  refine ⟨((slots_perform he).2.2 hr.symm).trans hw, ?_⟩
  cases e with
  | core => exact (congrArg ArConn.isReplica hw).trans hc
  | _ => trivial

end

end AuraRedis
