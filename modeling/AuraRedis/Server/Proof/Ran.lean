import AuraRedis.Server.Proof.Locked
import AuraRedis.Server.Proof.FrontEnds

/-!
# A command that was told OK has run

`dispatch` refuses a command, queues it, or comes to its branch. Only a branch says `OK`, so what a connection was
told tells that the command has run (`ran_of_ok`).
-/

set_option autoImplicit false

namespace AuraRedis

open Code Prog Dispatch

section
variable {O : Outside} {c : Nat} {argv : List Bytes} {w w' : World} {data : Bytes}

/-! ## What a reply does to the buffer -/

/-- A reply that finds no memory leaves the buffer. -/
theorem wbuf_append (O : Outside) (w : World) (c : Nat) (data : Bytes) :
    (((wbufAppend c data).exec O w).1.conn c).wbuf = (w.conn c).wbuf ∨
      (((wbufAppend c data).exec O w).1.conn c).wbuf = (w.conn c).wbuf ++ data := by
  have hw : ((wbufAppend c data).exec O w).1 = ((Eff.append c data).perform O w).1 := by
    unfold wbufAppend check
    rw [exec_step]
    cases ((Eff.append c data).perform O w).2 <;> rfl
  rw [hw]
  show ((w.core.wbufAppend (O.env w.calls) c data).1.conn c).wbuf = _ ∨
    ((w.core.wbufAppend (O.env w.calls) c data).1.conn c).wbuf = _
  unfold ArCore.wbufAppend
  dsimp only
  split
  · rcases conn_updConn_cases w.core c c (fun x => { x with wbuf := x.wbuf ++ data }) with h | ⟨-, h⟩
    · exact .inl (congrArg ArConn.wbuf h)
    · exact .inr (congrArg ArConn.wbuf h)
  · split
    · exact .inl rfl
    · rcases conn_updConn_cases (w.core.malloc (O.env w.calls)).1 c c (fun x =>
        { x with wcap := _, wbuf := x.wbuf ++ data }) with h | ⟨-, h⟩
      · exact .inl (congrArg ArConn.wbuf h)
      · exact .inr (congrArg ArConn.wbuf h)

theorem same_append (O : Outside) (w : World) (c : Nat) (data : Bytes) :
    (w.conn c).Same (((wbufAppend c data).exec O w).1.conn c) := by
  have h : w.OnlyConn c ((wbufAppend c data).exec O w).1 :=
    exec_invariant (own_append data) (fun _ _ he h => h.trans (onlyConn_perform he)) (.refl c w)
  exact h.same

/-- A reply that was put into the buffer. -/
theorem wbuf_appended (hc : c < w.core.conns.length) (h : ((wbufAppend c data).exec O w).2 = some ()) :
    (((wbufAppend c data).exec O w).1.conn c).wbuf = (w.conn c).wbuf ++ data := by
  unfold wbufAppend check at h ⊢
  rw [exec_step] at h ⊢
  cases hans : ((Eff.append c data).perform O w).2 with
  | false =>
    rw [hans] at h
    cases h
  | true =>
    show ((w.core.wbufAppend (O.env w.calls) c data).1.conn c).wbuf = _
    have hans : (w.core.wbufAppend (O.env w.calls) c data).2 = true := hans
    unfold ArCore.wbufAppend at hans ⊢
    dsimp only at hans ⊢
    split
    · exact congrArg ArConn.wbuf (conn_updConn_self hc _)
    · rename_i hroom
      rw [if_neg hroom] at hans
      split
      · rename_i hfail
        rw [if_pos hfail] at hans
        cases hans
      · exact congrArg ArConn.wbuf (@conn_updConn_self (w.core.malloc (O.env w.calls)).1 c hc _)

/-- The connection was told something else. -/
theorem not_told (hne : data ≠ okReply) :
    (((wbufAppend c data).exec O w).1.conn c).wbuf ≠ (w.conn c).wbuf ++ okReply := by
  intro h
  rcases wbuf_append O w c data with h' | h'
  · rw [h'] at h
    exact absurd (List.self_eq_append_right.1 h) (by decide)
  · rw [h'] at h
    exact hne (List.append_cancel_left h)

theorem not_told_err (text : String) :
    (((replyErr c text).exec O w).1.conn c).wbuf ≠ (w.conn c).wbuf ++ okReply :=
  not_told fun h => okReply_ne_errReply text h.symm

/-! ## The queue of a transaction -/

/-- Code that fails, and nothing after it. -/
theorem exec_seq_none {α β : Type} {p : Code α} {f : α → Code β} (h : p.exec O w = (w', none)) :
    (p >>= f).exec O w = (w', none) := by
  unfold Code.exec at h ⊢
  rw [run_bind, h]

theorem wbuf_updConn (core : ArCore) (c i : Nat) {f : ArConn → ArConn} (hf : ∀ x : ArConn, (f x).wbuf = x.wbuf) :
    ((core.updConn c f).conn i).wbuf = (core.conn i).wbuf := by
  rcases conn_updConn_cases core c i f with h | ⟨-, h⟩
  · rw [h]
  · rw [h, hf]

theorem wbuf_setTx (w : World) (c : Nat) (f : ArTx → ArTx) :
    (((Eff.setTx c f).perform O w).1.conn c).wbuf = (w.conn c).wbuf := wbuf_updConn w.core c c fun _ => rfl

theorem wbuf_copyArgs (argv : List Bytes) (w : World) :
    (((copyArgs argv).exec O w).1.conn c).wbuf = (w.conn c).wbuf := by
  have honly : ∀ l : List Bytes, (copyArgs l).Only fun e => e = .malloc := by
    intro l
    induction l with
    | nil => exact trivial
    | cons a l ih => exact .bind (.perform rfl) fun _ => .ite ih trivial
  refine exec_invariant (I := fun w' => (w'.conn c).wbuf = (w.conn c).wbuf) (honly argv) ?_ rfl
  rintro e w' rfl h
  exact h

/-- A command that is queued is not told `OK`. -/
theorem not_told_queue : (((queue c argv).exec O w).1.conn c).wbuf ≠ (w.conn c).wbuf ++ okReply := by
  unfold queue
  rw [exec_step]
  show (((if (w.conn c).tx.multiQ.length ≥ multiMax then _ else _ : Code Unit).exec O w).1.conn c).wbuf ≠ _
  split
  · exact not_told_err _
  split
  · exact not_told_err _
  have hcopy := wbuf_copyArgs (O := O) (c := c) argv w
  generalize hrun : (copyArgs argv).exec O w = x at hcopy
  obtain ⟨w₁, r⟩ := x
  cases r with
  | none =>
    rw [exec_seq_none hrun, hcopy]
    exact fun h => absurd (List.self_eq_append_right.1 h) (by decide)
  | some b =>
    rw [exec_seq hrun, ← hcopy]
    cases b with
    | false => exact not_told_err _
    | true =>
      show (((wbufAppend c (lit "+QUEUED\r\n")).exec O ((Eff.setTx c _).perform O w₁).1).1.conn c).wbuf ≠ _
      rw [← wbuf_setTx (O := O) w₁ c]
      exact not_told (by decide)

/-! ## The branch -/

/-- What `dispatch` notes of a command before it looks at it. -/
def World.noted (w : World) (c : Nat) (argv : List Bytes) : World :=
  { w with core := w.core.updConn c fun x => { x with lastCmd := Eff.lastCmd (arg argv 0) } }

theorem same_noted (w : World) (c i : Nat) (argv : List Bytes) : (w.conn i).Same ((w.noted c argv).conn i) :=
  same_updConn _ _ _ fun _ => ⟨rfl, rfl, rfl, rfl, rfl, rfl, rfl, rfl, rfl⟩

theorem wbuf_noted (w : World) (c i : Nat) (argv : List Bytes) :
    ((w.noted c argv).conn i).wbuf = (w.conn i).wbuf := wbuf_updConn w.core c i fun _ => rfl

variable {nested : Nat → List Bytes → Code Unit} {branch : Nat → List Bytes → Code Unit} {name : String}

/-- Where `dispatch` comes to, of a command that is none of a transaction. -/
theorem exec_dispatchBy [Libc] (hne : argv ≠ []) (htx : lookup (txCommands nested) (arg argv 0) = none) :
    (dispatchBy nested c argv).exec O w =
      (match refusal (w.noted c argv).core ((w.noted c argv).conn c) argv with
        | some e => replyErr c e
        | none => if ((w.noted c argv).conn c).tx.inMulti then queue c argv else runCommand c argv).exec O
          (w.noted c argv) := by
  have hlen : ¬argv.length < 1 := by
    rw [Nat.lt_one_iff, List.length_eq_zero_iff]
    exact hne
  unfold dispatchBy
  rw [if_neg hlen, exec_step, exec_step]
  show Code.exec (match refusal (w.noted c argv).core ((w.noted c argv).core.conn c) argv with
    | some e => _ | none => _) O (w.noted c argv) = _
  rw [htx]
  rfl

/-- **A command that was told OK** has been to its branch. -/
theorem ran_of_ok [Libc] (hne : argv ≠ []) (hname : cmdEq (arg argv 0) name = true)
    (htx : place txNames (lit name) = none) (hbranch : lookup commands (lit name) = some branch)
    (hok : (((dispatchBy nested c argv).exec O w).1.conn c).wbuf = (w.conn c).wbuf ++ okReply) :
    (dispatchBy nested c argv).exec O w = (branch c argv).exec O (w.noted c argv) := by
  have hnone : lookup (txCommands nested) (arg argv 0) = none := by
    rw [lookup_congr _ hname]
    exact lookup_txCommands htx nested
  have hrun := exec_dispatchBy (c := c) (O := O) (w := w) hne hnone
  rw [hrun, ← wbuf_noted w c c argv] at hok
  rw [hrun]
  cases hrefusal : refusal (w.noted c argv).core ((w.noted c argv).conn c) argv with
  | some e =>
    rw [hrefusal] at hok
    exact absurd hok (not_told_err e)
  | none =>
    rw [hrefusal] at hok
    dsimp only at hok ⊢
    split
    · next hmulti =>
      rw [if_pos hmulti] at hok
      exact absurd hok not_told_queue
    · rw [runCommand_of_lookup hname hbranch]

end

end AuraRedis
