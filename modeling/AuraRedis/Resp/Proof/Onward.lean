import AuraRedis.Lib.Pipelined
import AuraRedis.Resp.Proof.Parse

/-!
# Commands and what comes after them

What `parse_command` reads does not depend on what is behind it (`extends_parseCommand`), and it reads something
(`length_parseCommand`). So what it has taken off a part of a stream of commands are the first of them
(`parses_commands`).
-/

set_option autoImplicit false

namespace Resp

theorem extends_expectCrlf : Extends expectCrlf := by
  intro s a rest t h
  match s with
  | [] => cases h
  | [b] => by_cases hb : b = 13 <;> simp [expectCrlf, hb] at h
  | b :: b' :: s =>
    simp only [expectCrlf, List.cons_append] at h ⊢
    split at h
    · cases h
    · next hb =>
      split at h
      · cases h
      · next hb' =>
        cases h
        rw [if_neg hb, if_neg hb']

theorem extends_bulkDigits (n digits : Nat) : Extends (bulkDigits n digits) := by
  intro s
  induction s generalizing n digits with
  | nil => exact fun a rest t h => by cases h
  | cons b s ih =>
    intro a rest t h
    rw [bulkDigits] at h
    rw [List.cons_append, bulkDigits]
    split at h
    · next hd =>
      rw [if_pos hd]
      split at h
      · cases h
      · next hn =>
        rw [if_neg hn]
        exact ih _ _ a rest t h
    · next hd =>
      rw [if_neg hd]
      split at h
      · cases h
      · next h0 =>
        cases h
        rw [if_neg h0]
        rfl

theorem extends_argcDigits (n : Int) (digits : Nat) : Extends (argcDigits n digits) := by
  intro s
  induction s generalizing n digits with
  | nil => exact fun a rest t h => by cases h
  | cons b s ih =>
    intro a rest t h
    rw [argcDigits] at h
    rw [List.cons_append, argcDigits]
    split at h
    · next hd =>
      rw [if_pos hd]
      split at h
      · next hfits =>
        rw [if_pos hfits]
        exact ih _ _ a rest t h
      · cases h
    · next hd =>
      rw [if_neg hd]
      split at h
      · cases h
      · next h0 =>
        cases h
        rw [if_neg h0]
        rfl

/-- Digits and the end of their line. -/
theorem extends_line {α : Type} {P : Bytes → Parsed UInt8 α} (h : Extends P) :
    Extends fun s => (P s).andThen fun n s => (expectCrlf s).andThen fun _ s => .ok n s :=
  h.andThen fun n => extends_expectCrlf.andThen fun _ => .pure n

theorem extends_bulkPayload (n : Nat) : Extends (bulkPayload n) := by
  intro s a rest t h
  unfold bulkPayload at h ⊢
  split at h
  · cases h
  next hn =>
  split at h
  · cases h
  next hlen =>
  split at h
  · cases h
  next hcrlf =>
  cases h
  have hle : n + 2 ≤ s.length := by omega
  have hpay : ((s ++ t).drop n).take 2 = (s.drop n).take 2 := by
    rw [List.drop_append_of_le_length (by omega), List.take_append_of_le_length]
    rw [List.length_drop]
    omega
  rw [if_neg hn, if_neg (by rw [List.length_append]; omega), hpay, if_neg hcrlf,
    List.take_append_of_le_length (by omega), List.drop_append_of_le_length hle]

theorem extends_parseBulk : Extends parseBulk := by
  intro s a rest t h
  match s with
  | [] => cases h
  | b :: s =>
    rw [parseBulk] at h
    rw [List.cons_append, parseBulk]
    split at h
    · cases h
    next hb =>
    rw [if_neg hb]
    cases s with
    | nil => cases h
    | cons b' s =>
      rw [List.head?_cons] at h
      rw [List.cons_append, List.head?_cons]
      split at h
      · next h45 =>
        rw [if_pos h45]
        exact (extends_line (extends_bulkDigits 0 0)).andThen (fun _ => .pure none) s a rest t h
      · next h45 =>
        rw [if_neg h45]
        exact (extends_line (extends_bulkDigits 0 0)).andThen (fun n => extends_bulkPayload n) (b' :: s) a rest t h

theorem extends_parseArgv (n : Nat) : Extends (parseArgv n) := by
  induction n with
  | zero => exact .pure []
  | succ n ih =>
    refine extends_parseBulk.andThen fun arg => ?_
    cases arg with
    | none => exact .error
    | some arg => exact ih.andThen fun argv => .pure _

/-- **A command that has been read stays what it is.** -/
theorem extends_parseCommand : Extends parseCommand := by
  intro s a rest t h
  cases s with
  | nil => cases h
  | cons b s =>
    rw [parseCommand] at h
    rw [List.cons_append, parseCommand]
    split at h
    · cases h
    next hb =>
    rw [if_neg hb]
    refine (extends_line (extends_argcDigits 0 0)).andThen (fun n => ?_) s a rest t h
    exact .ite .error (extends_parseArgv n.toNat)

/-- **It takes at least a byte.** -/
theorem length_parseCommand {s rest : Bytes} {argv : List Bytes} (h : parseCommand s = .ok argv rest) :
    rest.length < s.length := by
  cases s with
  | nil => cases h
  | cons b s =>
    rw [parseCommand] at h
    split at h
    · cases h
    have hsuf : rest <:+ s := by
      refine ((consumes_line (consumes_argcDigits 0 0)).andThen fun n => ?_) s argv rest h
      split
      · exact fun s a rest h => by cases h
      · exact consumes_parseArgv n.toNat
    exact Nat.lt_succ_of_le hsuf.length_le

/-- **What is read of a stream of commands.** -/
theorem parses_commands {got rest t : Bytes} {done cmds : List (List Bytes)} (h : Parses parseCommand got done rest)
    (hw : ∀ argv ∈ cmds, WellFormed argv) (ht : got ++ t = cmds.flatMap command) :
    ∃ todo, cmds = done ++ todo ∧ got = done.flatMap command ++ rest := by
  induction h generalizing cmds with
  | nil s => exact ⟨cmds, rfl, rfl⟩
  | @cons s r rest argv done hs _ ih =>
    have hext := extends_parseCommand s argv r t hs
    cases cmds with
    | nil =>
      obtain ⟨rfl, rfl⟩ := List.append_eq_nil_iff.1 ht
      cases hs
    | cons first cmds =>
      obtain ⟨hfirst, hw⟩ := List.forall_mem_cons.1 hw
      rw [ht, List.flatMap_cons, parseCommand_command hfirst] at hext
      injection hext with hargv hrest
      subst hargv
      obtain ⟨todo, rfl, hr⟩ := ih hw hrest.symm
      refine ⟨todo, rfl, ?_⟩
      rw [List.flatMap_cons, hrest, ← List.append_assoc] at ht
      rw [List.append_cancel_right ht, hr, List.flatMap_cons, List.append_assoc]

end Resp
