import AuraRedis.Resp.Parse

/-!
# RESP values

`Values n s`: the bytes `s` are `n` complete RESP values, one after the other. A value starts with a tag
and a line; `Head` says what must come after them. The code is self-delimiting: what follows some values
is determined by the whole (`Values.split`), so a byte string is at most one number of values
(`Values.unique`).
-/

set_option autoImplicit false

namespace Resp

open Decimal

/-- What a line may hold. -/
def Line (s : Bytes) : Prop := ∀ b ∈ s, b ≠ 13 ∧ b ≠ 10

instance (s : Bytes) : Decidable (Line s) := inferInstanceAs (Decidable (∀ b ∈ s, b ≠ 13 ∧ b ≠ 10))

/-- `-1`, the length of a null bulk or array. -/
def nullLen : Bytes := [45, 49]

/-- After a tag and a line comes `t`: some bytes of the value's own, then `more` values that belong to it,
which begin `rest`. -/
inductive Head : UInt8 → Bytes → Bytes → Nat → Bytes → Prop
  | status {l t : Bytes} (h : Line l) : Head 43 l t 0 t
  | error {l t : Bytes} (h : Line l) : Head 45 l t 0 t
  | int (i : Int) {t : Bytes} : Head 58 (ofInt i) t 0 t
  | bulk (p : Bytes) {t : Bytes} : Head 36 (ofNat p.length) (p ++ (crlf ++ t)) 0 t
  | nullBulk {t : Bytes} : Head 36 nullLen t 0 t
  | array (m : Nat) {t : Bytes} : Head 42 (ofNat m) t m t
  | nullArray {t : Bytes} : Head 42 nullLen t 0 t

inductive Values : Nat → Bytes → Prop
  | nil : Values 0 []
  | cons {tag : UInt8} {l t rest : Bytes} {m n : Nat} (hd : Head tag l t m rest) (tl : Values (m + n) rest) :
    Values (n + 1) (tag :: (l ++ (crlf ++ t)))

/-- One complete RESP value. -/
def Wire (s : Bytes) : Prop := Values 1 s

/-! ## Lines -/

theorem isDigit_line {b : UInt8} (h : isDigit b = true) : b ≠ 13 ∧ b ≠ 10 := by
  constructor <;> (rintro rfl; revert h; decide)

theorem line_ofNat (n : Nat) : Line (ofNat n) := fun _ hb => isDigit_line (isDigit_ofNat hb)

theorem line_ofInt (i : Int) : Line (ofInt i) := by
  unfold ofInt
  split
  · intro b hb
    obtain rfl | hb := List.mem_cons.1 hb
    · decide
    · exact line_ofNat _ b hb
  · exact line_ofNat _

theorem Line.append {s s' : Bytes} (h : Line s) (h' : Line s') : Line (s ++ s') := fun b hb =>
  (List.mem_append.1 hb).elim (h b) (h' b)

theorem ofNat_ne_nullLen (n : Nat) : ofNat n ≠ nullLen := fun h => by
  have : isDigit 45 = true := isDigit_ofNat (n := n) (h ▸ List.mem_cons_self)
  revert this
  decide

theorem Head.line {tag : UInt8} {l t rest : Bytes} {m : Nat} (h : Head tag l t m rest) : Line l := by
  cases h with
  | status h => exact h
  | error h => exact h
  | int i => exact line_ofInt i
  | bulk p => exact line_ofNat _
  | nullBulk => simp [Line, nullLen]
  | array m => exact line_ofNat m
  | nullArray => simp [Line, nullLen]

/-- A line ends at the first line end. -/
theorem line_inj {l l' t t' : Bytes} (h : Line l) (h' : Line l')
    (he : l ++ (crlf ++ t) = l' ++ (crlf ++ t')) : l = l' ∧ t = t' := by
  induction l generalizing l' with
  | nil =>
    cases l' with
    | nil => exact ⟨rfl, List.append_cancel_left he⟩
    | cons b l' => exact absurd (List.cons.inj he).1.symm (h' b (.head _)).1
  | cons b l ih =>
    cases l' with
    | nil => exact absurd (List.cons.inj he).1 (h b (.head _)).1
    | cons b' l' =>
      obtain ⟨hb, he⟩ := List.cons.inj he
      obtain ⟨hl, ht⟩ := ih (fun x hx => h x (.tail _ hx)) (fun x hx => h' x (.tail _ hx)) he
      exact ⟨by rw [hb, hl], ht⟩

/-! ## Values after values -/

theorem Values.append {m n : Nat} {s s' : Bytes} (h : Values m s) (h' : Values n s') :
    Values (m + n) (s ++ s') := by
  induction h with
  | nil => rwa [Nat.zero_add]
  | @cons tag l t rest m k hd tl ih =>
    rw [Nat.add_right_comm, List.cons_append, List.append_assoc, List.append_assoc]
    rw [Nat.add_assoc] at ih
    refine .cons (m := m) ?_ ih
    cases hd with
    | status h => exact .status h
    | error h => exact .error h
    | int i => exact .int i
    | bulk p =>
      rw [List.append_assoc, List.append_assoc]
      exact .bulk p
    | nullBulk => exact .nullBulk
    | array m => exact .array m
    | nullArray => exact .nullArray

/-- A head and what comes after it are read in one way. -/
theorem Head.unique {tag : UInt8} {l t x rest rest' : Bytes} {m m' : Nat} (h : Head tag l t m rest)
    (h' : Head tag l (t ++ x) m' rest') : m' = m ∧ rest' = rest ++ x := by
  cases h with
  | status _ => cases h'; exact ⟨rfl, rfl⟩
  | error _ => cases h'; exact ⟨rfl, rfl⟩
  | int i =>
    generalize ofInt i = l at h'
    cases h'
    exact ⟨rfl, rfl⟩
  | bulk p =>
    generalize hl : ofNat p.length = l at h'
    generalize ht : p ++ (crlf ++ rest) ++ x = t at h'
    cases h' with
    | bulk q =>
      rw [List.append_assoc] at ht
      obtain ⟨-, he⟩ := List.append_inj ht (ofNat_injective hl)
      rw [List.append_assoc] at he
      exact ⟨rfl, (List.append_cancel_left he).symm⟩
    | nullBulk => exact absurd hl (ofNat_ne_nullLen _)
  | nullBulk =>
    generalize hl : nullLen = l at h'
    generalize ht : t ++ x = t' at h'
    cases h' with
    | bulk q => exact absurd hl.symm (ofNat_ne_nullLen _)
    | nullBulk => exact ⟨rfl, rfl⟩
  | array m =>
    generalize hl : ofNat m = l at h'
    generalize ht : t ++ x = t' at h'
    cases h' with
    | array m' => exact ⟨(ofNat_injective hl).symm, rfl⟩
    | nullArray => exact absurd hl (ofNat_ne_nullLen _)
  | nullArray =>
    generalize hl : nullLen = l at h'
    generalize ht : t ++ x = t' at h'
    cases h' with
    | array m' => exact absurd hl.symm (ofNat_ne_nullLen _)
    | nullArray => exact ⟨rfl, rfl⟩

/-- What comes after some values. -/
theorem Values.split {m n : Nat} {s x : Bytes} (h : Values m s) (h' : Values (m + n) (s ++ x)) :
    Values n x := by
  induction h with
  | nil => rwa [Nat.zero_add] at h'
  | @cons tag l t rest m k hd tl ih =>
    apply ih
    rw [Nat.add_right_comm] at h'
    generalize hs : tag :: (l ++ (crlf ++ t)) ++ x = s' at h'
    cases h' with
    | @cons tag' l' t' rest' m' _ hd' tl' =>
      rw [List.cons_append, List.append_assoc, List.append_assoc] at hs
      obtain ⟨rfl, he⟩ := List.cons.inj hs
      obtain ⟨rfl, rfl⟩ := line_inj hd.line hd'.line he
      obtain ⟨rfl, rfl⟩ := hd.unique hd'
      rwa [Nat.add_assoc]

theorem Values.ne_nil {n : Nat} {s : Bytes} (h : Values (n + 1) s) : s ≠ [] := by
  cases h with
  | cons => exact List.cons_ne_nil _ _

/-- No bytes are no values. -/
theorem Values.eq_zero {n : Nat} (h : Values n []) : n = 0 := by
  cases n with
  | zero => rfl
  | succ n => exact absurd rfl h.ne_nil

/-- **A byte string is at most one number of values.** -/
theorem Values.unique {m n : Nat} {s : Bytes} (h : Values m s) (h' : Values n s) : m = n := by
  rcases Nat.le_total m n with hle | hle
  · obtain ⟨k, rfl⟩ := Nat.exists_eq_add_of_le hle
    rw [← List.append_nil s] at h'
    rw [(h.split h').eq_zero, Nat.add_zero]
  · obtain ⟨k, rfl⟩ := Nat.exists_eq_add_of_le hle
    rw [← List.append_nil s] at h
    rw [(h'.split h).eq_zero, Nat.add_zero]

/-! ## The values the writers make -/

theorem Wire.status {s : Bytes} (h : Line s) : Wire (43 :: (s ++ crlf)) := by
  have := Values.cons (.status (t := []) h) (n := 0) .nil
  rwa [List.append_nil] at this

theorem Wire.error {s : Bytes} (h : Line s) : Wire (45 :: (s ++ crlf)) := by
  have := Values.cons (.error (t := []) h) (n := 0) .nil
  rwa [List.append_nil] at this

theorem Wire.int (i : Int) : Wire (58 :: (ofInt i ++ crlf)) := by
  have := Values.cons (.int i (t := [])) (n := 0) .nil
  rwa [List.append_nil] at this

theorem Wire.bulk (p : Bytes) : Wire (bulk p) := by
  have := Values.cons (.bulk p (t := [])) (n := 0) .nil
  rwa [List.append_nil, ← List.append_assoc] at this

theorem Wire.nullBulk : Wire (36 :: (nullLen ++ crlf)) := .cons (t := []) (n := 0) .nullBulk .nil

theorem Wire.nullArray : Wire (42 :: (nullLen ++ crlf)) := .cons (t := []) (n := 0) .nullArray .nil

theorem Wire.array {n : Nat} {s : Bytes} (h : Values n s) : Wire (arrayHdr n ++ s) := by
  unfold arrayHdr
  rw [ofInt_natCast, List.cons_append, List.append_assoc]
  exact .cons (n := 0) (.array n) h

theorem Values.cons_wire {n : Nat} {s s' : Bytes} (h : Wire s) (h' : Values n s') :
    Values (n + 1) (s ++ s') := by
  rw [Nat.add_comm]
  exact Values.append h h'

/-- Values one after the other. -/
theorem Values.flatMap {α : Type} {f : α → Bytes} (hf : ∀ a, Wire (f a)) (as : List α) :
    Values as.length (as.flatMap f) := by
  induction as with
  | nil => exact .nil
  | cons a as ih => exact .cons_wire (hf a) ih

end Resp
