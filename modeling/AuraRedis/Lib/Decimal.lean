import Mathlib.Algebra.GroupWithZero.Nat
import Mathlib.Data.List.Basic

/-!
# Decimal numerals over bytes

`Decimal.ofNat n` is what `printf("%zu")` writes for `n`; `Decimal.value` reads a run of digit
bytes back (`value_ofNat`). `Decimal.span` cuts a byte string after its leading run of digits:
`span_append` says what it returns on a run followed by a byte that is no digit.
-/

set_option autoImplicit false

abbrev Bytes := List UInt8

instance : LawfulBEq Bytes := inferInstance

/-- The bytes of an ASCII string constant. -/
def lit (s : String) : Bytes := s.toList.map fun c => UInt8.ofNat c.toNat

namespace Decimal

/-- `'0' ≤ b ≤ '9'`. -/
def isDigit (b : UInt8) : Bool := decide (48 ≤ b.toNat) && decide (b.toNat ≤ 57)

/-- `b - '0'`. -/
def digit (b : UInt8) : Nat := b.toNat - 48

/-- The number a run of digits denotes, after the digits already read into `n`. -/
def valueFrom (n : Nat) (ds : Bytes) : Nat := ds.foldl (fun n b => n * 10 + digit b) n

def value (ds : Bytes) : Nat := valueFrom 0 ds

/-- The decimal numeral of `n`, most significant digit first. -/
def ofNat (n : Nat) : Bytes := (Nat.toDigits 10 n).map fun c => UInt8.ofNat c.toNat

/-- The leading run of digits, and what follows it. -/
def span : Bytes → Bytes × Bytes
  | [] => ([], [])
  | b :: s => if isDigit b then ((b :: (span s).1), (span s).2) else ([], b :: s)

@[simp] theorem valueFrom_nil (n : Nat) : valueFrom n [] = n := List.foldl_nil

@[simp] theorem valueFrom_cons (n : Nat) (b : UInt8) (ds : Bytes) :
    valueFrom n (b :: ds) = valueFrom (n * 10 + digit b) ds := List.foldl_cons ..

theorem le_valueFrom (ds : Bytes) (n : Nat) : n ≤ valueFrom n ds := by
  induction ds generalizing n with
  | nil => exact Nat.le_refl _
  | cons b ds ih => exact Nat.le_trans (by omega) (ih (n * 10 + digit b))

/-! ## The numeral of a number -/

/-- A digit character as a byte. -/
theorem digit_char {c : Char} (h : c.isDigit = true) :
    isDigit (UInt8.ofNat c.toNat) = true ∧ digit (UInt8.ofNat c.toNat) = c.toNat - 48 := by
  have hc : 48 ≤ c.toNat ∧ c.toNat ≤ 57 := by
    simp only [Char.isDigit, Bool.and_eq_true, decide_eq_true_eq, UInt32.le_iff_toNat_le] at h
    exact h
  have hm : (UInt8.ofNat c.toNat).toNat = c.toNat := by
    rw [UInt8.toNat_ofNat']; omega
  refine ⟨?_, by rw [digit, hm]⟩
  simp only [isDigit, hm, Bool.and_eq_true, decide_eq_true_eq]
  exact hc

theorem isDigit_ofNat {n : Nat} {b : UInt8} (h : b ∈ ofNat n) : isDigit b = true := by
  obtain ⟨c, hc, rfl⟩ := List.mem_map.1 h
  exact (digit_char (Nat.isDigit_of_mem_toDigits (by decide) (by decide) hc)).1

theorem ofNat_ne_nil (n : Nat) : ofNat n ≠ [] := by simp [ofNat]

theorem length_ofNat_le {n k : Nat} (hk : 0 < k) (h : n < 10 ^ k) : (ofNat n).length ≤ k := by
  rw [ofNat, List.length_map]
  exact (Nat.length_toDigits_le_iff (by decide) hk).2 h

theorem length_ofNat {n k : Nat} (hk : 0 < k) (h : 10 ^ k ≤ n) (h' : n < 10 ^ (k + 1)) : (ofNat n).length = k + 1 := by
  refine Nat.le_antisymm (length_ofNat_le (Nat.succ_pos k) h') (Nat.lt_of_not_le fun hle => ?_)
  rw [ofNat, List.length_map, Nat.length_toDigits_le_iff (by decide) hk] at hle
  exact absurd h (Nat.not_le.2 hle)

/-- The digits of a string of digit characters, read as bytes or as characters. -/
theorem valueFrom_chars (cs : List Char) (hc : ∀ c ∈ cs, c.isDigit = true) (n : Nat) :
    valueFrom n (cs.map fun c => UInt8.ofNat c.toNat) = Nat.ofDigitChars 10 cs n := by
  induction cs generalizing n with
  | nil => simp
  | cons c cs ih =>
    rw [List.map_cons, valueFrom_cons, Nat.ofDigitChars_cons, (digit_char (hc c (.head _))).2,
      ih fun d hd => hc d (.tail _ hd), Nat.mul_comm n 10]
    rfl

/-- **A numeral reads back as its number.** -/
theorem value_ofNat (n : Nat) : value (ofNat n) = n := by
  rw [value, ofNat, valueFrom_chars _ fun c hc =>
    Nat.isDigit_of_mem_toDigits (by decide) (by decide) hc]
  exact Nat.ofDigitChars_toDigits (by decide) (by decide)

theorem ofNat_injective {m n : Nat} (h : ofNat m = ofNat n) : m = n := by
  rw [← value_ofNat m, h, value_ofNat]

/-! ## Cutting after a run of digits -/

theorem span_eq (s : Bytes) : (span s).1 ++ (span s).2 = s := by
  induction s with
  | nil => rfl
  | cons b s ih => by_cases h : isDigit b <;> simp [span, h, ih]

theorem span_digits {s : Bytes} {b : UInt8} (h : b ∈ (span s).1) : isDigit b = true := by
  induction s with
  | nil => simp [span] at h
  | cons a s ih =>
    by_cases ha : isDigit a
    · simp only [span, ha, if_true, List.mem_cons] at h
      rcases h with rfl | h
      · exact ha
      · exact ih h
    · simp [span, ha] at h

/-- A run of digits followed by a byte that is none, or by nothing. -/
theorem span_append {ds : Bytes} (hd : ∀ b ∈ ds, isDigit b = true) {s : Bytes}
    (hs : ∀ b ∈ s.head?, isDigit b = false) : span (ds ++ s) = (ds, s) := by
  induction ds with
  | nil =>
    cases s with
    | nil => rfl
    | cons b s => simp [span, hs b rfl]
  | cons d ds ih =>
    rw [List.cons_append, span, if_pos (hd d (.head _)), ih fun b hb => hd b (.tail _ hb)]

end Decimal
