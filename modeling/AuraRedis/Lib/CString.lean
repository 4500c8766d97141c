import AuraRedis.Lib.Machine
import Mathlib.Data.List.TakeWhile

/-!
# Numbers read from C strings

`strtoll` and `strtoull` follow the C library: leading white space, an optional sign, the longest run
of decimal digits, and a result clamped to the type. They return how many bytes they consumed, none
when there is no digit. A C string ends at its first null byte (`cstr`). `atoll` and `atoi` drop the
count; the library computes `atoi` with `strtol`, so it clamps to 64 bits before it truncates to 32.
-/

set_option autoImplicit false

namespace CString

/-- The C string that a buffer holds. -/
def cstr (s : Bytes) : Bytes := s.takeWhile (· ≠ 0)

/-- `isspace`, in the C locale. -/
def isSpace (b : UInt8) : Bool := b == 32 || (decide (9 ≤ b.toNat) && decide (b.toNat ≤ 13))

/-- A sign, and what follows it: `true` is a minus. -/
def sign : Bytes → Bool × Bytes
  | 45 :: s => (true, s)
  | 43 :: s => (false, s)
  | s => (false, s)

/-- Sign and digits of the number at the head of a C string, and how many bytes they end after. -/
def scan (s : Bytes) : Bool × Bytes × Nat :=
  let body := s.dropWhile isSpace
  let r := sign body
  let digits := (Decimal.span r.2).1
  if digits = [] then (false, [], 0)
  else (r.1, digits, s.length - r.2.length + digits.length)

def clamp (lo hi x : Int) : Int := max lo (min hi x)

/-- `strtoll(s, &end, 10)`: the number and `end - s`. -/
def strtoll (s : Bytes) : Int × Nat :=
  let r := scan (cstr s)
  let v : Int := Decimal.value r.2.1
  (clamp (-2 ^ 63) (2 ^ 63 - 1) (if r.1 then -v else v), r.2.2)

/-- `strtoull(s, &end, 10)`: a minus sign negates the number in the unsigned type. -/
def strtoull (s : Bytes) : Nat × Nat :=
  let r := scan (cstr s)
  let v := Decimal.value r.2.1
  (if 2 ^ 64 ≤ v then 2 ^ 64 - 1 else if r.1 then uint64 (-v) else v, r.2.2)

def atoll (s : Bytes) : Int := (strtoll s).1

def atoi (s : Bytes) : Int := int32 (strtoll s).1

theorem cstr_noNul (s : Bytes) : 0 ∉ cstr s := fun h => by
  have := List.mem_takeWhile_imp h
  simp at this

/-- The lines that `fgets(line, size, f)` reads from what is left of a file, one call after the other, when
`line` has been read of the first. A line ends at its line feed, or when the buffer is full. -/
def fgets (size : Nat) : Bytes → Bytes → List Bytes
  | [], line => if line = [] then [] else [line]
  | b :: s, line =>
    if b = 10 ∨ line.length + 2 ≥ size then (line ++ [b]) :: fgets size s [] else fgets size s (line ++ [b])

theorem cstr_of_noNul {s : Bytes} (h : 0 ∉ s) : cstr s = s :=
  List.takeWhile_eq_self_iff.2 fun b hb => by
    have : b ≠ 0 := fun h0 => h (h0 ▸ hb)
    simpa using this

/-! ## Lines -/

/-- A line that fits. -/
theorem fgets_line {size : Nat} {l : Bytes} (hl : 10 ∉ l) (line rest : Bytes)
    (hsize : line.length + l.length + 1 < size) :
    fgets size (l ++ 10 :: rest) line = (line ++ l ++ [10]) :: fgets size rest [] := by
  induction l generalizing line with
  | nil =>
    rw [List.nil_append, fgets, if_pos (.inl rfl), List.append_nil]
  | cons b l ih =>
    rw [List.mem_cons, not_or] at hl
    rw [List.length_cons] at hsize
    rw [List.cons_append, fgets, if_neg (by
      rintro (h | h)
      · exact hl.1 h.symm
      · omega), ih hl.2 (line ++ [b]) (by simp; omega)]
    simp

/-- A line that does not: what fits is read of it. -/
theorem fgets_full {size : Nat} {l : Bytes} (hl : 10 ∉ l) (hne : l ≠ []) (line rest : Bytes)
    (hsize : line.length + l.length + 1 = size) : fgets size (l ++ rest) line = (line ++ l) :: fgets size rest [] := by
  induction l generalizing line with
  | nil => exact absurd rfl hne
  | cons b l ih =>
    rw [List.mem_cons, not_or] at hl
    rw [List.length_cons] at hsize
    rw [List.cons_append, fgets]
    by_cases hnil : l = []
    · rw [hnil, List.length_nil] at hsize
      rw [if_pos (.inr (by omega)), hnil, List.nil_append]
    · have hlen := List.length_pos_iff.2 hnil
      rw [if_neg (by
        rintro (h | h)
        · exact hl.1 h.symm
        · omega), ih hl.2 hnil (line ++ [b]) (by simp; omega)]
      simp

/-- No line has a line feed but at its end. -/
theorem mem_fgets {size : Nat} {s line x : Bytes} (hline : 10 ∉ line) (hx : x ∈ fgets size s line) :
    ∃ l, 10 ∉ l ∧ (x = l ∨ x = l ++ [10]) := by
  induction s generalizing line with
  | nil =>
    unfold fgets at hx
    split at hx
    · cases hx
    · exact ⟨line, hline, .inl (List.mem_singleton.1 hx)⟩
  | cons b s ih =>
    unfold fgets at hx
    split at hx
    · rcases List.mem_cons.1 hx with rfl | hx
      · by_cases hb : b = 10
        · exact ⟨line, hline, .inr (by rw [hb])⟩
        · refine ⟨line ++ [b], ?_, .inl rfl⟩
          simp [hline, Ne.symm hb]
      · exact ih List.not_mem_nil hx
    · rename_i hb
      have hb : b ≠ 10 := fun h => hb (.inl h)
      have hline' : 10 ∉ line ++ [b] := by simp [hline, Ne.symm hb]
      exact ih hline' hx

/-! ## Numerals -/

theorem isSpace_digit {b : UInt8} (h : Decimal.isDigit b = true) : isSpace b = false ∧ b ≠ 45 ∧ b ≠ 43 ∧ b ≠ 0 := by
  simp only [Decimal.isDigit, Bool.and_eq_true, decide_eq_true_eq] at h
  have hne : ∀ c : UInt8, c.toNat < 48 → b ≠ c := fun c hc hb => by
    rw [hb] at h
    omega
  refine ⟨?_, hne 45 (by decide), hne 43 (by decide), hne 0 (by decide)⟩
  have hsp : b ≠ 32 := hne 32 (by decide)
  simp only [isSpace, beq_eq_false_iff_ne.2 hsp, Bool.false_or, Bool.and_eq_false_iff, decide_eq_false_iff_not]
  omega

theorem scan_digits {ds : Bytes} (hne : ds ≠ []) (hd : ∀ b ∈ ds, Decimal.isDigit b = true) :
    scan ds = (false, ds, ds.length) := by
  obtain ⟨d, ds', rfl⟩ := List.exists_cons_of_ne_nil hne
  obtain ⟨hs, hm, hp, -⟩ := isSpace_digit (hd d (.head _))
  have hbody : (d :: ds').dropWhile isSpace = d :: ds' := by rw [List.dropWhile_cons_of_neg (by simp [hs])]
  have hsign : sign (d :: ds') = (false, d :: ds') := by
    unfold sign
    split
    · rename_i h
      exact absurd (List.cons.inj h).1 hm
    · rename_i h
      exact absurd (List.cons.inj h).1 hp
    · rfl
  have hspan := Decimal.span_append hd (s := []) (fun b hb => by cases hb)
  rw [List.append_nil] at hspan
  unfold scan
  simp only [hbody, hsign, hspan]
  simp

theorem cstr_ofNat (n : Nat) : cstr (Decimal.ofNat n) = Decimal.ofNat n :=
  cstr_of_noNul fun h => (isSpace_digit (Decimal.isDigit_ofNat h)).2.2.2 rfl

theorem scan_ofNat (n : Nat) : scan (cstr (Decimal.ofNat n)) = (false, Decimal.ofNat n, (Decimal.ofNat n).length) := by
  rw [cstr_ofNat]
  exact scan_digits (Decimal.ofNat_ne_nil n) fun _ => Decimal.isDigit_ofNat

/-- **A numeral is read as its number.** -/
theorem strtoull_ofNat {n : Nat} (h : n < 2 ^ 64) : (strtoull (Decimal.ofNat n)).1 = n := by
  unfold strtoull
  simp only [scan_ofNat, Decimal.value_ofNat]
  rw [if_neg (by omega)]
  rfl

theorem atoi_ofNat {n : Nat} (h : n < 2 ^ 31) : atoi (Decimal.ofNat n) = n := by
  unfold atoi strtoll
  simp only [scan_ofNat, Decimal.value_ofNat, Bool.false_eq_true, if_false]
  rw [show clamp (-2 ^ 63) (2 ^ 63 - 1) (n : Int) = n by unfold clamp; omega, int32_natCast h]

theorem atoi_ofInt {n : Int} (h0 : 0 ≤ n) (h : n < 2 ^ 31) : atoi (Decimal.ofInt n) = n := by
  obtain ⟨m, rfl⟩ := Int.eq_ofNat_of_zero_le h0
  rw [Decimal.ofInt_natCast, atoi_ofNat (by omega)]

/-- What a `char[n]` holds when it holds a C string. -/
structure CArray (n : Nat) where
  val : Bytes
  fits : val.length < n
  noNul : 0 ∉ val
  deriving DecidableEq

namespace CArray

/-! The sizes there are. -/

theorem pos16 : 0 < 16 := by decide
theorem pos32 : 0 < 32 := by decide
theorem pos48 : 0 < 48 := by decide
theorem pos64 : 0 < 64 := by decide
theorem pos128 : 0 < 128 := by decide
theorem pos192 : 0 < 192 := by decide
theorem pos256 : 0 < 256 := by decide
theorem pos512 : 0 < 512 := by decide

/-- `snprintf(a, n, "%s", s)`: as much of a string as there is room for. -/
def ofBytes (n : Nat) (s : Bytes) (hn : 0 < n := by
      first
      | exact CString.CArray.pos16 | exact CString.CArray.pos32 | exact CString.CArray.pos48
      | exact CString.CArray.pos64 | exact CString.CArray.pos128 | exact CString.CArray.pos192
      | exact CString.CArray.pos256 | exact CString.CArray.pos512) :
    CArray n where
  val := (cstr s).take (n - 1)
  fits := by
    have := List.length_take_le (n - 1) (cstr s)
    omega
  noNul := fun h => cstr_noNul s (List.mem_of_mem_take h)

/-- Printed over itself. -/
theorem ofBytes_val {n : Nat} (a : CArray n) (hn : 0 < n) : ofBytes n a.val hn = a := by
  obtain ⟨v, hv, h0⟩ := a
  show (⟨(cstr v).take (n - 1), _, _⟩ : CArray n) = _
  congr 1
  rw [cstr_of_noNul h0, List.take_of_length_le (by omega)]

/-- The empty string. -/
def empty (n : Nat) (hn : 0 < n := by
      first
      | exact CString.CArray.pos16 | exact CString.CArray.pos32 | exact CString.CArray.pos48
      | exact CString.CArray.pos64 | exact CString.CArray.pos128 | exact CString.CArray.pos192
      | exact CString.CArray.pos256 | exact CString.CArray.pos512) :
    CArray n := ⟨[], hn, List.not_mem_nil⟩

end CArray

end CString
