import AuraRedis.Lib.Decimal
import Mathlib.Algebra.Group.Int.Defs
import Mathlib.Data.Int.Init

/-!
# Machine integers

`int64 x` is what a signed 64-bit variable holds after it was assigned `x`, `uint64 n` an unsigned
one. `Decimal.ofInt` is what `printf("%lld")` writes.
-/

set_option autoImplicit false

/-- Two's complement, 64 bits. -/
def int64 (x : Int) : Int := Int.bmod x (2 ^ 64)

/-- Two's complement, 32 bits. -/
def int32 (x : Int) : Int := Int.bmod x (2 ^ 32)

/-- `(uint64_t)x`. -/
def uint64 (x : Int) : Nat := (x % 2 ^ 64).toNat

theorem int64_eq {x : Int} (h : -2 ^ 63 ≤ x) (h' : x < 2 ^ 63) : int64 x = x :=
  Int.bmod_eq_of_le (by omega) (by omega)

theorem int64_natCast {n : Nat} (h : n < 2 ^ 63) : int64 n = n := int64_eq (by omega) (by omega)

theorem int32_natCast {n : Nat} (h : n < 2 ^ 31) : int32 n = n :=
  Int.bmod_eq_of_le (by omega) (by omega)

theorem int64_range (x : Int) : -2 ^ 63 ≤ int64 x ∧ int64 x < 2 ^ 63 := by
  have h₁ := Int.le_bmod (x := x) (m := 2 ^ 64) (by decide)
  have h₂ := Int.bmod_lt (x := x) (m := 2 ^ 64) (by decide)
  rw [int64]
  omega

theorem uint64_natCast {n : Nat} (h : n < 2 ^ 64) : uint64 n = n := by
  rw [uint64]; omega

/-- The decimal numeral of a signed number. -/
def Decimal.ofInt (x : Int) : Bytes :=
  if x < 0 then 45 :: Decimal.ofNat x.natAbs else Decimal.ofNat x.natAbs

@[simp] theorem Decimal.ofInt_natCast (n : Nat) : Decimal.ofInt n = Decimal.ofNat n := by
  rw [ofInt, if_neg (by omega), Int.natAbs_natCast]
