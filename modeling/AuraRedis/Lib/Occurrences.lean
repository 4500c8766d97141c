import Mathlib.Data.List.Basic
import Mathlib.Data.List.Count

/-!
# The first occurrences of an element

`removeFirst a k l` is the list `l` without the first `k` occurrences of `a`.
-/

set_option autoImplicit false

namespace Occurrences

variable {α : Type} [DecidableEq α] {a : α}

def removeFirst (a : α) : Nat → List α → List α
  | 0, l => l
  | _ + 1, [] => []
  | k + 1, x :: l => if x = a then removeFirst a k l else x :: removeFirst a (k + 1) l

@[simp] theorem removeFirst_zero (l : List α) : removeFirst a 0 l = l := by
  unfold removeFirst
  rfl

@[simp] theorem removeFirst_nil (k : Nat) : removeFirst a k [] = [] := by
  cases k <;> rfl

theorem removeFirst_self (k : Nat) (l : List α) : removeFirst a (k + 1) (a :: l) = removeFirst a k l := if_pos rfl

theorem removeFirst_of_ne {x : α} (h : x ≠ a) (k : Nat) (l : List α) :
    removeFirst a (k + 1) (x :: l) = x :: removeFirst a (k + 1) l := if_neg h

variable [BEq α] [LawfulBEq α]

/-- As many go as there are, and as asked for. -/
theorem count_removeFirst (k : Nat) (l : List α) : (removeFirst a k l).count a = l.count a - k := by
  induction l generalizing k with
  | nil => simp
  | cons x l ih =>
    cases k with
    | zero => simp
    | succ k =>
      by_cases hx : x = a
      · subst hx
        rw [removeFirst_self, ih, List.count_cons_self]
        omega
      · rw [removeFirst_of_ne hx, List.count_cons_of_ne hx, ih, List.count_cons_of_ne hx]

omit [BEq α] [LawfulBEq α] in
/-- The other elements stay, in their order. -/
theorem filter_removeFirst (k : Nat) (l : List α) : (removeFirst a k l).filter (· ≠ a) = l.filter (· ≠ a) := by
  induction l generalizing k with
  | nil => simp
  | cons x l ih =>
    cases k with
    | zero => simp
    | succ k =>
      by_cases hx : x = a
      · subst hx
        rw [removeFirst_self, ih, List.filter_cons_of_neg (by simp)]
      · rw [removeFirst_of_ne hx, List.filter_cons_of_pos (by simpa using hx), ih,
          List.filter_cons_of_pos (by simpa using hx)]

/-- All of them. -/
theorem removeFirst_all {k : Nat} {l : List α} (h : l.count a ≤ k) : removeFirst a k l = l.filter (· ≠ a) := by
  rw [← filter_removeFirst k l, List.filter_eq_self.2]
  intro x hx
  have hzero : (removeFirst a k l).count a = 0 := by
    rw [count_removeFirst]
    omega
  have hne : x ≠ a := fun he => List.count_eq_zero.1 hzero (he ▸ hx)
  simpa using hne

end Occurrences
