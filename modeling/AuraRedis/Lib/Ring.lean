import Mathlib.Data.Int.Basic
import Mathlib.Data.List.Basic

/-!
# Rings that change their size

A ring of `n` slots lies in an array that may have more of them: `head` is the slot that is written next, and the
`i`-th newest element is `i + 1` slots before it, modulo `n`. `Recent` means that the elements read that way are
the newest of a log. A push keeps it when the head is a slot of the ring (`Recent.push`), and another size does when
it moves none of the slots that are still read (`Recent.resize`).
-/

set_option autoImplicit false

namespace Ring

variable {α : Type} {slots : List α} {n n' head len : Int} {log : List α}

/-- The slot of the `i`-th newest element. -/
def slot (n head : Int) (i : Nat) : Nat := ((head - 1 - i) % n).toNat

/-- The `len` elements read of a ring are the newest of a log, the newest first. -/
structure Recent (slots : List α) (n head len : Int) (log : List α) : Prop where
  head_nonneg : 0 ≤ head
  head_lt : head < slots.length
  len_nonneg : 0 ≤ len
  len_le : len ≤ n
  size_le : n ≤ slots.length
  newest : ∀ i : Nat, (i : Int) < len → slots[slot n head i]? = log[i]?

/-! ## Slots -/

theorem slot_lt (hn : 0 < n) (i : Nat) : (slot n head i : Int) < n := by
  have h0 := Int.emod_nonneg (head - 1 - i) (show n ≠ 0 by omega)
  unfold slot
  rw [Int.toNat_of_nonneg h0]
  exact Int.emod_lt_of_pos (head - 1 - i) hn

/-- The newest slot is the one before the head. -/
theorem slot_zero (h0 : 0 ≤ head) (hlt : head < n) : slot n ((head + 1) % n) 0 = head.toNat := by
  unfold slot
  rw [Int.natCast_zero, Int.sub_zero, Int.sub_eq_add_neg, Int.emod_add_emod, Int.add_neg_cancel_right,
    Int.emod_eq_of_lt h0 hlt]

/-- When the head moves on, every other slot is one further back. -/
theorem slot_succ (i : Nat) : slot n ((head + 1) % n) (i + 1) = slot n head i := by
  unfold slot
  rw [show (head + 1) % n - 1 - ((i + 1 : Nat) : Int) = (head + 1) % n + (-2 - i) by push_cast; omega,
    Int.emod_add_emod, show head + 1 + (-2 - (i : Int)) = head - 1 - i by omega]

/-- The slot at the head is read last. -/
theorem slot_ne_head (h0 : 0 ≤ head) (hlt : head < n) {i : Nat} (hi : (i : Int) + 1 < n) :
    slot n head i ≠ head.toNat := by
  intro h
  have hmod : (head - 1 - i) % n = head % n := by
    have hnn := Int.emod_nonneg (head - 1 - i) (show n ≠ 0 by omega)
    unfold slot at h
    rw [Int.emod_eq_of_lt h0 hlt]
    omega
  -- the two differ by less than a whole turn
  have hturn : (i + 1 : Int) % n = 0 := by
    have hsub := Int.emod_eq_emod_iff_emod_sub_eq_zero.1 hmod.symm
    rwa [show head - (head - 1 - i) = i + 1 by omega] at hsub
  rw [Int.emod_eq_of_lt (by omega) hi] at hturn
  omega

/-! ## What keeps them -/

theorem Recent.push {e : α} (h : Recent slots n head len log) (hhead : head < n) :
    Recent (slots.set head.toNat e) n ((head + 1) % n) (if len < n then len + 1 else len) (e :: log) := by
  obtain ⟨h0, hlt, hlen0, hlen, hsize, hnew⟩ := h
  have hn : 0 < n := by omega
  refine ⟨Int.emod_nonneg _ (by omega), ?_, by split <;> omega, by split <;> omega, ?_, fun i hi => ?_⟩
  · rw [List.length_set]
    have := Int.emod_lt_of_pos (head + 1) hn
    omega
  · rw [List.length_set]
    exact hsize
  · cases i with
    | zero =>
      rw [slot_zero h0 hhead, List.getElem?_set_self (by omega)]
      rfl
    | succ i =>
      have hi' : (i : Int) + 1 < n := by
        split at hi <;> omega
      have hi'' : (i : Int) < len := by
        split at hi <;> omega
      rw [slot_succ, List.getElem?_set_ne (slot_ne_head h0 hhead hi').symm, hnew i hi'']
      rfl

/-- Another size, which moves no slot that is still read. -/
theorem Recent.resize (h : Recent slots n head len log) (h0 : 0 ≤ n') (hsize : n' ≤ slots.length)
    (hsame : ∀ i : Nat, (i : Int) < len → (i : Int) < n' → slot n' head i = slot n head i) :
    Recent slots n' head (if len > n' then n' else len) log where
  head_nonneg := h.head_nonneg
  head_lt := h.head_lt
  len_nonneg := by
    have := h.len_nonneg
    split <;> omega
  len_le := by split <;> omega
  size_le := hsize
  newest i hi := by
    have hlen : (i : Int) < len ∧ (i : Int) < n' := by
      split at hi <;> omega
    rw [hsame i hlen.1 hlen.2, h.newest i hlen.1]

theorem Recent.clear (h : Recent slots n head len log) : Recent slots n 0 0 [] where
  head_nonneg := Int.le_refl 0
  head_lt := Int.lt_of_le_of_lt h.head_nonneg h.head_lt
  len_nonneg := Int.le_refl 0
  len_le := Int.le_trans h.len_nonneg h.len_le
  size_le := h.size_le
  newest i hi := by omega

/-! ## What is read -/

variable (h : Recent slots n head len log)
include h

theorem Recent.lt_length {i : Nat} (hi : (i : Int) < len) : i < log.length := by
  have hn : 0 < n := by
    have := h.len_le
    omega
  have hslot : (slot n head i : Int) < n := slot_lt hn i
  have hsize := h.size_le
  have hread := h.newest i hi
  rw [List.getElem?_eq_getElem (by omega)] at hread
  exact (List.getElem?_eq_some_iff.1 hread.symm).1

/-- The newest `m` elements. -/
theorem Recent.map_range (d : α) {m : Nat} (hm : (m : Int) ≤ len) :
    (List.range m).map (fun i => slots.getD (slot n head i) d) = log.take m := by
  have hlen : m ≤ log.length := by
    cases m with
    | zero => exact Nat.zero_le _
    | succ m => exact h.lt_length (i := m) (by omega)
  refine List.ext_getElem? fun i => ?_
  by_cases hi : i < m
  · have hread := h.newest i (by omega)
    have hlog : log[i]? = some log[i] := List.getElem?_eq_getElem (by omega)
    rw [List.getElem?_map, List.getElem?_range hi, List.getElem?_take_of_lt hi, Option.map_some,
      List.getD_eq_getElem?_getD, hread, hlog, Option.getD_some]
  · rw [List.getElem?_eq_none (by simpa using hi), List.getElem?_eq_none]
    rw [List.length_take]
    omega

end Ring
