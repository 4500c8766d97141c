import Mathlib.Data.List.Basic

/-!
# Sweeps over places

A sweep looks at one window of places after the other while what it looks for may move. `Sweep i l`: the
windows of `l` follow each other from place `i` on, and the last one reaches past the place of the item.
An item that is never moved behind the sweep is seen (`Sweep.sees`), and one that stays where it is is
seen once (`Sweep.sees_once`). An iteration with a cursor is such a sweep (`Cursored.sweep_looks`).
-/

set_option autoImplicit false

/-- A window `from_ ≤ · < to_`, and where the item is when it is looked at. -/
structure Look where
  from_ : Nat
  to_ : Nat
  place : Nat
  deriving DecidableEq

namespace Look

def Sees (x : Look) : Prop := x.from_ ≤ x.place ∧ x.place < x.to_

instance (x : Look) : Decidable x.Sees := inferInstanceAs (Decidable (_ ∧ _))

end Look

/-- What one window contributes, when the item is in one place only. -/
theorem count_window {α : Type*} [BEq α] [LawfulBEq α] {f : Nat → List α} {a : α} {p : Nat}
    (hf : ∀ j, (f j).count a = if j = p then 1 else 0) (i m : Nat) :
    ((List.range' i m).flatMap f).count a = if i ≤ p ∧ p < i + m then 1 else 0 := by
  induction m generalizing i with
  | zero =>
    rw [if_neg (by omega)]
    exact List.count_nil
  | succ m ih =>
    rw [List.range'_succ, List.flatMap_cons, List.count_append, ih, hf]
    by_cases hp : i = p
    · rw [if_pos hp, if_neg (by omega), if_pos (by omega)]
    · rw [if_neg hp]
      by_cases hw : i + 1 ≤ p ∧ p < i + 1 + m
      · rw [if_pos hw, if_pos (by omega)]
      · rw [if_neg hw, if_neg (by omega)]

def Sweep : Nat → List Look → Prop
  | _, [] => False
  | i, [x] => x.from_ = i ∧ x.place < x.to_
  | i, x :: y :: l => x.from_ = i ∧ Sweep x.to_ (y :: l)

/-- An item that the sweep has yet to reach is not moved behind it. -/
def StaysAhead (l : List Look) : Prop :=
  l.IsChain fun x y => x.to_ ≤ x.place → x.to_ ≤ y.place

namespace Sweep

variable {i p : Nat} {x : Look} {l : List Look}

theorem from_eq (h : Sweep i (x :: l)) : x.from_ = i := by
  cases l with
  | nil => exact h.1
  | cons y l => exact h.1

theorem sees (h : Sweep i (x :: l)) (ha : StaysAhead (x :: l)) (hi : i ≤ x.place) :
    ∃ y ∈ x :: l, y.Sees := by
  induction l generalizing i x with
  | nil => exact ⟨x, .head _, by rw [h.1]; exact hi, h.2⟩
  | cons y l ih =>
    rcases Nat.lt_or_ge x.place x.to_ with hlt | hge
    · exact ⟨x, .head _, by rw [h.1]; exact hi, hlt⟩
    · obtain ⟨hxy, hrest⟩ := List.isChain_cons_cons.1 ha
      obtain ⟨z, hz, hs⟩ := ih h.2 hrest (hxy hge)
      exact ⟨z, .tail _ hz, hs⟩

/-- Behind the sweep there is nothing to see. -/
theorem sees_none (h : Sweep i l) (hw : ∀ x ∈ l, x.from_ ≤ x.to_) (hp : ∀ x ∈ l, x.place = p)
    (hi : p < i) : l.countP (fun x => decide x.Sees) = 0 := by
  induction l generalizing i with
  | nil => rfl
  | cons x l ih =>
    have hx : ¬x.Sees := fun hs => by
      have h₁ := hs.1
      rw [h.from_eq, hp x (.head _)] at h₁
      omega
    rw [List.countP_cons_of_neg (by simpa using hx)]
    cases l with
    | nil => rfl
    | cons y l =>
      have hle := hw x (.head _)
      rw [h.1] at hle
      exact ih h.2 (fun z hz => hw z (.tail _ hz)) (fun z hz => hp z (.tail _ hz)) (by omega)

theorem sees_once (h : Sweep i l) (hw : ∀ x ∈ l, x.from_ ≤ x.to_) (hp : ∀ x ∈ l, x.place = p)
    (hi : i ≤ p) : l.countP (fun x => decide x.Sees) = 1 := by
  induction l generalizing i with
  | nil => exact h.elim
  | cons x l ih =>
    have hx := hp x (.head _)
    cases l with
    | nil =>
      have hs : x.Sees := ⟨by rw [h.1, hx]; exact hi, h.2⟩
      rw [List.countP_cons_of_pos (by simpa using hs), List.countP_nil]
    | cons y l =>
      have hw' := fun z hz => hw z (.tail _ hz)
      have hp' := fun z hz => hp z (.tail _ hz)
      rcases Nat.lt_or_ge p x.to_ with hlt | hge
      · have hs : x.Sees := ⟨by rw [h.1, hx]; exact hi, by rw [hx]; exact hlt⟩
        rw [List.countP_cons_of_pos (by simpa using hs), sees_none h.2 hw' hp' hlt]
      · have hs : ¬x.Sees := fun hs => by
          have h₂ := hs.2
          rw [hx] at h₂
          omega
        rw [List.countP_cons_of_neg (by simpa using hs), ih h.2 hw' hp' hge]

end Sweep

/-! ## Iterations with a cursor -/

/-- An iteration over a changing state: a turn at a cursor replies with what it returns and the next cursor,
and leaves the state that the next turn begins with. -/
structure Cursored (σ τ α : Type*) where
  reply : σ → Nat → τ → List α × Nat
  after : σ → Nat → τ → σ

namespace Cursored

variable {σ τ α : Type*}

section
variable (w : Cursored σ τ α)

/-- What the turns return. -/
def returned (s : σ) (cursor : Nat) : List τ → List α
  | [] => []
  | x :: xs => (w.reply s cursor x).1 ++ returned (w.after s cursor x) (w.reply s cursor x).2 xs

/-- The iteration goes on until a cursor is `0`. -/
def Full (s : σ) (cursor : Nat) : List τ → Prop
  | [] => False
  | x :: xs =>
    if (w.reply s cursor x).2 = 0 then xs = [] else Full (w.after s cursor x) (w.reply s cursor x).2 xs

/-- What holds of each turn, with the state and the cursor it begins with. -/
def Each (P : σ → Nat → τ → Prop) (s : σ) (cursor : Nat) : List τ → Prop
  | [] => True
  | x :: xs => P s cursor x ∧ Each P (w.after s cursor x) (w.reply s cursor x).2 xs

/-- The windows of the turns, and where an item is at each. -/
def looks (place : σ → τ → Nat) (width : τ → Nat) (s : σ) (cursor : Nat) : List τ → List Look
  | [] => []
  | x :: xs => ⟨cursor, cursor + width x, place s x⟩ ::
      looks place width (w.after s cursor x) (w.reply s cursor x).2 xs

/-- A turn returns an item once if it is in its window, and else not at all; the next cursor is the end of the
window, or `0` behind the item. -/
structure Shows [BEq α] (a : α) (place : σ → τ → Nat) (width : τ → Nat) (s : σ) (cursor : Nat) (x : τ) :
    Prop where
  count : (w.reply s cursor x).1.count a =
    if cursor ≤ place s x ∧ place s x < cursor + width x then 1 else 0
  next : ((w.reply s cursor x).2 = 0 ∧ place s x < cursor + width x) ∨
    ((w.reply s cursor x).2 = cursor + width x ∧ cursor + width x ≠ 0)

end

variable {w : Cursored σ τ α} {P Q : σ → Nat → τ → Prop} {place : σ → τ → Nat} {width : τ → Nat} {a : α}
  {s : σ} {cursor : Nat} {turns : List τ}

theorem Each.mono (h : w.Each P s cursor turns) (hPQ : ∀ s i x, P s i x → Q s i x) :
    w.Each Q s cursor turns := by
  induction turns generalizing s cursor with
  | nil => trivial
  | cons x turns ih => exact ⟨hPQ _ _ _ h.1, ih h.2⟩

theorem from_le_to {x : Look} (hx : x ∈ w.looks place width s cursor turns) : x.from_ ≤ x.to_ := by
  induction turns generalizing s cursor with
  | nil => exact absurd hx List.not_mem_nil
  | cons y turns ih =>
    rcases List.mem_cons.1 hx with rfl | hx
    · exact Nat.le_add_right ..
    · exact ih hx

theorem place_of_mem_looks {p : Nat} (h : w.Each (fun s _ x => place s x = p) s cursor turns) :
    ∀ x ∈ w.looks place width s cursor turns, x.place = p := by
  induction turns generalizing s cursor with
  | nil => exact fun _ hx => absurd hx List.not_mem_nil
  | cons y turns ih =>
    intro x hx
    rcases List.mem_cons.1 hx with rfl | hx
    · exact h.1
    · exact ih h.2 x hx

variable [BEq α]

/-- What is returned of an item is what its sweep sees of it. -/
theorem count_returned (h : w.Each (w.Shows a place width) s cursor turns) :
    (w.returned s cursor turns).count a =
      (w.looks place width s cursor turns).countP fun x => decide x.Sees := by
  induction turns generalizing s cursor with
  | nil => rfl
  | cons x turns ih =>
    obtain ⟨hx, hrest⟩ := h
    unfold returned looks
    rw [List.count_append, hx.count, ih hrest, List.countP_cons, Nat.add_comm]
    exact congrArg _ (if_congr decide_eq_true_iff.symm rfl rfl)

theorem sweep_looks (h : w.Each (w.Shows a place width) s cursor turns) (hf : w.Full s cursor turns) :
    Sweep cursor (w.looks place width s cursor turns) := by
  induction turns generalizing s cursor with
  | nil => exact hf.elim
  | cons x turns ih =>
    obtain ⟨hx, hrest⟩ := h
    unfold Full at hf
    unfold looks
    split at hf
    · rename_i h0
      rw [hf]
      refine ⟨rfl, ?_⟩
      rcases hx.next with ⟨-, hlt⟩ | ⟨heq, hne⟩
      · exact hlt
      · exact absurd (heq.symm.trans h0) hne
    · rename_i h0
      have hsw := ih hrest hf
      cases turns with
      | nil => exact hf.elim
      | cons y turns =>
        refine ⟨rfl, ?_⟩
        rcases hx.next with ⟨hz, -⟩ | ⟨heq, -⟩
        · exact absurd hz h0
        · rw [heq] at hsw ⊢
          exact hsw

/-- **An item that stays where it is is returned once.** -/
theorem count_returned_one (h : w.Each (w.Shows a place width) s 0 turns) (hf : w.Full s 0 turns) {p : Nat}
    (hp : ∀ x ∈ w.looks place width s 0 turns, x.place = p) : (w.returned s 0 turns).count a = 1 := by
  rw [count_returned h]
  exact (sweep_looks h hf).sees_once (fun x hx => from_le_to hx) hp (Nat.zero_le _)

/-- **An iteration returns an item that is never moved behind the cursor.** -/
theorem mem_returned [LawfulBEq α] (h : w.Each (w.Shows a place width) s 0 turns) (hf : w.Full s 0 turns)
    (ha : StaysAhead (w.looks place width s 0 turns)) : a ∈ w.returned s 0 turns := by
  have hsw := sweep_looks h hf
  rw [← List.count_pos_iff, count_returned h, List.countP_pos_iff]
  cases hl : w.looks place width s 0 turns with
  | nil =>
    rw [hl] at hsw
    exact hsw.elim
  | cons x l =>
    rw [hl] at hsw ha
    obtain ⟨y, hy, hyp⟩ := hsw.sees ha (Nat.zero_le _)
    exact ⟨y, hy, by simpa using hyp⟩

end Cursored
