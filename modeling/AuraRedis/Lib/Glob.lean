import Mathlib.Computability.Language

/-!
# Patterns with stars

`Glob.lang` is the language of a pattern whose symbols are a star, any one letter and a given letter, over
any alphabet. The greedy matcher comes back to the last star only; `lang_forget` is why no earlier one is
needed: where a pattern has got past a stretch without a star to its next one, that star can take up whatever
an earlier one would have.
-/

set_option autoImplicit false

namespace Glob

inductive Sym (α : Type) where
  | star
  | any
  | one (a : α)
  deriving DecidableEq

variable {α : Type}

/-- The words of one symbol. -/
def Sym.lang : Sym α → Language α
  | star => ⊤
  | any => {s | ∃ a, s = [a]}
  | one a => {[a]}

/-- The language of a pattern. -/
def lang : List (Sym α) → Language α
  | [] => 1
  | x :: p => x.lang * lang p

/-- A symbol other than the star takes a letter. -/
def Sym.Takes (b : α) : Sym α → Prop
  | star => False
  | any => True
  | one a => a = b

variable {p q w : List (Sym α)} {s u v w' : List α}

@[simp] theorem mem_lang_nil : s ∈ lang ([] : List (Sym α)) ↔ s = [] := Language.mem_one s

theorem mem_lang_star : s ∈ lang (.star :: p) ↔ ∃ v, v <:+ s ∧ v ∈ lang p := by
  rw [lang, Language.mem_mul]
  constructor
  · rintro ⟨x, -, v, hv, rfl⟩
    exact ⟨v, List.suffix_append x v, hv⟩
  · rintro ⟨v, ⟨x, rfl⟩, hv⟩
    exact ⟨x, Set.mem_univ x, v, hv, rfl⟩

theorem mem_lang_cons {x : Sym α} (hx : x ≠ .star) :
    s ∈ lang (x :: p) ↔ ∃ b v, s = b :: v ∧ x.Takes b ∧ v ∈ lang p := by
  rw [lang, Language.mem_mul]
  cases x with
  | star => exact absurd rfl hx
  | any =>
    constructor
    · rintro ⟨_, ⟨b, rfl⟩, v, hv, rfl⟩
      exact ⟨b, v, rfl, trivial, hv⟩
    · rintro ⟨b, v, rfl, -, hv⟩
      exact ⟨[b], ⟨b, rfl⟩, v, hv, rfl⟩
  | one a =>
    constructor
    · rintro ⟨_, rfl, v, hv, rfl⟩
      exact ⟨a, v, rfl, rfl, hv⟩
    · rintro ⟨b, v, rfl, rfl, hv⟩
      exact ⟨[a], rfl, v, hv, rfl⟩

theorem cons_mem_lang_cons {x : Sym α} (hx : x ≠ .star) {b : α} :
    b :: s ∈ lang (x :: p) ↔ x.Takes b ∧ s ∈ lang p := by
  rw [mem_lang_cons hx]
  constructor
  · rintro ⟨_, _, hs, hb, hv⟩
    obtain ⟨rfl, rfl⟩ := List.cons.inj hs
    exact ⟨hb, hv⟩
  · rintro ⟨hb, hv⟩
    exact ⟨b, s, rfl, hb, hv⟩

theorem nil_mem_lang : [] ∈ lang p ↔ ∀ x ∈ p, x = .star := by
  induction p with
  | nil => simp
  | cons x p ih =>
    by_cases hx : x = .star
    · subst hx
      simp [mem_lang_star, ih]
    · simp [mem_lang_cons hx, hx]

/-- Behind a stretch without a star a word has as many letters as the stretch has symbols. -/
theorem drop_mem_lang (hw : ∀ x ∈ w, x ≠ .star) (hv : v ∈ lang (w ++ p)) :
    w.length ≤ v.length ∧ v.drop w.length ∈ lang p := by
  induction w generalizing v with
  | nil => exact ⟨Nat.zero_le _, hv⟩
  | cons x w ih =>
    obtain ⟨b, v, rfl, -, hv⟩ := (mem_lang_cons (hw x (.head _))).1 hv
    obtain ⟨hl, hd⟩ := ih (fun y hy => hw y (.tail _ hy)) hv
    exact ⟨Nat.succ_le_succ hl, hd⟩

/-- **An earlier star is not needed**: what is left of a word behind the stretch `w` is one for the star that
follows it, wherever the word began. -/
theorem lang_forget (hw : ∀ x ∈ w, x ≠ .star) (hlen : w'.length = w.length) (hv : v <:+ w' ++ s)
    (h : v ∈ lang (w ++ .star :: p)) : s ∈ lang (.star :: p) := by
  obtain ⟨hl, hd⟩ := drop_mem_lang hw h
  obtain ⟨z, hz, hp⟩ := mem_lang_star.1 hd
  have hs : z.length ≤ s.length := by
    have h₁ := hz.length_le
    have h₂ := hv.length_le
    rw [List.length_drop] at h₁
    rw [List.length_append] at h₂
    omega
  have hz : z <:+ w' ++ s := (hz.trans (List.drop_suffix _ v)).trans hv
  exact mem_lang_star.2 ⟨z, List.suffix_of_suffix_length_le hz (List.suffix_append w' s) hs, hp⟩

end Glob
