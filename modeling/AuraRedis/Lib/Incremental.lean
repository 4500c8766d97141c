import Mathlib.Data.Set.Image
import Mathlib.Data.List.Basic

/-!
# Incremental parsers

A parser over a buffer that may still grow answers `incomplete` when it needs more input, `error`
when no continuation can help, and `ok` with the unconsumed rest; `undefined` is for what its
language leaves undefined. `Reads P w a E` says what such a parser does on every prefix of a word
`w` it should accept as `a`: past the end of `w` it returns `a` (`Reads.ok`), and on a strict prefix
it answers `incomplete`, save on the prefixes in `E`, where it answers `error` (`Reads.cut`). A
parser that may be fed in pieces has `E = ∅`.

`Reads.seq` runs one parser after the other.
-/

set_option autoImplicit false

universe u v w

/-- What a parser says about the input it has so far. -/
inductive Parsed (β : Type u) (α : Type v) where
  | incomplete
  | error
  | undefined
  | ok (a : α) (rest : List β)
  deriving DecidableEq, Repr

namespace Parsed

variable {β : Type u} {α : Type v} {γ : Type w}

def andThen : Parsed β α → (α → List β → Parsed β γ) → Parsed β γ
  | incomplete, _ => incomplete
  | error, _ => error
  | undefined, _ => undefined
  | ok a rest, k => k a rest

@[simp] theorem andThen_incomplete (k : α → List β → Parsed β γ) :
    (incomplete : Parsed β α).andThen k = incomplete := rfl

@[simp] theorem andThen_error (k : α → List β → Parsed β γ) :
    (error : Parsed β α).andThen k = error := rfl

@[simp] theorem andThen_undefined (k : α → List β → Parsed β γ) :
    (undefined : Parsed β α).andThen k = undefined := rfl

@[simp] theorem andThen_ok (a : α) (rest : List β) (k : α → List β → Parsed β γ) :
    (ok a rest).andThen k = k a rest := rfl

theorem andThen_eq_ok {p : Parsed β α} {k : α → List β → Parsed β γ} {c : γ} {rest : List β}
    (h : p.andThen k = ok c rest) : ∃ a r, p = ok a r ∧ k a r = ok c rest := by
  cases p with
  | incomplete => cases h
  | error => cases h
  | undefined => cases h
  | ok a r => exact ⟨a, r, rfl, h⟩

theorem andThen_defined {p : Parsed β α} {k : α → List β → Parsed β γ} (hp : p ≠ .undefined)
    (hk : ∀ a s, k a s ≠ .undefined) : p.andThen k ≠ .undefined := by
  cases p with
  | incomplete | error => simp
  | undefined => exact absurd rfl hp
  | ok a s => exact hk a s

end Parsed

/-- What the parser leaves is the end of what it was given. -/
def Consumes {β : Type u} {α : Type v} (P : List β → Parsed β α) : Prop :=
  ∀ s a rest, P s = .ok a rest → rest <:+ s

namespace Consumes

variable {β : Type u} {α : Type v} {γ : Type w}

theorem pure (a : α) : Consumes fun s : List β => .ok a s := by
  intro s b rest h
  cases h
  exact List.suffix_refl s

theorem andThen {P : List β → Parsed β α} {Q : α → List β → Parsed β γ} (hP : Consumes P)
    (hQ : ∀ a, Consumes (Q a)) : Consumes fun s => (P s).andThen Q := by
  intro s c rest h
  obtain ⟨a, r, hp, hq⟩ := Parsed.andThen_eq_ok h
  exact (hQ a r c rest hq).trans (hP s a r hp)

end Consumes

/-- `v` is a prefix of `w`, and not the whole of it. -/
def StrictPrefix {β : Type u} (v w : List β) : Prop := v <+: w ∧ v ≠ w

namespace StrictPrefix

variable {β : Type u} {v w x : List β}

theorem length_lt (h : StrictPrefix v w) : v.length < w.length :=
  Nat.lt_of_le_of_ne h.1.length_le fun he => h.2 (h.1.eq_of_length he)

theorem append_left (h : StrictPrefix v w) (x : List β) : StrictPrefix (x ++ v) (x ++ w) :=
  ⟨(List.prefix_append_right_inj x).2 h.1, fun he => h.2 (List.append_cancel_left he)⟩

theorem append_right (h : StrictPrefix v w) (x : List β) : StrictPrefix v (w ++ x) :=
  ⟨h.1.trans (List.prefix_append _ _), fun he => by
    have := h.length_lt
    rw [he, List.length_append] at this
    omega⟩

theorem not_nil (h : StrictPrefix v []) : False := h.2 (List.prefix_nil.1 h.1)

/-- A strict prefix of `w ++ x` ends inside `w`, or `w` is over and it ends inside `x`. -/
theorem of_append (h : StrictPrefix v (w ++ x)) :
    StrictPrefix v w ∨ ∃ y, v = w ++ y ∧ StrictPrefix y x := by
  obtain ⟨⟨t, ht⟩, hne⟩ := h
  rcases List.append_eq_append_iff.1 ht with ⟨z, rfl, rfl⟩ | ⟨z, rfl, rfl⟩
  · cases z with
    | nil => exact .inr ⟨[], by simp, List.nil_prefix, fun hx => hne (by simp [← hx])⟩
    | cons b z => exact .inl ⟨⟨_, rfl⟩, by simp⟩
  · exact .inr ⟨z, rfl, ⟨_, rfl⟩, fun he => hne (congrArg (w ++ ·) he)⟩

theorem of_cons {a : β} (h : StrictPrefix v (a :: w)) :
    v = [] ∨ ∃ y, v = a :: y ∧ StrictPrefix y w := by
  cases v with
  | nil => exact .inl rfl
  | cons b v =>
    obtain ⟨rfl, hp⟩ := List.cons_prefix_cons.1 h.1
    exact .inr ⟨v, rfl, hp, fun he => h.2 (by rw [he])⟩

end StrictPrefix

/-- **What parser `P` does around the word `w`**, which it should read as `a`: `E` is the set of
strict prefixes it rejects instead of asking for more. -/
structure Reads {β : Type u} {α : Type v} (P : List β → Parsed β α) (w : List β) (a : α)
    (E : Set (List β)) : Prop where
  ok : ∀ rest, P (w ++ rest) = .ok a rest
  cut : ∀ p, StrictPrefix p w → (p ∈ E → P p = .error) ∧ (p ∉ E → P p = .incomplete)
  sub : ∀ p ∈ E, StrictPrefix p w

namespace Reads

variable {β : Type u} {α : Type v} {γ : Type w}

theorem exact {P : List β → Parsed β α} {w : List β} {a : α} {E : Set (List β)}
    (h : Reads P w a E) : P w = .ok a [] := by
  simpa using h.ok []

theorem congr {P Q : List β → Parsed β α} {w : List β} {a : α} {E : Set (List β)}
    (h : Reads P w a E) (hP : ∀ s, Q s = P s) : Reads Q w a E :=
  ⟨fun rest => by rw [hP]; exact h.ok rest, fun p hp => by rw [hP]; exact h.cut p hp, h.sub⟩

theorem pure (a : α) : Reads (fun s : List β => .ok a s) [] a ∅ :=
  ⟨fun _ => rfl, fun _ hp => hp.not_nil.elim, fun _ h => h.elim⟩

/-- One parser after the other. -/
theorem seq {P : List β → Parsed β α} {Q : α → List β → Parsed β γ} {w v : List β} {a : α} {b : γ}
    {E F : Set (List β)} (hP : Reads P w a E) (hQ : Reads (Q a) v b F) :
    Reads (fun s => (P s).andThen Q) (w ++ v) b (E ∪ (w ++ ·) '' F) := by
  refine ⟨fun rest => ?_, fun p hp => ?_, ?_⟩
  · show (P _).andThen Q = _
    rw [List.append_assoc, hP.ok, Parsed.andThen_ok, hQ.ok]
  · rcases hp.of_append with hw | ⟨y, rfl, hy⟩
    · have hlt := hw.length_lt
      refine ⟨?_, fun hn => ?_⟩
      · rintro (hE | ⟨z, -, rfl⟩)
        · simp [(hP.cut p hw).1 hE]
        · simp only [List.length_append] at hlt; omega
      · simp [(hP.cut p hw).2 fun hE => hn (.inl hE)]
    · refine ⟨?_, fun hn => ?_⟩
      · rintro (hE | ⟨z, hz, he⟩)
        · have := (hP.sub _ hE).length_lt
          simp only [List.length_append] at this; omega
        · obtain rfl : z = y := List.append_cancel_left he
          simp [hP.ok, (hQ.cut z hy).1 hz]
      · simp [hP.ok, (hQ.cut y hy).2 fun hF => hn (.inr ⟨y, hF, rfl⟩)]
  · rintro p (hE | ⟨z, hz, rfl⟩)
    · exact (hP.sub p hE).append_right v
    · exact (hQ.sub z hz).append_left w

/-- A parser whose result is used otherwise. -/
theorem map {P : List β → Parsed β α} {w : List β} {a : α} {E : Set (List β)} (h : Reads P w a E)
    (f : α → γ) : Reads (fun s => (P s).andThen fun a s => .ok (f a) s) w (f a) E := by
  simpa using h.seq (Q := fun a s => .ok (f a) s) (Reads.pure (f a))

theorem seq_clean {P : List β → Parsed β α} {Q : α → List β → Parsed β γ} {w v : List β} {a : α}
    {b : γ} (hP : Reads P w a ∅) (hQ : Reads (Q a) v b ∅) :
    Reads (fun s => (P s).andThen Q) (w ++ v) b ∅ := by
  simpa using hP.seq hQ

end Reads
