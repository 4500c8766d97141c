import AuraRedis.Lib.Incremental

/-!
# Messages one after the other

`Extends P`: what a parser makes of a message does not depend on what comes after it. `Parses P s as rest`: off the
front of the stream `s` come the messages `as`, and `rest` is left. With a parser that extends, more of a stream is
the same messages with more left (`Parses.append`), so a reader may take them off as they come (`Parses.snoc`).
-/

set_option autoImplicit false

universe u v w

variable {β : Type u} {α : Type v} {γ : Type w}

def Extends (P : List β → Parsed β α) : Prop := ∀ s a rest t, P s = .ok a rest → P (s ++ t) = .ok a (rest ++ t)

namespace Extends

theorem pure (a : α) : Extends fun s : List β => .ok a s := by
  intro s b rest t h
  cases h
  rfl

theorem error : Extends fun _ : List β => (.error : Parsed β α) := fun _ _ _ _ h => by cases h

theorem andThen {P : List β → Parsed β α} {Q : α → List β → Parsed β γ} (hP : Extends P) (hQ : ∀ a, Extends (Q a)) :
    Extends fun s => (P s).andThen Q := by
  intro s c rest t h
  obtain ⟨a, r, hp, hq⟩ := Parsed.andThen_eq_ok h
  dsimp only
  rw [hP s a r t hp, Parsed.andThen_ok]
  exact hQ a r c rest t hq

theorem ite {b : Prop} [Decidable b] {P Q : List β → Parsed β α} (hP : Extends P) (hQ : Extends Q) :
    Extends fun s => if b then P s else Q s := by
  split
  · exact hP
  · exact hQ

end Extends

inductive Parses (P : List β → Parsed β α) : List β → List α → List β → Prop
  | nil (s : List β) : Parses P s [] s
  | cons {s r rest : List β} {a : α} {as : List α} : P s = .ok a r → Parses P r as rest → Parses P s (a :: as) rest

namespace Parses

variable {P : List β → Parsed β α} {s r rest : List β} {a : α} {as : List α}

/-- More of the stream. -/
theorem append (hP : Extends P) (h : Parses P s as rest) (t : List β) : Parses P (s ++ t) as (rest ++ t) := by
  induction h with
  | nil s => exact .nil _
  | cons hs _ ih => exact .cons (hP _ _ _ t hs) ih

/-- One more message. -/
theorem snoc (h : Parses P s as r) (hr : P r = .ok a rest) : Parses P s (as ++ [a]) rest := by
  induction h with
  | nil s => exact .cons hr (.nil rest)
  | cons hs _ ih => exact .cons hs (ih hr)

end Parses
