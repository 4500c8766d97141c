import AuraRedis.Lib.Prog
import Mathlib.Logic.Relation

/-!
# Runs seen through a view

A view keeps part of the states. `Moves` says what each effect may answer, and what it may do to the view;
`Prog.Wp M p Q v` that whatever `p` returns from the view `v`, and the view it leaves, are as `Q` says. The rules
follow the program, and `Wp.run` carries the result to the runs of any handler that the moves abstract.
-/

set_option autoImplicit false

/-- What an effect may answer, and where it may lead. -/
abbrev Moves {E : Type} (A : E → Type) (ν : Type) : Type := (e : E) → ν → A e → ν → Prop

/-- The handler does to the view what the moves say. -/
def Moves.Abstracts {E : Type} {A : E → Type} {ν σ : Type} (M : Moves A ν) (h : (e : E) → σ → σ × A e)
    (view : σ → ν) : Prop :=
  ∀ e s, M e (view s) (h e s).2 (view (h e s).1)

/-- The effect leaves every view as it is. -/
def Moves.Quiet {E : Type} {A : E → Type} {ν : Type} (M : Moves A ν) (e : E) : Prop := ∀ v a v', M e v a v' → v' = v

namespace Prog

variable {E : Type} {A : E → Type} {ν σ α β : Type} {M : Moves A ν}

def Wp (M : Moves A ν) : Prog A α → (α → ν → Prop) → ν → Prop
  | ret a, Q, v => Q a v
  | fail, _, _ => True
  | step e k, Q, v => ∀ a v', M e v a v' → (k a).Wp M Q v'

theorem wp_bind (p : Prog A α) (f : α → Prog A β) (Q : β → ν → Prop) (v : ν) :
    (p >>= f).Wp M Q v ↔ p.Wp M (fun a => (f a).Wp M Q) v := by
  induction p generalizing v with
  | ret a => exact Iff.rfl
  | fail => exact Iff.rfl
  | step e k ih => exact forall_congr' fun a => forall_congr' fun v' => imp_congr_right fun _ => ih a v'

namespace Wp

variable {p q : Prog A α} {f : α → Prog A β} {Q Q' : α → ν → Prop} {R : β → ν → Prop} {v : ν}

theorem ret {a : α} (h : Q a v) : (Prog.ret a : Prog A α).Wp M Q v := h

theorem mono (h : p.Wp M Q v) (hQ : ∀ a v', Q a v' → Q' a v') : p.Wp M Q' v := by
  induction p generalizing v with
  | ret a => exact hQ a v h
  | fail => trivial
  | step e k ih => exact fun a v' hm => ih a (h a v' hm)

theorem bind (h : p.Wp M (fun a => (f a).Wp M R) v) : (p >>= f).Wp M R v := (wp_bind p f R v).2 h

/-- One after the other, by the specification of the first. -/
theorem seq (h : p.Wp M Q v) (hf : ∀ a v', Q a v' → (f a).Wp M R v') : (p >>= f).Wp M R v := bind (h.mono hf)

theorem ite {b : Prop} [Decidable b] (hp : b → p.Wp M Q v) (hq : ¬b → q.Wp M Q v) :
    (if b then p else q).Wp M Q v := by
  split
  · exact hp ‹_›
  · exact hq ‹_›

/-- A program of effects that leave the view alone leaves it alone. -/
theorem of_quiet (hp : p.Only M.Quiet) (h : ∀ a, Q a v) : p.Wp M Q v := by
  induction p generalizing v with
  | ret a => exact h a
  | fail => trivial
  | step e k ih =>
    intro a v' hm
    rw [hp.1 v a v' hm]
    exact ih a (hp.2 a) h

/-- What these effects keep, the program keeps. -/
theorem of_only {P : E → Prop} {I : ν → Prop} (hI : ∀ e v a v', P e → M e v a v' → I v → I v') (hp : p.Only P)
    (hv : I v) : p.Wp M (fun _ => I) v := by
  induction p generalizing v with
  | ret a => exact hv
  | fail => trivial
  | step e k ih => exact fun a v' hm => ih a (hp.2 a) (hI e v a v' hp.1 hm hv)

theorem quiet (hp : p.Only M.Quiet) (h : ∀ a, (f a).Wp M R v) : (p >>= f).Wp M R v := bind (of_quiet hp h)

/-- **What is seen of a run**: a program that does not fail returns, and leaves in view, what `Q` says. -/
theorem run {h : (e : E) → σ → σ × A e} {view : σ → ν} (hM : M.Abstracts h view) {s : σ} (hp : p.Wp M Q (view s))
    {a : α} (ha : (p.run h s).2 = some a) : Q a (view (p.run h s).1) := by
  induction p generalizing s with
  | ret b =>
    obtain rfl : b = a := by simpa using ha
    exact hp
  | fail => simp at ha
  | step e k ih => exact ih (h e s).2 (hp _ _ (hM e s)) ha

end Wp

/-! ## Steps of views -/

/-- From the view `v`, the program ends in views that steps `R` lead to. -/
def Leads (M : Moves A ν) (R : ν → ν → Prop) (p : Prog A α) (v : ν) : Prop :=
  p.Wp M (fun _ => Relation.ReflTransGen R v) v

namespace Leads

variable {R : ν → ν → Prop} {p q : Prog A α} {f : α → Prog A β} {v : ν}

theorem ret (a : α) : (Prog.ret a : Prog A α).Leads M R v := Relation.ReflTransGen.refl

theorem of_quiet (hp : p.Only M.Quiet) : p.Leads M R v := Wp.of_quiet hp fun _ => .refl

theorem quiet (hp : p.Only M.Quiet) (hf : ∀ a, (f a).Leads M R v) : (p >>= f).Leads M R v := Wp.quiet hp hf

theorem andThen (hp : p.Leads M R v) (hf : ∀ a v', Relation.ReflTransGen R v v' → (f a).Leads M R v') :
    (p >>= f).Leads M R v :=
  Wp.seq hp fun a v' hv => (hf a v' hv).mono fun _ _ => hv.trans

theorem ite {b : Prop} [Decidable b] (hp : b → p.Leads M R v) (hq : ¬b → q.Leads M R v) :
    (if b then p else q).Leads M R v := Wp.ite hp hq

/-- What the program leads to after a step. -/
theorem after {v' : ν} (h : R v v') (hp : p.Leads M R v') : p.Wp M (fun _ => Relation.ReflTransGen R v) v' :=
  hp.mono fun _ _ => Relation.ReflTransGen.head h

end Leads

end Prog
