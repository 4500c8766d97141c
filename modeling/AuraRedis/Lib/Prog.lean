import Mathlib.Data.List.Basic

/-!
# Programs over a set of effects

A `Prog A α` performs effects `e : E`, each answered by an `A e`, and returns an `α` or fails. `Prog.run`
interprets it over a state by a handler of the effects. These rules say what a run does without a look at
the handler's other states: `run_invariant`, for what every effect keeps, `Only.run_invariant`, for what
the effects of one program keep, and `Meets.run`, for what a program writes when its effects are those of a
`Contract` (`Obeys.run_invariant`, where it is no matter what it writes).
-/

set_option autoImplicit false

inductive Prog {E : Type} (A : E → Type) (α : Type) where
  | ret (a : α)
  | fail
  | step (e : E) (k : A e → Prog A α)

namespace Prog

variable {E : Type} {A : E → Type} {α β γ σ ω : Type}

/-! ## Composition -/

def bind : Prog A α → (α → Prog A β) → Prog A β
  | ret a, f => f a
  | fail, _ => fail
  | step e k, f => step e fun a => (k a).bind f

instance : Monad (Prog A) where
  pure := ret
  bind := bind

/-- One effect. -/
def perform (e : E) : Prog A (A e) := step e ret

/-- The program, with its failure as an answer. -/
def attempt : Prog A α → Prog A (Option α)
  | ret a => ret (some a)
  | fail => ret none
  | step e k => step e fun a => (k a).attempt

/-- For one after the other. -/
def each (f : α → Prog A Unit) : List α → Prog A Unit
  | [] => ret ()
  | a :: as => f a >>= fun _ => each f as

@[simp] theorem pure_eq (a : α) : (pure a : Prog A α) = ret a := rfl

@[simp] theorem ret_bind (a : α) (f : α → Prog A β) : (ret a >>= f) = f a := rfl

@[simp] theorem fail_bind (f : α → Prog A β) : ((fail : Prog A α) >>= f) = fail := rfl

@[simp] theorem step_bind (e : E) (k : A e → Prog A α) (f : α → Prog A β) :
    (step e k >>= f) = step e fun a => k a >>= f := rfl

@[simp] theorem perform_bind (e : E) (f : A e → Prog A β) : (perform e >>= f) = step e f := rfl

theorem bind_assoc (p : Prog A α) (f : α → Prog A β) (g : β → Prog A γ) :
    (p >>= f >>= g) = p >>= fun a => f a >>= g := by
  induction p with
  | ret a => rfl
  | fail => rfl
  | step e k ih => exact congrArg (step e) (funext ih)

theorem bind_ret (p : Prog A α) : (p >>= ret) = p := by
  induction p with
  | ret a => rfl
  | fail => rfl
  | step e k ih => exact congrArg (step e) (funext ih)

instance : LawfulMonad (Prog A) :=
  LawfulMonad.mk' _ (fun p => bind_ret p) (fun _ _ => rfl) bind_assoc

/-! ## Runs -/

/-- The state a run ends in, and what it returns. -/
def run (h : (e : E) → σ → σ × A e) : Prog A α → σ → σ × Option α
  | ret a, s => (s, some a)
  | fail, s => (s, none)
  | step e k, s => (k (h e s).2).run h (h e s).1

section
variable (h : (e : E) → σ → σ × A e)

@[simp] theorem run_ret (a : α) (s : σ) : (ret a : Prog A α).run h s = (s, some a) := rfl

@[simp] theorem run_fail (s : σ) : (fail : Prog A α).run h s = (s, none) := rfl

theorem run_step (e : E) (k : A e → Prog A α) (s : σ) :
    (step e k).run h s = (k (h e s).2).run h (h e s).1 := rfl

theorem run_perform (e : E) (s : σ) : (perform e).run h s = ((h e s).1, some (h e s).2) := rfl

theorem run_bind (p : Prog A α) (f : α → Prog A β) (s : σ) :
    (p >>= f).run h s =
      match (p.run h s).2 with
      | some a => (f a).run h (p.run h s).1
      | none => ((p.run h s).1, none) := by
  induction p generalizing s with
  | ret a => rfl
  | fail => rfl
  | step e k ih => exact ih (h e s).2 (h e s).1

theorem run_bind_of_some {p : Prog A α} {f : α → Prog A β} {s : σ} {a : α} (ha : (p.run h s).2 = some a) :
    (p >>= f).run h s = (f a).run h (p.run h s).1 := by rw [run_bind, ha]

theorem run_attempt (p : Prog A α) (s : σ) :
    p.attempt.run h s = ((p.run h s).1, some (p.run h s).2) := by
  induction p generalizing s with
  | ret a => rfl
  | fail => rfl
  | step e k ih => exact ih (h e s).2 (h e s).1

/-- **What every effect keeps, every run keeps.** -/
theorem run_invariant {I : σ → Prop} (hI : ∀ e s, I s → I (h e s).1) (p : Prog A α) {s : σ} (hs : I s) :
    I (p.run h s).1 := by
  induction p generalizing s with
  | ret a => exact hs
  | fail => exact hs
  | step e k ih => exact ih (h e s).2 (hI e s hs)

end

/-! ## What a program returns -/

/-- Whatever the effects answer, what is returned is as `P` says. -/
def Returns (P : α → Prop) : Prog A α → Prop
  | ret a => P a
  | fail => True
  | step _ k => ∀ a, (k a).Returns P

namespace Returns

variable {P : α → Prop} {p : Prog A α}

theorem mono {P' : α → Prop} (hp : p.Returns P) (h : ∀ a, P a → P' a) : p.Returns P' := by
  induction p with
  | ret a => exact h a hp
  | fail => trivial
  | step e k ih => exact fun a => ih a (hp a)

theorem bind {Q : β → Prop} {f : α → Prog A β} (hp : p.Returns P) (hf : ∀ a, P a → (f a).Returns Q) :
    (p >>= f).Returns Q := by
  induction p with
  | ret a => exact hf a hp
  | fail => trivial
  | step e k ih => exact fun a => ih a (hp a)

theorem trivial (p : Prog A α) : p.Returns fun _ => True := by
  induction p with
  | ret a => exact True.intro
  | fail => exact True.intro
  | step e k ih => exact ih

/-- What follows a program need agree on what it returns only. -/
theorem bind_congr {f g : α → Prog A β} (hp : p.Returns P) (hfg : ∀ a, P a → f a = g a) :
    (p >>= f) = (p >>= g) := by
  induction p with
  | ret a => exact hfg a hp
  | fail => rfl
  | step e k ih => exact congrArg (Prog.step e) (funext fun a => ih a (hp a))

theorem run {h : (e : E) → σ → σ × A e} {s : σ} {a : α} (hp : p.Returns P)
    (ha : (p.run h s).2 = some a) : P a := by
  induction p generalizing s with
  | ret b =>
    cases ha
    exact hp
  | fail => cases ha
  | step e k ih => exact ih (h e s).2 (hp _) ha

end Returns

/-! ## Programs that return -/

/-- The program does not fail of itself. -/
def Succeeds : Prog A α → Prop
  | ret _ => True
  | fail => False
  | step _ k => ∀ a, (k a).Succeeds

namespace Succeeds

variable {p q : Prog A α}

theorem bind {f : α → Prog A β} (hp : p.Succeeds) (hf : ∀ a, (f a).Succeeds) : (p >>= f).Succeeds := by
  induction p with
  | ret a => exact hf a
  | fail => exact hp.elim
  | step e k ih => exact fun a => ih a (hp a)

theorem ite {b : Prop} [Decidable b] (hp : p.Succeeds) (hq : q.Succeeds) : (if b then p else q).Succeeds := by
  split
  · exact hp
  · exact hq

/-- A failure that is answered is none. -/
theorem attempt (p : Prog A α) : p.attempt.Succeeds := by
  induction p with
  | ret a => trivial
  | fail => trivial
  | step e k ih => exact ih

theorem each {f : α → Prog A Unit} (hf : ∀ a, (f a).Succeeds) (as : List α) : (Prog.each f as).Succeeds := by
  induction as with
  | nil => trivial
  | cons a as ih => exact (hf a).bind fun _ => ih

/-- **It returns in every run.** -/
theorem run {h : (e : E) → σ → σ × A e} (hp : p.Succeeds) (s : σ) : ∃ a, (p.run h s).2 = some a := by
  induction p generalizing s with
  | ret a => exact ⟨a, rfl⟩
  | fail => exact hp.elim
  | step e k ih => exact ih (h e s).2 (hp _) (h e s).1

end Succeeds

/-! ## The effects of a program -/

/-- Every effect that the program may come to is as `P` says. -/
def Only (P : E → Prop) : Prog A α → Prop
  | ret _ => True
  | fail => True
  | step e k => P e ∧ ∀ a, (k a).Only P

namespace Only

variable {P P' : E → Prop} {p : Prog A α}

theorem ret (P : E → Prop) (a : α) : (Prog.ret a : Prog A α).Only P := trivial

theorem fail (P : E → Prop) : (Prog.fail : Prog A α).Only P := trivial

theorem step {e : E} {k : A e → Prog A α} (he : P e) (hk : ∀ a, (k a).Only P) : (Prog.step e k).Only P :=
  ⟨he, hk⟩

theorem perform {e : E} (he : P e) : (Prog.perform e : Prog A (A e)).Only P := ⟨he, fun _ => trivial⟩

theorem bind {f : α → Prog A β} (hp : p.Only P) (hf : ∀ a, (f a).Only P) : (p >>= f).Only P := by
  induction p with
  | ret a => exact hf a
  | fail => trivial
  | step e k ih => exact ⟨hp.1, fun a => ih a (hp.2 a)⟩

theorem ite {q : Prog A α} {b : Prop} [Decidable b] (hp : p.Only P) (hq : q.Only P) :
    (if b then p else q).Only P := by
  split
  · exact hp
  · exact hq

theorem attempt (hp : p.Only P) : p.attempt.Only P := by
  induction p with
  | ret a => trivial
  | fail => trivial
  | step e k ih => exact ⟨hp.1, fun a => ih a (hp.2 a)⟩

theorem each_mem {f : α → Prog A Unit} {as : List α} (hf : ∀ a ∈ as, (f a).Only P) :
    (Prog.each f as).Only P := by
  induction as with
  | nil => trivial
  | cons a as ih => exact (hf a (.head _)).bind fun _ => ih fun b hb => hf b (.tail _ hb)

theorem each {f : α → Prog A Unit} (hf : ∀ a, (f a).Only P) (as : List α) : (Prog.each f as).Only P :=
  each_mem fun a _ => hf a

theorem mono (hp : p.Only P) (h : ∀ e, P e → P' e) : p.Only P' := by
  induction p with
  | ret a => trivial
  | fail => trivial
  | step e k ih => exact ⟨h e hp.1, fun a => ih a (hp.2 a)⟩

/-- **What these effects keep, a run of the program keeps.** -/
theorem run_invariant {h : (e : E) → σ → σ × A e} {I : σ → Prop} (hI : ∀ e s, P e → I s → I (h e s).1)
    (hp : p.Only P) {s : σ} (hs : I s) : I (p.run h s).1 := by
  induction p generalizing s with
  | ret a => exact hs
  | fail => exact hs
  | step e k ih => exact ih (h e s).2 (hp.2 _) (hI e s hp.1 hs)

/-- **Two runs**: states that these effects do not tell apart stay so, and what is returned is the same. -/
theorem run_pair {h : (e : E) → σ → σ × A e} {R : σ → σ → Prop}
    (hR : ∀ e s s', P e → R s s' → R (h e s).1 (h e s').1 ∧ (h e s).2 = (h e s').2) (hp : p.Only P) {s s' : σ}
    (hs : R s s') : R (p.run h s).1 (p.run h s').1 ∧ (p.run h s).2 = (p.run h s').2 := by
  induction p generalizing s s' with
  | ret a => exact ⟨hs, rfl⟩
  | fail => exact ⟨hs, rfl⟩
  | step e k ih =>
    obtain ⟨hs', ha⟩ := hR e s s' hp.1 hs
    rw [run_step, run_step, ha]
    exact ih (h e s').2 (hp.2 _) hs'

end Only

/-! ## Contracts -/

/-- What a program may ask for, what it is answered and what the effects write. -/
structure Contract (A : E → Type) (ω : Type) where
  may : E → Prop
  answers : (e : E) → A e → Prop
  writes : (e : E) → A e → List ω

/-- The handler keeps its side while `I` holds, and `out` is what has been written. -/
def Contract.Holds (C : Contract A ω) (h : (e : E) → σ → σ × A e) (I : σ → Prop) (out : σ → List ω) : Prop :=
  ∀ e s, I s → C.may e →
    I (h e s).1 ∧ C.answers e (h e s).2 ∧ out (h e s).1 = out s ++ C.writes e (h e s).2

/-- The program keeps its side, and what it writes and returns is as `Q` says. -/
def Meets (C : Contract A ω) : Prog A α → (List ω → α → Prop) → Prop
  | ret a, Q => Q [] a
  | fail, _ => True
  | step e k, Q => C.may e ∧ ∀ a, C.answers e a → (k a).Meets C fun o b => Q (C.writes e a ++ o) b

namespace Meets

variable {C : Contract A ω} {p : Prog A α} {Q Q' : List ω → α → Prop}

theorem mono (hp : p.Meets C Q) (hQ : ∀ o a, Q o a → Q' o a) : p.Meets C Q' := by
  induction p generalizing Q Q' with
  | ret a => exact hQ [] a hp
  | fail => trivial
  | step e k ih => exact ⟨hp.1, fun a ha => ih a (hp.2 a ha) fun o b => hQ _ b⟩

theorem bind {f : α → Prog A β} {Q : List ω → β → Prop}
    (hp : p.Meets C fun o a => (f a).Meets C fun o' b => Q (o ++ o') b) : (p >>= f).Meets C Q := by
  induction p generalizing Q with
  | ret a => exact hp
  | fail => trivial
  | step e k ih =>
    refine ⟨hp.1, fun a ha => ih a ((hp.2 a ha).mono fun o b hb => hb.mono fun o' b' hb' => ?_)⟩
    rwa [List.append_assoc] at hb'

theorem each {f : α → Prog A Unit} {as : List α} {P : List α → List ω → Prop} (h₀ : P [] [])
    (hf : ∀ a as, (f a).Meets C fun o _ => ∀ o', P as o' → P (a :: as) (o ++ o')) :
    (each f as).Meets C fun o _ => P as o := by
  induction as with
  | nil => exact h₀
  | cons a as ih => exact .bind ((hf a as).mono fun o _ ho => ih.mono fun o' _ ho' => ho o' ho')

theorem attempt (hp : p.Meets C Q) {Q' : List ω → Option α → Prop} (hs : ∀ o a, Q o a → Q' o (some a))
    (hn : ∀ o, Q' o none) : p.attempt.Meets C Q' := by
  induction p generalizing Q Q' with
  | ret a => exact hs [] a hp
  | fail => exact hn []
  | step e k ih =>
    exact ⟨hp.1, fun a ha => ih a (hp.2 a ha) (fun o b => hs _ b) fun o => hn _⟩

/-- **What a run writes.** -/
theorem run {h : (e : E) → σ → σ × A e} {I : σ → Prop} {out : σ → List ω} (hp : p.Meets C Q)
    (hC : C.Holds h I out) {s : σ} (hs : I s) :
    I (p.run h s).1 ∧ ∀ a, (p.run h s).2 = some a → ∃ o, out (p.run h s).1 = out s ++ o ∧ Q o a := by
  induction p generalizing s Q with
  | ret a =>
    refine ⟨hs, fun b hb => ?_⟩
    cases hb
    exact ⟨[], (List.append_nil _).symm, hp⟩
  | fail => exact ⟨hs, fun b hb => by cases hb⟩
  | step e k ih =>
    obtain ⟨hI, ha, ho⟩ := hC e s hs hp.1
    obtain ⟨hI', hrun⟩ := ih (h e s).2 (hp.2 _ ha) hI
    refine ⟨hI', fun b hb => ?_⟩
    obtain ⟨o, hout, hq⟩ := hrun b hb
    refine ⟨C.writes e (h e s).2 ++ o, ?_, hq⟩
    rw [← List.append_assoc, ← ho]
    exact hout

end Meets

/-- The program keeps its side, whatever it writes and returns. -/
def Obeys (C : Contract A ω) (p : Prog A α) : Prop := p.Meets C fun _ _ => True

namespace Obeys

variable {C : Contract A ω} {p : Prog A α}

theorem of_only {P : E → Prop} (hp : p.Only P) (hP : ∀ e, P e → C.may e) : p.Obeys C := by
  induction p with
  | ret a => trivial
  | fail => trivial
  | step e k ih => exact ⟨hP e hp.1, fun a _ => ih a (hp.2 a)⟩

theorem bind {f : α → Prog A β} (hp : p.Obeys C) (hf : ∀ a, (f a).Obeys C) : (p >>= f).Obeys C :=
  Meets.bind (Meets.mono hp fun _ a _ => hf a)

/-- After an effect, with its answer. -/
theorem step {e : E} {f : A e → Prog A β} (he : C.may e) (hf : ∀ a, C.answers e a → (f a).Obeys C) :
    (perform e >>= f).Obeys C := ⟨he, hf⟩

theorem ite {q : Prog A α} {b : Prop} [Decidable b] (hp : b → p.Obeys C) (hq : ¬b → q.Obeys C) :
    (if b then p else q).Obeys C := by
  split
  · exact hp ‹_›
  · exact hq ‹_›

theorem attempt (hp : p.Obeys C) : p.attempt.Obeys C := Meets.attempt hp (fun _ _ _ => trivial) fun _ => trivial

theorem each {f : α → Prog A Unit} {as : List α} (hf : ∀ a ∈ as, (f a).Obeys C) : (Prog.each f as).Obeys C := by
  induction as with
  | nil => trivial
  | cons a as ih => exact (hf a (.head _)).bind fun _ => ih fun b hb => hf b (.tail _ hb)

/-- **What a run keeps.** -/
theorem run_invariant {h : (e : E) → σ → σ × A e} {I : σ → Prop}
    (hI : ∀ e s, I s → C.may e → I (h e s).1 ∧ C.answers e (h e s).2) (hp : p.Obeys C) {s : σ} (hs : I s) :
    I (p.run h s).1 := by
  induction p generalizing s with
  | ret a => exact hs
  | fail => exact hs
  | step e k ih =>
    obtain ⟨hI', ha⟩ := hI e s hs hp.1
    exact ih (h e s).2 (hp.2 _ ha) hI'

end Obeys

end Prog
