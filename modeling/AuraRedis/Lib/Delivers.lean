import AuraRedis.Lib.Prog

/-!
# Programs that return what a contract says

`Delivers C p Q` is `Meets C p Q` for a program that returns: it keeps its side of the contract, does not fail as
long as the handler keeps its own, and what it writes and returns is as `Q` says. `Delivers.run` is what that
comes to in a run, where the handler may keep its side only as long as something else holds (`Through`).
-/

set_option autoImplicit false

namespace Prog

variable {E : Type} {A : E → Type} {α β σ ω : Type}

/-- The program keeps its side and returns, and what it writes and returns is as `Q` says. -/
def Delivers (C : Contract A ω) : Prog A α → (List ω → α → Prop) → Prop
  | ret a, Q => Q [] a
  | fail, _ => False
  | step e k, Q => C.may e ∧ ∀ a, C.answers e a → (k a).Delivers C fun o b => Q (C.writes e a ++ o) b

/-- `P` holds before each effect of a run. -/
def Through (h : (e : E) → σ → σ × A e) (P : σ → Prop) : Prog A α → σ → Prop
  | ret _, _ => True
  | fail, _ => True
  | step e k, s => P s ∧ (k (h e s).2).Through h P (h e s).1

instance decidableThrough (h : (e : E) → σ → σ × A e) (P : σ → Prop) [DecidablePred P] :
    ∀ (p : Prog A α) (s : σ), Decidable (p.Through h P s)
  | ret _, _ => .isTrue trivial
  | fail, _ => .isTrue trivial
  | step e k, s => letI := decidableThrough h P (k (h e s).2) (h e s).1; inferInstanceAs (Decidable (_ ∧ _))

namespace Delivers

variable {C : Contract A ω} {p : Prog A α} {Q Q' : List ω → α → Prop}

theorem mono (hp : p.Delivers C Q) (hQ : ∀ o a, Q o a → Q' o a) : p.Delivers C Q' := by
  induction p generalizing Q Q' with
  | ret a => exact hQ [] a hp
  | fail => exact hp
  | step e k ih => exact ⟨hp.1, fun a ha => ih a (hp.2 a ha) fun o b => hQ _ b⟩

theorem bind {f : α → Prog A β} {Q : List ω → β → Prop}
    (hp : p.Delivers C fun o a => (f a).Delivers C fun o' b => Q (o ++ o') b) : (p >>= f).Delivers C Q := by
  induction p generalizing Q with
  | ret a => exact hp
  | fail => exact hp
  | step e k ih =>
    refine ⟨hp.1, fun a ha => ih a ((hp.2 a ha).mono fun o b hb => hb.mono fun o' b' hb' => ?_)⟩
    rwa [List.append_assoc] at hb'

theorem each {f : α → Prog A Unit} {P : List α → List ω → Prop} (h₀ : P [] []) {as : List α}
    (hf : ∀ a ∈ as, ∀ as, (f a).Delivers C fun o _ => ∀ o', P as o' → P (a :: as) (o ++ o')) :
    (each f as).Delivers C fun o _ => P as o := by
  induction as with
  | nil => exact h₀
  | cons a as ih =>
    refine .bind ((hf a (.head _) as).mono fun o _ ho => ?_)
    exact (ih fun b hb => hf b (.tail _ hb)).mono fun o' _ ho' => ho o' ho'

/-- A program that returns leaves nothing to attempt. -/
theorem attempt {Q : List ω → Option α → Prop} (hp : p.Delivers C fun o a => Q o (some a)) :
    p.attempt.Delivers C Q := by
  induction p generalizing Q with
  | ret a => exact hp
  | fail => exact hp.elim
  | step e k ih => exact ⟨hp.1, fun a ha => ih a (hp.2 a ha)⟩

/-- **What a run writes and returns**, when the handler keeps its side where `P` holds, and `P` holds throughout. -/
theorem run {h : (e : E) → σ → σ × A e} {I P : σ → Prop} {f : σ → List ω} (hp : p.Delivers C Q)
    (hC : ∀ e s, I s → P s → C.may e →
      I (h e s).1 ∧ C.answers e (h e s).2 ∧ f (h e s).1 = f s ++ C.writes e (h e s).2)
    {s : σ} (hs : I s) (hP : p.Through h P s) :
    I (p.run h s).1 ∧ ∃ o a, (p.run h s).2 = some a ∧ f (p.run h s).1 = f s ++ o ∧ Q o a := by
  induction p generalizing s Q with
  | ret a => exact ⟨hs, [], a, rfl, (List.append_nil _).symm, hp⟩
  | fail => exact hp.elim
  | step e k ih =>
    obtain ⟨hI, ha, ho⟩ := hC e s hs hP.1 hp.1
    obtain ⟨hI', o, b, hb, hout, hq⟩ := ih (h e s).2 (hp.2 _ ha) hI hP.2
    refine ⟨hI', C.writes e (h e s).2 ++ o, b, hb, ?_, hq⟩
    rw [← List.append_assoc, ← ho]
    exact hout

end Delivers

end Prog
