import Mathlib.Data.List.Basic

/-!
# Two runs of a program

`Related R m m' T` says of two programs over a state that from states related by `R` they return and leave what is
related by `T`, and `Alike R m m' T` that they also return the same. Where `m'` is `m`, this is what a relation of states
hides from the program. `Leaves I m J` says the like of one run. All are closed under the ways to compose programs.
-/

set_option autoImplicit false

namespace StateM

variable {σ α β : Type}

theorem run_bind (m : StateM σ α) (f : α → StateM σ β) (s : σ) :
    (m >>= f).run s = (f (m.run s).1).run (m.run s).2 := rfl

/-! ## Two runs -/

def Related (R : σ → σ → Prop) (m m' : StateM σ α) (T : α → α → σ → σ → Prop) : Prop :=
  ∀ s s', R s s' → T (m.run s).1 (m'.run s').1 (m.run s).2 (m'.run s').2

def Alike (R : σ → σ → Prop) (m m' : StateM σ α) (T : α → σ → σ → Prop) : Prop :=
  Related R m m' fun a a' s s' => a = a' ∧ T a s s'

namespace Related

variable {R : σ → σ → Prop} {m m' : StateM σ α} {T : α → α → σ → σ → Prop} {U : β → β → σ → σ → Prop}

theorem ret {a a' : α} (h : ∀ s s', R s s' → T a a' s s') : Related R (pure a) (pure a') T := h

theorem bind {f f' : α → StateM σ β} (h : Related R m m' T) (hf : ∀ a a', Related (T a a') (f a) (f' a') U) :
    Related R (m >>= f) (m' >>= f') U := fun s s' hr => hf _ _ _ _ (h s s' hr)

theorem ite {c : Prop} [Decidable c] {n n' : StateM σ α} (ht : c → Related R m m' T) (hf : ¬c → Related R n n' T) :
    Related R (if c then m else n) (if c then m' else n') T := by
  split
  · next hc => exact ht hc
  · next hc => exact hf hc

end Related

namespace Alike

variable {R R' : σ → σ → Prop} {m m' : StateM σ α} {T T' : α → σ → σ → Prop} {U : β → σ → σ → Prop}

theorem ret {a : α} (h : ∀ s s', R s s' → T a s s') : Alike R (pure a) (pure a) T :=
  fun s s' hr => ⟨rfl, h s s' hr⟩

/-- What both return is the same, whatever comes after. -/
theorem followed {V : β → β → σ → σ → Prop} {f f' : α → StateM σ β} (h : Alike R m m' T)
    (hf : ∀ a, Related (T a) (f a) (f' a) V) : Related R (m >>= f) (m' >>= f') V := fun s s' hr => by
  obtain ⟨ha, ht⟩ := h s s' hr
  have hv := hf (m.run s).1 (m.run s).2 (m'.run s').2 ht
  rw [run_bind, run_bind, ← ha]
  exact hv

theorem bind {f f' : α → StateM σ β} (h : Alike R m m' T) (hf : ∀ a, Alike (T a) (f a) (f' a) U) :
    Alike R (m >>= f) (m' >>= f') U := h.followed hf

theorem mono (h : Alike R m m' T) (hr : ∀ s s', R' s s' → R s s') (ht : ∀ a s s', T a s s' → T' a s s') :
    Alike R' m m' T' := fun s s' hs => by
  obtain ⟨ha, hp⟩ := h s s' (hr s s' hs)
  exact ⟨ha, ht _ _ _ hp⟩

theorem post (h : Alike R m m' T) (ht : ∀ a s s', T a s s' → T' a s s') : Alike R m m' T' := h.mono (fun _ _ => id) ht

theorem change {f f' : σ → σ} {T : Unit → σ → σ → Prop} (h : ∀ s s', R s s' → T () (f s) (f' s')) :
    Alike R (modify f) (modify f') T := fun s s' hr => ⟨rfl, h s s' hr⟩

theorem get {f f' : σ → StateM σ α} (h : ∀ s s', R s s' → Alike R (f s) (f' s') T) :
    Alike R (MonadState.get >>= f) (MonadState.get >>= f') T := fun s s' hr => h s s' hr s s' hr

theorem ite {c : Prop} [Decidable c] {n n' : StateM σ α} (ht : c → Alike R m m' T) (hf : ¬c → Alike R n n' T) :
    Alike R (if c then m else n) (if c then m' else n') T := Related.ite ht hf

/-- A loop whose turns keep the relation. -/
theorem forIn {ι : Type} {xs : List ι} {f f' : ι → β → StateM σ (ForInStep β)} {b : β}
    (h : ∀ x b, Alike R (f x b) (f' x b) fun _ => R) : Alike R (forIn xs b f) (forIn xs b f') fun _ => R := by
  induction xs generalizing b with
  | nil =>
    rw [List.forIn_nil, List.forIn_nil]
    exact ret fun _ _ => id
  | cons x xs ih =>
    rw [List.forIn_cons, List.forIn_cons]
    refine (h x b).bind fun r => ?_
    cases r with
    | done b => exact ret fun _ _ => id
    | yield b => exact ih

end Alike

/-! ## One run -/

/-- From a state as `I` says, `m` returns and leaves what is as `J` says. -/
def Leaves (I : σ → Prop) (m : StateM σ α) (J : α → σ → Prop) : Prop := ∀ s, I s → J (m.run s).1 (m.run s).2

namespace Leaves

variable {I I' : σ → Prop} {m : StateM σ α} {J J' : α → σ → Prop}

theorem ret {a : α} (h : ∀ s, I s → J a s) : Leaves I (pure a) J := h

theorem bind {K : β → σ → Prop} {f : α → StateM σ β} (h : Leaves I m J) (hf : ∀ a, Leaves (J a) (f a) K) :
    Leaves I (m >>= f) K := fun s hi => hf _ _ (h s hi)

theorem mono (h : Leaves I m J) (hi : ∀ s, I' s → I s) (hj : ∀ a s, J a s → J' a s) : Leaves I' m J' :=
  fun s hs => hj _ _ (h s (hi s hs))

theorem post (h : Leaves I m J) (hj : ∀ a s, J a s → J' a s) : Leaves I m J' := h.mono (fun _ => id) hj

theorem change {f : σ → σ} {J : Unit → σ → Prop} (h : ∀ s, I s → J () (f s)) : Leaves I (modify f) J := h

theorem ite {c : Prop} [Decidable c] {n : StateM σ α} (ht : c → Leaves I m J) (hf : ¬c → Leaves I n J) :
    Leaves I (if c then m else n) J := by
  split
  · next hc => exact ht hc
  · next hc => exact hf hc

/-- A loop whose turns keep the invariant. -/
theorem forIn {ι : Type} {xs : List ι} {f : ι → β → StateM σ (ForInStep β)} {b : β}
    (h : ∀ x b, Leaves I (f x b) fun _ => I) : Leaves I (forIn xs b f) fun _ => I := by
  induction xs generalizing b with
  | nil =>
    rw [List.forIn_nil]
    exact ret fun _ => id
  | cons x xs ih =>
    rw [List.forIn_cons]
    refine (h x b).bind fun r => ?_
    cases r with
    | done b => exact ret fun _ => id
    | yield b => exact ih

end Leaves

end StateM
