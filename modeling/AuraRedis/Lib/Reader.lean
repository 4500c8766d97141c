import AuraRedis.Lib.Prog

/-!
# Readers

A reader takes elements off the front of a list by way of a program with effects. `Takes inp out t`: the
function `t` takes what it takes whatever there is behind it, where `inp` and `out` put more elements behind
what there is to read and behind what is left. `Reads inp out p t`: what `p` returns is what `t` says, whatever
the effects answer. So a reader that takes all of a list is content with nothing shorter
(`Reads.eq_of_prefix`), and one that leaves something is content without it (`Reads.run_of_rest`).
-/

set_option autoImplicit false

namespace Prog

variable {E : Type} {A : E → Type} {ι σ β γ δ : Type}

structure Takes (inp : σ → List ι → σ) (out : β → List ι → β) (t : σ → Option β) : Prop where
  extend : ∀ s x b, t s = some b → t (inp s x) = some (out b x)
  cut : ∀ s x b, t s = some (out b x) → ∃ s₁, s = inp s₁ x ∧ t s₁ = some b

structure Reads (inp : σ → List ι → σ) (out : β → List ι → β) (p : σ → Prog A β) (t : σ → Option β) : Prop
    extends Takes inp out t where
  returns : ∀ s, (p s).Returns fun b => t s = some b
  leaves : ∀ s x b, t s = some b → p (inp s x) = (p s >>= fun b => ret (out b x))

/-- More elements behind what is left beside a value. -/
def behind (r : δ × List ι) (x : List ι) : δ × List ι := (r.1, r.2 ++ x)

section
variable {inp : σ → List ι → σ} {mid : β → List ι → β} {out : γ → List ι → γ}

namespace Takes

theorem bind {t : σ → Option β} {u : β → Option γ} (ht : Takes inp mid t) (hu : Takes mid out u) :
    Takes inp out (fun s => (t s).bind u) where
  extend s x c hc := by
    obtain ⟨b, hb, hbc⟩ := Option.bind_eq_some_iff.1 hc
    show (t (inp s x)).bind u = _
    rw [ht.extend s x b hb, Option.bind_some]
    exact hu.extend b x c hbc
  cut s x c hc := by
    obtain ⟨b, hb, hbc⟩ := Option.bind_eq_some_iff.1 hc
    obtain ⟨b₁, rfl, hbc₁⟩ := hu.cut b x c hbc
    obtain ⟨s₁, rfl, hs₁⟩ := ht.cut s x b₁ hb
    exact ⟨s₁, rfl, Option.bind_eq_some_iff.2 ⟨b₁, hs₁, hbc₁⟩⟩

theorem pair {u : δ × List ι → Option γ} (h : ∀ v, Takes (· ++ ·) out fun s => u (v, s)) :
    Takes behind out u where
  extend r x c hc := (h r.1).extend r.2 x c hc
  cut r x c hc := by
    obtain ⟨s₁, hs, hu⟩ := (h r.1).cut r.2 x c hc
    exact ⟨(r.1, s₁), Prod.ext rfl hs, hu⟩

theorem ret : Takes (· ++ ·) (· ++ ·) (some : List ι → Option (List ι)) where
  extend s x b hb := by
    cases hb
    rfl
  cut s x b hb := ⟨b, Option.some.inj hb, rfl⟩

theorem none : Takes inp out fun _ => Option.none where
  extend _ _ _ h := by cases h
  cut _ _ _ h := by cases h

end Takes

namespace Reads

theorem bind {p : σ → Prog A β} {t : σ → Option β} {f : β → Prog A γ} {u : β → Option γ}
    (hp : Reads inp mid p t) (hf : Reads mid out f u) :
    Reads inp out (fun s => p s >>= f) (fun s => (t s).bind u) where
  toTakes := hp.toTakes.bind hf.toTakes
  returns s := (hp.returns s).bind fun b hb => (hf.returns b).mono fun c hc => by
    rw [hb, Option.bind_some, hc]
  leaves s x c hc := by
    obtain ⟨b, hb, hbc⟩ := Option.bind_eq_some_iff.1 hc
    show (p (inp s x) >>= f) = _
    rw [hp.leaves s x b hb, Prog.bind_assoc, Prog.bind_assoc]
    refine (hp.returns s).bind_congr fun b' hb' => ?_
    have hbb : b' = b := Option.some.inj (hb'.symm.trans hb)
    subst hbb
    exact hf.leaves b' x c hbc

/-- After a value that has been read. -/
theorem pair {f : δ × List ι → Prog A γ} {u : δ × List ι → Option γ}
    (h : ∀ v, Reads (· ++ ·) out (fun s => f (v, s)) fun s => u (v, s)) : Reads behind out f u where
  toTakes := .pair fun v => (h v).toTakes
  returns r := (h r.1).returns r.2
  leaves r x c hc := (h r.1).leaves r.2 x c hc

/-- An effect comes first. -/
theorem after {q : Prog A δ} {f : δ → σ → Prog A γ} {u : σ → Option γ} (hu : Takes inp out u)
    (h : ∀ d, Reads inp out (f d) u) : Reads inp out (fun s => q >>= fun d => f d s) u where
  toTakes := hu
  returns s := (Returns.trivial q).bind fun d _ => (h d).returns s
  leaves s x c hc := by
    rw [Prog.bind_assoc]
    exact congrArg (q >>= ·) (funext fun d => (h d).leaves s x c hc)

theorem fail {u : σ → Option γ} (hu : Takes inp out u) :
    Reads inp out (fun _ => (Prog.fail : Prog A γ)) u where
  toTakes := hu
  returns _ := True.intro
  leaves _ _ _ _ := rfl

theorem ite {b : Prop} [Decidable b] {f g : σ → Prog A γ} {u : σ → Option γ} (hf : Reads inp out f u)
    (hg : Reads inp out g u) : Reads inp out (fun s => if b then f s else g s) u := by
  split
  · exact hf
  · exact hg

theorem ret : Reads (· ++ ·) (· ++ ·) (fun s : List ι => (Prog.ret s : Prog A (List ι))) some where
  toTakes := .ret
  returns _ := rfl
  leaves _ _ _ _ := rfl

/-- **What takes all of a list is content with nothing shorter.** -/
theorem eq_of_prefix {p : List ι → Prog A (List ι)} {t : List ι → Option (List ι)}
    (hp : Reads (· ++ ·) (· ++ ·) p t) {s s' : List ι} (hs : t s = some []) (hpre : s' <+: s) {ω : Type}
    {h : (e : E) → ω → ω × A e} {w : ω} {r : List ι} (hr : ((p s').run h w).2 = some r) : s' = s := by
  obtain ⟨x, rfl⟩ := hpre
  have hext := hp.extend s' x r ((hp.returns s').run hr)
  rw [hs, Option.some.injEq] at hext
  obtain ⟨-, rfl⟩ := List.append_eq_nil_iff.1 hext.symm
  exact (List.append_nil s').symm

/-- **What is left is not missed.** -/
theorem run_of_rest {p : List ι → Prog A (List ι)} {t : List ι → Option (List ι)}
    (hp : Reads (· ++ ·) (· ++ ·) p t) {s r : List ι} (hs : t s = some r) {ω : Type}
    {h : (e : E) → ω → ω × A e} {w : ω} (hr : ((p s).run h w).2.isSome = true) :
    ∃ s', s = s' ++ r ∧ ((p s').run h w).2 = some [] := by
  obtain ⟨s', rfl, hs'⟩ := hp.cut s r [] hs
  refine ⟨s', rfl, ?_⟩
  rw [hp.leaves s' r [] hs', run_bind] at hr
  cases hb : ((p s').run h w).2 with
  | none =>
    rw [hb] at hr
    cases hr
  | some b => exact congrArg some (Option.some.inj (((hp.returns s').run hb).symm.trans hs'))

end Reads

end

/-! ## What has been written -/

/-- Of bytes with `s` in front, `t` takes `s` if anything; `out` is what that gives. -/
def Yields (t : List ι → Option β) (s : List ι) (out : List ι → β) : Prop :=
  ∀ x r, t (s ++ x) = some r → r = out x

namespace Yields

theorem nil : Yields some ([] : List ι) id := fun _ _ h => (Option.some.inj h).symm

theorem bind {t : List ι → Option β} {u : β → Option γ} {s s' : List ι} {mid : List ι → β}
    {out : List ι → γ} (ht : Yields t s mid) (hu : Yields (fun x => u (mid x)) s' out) :
    Yields (fun y => (t y).bind u) (s ++ s') out := by
  intro x r h
  obtain ⟨b, hb, hr⟩ := Option.bind_eq_some_iff.1 h
  rw [List.append_assoc] at hb
  obtain rfl := ht (s' ++ x) b hb
  exact hu x r hr

/-- After a value that has been read. -/
theorem pair {t : List ι → Option (δ × List ι)} (u : δ → List ι → Option γ) {s s' : List ι} {v : δ}
    {out : List ι → γ} (ht : Yields t s (v, ·)) (hu : Yields (u v) s' out) :
    Yields (fun y => (t y).bind fun r => u r.1 r.2) (s ++ s') out := ht.bind (u := fun r => u r.1 r.2) hu

/-- A check comes first. -/
theorem guard {P : Prop} [Decidable P] {t : List ι → Option β} {s : List ι} {out : List ι → β}
    (h : ¬P → Yields t s out) : Yields (fun x => if P then none else t x) s out := by
  intro x r hr
  split at hr
  · cases hr
  · exact h ‹_› x r hr

theorem whole {t : List ι → Option (List ι)} {s r : List ι} (h : Yields t s id) (hr : t s = some r) :
    r = [] := h [] r (by rwa [List.append_nil])

end Yields

end Prog
