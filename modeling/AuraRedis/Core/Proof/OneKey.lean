import AuraRedis.Core.Proof.Runs

/-!
# Runs that are about one key

What a slot holds through a run under the noop kernel: a call on the key makes of it what the call means, a call
on other keys leaves it (`view_of_notMem`), and so do the calls one after the other (`holds_run`).
-/

set_option autoImplicit false

namespace AuraRedis

section
variable {c : ArCore} {key : Bytes}

/-- The slot of another key. -/
theorem view_of_notMem {x : Call} (hwf : c.WF) (hn : c.cfg.evict = .noop)
    (hs : x.op.setsKernel = false) (hk : key ∉ x.op.keys) :
    (x.op.run x.E c).1.view x.t key = c.view x.t key := by
  cases hkn : x.op.isKnob with
  | false =>
    unfold ArCore.view
    rw [(x.op.sound x.frozen hwf hkn).evolves.peek hwf hn hk]
  | true =>
    obtain ⟨g, s, hev, hg⟩ := x.op.knob_evolves (B := .plain) x.frozen hwf hkn
    have hv : (x.op.run x.E c).1.view x.t = c.view x.t := hev.view ⟨hwf.dict, hwf.objs⟩ ((hg hs).trans hn)
    rw [hv]

/-- The slot after a call that means a step. -/
theorem slot_of_step {β : Type} {t : Nat} {st : Store} {g : Option Slot → Option Slot × β} {y : Store × β}
    (hy : y = st.step t key g) : y.1 key = Store.alive t (g (st key)).1 := by
  rw [hy]
  exact Function.update_self ..

/-- Calls that are all made at one time. -/
theorem sameTime {t : Nat} {calls : List Call} (h : ∀ x ∈ calls, x.t = t) :
    lastTime t calls = t ∧ (t :: calls.map Call.t).Pairwise (· ≤ ·) := by
  have ht : ∀ s ∈ t :: calls.map Call.t, s = t := by
    intro s hs
    rcases List.mem_cons.1 hs with rfl | hs
    · rfl
    · obtain ⟨x, hx, rfl⟩ := List.mem_map.1 hs
      exact h x hx
  refine ⟨?_, List.pairwise_of_forall_mem_list fun a ha b hb => by rw [ht a ha, ht b hb]⟩
  unfold lastTime
  cases hl : calls.getLast? with
  | none => rfl
  | some x => exact h x (List.mem_of_getLast? hl)

/-- The connections learn from a run no more than that keys have changed. -/
theorem touched_runCalls (hwf : c.WF) (calls : List Call) : ConnsTouched c.conns (c.runCalls calls).conns := by
  induction calls generalizing c with
  | nil => exact .refl _
  | cons x calls ih =>
    refine .trans ?_ (ih (wf_run hwf x))
    cases hk : x.op.isKnob with
    | false => exact (x.op.sound x.frozen hwf hk).evolves.conns
    | true =>
      obtain ⟨g, s, hev, -⟩ := x.op.knob_evolves (B := .plain) x.frozen hwf hk
      exact hev.conns

variable {σ : Type} (Holds : σ → Option Slot → Prop) (next : σ → ArOp → σ) (May : σ → ArCore → Call → Prop)

/-- **The calls one after the other.** -/
theorem holds_run (halive : ∀ v s, Holds v s → ∀ t, Store.alive t s = s)
    (hcall : ∀ v c x, c.WF → c.cfg.evict = .noop → x.E.AllocOk → May v c x → Holds v (c.view x.t key) →
      x.op.setsKernel = false ∧ Holds (next v x.op) ((x.op.run x.E c).1.view x.t key))
    {v : σ} {t : Nat} {calls : List Call} (hwf : c.WF) (hn : c.cfg.evict = .noop)
    (ha : ∀ x ∈ calls, x.E.AllocOk)
    (hmay : ∀ pre x post, calls = pre ++ x :: post → May (pre.foldl (fun v y => next v y.op) v) (c.runCalls pre) x)
    (ht : (t :: calls.map Call.t).Pairwise (· ≤ ·)) (h : Holds v (c.view t key)) :
    Holds (calls.foldl (fun v y => next v y.op) v) ((c.runCalls calls).view (lastTime t calls) key) ∧
      (c.runCalls calls).WF ∧ (c.runCalls calls).cfg.evict = .noop := by
  induction calls generalizing c t v with
  | nil => exact ⟨h, hwf, hn⟩
  | cons x calls ih =>
    rw [List.map_cons, List.pairwise_cons] at ht
    have hx : Holds v (c.view x.t key) := by
      rw [← view_at hwf (ht.1 _ (.head _)), Store.at_, halive v _ h]
      exact h
    have hax := ha x (.head _)
    obtain ⟨hs, hnext⟩ := hcall v c x hwf hn hax (hmay [] x calls rfl) hx
    have hn' := (means_run hwf hn hax hs).2
    rw [lastTime_cons]
    refine ih (wf_run hwf x) hn' (fun y hy => ha y (.tail _ hy)) (fun pre y post hy => ?_) ht.2 hnext
    exact hmay (x :: pre) y post (congrArg (x :: ·) hy)

/-- What holds of each call, by what comes before it. -/
theorem ArCore.Each.at_prefix {P : ArCore → Call → Prop} {calls : List Call} (h : c.Each P calls) :
    ∀ pre x post, calls = pre ++ x :: post → P (c.runCalls pre) x := by
  induction calls generalizing c with
  | nil =>
    intro pre x post hp
    cases pre <;> cases hp
  | cons y calls ih =>
    intro pre x post hp
    cases pre with
    | nil =>
      cases hp
      exact h.1
    | cons z pre =>
      cases hp
      exact ih h.2 pre x post rfl

end

end AuraRedis
