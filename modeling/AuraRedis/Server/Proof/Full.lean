import AuraRedis.Server.Proof.Fits
import AuraRedis.Server.Proof.Frame

/-!
# No empty containers

`Served`: the worlds a server with an empty core comes to. No effect that a command asks for leaves an empty
container (`allFull_perform`), so no command does (`allFull_dispatch`), and there is never one
(`no_empty_containers`).
-/

set_option autoImplicit false

namespace AuraRedis

/-- An effect that gives no sorted set more members than it may have. -/
def Eff.Fills : Eff → Prop
  | op o => o.Fills
  | _ => True

/-- **The worlds a server with an empty core comes to**, when memory lasts: a command is dispatched, at one
time, or something else happens, be it a connection that comes or goes or the expiry cycle. -/
inductive Served [Libc] : World → Prop
  | start {w : World} : w.core.dict = ArCore.arCoreCreate.dict → Served w
  | command {w : World} (O : Outside) (t c : Nat) (argv : List Bytes) : O.AllocOk →
      (∀ n, (O.env n).Frozen t) → Served w → Served ((dispatch c argv).exec O w).1
  | event {w : World} (O : Outside) (t : Nat) (e : Eff) : O.AllocOk → (∀ n, (O.env n).Frozen t) → e.Fills →
      Served w → Served (e.perform O w).1

section
variable {O : Outside} {w : World} {t : Nat} {c : ArCore}

theorem allFull_of_dict {c' : ArCore} (hd : c'.dict = c.dict) (h : c.AllFull) : c'.AllFull := by
  intro key
  unfold ArCore.FullAt ArCore.itemsAt ArCore.items
  rw [hd]
  exact h key

/-- A call of the core leaves no empty container. -/
theorem ArOp.allFull {E : Env} (hE : E.Frozen t) (ha : E.AllocOk) (hwf : c.WF) (hf : c.AllFull) (o : ArOp)
    (ho : o.Fills) : (o.run E c).1.WF ∧ (o.run E c).1.AllFull := by
  cases hk : o.isKnob with
  | false => exact ⟨(o.sound hE hwf hk).evolves.wf hwf, (o.sound hE hwf hk).full ha ho hf⟩
  | true =>
    obtain ⟨g, s, hev, -⟩ := o.knob_evolves (B := .plain) hE hwf hk
    have hf' : ({ c with cfg := g, srv := s } : ArCore).AllFull := hf
    exact ⟨hev.wf ⟨hwf.dict, hwf.objs⟩, hf'.evolves hev⟩

theorem allFull_perform {e : Eff} (hO : O.AllocOk) (hclock : ∀ n, (O.env n).Frozen t) (he : e.Fills)
    (h : w.core.WF ∧ w.core.AllFull) : (e.perform O w).1.core.WF ∧ (e.perform O w).1.core.AllFull := by
  by_cases hop : ∃ o, e = .op o
  · obtain ⟨o, rfl⟩ := hop
    exact o.allFull (hclock w.calls) (hO w.calls) h.1 h.2 he
  · have hd := Eff.perform_dict O w fun o ho => hop ⟨o, ho⟩
    exact ⟨wf_of_dict hd h.1, allFull_of_dict hd h.2⟩

theorem Eff.Asks.fills {e : Eff} {i : Nat} (h : e.Asks i) : e.Fills := by
  cases e with
  | op o => exact h.elim And.left False.elim
  | _ => trivial

/-- A command leaves no empty container. -/
theorem allFull_dispatch [Libc] (hO : O.AllocOk) (hclock : ∀ n, (O.env n).Frozen t) (i : Nat)
    (argv : List Bytes) (h : w.core.WF ∧ w.core.AllFull) :
    ((dispatch i argv).exec O w).1.core.WF ∧ ((dispatch i argv).exec O w).1.core.AllFull :=
  Code.exec_invariant (I := fun w => w.core.WF ∧ w.core.AllFull) (asks_dispatch argv)
    (fun _ _ he => allFull_perform hO hclock he.fills) h

theorem Served.allFull [Libc] (h : Served w) : w.core.WF ∧ w.core.AllFull := by
  induction h with
  | start hd =>
    refine ⟨wf_of_dict hd wf_arCoreCreate, allFull_of_dict hd fun key i hi => ?_⟩
    have hm : i ∈ ArCore.arCoreCreate.items := (Multiset.mem_filter.1 hi).1
    rw [items_arCoreCreate] at hm
    exact absurd hm (Multiset.notMem_zero i)
  | command O t i argv hO hclock _ ih => exact allFull_dispatch hO hclock i argv ih
  | event O t e hO hclock he _ ih => exact allFull_perform hO hclock he ih

/-- **No container is empty**, in whatever world the server comes to. -/
theorem no_empty_containers [Libc] (h : Served w) :
    ∀ e ∈ w.core.dict.linked,
      (∀ x, e.obj = .hash x → 0 < x.nfields ∧ x.buckets.flatten ≠ []) ∧
      (∀ l, e.obj = .list l → l ≠ []) ∧ ∀ z, e.obj = .zset z → z.arr ≠ [] := by
  obtain ⟨hwf, hf⟩ := h.allFull
  intro e he
  have hm : e.toItem ∈ w.core.items := by
    unfold ArCore.items
    rw [← coe_linked]
    exact Multiset.mem_map_of_mem _ he
  have hfull : e.obj.abs.Full := hf e.key e.toItem (Multiset.mem_filter.2 ⟨hm, rfl⟩)
  have hobj : e.obj.WF := hwf.objs _ hm
  refine ⟨fun x hx => ?_, fun l hl => ?_, fun z hz => ?_⟩
  · rw [hx] at hfull hobj
    have hw : x.WF := hobj
    have hcard : x.fields.entries.card ≠ 0 := hfull
    rw [hw.card_fields] at hcard
    refine ⟨Nat.pos_of_ne_zero hcard, fun hnil => hcard ?_⟩
    rw [hw.nfields, Chains.entries, hnil]
    rfl
  · rw [hl] at hfull
    exact hfull
  · rw [hz] at hfull
    exact hfull

/-- A list is pushed to and popped from, and another is there. -/
theorem no_empty_containers_sample :
    let _ : Libc := smallLibc
    let w₀ : World := { core := .arCoreCreate }
    let w₁ := ((dispatch 0 [lit "RPUSH", lit "a", lit "x", lit "y"]).exec (.steady 5) w₀).1
    let w₂ := ((dispatch 0 [lit "LPOP", lit "a"]).exec (.steady 6) w₁).1
    ∀ e ∈ w₂.core.dict.linked,
      (∀ x, e.obj = .hash x → 0 < x.nfields ∧ x.buckets.flatten ≠ []) ∧
      (∀ l, e.obj = .list l → l ≠ []) ∧ ∀ z, e.obj = .zset z → z.arr ≠ [] := by
  intro _ w₀ w₁ w₂
  have hO : ∀ t, (Outside.steady t).AllocOk := fun _ _ _ => rfl
  have hclock : ∀ t n, ((Outside.steady t).env n).Frozen t := fun _ _ _ => rfl
  exact no_empty_containers (.command _ 6 0 _ (hO 6) (hclock 6) (.command _ 5 0 _ (hO 5) (hclock 5) (.start rfl)))

end

end AuraRedis
