import AuraRedis.Rdb.Dump
import AuraRedis.Core.Proof.Runs

/-!
# The entries of a snapshot

The live entries of a core are its map, each key once: `peek_of_live` and `exists_live_of_peek`.
-/

set_option autoImplicit false

namespace AuraRedis

namespace Rdb

variable {c : ArCore} {t : Nat} {e : ArEntry} {i : Item}

theorem mem_live : e ∈ live c t ↔ e ∈ c.dict.linked ∧ ¬Due t e.expireAt := by
  unfold live entryLive Due
  rw [List.mem_filter, Bool.not_eq_true', ← Bool.decide_and, decide_eq_false_iff_not]

theorem nodup_live (hwf : c.WF) : ((live c t).map (·.key)).Nodup := by
  have hall : (c.dict.linked.map (·.key)).Nodup := by
    have h := hwf.dict.nodup
    rwa [← coe_linked, Multiset.map_coe, Multiset.coe_nodup] at h
  exact hall.sublist (List.filter_sublist.map _)

theorem peek_of_live (hwf : c.WF) (he : e ∈ live c t) : c.peek t e.key = some e.toItem := by
  obtain ⟨hl, hd⟩ := mem_live.1 he
  refine (peek_eq_some_iff hwf).2 ⟨Multiset.mem_map_of_mem _ ?_, rfl, hd⟩
  rw [← coe_linked]
  exact Multiset.mem_coe.2 hl

theorem exists_live_of_peek (hwf : c.WF) {key : Bytes} (h : c.peek t key = some i) :
    ∃ e ∈ live c t, e.toItem = i := by
  obtain ⟨hm, -, hd⟩ := (peek_eq_some_iff hwf).1 h
  obtain ⟨e, he, rfl⟩ := Multiset.mem_map.1 hm
  rw [← coe_linked, Multiset.mem_coe] at he
  exact ⟨e, mem_live.2 ⟨he, hd⟩, rfl⟩

/-- A map with one key. -/
theorem live_of_view (hwf : c.WF) {key : Bytes} {slot : Slot}
    (hv : c.view t = Function.update (fun _ => none) key (some slot)) :
    ∃ e, live c t = [e] ∧ e.key = key ∧ e.toItem.slot = slot := by
  have hone : ∀ e ∈ live c t, e.key = key ∧ e.toItem.slot = slot := by
    intro e he
    have hview : c.view t e.key = some e.toItem.slot := by
      unfold ArCore.view
      rw [peek_of_live hwf he]
      rfl
    rw [hv] at hview
    by_cases hk : e.key = key
    · rw [hk, Function.update_self, Option.some.injEq] at hview
      exact ⟨hk, hview.symm⟩
    · rw [Function.update_of_ne hk] at hview
      cases hview
  have hsome : c.view t key = some slot := by rw [hv, Function.update_self]
  obtain ⟨i, hi, -⟩ := Option.map_eq_some_iff.1 hsome
  obtain ⟨e, he, -⟩ := exists_live_of_peek hwf hi
  refine ⟨e, ?_, hone e he⟩
  have hn := nodup_live (t := t) hwf
  match hl : live c t with
  | [] =>
    rw [hl] at he
    cases he
  | [e'] =>
    rw [hl] at he
    rw [List.mem_singleton.1 he]
  | e₁ :: e₂ :: l =>
    rw [hl, List.map_cons, List.map_cons, List.nodup_cons] at hn
    refine absurd ?_ hn.1
    rw [(hone e₁ (by simp [hl])).1, (hone e₂ (by simp [hl])).1]
    exact .head _

theorem view_arCoreCreate : ArCore.arCoreCreate.view t = fun _ => none := by
  have hwf := wf_arCoreCreate
  have hitems := items_arCoreCreate
  generalize ArCore.arCoreCreate = c at hwf hitems ⊢
  refine funext fun key => ?_
  unfold ArCore.view
  rw [(peek_eq_none_iff hwf).2 fun i hi => by rw [hitems] at hi; cases hi]
  rfl

end Rdb

end AuraRedis
