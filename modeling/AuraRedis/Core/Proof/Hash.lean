import AuraRedis.Core.View
import AuraRedis.Core.Proof.Dict

/-!
# The field table of a hash

`ArHash.WF`: the fields are in the chains of their hashes, none is linked twice, `nfields` counts
them. `ArHash.fields` is the finite map such a table stands for, and the operations on the table are
those on the map (`fields_setVal`, `fields_link`, `fields_unlink`, `fields_rehash`).
-/

set_option autoImplicit false

namespace AuraRedis

namespace ArHash

structure WF (h : ArHash) : Prop where
  pow : ∃ p, h.buckets.length = 2 ^ p
  placed : h.buckets.Placed fieldSlot
  nodup : (h.buckets.entries.map Prod.fst).Nodup
  nfields : h.nfields = h.buckets.entries.card

/-- The hash of `ar_entry_get_or_create`. -/
def empty : ArHash := ⟨List.replicate 16 [], 0⟩

theorem fieldSlot_lt {n p : Nat} (h : n = 2 ^ p) (f : Bytes × Bytes) : fieldSlot n f < n := mask_lt h _

theorem WF.empty : ArHash.empty.WF where
  pow := ⟨4, rfl⟩
  placed := Chains.placed_replicate _
  nodup := by
    show (Multiset.map _ (Chains.entries (List.replicate 16 []))).Nodup
    rw [Chains.entries_replicate]
    exact Multiset.nodup_zero
  nfields := by
    show 0 = (Chains.entries (List.replicate 16 [])).card
    rw [Chains.entries_replicate, Multiset.card_zero]

namespace WF

variable {h : ArHash}

theorem find_iff (hw : h.WF) {field val : Bytes} :
    h.find field = some val ↔ (field, val) ∈ h.buckets.entries := by
  have key : ∀ {a}, h.buckets.find (arFnvHash field &&& (h.buckets.length - 1)) (fieldEq field) =
      some a ↔ a ∈ h.buckets.entries ∧ a.1 = field :=
    Chains.find_key_iff hw.placed hw.nodup fun a ha => by rw [← ha]; rfl
  constructor
  · intro hf
    obtain ⟨a, ha, rfl⟩ := Option.map_eq_some_iff.1 hf
    obtain ⟨hm, rfl⟩ := key.1 ha
    exact hm
  · intro hm
    exact Option.map_eq_some_iff.2 ⟨_, key.2 ⟨hm, rfl⟩, rfl⟩

theorem find_none_iff (hw : h.WF) {field : Bytes} :
    h.find field = none ↔ ∀ a ∈ h.buckets.entries, a.1 ≠ field := by
  constructor
  · intro hf a ha he
    have := hw.find_iff.2 (show (field, a.2) ∈ _ from he ▸ ha)
    rw [hf] at this
    cases this
  · intro hn
    cases hf : h.find field with
    | none => rfl
    | some val => exact absurd rfl (hn _ (hw.find_iff.1 hf))

theorem nodupKeys (hw : h.WF) : (h.buckets.flatten.map Prod.toSigma).NodupKeys := by
  show ((h.buckets.flatten.map Prod.toSigma).map Sigma.fst).Nodup
  rw [List.map_map]
  exact hw.nodup

/-- **The table is the map.** -/
theorem lookup_fields (hw : h.WF) (field : Bytes) : h.fields.lookup field = h.find field := by
  apply Option.ext
  intro val
  rw [hw.find_iff, fields, Finmap.dlookup_list_toFinmap, ← Option.mem_def,
    List.mem_dlookup_iff hw.nodupKeys, List.mem_map]
  constructor
  · intro ⟨a, ha, he⟩
    cases he
    exact ha
  · intro hm
    exact ⟨_, hm, rfl⟩

theorem card_fields (hw : h.WF) : h.fields.entries.card = h.nfields := by
  rw [hw.nfields, fields, List.toFinmap, Chains.entries, Multiset.coe_card]
  show (List.map Prod.toSigma h.buckets.flatten).dedupKeys.length = _
  have hp : (List.map Prod.toSigma h.buckets.flatten).dedupKeys.Perm
      (List.map Prod.toSigma h.buckets.flatten) :=
    List.lookup_ext (List.nodupKeys_dedupKeys _) hw.nodupKeys fun x y => by
      rw [List.dlookup_dedupKeys]
  rw [hp.length_eq, List.length_map]

/-! ## The operations -/

/-- The value of a field that exists. -/
theorem setVal (hw : h.WF) (field val : Bytes) : (h.setVal field val).WF := by
  have hg : ∀ f : Bytes × Bytes, (if fieldEq field f then (f.1, val) else f).1 = f.1 := fun f => by
    split <;> rfl
  refine ⟨?_, hw.placed.update fun n f => ?_, ?_, ?_⟩
  · obtain ⟨p, hp⟩ := hw.pow
    exact ⟨p, (Chains.length_update ..).trans hp⟩
  · rw [fieldSlot, hg, fieldSlot]
  · show ((Chains.entries (h.buckets.update _)).map Prod.fst).Nodup
    rw [Chains.entries_update, Multiset.map_map]
    have : (Prod.fst ∘ fun f : Bytes × Bytes => if fieldEq field f then (f.1, val) else f) =
        Prod.fst := funext hg
    rw [this]
    exact hw.nodup
  · show h.nfields = (Chains.entries (h.buckets.update _)).card
    rw [Chains.entries_update, Multiset.card_map]
    exact hw.nfields

theorem fields_setVal (hw : h.WF) {field old : Bytes} (hf : h.find field = some old) (val : Bytes) :
    (h.setVal field val).fields = h.fields.insert field val := by
  apply Finmap.ext_lookup
  intro g
  rw [(hw.setVal field val).lookup_fields]
  apply Option.ext
  intro w
  rw [(hw.setVal field val).find_iff]
  show _ ∈ Chains.entries (h.buckets.update _) ↔ _
  rw [Chains.entries_update, Multiset.mem_map]
  by_cases hg : g = field
  · subst hg
    rw [Finmap.lookup_insert]
    constructor
    · intro ⟨a, _, he⟩
      split at he
      · cases he
        rfl
      · rename_i hn
        subst he
        exact absurd (beq_self_eq_true _) hn
    · intro he
      cases he
      exact ⟨_, hw.find_iff.1 hf, if_pos (beq_self_eq_true _)⟩
  · rw [Finmap.lookup_insert_of_ne _ hg, hw.lookup_fields, hw.find_iff]
    constructor
    · intro ⟨a, ha, he⟩
      split at he
      · rename_i hk
        cases he
        exact absurd (beq_iff_eq.1 hk) hg
      · exact he ▸ ha
    · intro hm
      exact ⟨_, hm, if_neg fun hk => hg (beq_iff_eq.1 hk)⟩

/-- A new field. -/
theorem entries_link (hw : h.WF) (field val : Bytes) :
    (h.link field val).buckets.entries = (field, val) ::ₘ h.buckets.entries := by
  obtain ⟨p, hp⟩ := hw.pow
  exact Chains.entries_push (mask_lt hp _) _

theorem link (hw : h.WF) {field : Bytes} (hf : h.find field = none) (val : Bytes) :
    (h.link field val).WF := by
  obtain ⟨p, hp⟩ := hw.pow
  refine ⟨⟨p, (Chains.length_push ..).trans hp⟩, hw.placed.push rfl (mask_lt hp _), ?_, ?_⟩
  · rw [hw.entries_link, Multiset.map_cons, Multiset.nodup_cons]
    refine ⟨fun hm => ?_, hw.nodup⟩
    obtain ⟨a, ha, he⟩ := Multiset.mem_map.1 hm
    exact hw.find_none_iff.1 hf a ha he
  · rw [hw.entries_link, Multiset.card_cons, ← hw.nfields]
    rfl

theorem fields_link (hw : h.WF) {field : Bytes} (hf : h.find field = none) (val : Bytes) :
    (h.link field val).fields = h.fields.insert field val := by
  apply Finmap.ext_lookup
  intro g
  rw [(hw.link hf val).lookup_fields]
  apply Option.ext
  intro w
  rw [(hw.link hf val).find_iff, hw.entries_link, Multiset.mem_cons]
  by_cases hg : g = field
  · subst hg
    rw [Finmap.lookup_insert]
    constructor
    · intro hm
      rcases hm with he | hm
      · cases he
        rfl
      · exact absurd rfl (hw.find_none_iff.1 hf _ hm)
    · intro he
      cases he
      exact .inl rfl
  · rw [Finmap.lookup_insert_of_ne _ hg, hw.lookup_fields, hw.find_iff]
    constructor
    · intro hm
      rcases hm with he | hm
      · cases he
        exact absurd rfl hg
      · exact hm
    · exact .inr

/-- A field leaves. -/
theorem entries_unlink (hw : h.WF) {field val : Bytes} (hf : h.find field = some val) :
    h.buckets.entries = (field, val) ::ₘ (h.unlink field).buckets.entries := by
  have hm := hw.find_iff.1 hf
  have hc := hw.placed.mem_chain hm
  refine Chains.entries_remove hc (beq_self_eq_true _) fun x hx hk => ?_
  exact Multiset.inj_on_of_nodup_map hw.nodup x (Chains.mem_entries_of_chain hx) _ hm
    (beq_iff_eq.1 hk)

theorem unlink (hw : h.WF) {field val : Bytes} (hf : h.find field = some val) :
    (h.unlink field).WF := by
  have he := hw.entries_unlink hf
  have hn := hw.nodup
  have hc := hw.nfields
  rw [he, Multiset.map_cons, Multiset.nodup_cons] at hn
  rw [he, Multiset.card_cons] at hc
  refine ⟨?_, ?_, hn.2, ?_⟩
  · obtain ⟨p, hp⟩ := hw.pow
    exact ⟨p, (Chains.length_remove ..).trans hp⟩
  · exact hw.placed.remove _ _
  · show h.nfields - 1 = _
    rw [hc, Nat.add_sub_cancel]

theorem fields_unlink (hw : h.WF) {field val : Bytes} (hf : h.find field = some val) :
    (h.unlink field).fields = h.fields.erase field := by
  have he := hw.entries_unlink hf
  have hn := hw.nodup
  rw [he, Multiset.map_cons, Multiset.nodup_cons] at hn
  apply Finmap.ext_lookup
  intro g
  rw [(hw.unlink hf).lookup_fields]
  apply Option.ext
  intro w
  rw [(hw.unlink hf).find_iff]
  by_cases hg : g = field
  · subst hg
    rw [Finmap.lookup_erase]
    constructor
    · intro hm
      exact absurd (Multiset.mem_map.2 ⟨_, hm, rfl⟩) hn.1
    · intro hm
      cases hm
  · rw [Finmap.lookup_erase_ne hg, hw.lookup_fields, hw.find_iff, he, Multiset.mem_cons]
    constructor
    · exact .inr
    · intro hm
      rcases hm with he | hm
      · cases he
        exact absurd rfl hg
      · exact hm

/-- The table is doubled. -/
theorem rehash (hw : h.WF) :
    WF { h with buckets := h.buckets.rehash fieldSlot (h.buckets.length * 2) } ∧
      fields { h with buckets := h.buckets.rehash fieldSlot (h.buckets.length * 2) } = h.fields := by
  obtain ⟨p, hp⟩ := hw.pow
  have hpow : h.buckets.length * 2 = 2 ^ (p + 1) := by rw [hp, Nat.pow_succ]
  have hslot : ∀ f, fieldSlot (h.buckets.length * 2) f < h.buckets.length * 2 :=
    fun f => fieldSlot_lt hpow f
  have he := Chains.entries_rehash (t := h.buckets) hslot
  have hw' : WF { h with buckets := h.buckets.rehash fieldSlot (h.buckets.length * 2) } :=
    ⟨⟨p + 1, (Chains.length_rehash _).trans hpow⟩, Chains.placed_rehash hslot, he ▸ hw.nodup,
      he ▸ hw.nfields⟩
  refine ⟨hw', ?_⟩
  apply Finmap.ext_lookup
  intro g
  rw [hw'.lookup_fields, hw.lookup_fields]
  apply Option.ext
  intro w
  rw [hw'.find_iff, hw.find_iff]
  show _ ∈ Chains.entries (h.buckets.rehash _ _) ↔ _
  rw [he]

end WF

end ArHash

end AuraRedis
