import AuraRedis.Core.Proof.Moves

/-!
# Lookups

`arFindEntryEx_spec`: a lookup finds the entry of the key and changes nothing, or there is none, or it
releases one that is due.
-/

set_option autoImplicit false

namespace AuraRedis

section
variable {E : Env} {t : Nat} {B : Terms} {c c' : ArCore} {r r' : Ref} {key : Bytes}

/-! ## Release in the middle of a walk -/

/-- The tables after the release of a held entry. -/
theorem table_free (hr : c.Holds r) (tier : Tier) :
    (c.arEntryFreeEx r.bucket r.tier r.e).dict.table tier =
      (c.dict.unlink r.tier r.bucket r.e.key).table tier := by
  have hown : c.dict.owner r.tier = r.tier := Dict.owner_of_chain hr
  unfold ArCore.arEntryFreeEx
  simp only
  cases tier
  · show (Dict.decTier (c.dict.unlink (c.dict.owner r.tier) _ _) _).hot = _
    rw [Dict.hot_decTier, hown]
    rfl
  · show (Dict.decTier (c.dict.unlink (c.dict.owner r.tier) _ _) _).cold = _
    rw [Dict.cold_decTier, hown]
    rfl

theorem table_unlink_ne {d : Dict} {tier tier' : Tier} (h : tier ≠ tier') (b : Nat) (key : Bytes) :
    (d.unlink tier b key).table tier' = d.table tier' := by
  cases tier <;> cases tier' <;> first | rfl | exact absurd rfl h

/-- The release of an entry leaves the others where they are. -/
theorem holds_free (hr : c.Holds r) (hr' : c.Holds r') (hne : r'.e.key ≠ r.e.key) :
    (c.arEntryFreeEx r.bucket r.tier r.e).Holds r' := by
  unfold ArCore.Holds at hr' ⊢
  rw [table_free hr]
  by_cases ht : r.tier = r'.tier
  · rw [Dict.unlink, ht, Dict.table_setTable, Chains.chain_remove]
    split
    · rename_i hb
      rw [← hb] at hr'
      exact (List.mem_eraseP_of_neg fun hk => hne (keyEq_iff.1 hk)).2 (ht ▸ hr')
    · exact hr'
  · rwa [table_unlink_ne ht]

theorem holds_of_dict (hd : c'.dict = c.dict) (hr : c.Holds r) : c'.Holds r := by
  unfold ArCore.Holds
  rw [hd]
  exact hr

/-! ## Lazy expiry -/

/-- **An entry is looked at**: it is not due and nothing happens, or it is due and it is released. -/
theorem entryExpiredNow_spec (hE : E.Until t) (hwf : c.WF) (hr : c.Holds r) :
    let x := c.entryExpiredNow E r
    (x.2 = false ∧ (E.Frozen t → ¬Due t r.e.expireAt) ∧ Quiet c x.1 ∧ x.1.dict = c.dict) ∨
    (x.2 = true ∧ Due t r.e.expireAt ∧ Expires t B c x.1 ∧
      (∀ i ∈ x.1.items, i.key ≠ r.e.key) ∧ x.1.items ≤ c.items ∧
      ∀ r', c.Holds r' → r'.e.key ≠ r.e.key → x.1.Holds r') := by
  intro x
  show (x.2 = false ∧ _) ∨ _
  unfold x ArCore.entryExpiredNow
  split
  · rename_i h0
    exact .inl ⟨rfl, fun _ h => h.1 h0, .refl c, rfl⟩
  · rename_i h0
    have hn : (c.arNowMs E).2 ≤ t := hE _
    have hq : Quiet c (c.arNowMs E).1 := .arNowMs E c
    by_cases hlt : (c.arNowMs E).2 < r.e.expireAt
    · rw [if_pos hlt]
      refine .inl ⟨rfl, fun hE h => ?_, hq, rfl⟩
      have hn : (c.arNowMs E).2 = t := hE _
      have := h.2
      omega
    · rw [if_neg hlt]
      have hdue : Due t r.e.expireAt := ⟨h0, by omega⟩
      have hr' : (c.arNowMs E).1.Holds r := hr
      refine .inr ⟨rfl, hdue, ?_, ?_, ?_, ?_⟩
      · have hev := (Expires.reap (B := B) (hq.wf hwf) hr' hdue).after (.of_quiet hq)
        exact hev.quiet (Quiet.count _ (fun s => { s with expired := s.expired + 1 }) (Nat.le_refl _))
      · exact free_key_notMem (hq.wf hwf) hr'
      · obtain ⟨-, hi⟩ := items_free (hq.wf hwf) hr'
        rw [hq.items] at hi
        rw [hi]
        exact Multiset.le_cons_self _ _
      · intro r' hr'' hne
        exact holds_free hr' hr'' hne

/-! ## Lookup -/

theorem findInTable_some {tier : Tier} (h : c.findInTable key tier = some r) :
    c.Holds r ∧ r.e.key = key := by
  unfold ArCore.findInTable at h
  simp only at h
  split at h
  · cases h
  · obtain ⟨e, he, rfl⟩ := Option.map_eq_some_iff.1 h
    obtain ⟨hm, hk⟩ := Chains.find_some he
    exact ⟨hm, keyEq_iff.1 hk⟩

theorem findInTable_none (hwf : c.WF) {tier : Tier} (h : c.findInTable key tier = none) :
    ∀ e ∈ (c.dict.table tier).entries, e.key ≠ key := by
  intro e he hk
  unfold ArCore.findInTable at h
  simp only at h
  split at h
  · rename_i hz
    rw [List.isEmpty_iff.1 hz] at he
    exact absurd he (Multiset.notMem_zero e)
  · have := Chains.find_none (hwf.dict.toShape.placed tier)
      (fun a ha => by rw [entrySlot, keyEq_iff.1 ha]) (Option.map_eq_none_iff.1 h) he
    rw [keyEq_iff.2 hk] at this
    cases this

/-- A lookup in one tier. -/
theorem findLive_spec (hE : E.Until t) (hwf : c.WF) (key : Bytes) (tier : Tier) :
    let x := c.findLive E key tier
    (x.2 = none ∧ x.1 = c ∧ ∀ e ∈ (c.dict.table tier).entries, e.key ≠ key) ∨
    (x.2 = none ∧ Expires t B c x.1 ∧ (∀ i ∈ x.1.items, i.key ≠ key) ∧
      ∀ i ∈ c.items, i.key = key → Due t i.expireAt) ∨
    (∃ r, x.2 = some r ∧ Quiet c x.1 ∧ x.1.Holds r ∧ r.e.key = key ∧ (E.Frozen t → ¬Due t r.e.expireAt)) := by
  intro x
  show (x.2 = none ∧ _) ∨ _
  unfold x ArCore.findLive
  split
  · rename_i h
    exact .inl ⟨rfl, rfl, findInTable_none hwf h⟩
  · rename_i r h
    obtain ⟨hr, hk⟩ := findInTable_some h
    rcases entryExpiredNow_spec (B := B) hE hwf hr with ⟨hf, hd, hq, hdict⟩ | ⟨ht, hdue, hev, hn, -, -⟩
    · refine .inr (.inr ⟨r, ?_, hq, holds_of_dict hdict hr, hk, hd⟩)
      show (if (c.entryExpiredNow E r).2 = true then none else some r) = some r
      rw [hf]
      rfl
    · refine .inr (.inl ⟨?_, hev, hk ▸ hn, fun i hi hik => ?_⟩)
      · show (if (c.entryExpiredNow E r).2 = true then none else some r) = none
        rw [ht]
        rfl
      · have hone := itemsAt_of_mem hwf (mem_items_of_holds hr)
        have hm : i ∈ c.itemsAt r.e.key := Multiset.mem_filter.2 ⟨hi, hik.trans hk.symm⟩
        rw [show r.e.key = r.e.toItem.key from rfl, hone] at hm
        rw [Multiset.mem_singleton.1 hm]
        exact hdue

/-- Without a cold tier the hot table holds everything. -/
theorem entries_of_not_hasCold (hwf : c.WF) (h : c.dict.hasCold = false) :
    c.dict.entries = c.dict.hot.entries := by
  have hcold : c.dict.cold = [] := by
    cases hl : c.dict.layout with
    | flat => exact hwf.dict.flatCold hl
    | hotCold =>
      unfold Dict.hasCold at h
      rw [hl] at h
      simpa using h
  rw [Dict.entries, hcold]
  exact add_zero _

/-- **What a lookup does.** -/
theorem arFindEntryEx_spec (hE : E.Until t) (hwf : c.WF) (key : Bytes) :
    let f := c.arFindEntryEx E key
    (f.2 = none ∧ Expires t B c f.1 ∧ (∀ i ∈ f.1.items, i.key ≠ key) ∧
      ∀ i ∈ c.items, i.key = key → Due t i.expireAt) ∨
    (∃ r, f.2 = some r ∧ Quiet c f.1 ∧ f.1.Holds r ∧ r.e.key = key ∧ (E.Frozen t → ¬Due t r.e.expireAt)) := by
  intro f
  show (f.2 = none ∧ _) ∨ _
  unfold f ArCore.arFindEntryEx
  rcases findLive_spec (B := B) hE hwf key .hot with
    ⟨hn, he, hhot⟩ | ⟨hn, hev, hno, hdue⟩ | ⟨r, hs, hfound⟩
  · simp only [hn, he]
    split
    · rcases findLive_spec (B := B) hE hwf key .cold with
        ⟨hn, he, hcold⟩ | ⟨hn, hev, hno, hdue⟩ | ⟨r, hs, hfound⟩
      · have hno : ∀ i ∈ c.items, i.key ≠ key := by
          intro i hi
          obtain ⟨e, hm, rfl⟩ := Multiset.mem_map.1 hi
          rcases Multiset.mem_add.1 hm with hm | hm
          · exact hhot e hm
          · exact hcold e hm
        refine .inl ⟨hn, ?_, ?_, fun i hi hk => absurd hk (hno i hi)⟩
        · rw [he]
          exact .refl c
        · rw [he]
          exact hno
      · exact .inl ⟨hn, hev, hno, hdue⟩
      · exact .inr ⟨r, hs, hfound⟩
    · rename_i hc
      have hno : ∀ i ∈ c.items, i.key ≠ key := by
        intro i hi
        obtain ⟨e, hm, rfl⟩ := Multiset.mem_map.1 hi
        rw [entries_of_not_hasCold hwf (by simpa using hc)] at hm
        exact hhot e hm
      refine .inl ⟨hn, ?_, ?_, fun i hi hk => absurd hk (hno i hi)⟩
      · rw [he]
        exact .refl c
      · rw [he]
        exact hno
  · simp only [hn]
    split
    · -- what was due has left: the cold tier has no entry of the key either
      have hwf' := hev.wf hwf
      rcases findLive_spec (B := B) hE hwf' key .cold with
        ⟨hn', he', -⟩ | ⟨hn', hev', hno', -⟩ | ⟨r, hs, hq, hr, hk, -⟩
      · refine .inl ⟨hn', ?_, ?_, hdue⟩
        · rw [he']
          exact hev
        · rw [he']
          exact hno
      · exact .inl ⟨hn', hev.andThen hev', hno', hdue⟩
      · have := mem_items_of_holds hr
        rw [hq.items] at this
        exact absurd hk (hno _ this)
    · exact .inl ⟨hn, hev, hno, hdue⟩
  · simp only [hs]
    exact .inr ⟨r, rfl, hfound⟩

/-- A lookup leaves the entries of other keys where they are. -/
theorem holds_find (hE : E.Until t) (hwf : c.WF) (hr : c.Holds r) (hne : r.e.key ≠ key) :
    (c.arFindEntryEx E key).1.Holds r := by
  have hone : ∀ (c : ArCore) (tier : Tier), c.WF → c.Holds r → (c.findLive E key tier).1.Holds r := by
    intro c tier hwf hr
    unfold ArCore.findLive
    split
    · exact hr
    · rename_i r' h
      obtain ⟨hr', hk⟩ := findInTable_some h
      rcases entryExpiredNow_spec (B := .plain) hE hwf hr' with
        ⟨-, -, -, hdict⟩ | ⟨-, -, -, -, -, hkeep⟩
      · exact holds_of_dict hdict hr
      · exact hkeep r hr (hk ▸ hne)
  have hwf₁ : (c.findLive E key .hot).1.WF := by
    rcases findLive_spec (B := .plain) hE hwf key .hot with
      ⟨-, he, -⟩ | ⟨-, hev, -⟩ | ⟨-, -, hq, -⟩
    · rw [he]
      exact hwf
    · exact hev.wf hwf
    · exact hq.wf hwf
  unfold ArCore.arFindEntryEx
  simp only
  split
  · exact hone c .hot hwf hr
  · split
    · exact hone _ .cold hwf₁ (hone c .hot hwf hr)
    · exact hone c .hot hwf hr

/-- A lookup, whatever it finds. -/
theorem Expires.arFindEntryEx (hE : E.Until t) (hwf : c.WF) (key : Bytes) :
    Expires t B c (c.arFindEntryEx E key).1 := by
  rcases arFindEntryEx_spec (B := B) hE hwf key with ⟨-, hev, -, -⟩ | ⟨-, -, hq, -⟩
  · exact hev
  · exact .of_quiet hq

end

end AuraRedis
