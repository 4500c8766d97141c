import AuraRedis.Core.Proof.Evolve

/-!
# The changes every operation is made of

An entry the core holds (`Holds`) is released (`Evolves.free`) or rewritten in place (`Evolves.put`), a
new one is linked (`Evolves.linkNew`); the moves between the tiers, the doubling of a table and the notes of a
kernel are `Quiet`. `arFindEntryEx_spec` says what a lookup does and finds.
-/

set_option autoImplicit false

namespace AuraRedis

namespace ArCore

/-- The chain of a reference holds its entry. -/
def Holds (c : ArCore) (r : Ref) : Prop := r.e ∈ (c.dict.table r.tier).chain r.bucket

end ArCore

/-- A reference to the same place, with another entry. -/
abbrev Ref.with (r : Ref) (e : ArEntry) : Ref := { r with e := e }

section
variable {c c' : ArCore} {r : Ref}

theorem mem_items_of_holds (hr : c.Holds r) : r.e.toItem ∈ c.items :=
  Multiset.mem_map_of_mem _ (Dict.mem_entries_of_chain hr)

/-- The item of a held entry apart. -/
theorem items_of_mem (hwf : c.WF) {i : Item} (hi : i ∈ c.items) :
    ∃ s, c.items = i ::ₘ s ∧ ∀ j ∈ s, j.key ≠ i.key := by
  obtain ⟨s, hs⟩ := Multiset.exists_cons_of_mem hi
  refine ⟨s, hs, ?_⟩
  have hn : (c.items.map (·.key)).Nodup := by
    rw [ArCore.items, Multiset.map_map]
    exact hwf.dict.nodup
  rw [hs, Multiset.map_cons, Multiset.nodup_cons] at hn
  exact fun j hj he => hn.1 (Multiset.mem_map.2 ⟨j, hj, he⟩)

/-- There is one item under a key. -/
theorem itemsAt_of_mem (hwf : c.WF) {i : Item} (hi : i ∈ c.items) : c.itemsAt i.key = {i} := by
  obtain ⟨s, hs, hne⟩ := items_of_mem hwf hi
  rw [ArCore.itemsAt, hs, Multiset.filter_cons_of_pos (p := (·.key = i.key)) s rfl,
    Multiset.filter_eq_nil.2 hne]
  rfl

theorem itemsAt_of_notMem {key : Bytes} (h : ∀ i ∈ c.items, i.key ≠ key) : c.itemsAt key = 0 :=
  Multiset.filter_eq_nil.2 h

theorem mem_items_of_itemsAt {key : Bytes} {i : Item} (h : c.itemsAt key = {i}) :
    i ∈ c.items ∧ i.key = key := by
  have hm : i ∈ c.itemsAt key := by rw [h]; exact Multiset.mem_singleton_self i
  exact Multiset.mem_filter.1 hm

/-- Other entries have other items. -/
theorem keys_ne_of_entries {key : Bytes} (h : ∀ i ∈ c.items, i.key ≠ key) :
    ∀ e ∈ c.dict.entries, e.key ≠ key :=
  fun e he => h e.toItem (Multiset.mem_map_of_mem _ he)

/-! ## Writing through a pointer -/

/-- The item under a key, rewritten. -/
theorem items_update (hwf : c.WF) (hr : c.Holds r) {f : ArEntry → ArEntry}
    (hf : ∀ e, (f e).key = e.key) (hd : c'.dict = c.dict.update r.e.key f) :
    ∃ s, c.items = r.e.toItem ::ₘ s ∧ c'.items = (f r.e).toItem ::ₘ s ∧
      ∀ j ∈ s, j.key ≠ r.e.key := by
  have hm := Dict.mem_entries_of_chain hr
  obtain ⟨s, hs⟩ := Multiset.exists_cons_of_mem hm
  have hne : ∀ e ∈ s, e.key ≠ r.e.key := by
    have := hwf.dict.nodup
    rw [hs, Multiset.map_cons, Multiset.nodup_cons] at this
    exact fun e he hk => this.1 (Multiset.mem_map.2 ⟨e, he, hk⟩)
  refine ⟨s.map (·.toItem), ?_, ?_, fun j hj => ?_⟩
  · rw [ArCore.items, hs, Multiset.map_cons]
  · have hent := (hwf.dict.toShape.update r.e.key hf).2
    rw [ArCore.items, hd, hent, hs, Multiset.map_cons, Multiset.map_cons,
      if_pos (keyEq_iff.2 rfl), Multiset.map_map]
    congr 1
    apply Multiset.map_congr rfl
    intro e he
    show (if keyEq r.e.key e then f e else e).toItem = e.toItem
    rw [if_neg fun hk => hne e he (keyEq_iff.1 hk)]
  · obtain ⟨e, he, rfl⟩ := Multiset.mem_map.1 hj
    exact hne e he

/-- The pointer stays good. -/
theorem holds_update (hr : c.Holds r) {f : ArEntry → ArEntry}
    (hd : c'.dict = c.dict.update r.e.key f) : c'.Holds (r.with (f r.e)) := by
  have hg : f r.e ∈ ((c.dict.table r.tier).update fun e => if keyEq r.e.key e then f e else e).chain
      r.bucket := by
    rw [Chains.chain_update]
    exact List.mem_map.2 ⟨r.e, hr, if_pos (keyEq_iff.2 rfl)⟩
  show _ ∈ (c'.dict.table r.tier).chain r.bucket
  rw [hd]
  cases ht : r.tier <;> rw [ht] at hg <;> exact hg

theorem wf_update (hwf : c.WF) (hr : c.Holds r) {f : ArEntry → ArEntry}
    (hf : ∀ e, (f e).key = e.key) (hobj : (f r.e).obj.WF)
    (hd : c'.dict = c.dict.update r.e.key f) : c'.WF := by
  refine ⟨hd ▸ hwf.dict.update hf, ?_⟩
  obtain ⟨s, hs, hs', -⟩ := items_update hwf hr hf hd
  rw [hs']
  intro i hi
  rcases Multiset.mem_cons.1 hi with rfl | hi
  · exact hobj
  · exact hwf.objs i (by rw [hs]; exact Multiset.mem_cons_of_mem hi)

/-- **A held entry is rewritten**, its key apart. -/
theorem Evolves.put {t : Nat} {B : Terms} (hwf : c.WF) (hr : c.Holds r) {f : ArEntry → ArEntry}
    (hf : ∀ e, (f e).key = e.key) (hobj : (f r.e).obj.WF)
    (hd : c'.dict = c.dict.update r.e.key f)
    (hm : ∀ s, (∀ j ∈ s, j.key ≠ r.e.key) →
      Journal B (c.mem, r.e.toItem ::ₘ s) (c'.mem, (f r.e).toItem ::ₘ s))
    (hc : c'.conns = c.conns) (hg : c'.cfg = c.cfg) (hs : c'.srv = c.srv)
    (hk : c.stats.clock ≤ c'.stats.clock)
    (hst : ∀ e, e.lastAccess ≤ c.stats.clock → e.lfuFreq ≤ 255 →
      (f e).lastAccess ≤ c'.stats.clock ∧ (f e).lfuFreq ≤ 255) :
    Evolves t B {r.e.key} {r.e.key} c c' := by
  obtain ⟨s, hi, hi', hne⟩ := items_update hwf hr hf hd
  refine .of_items (a := {r.e.toItem}) (b := {(f r.e).toItem}) (s := s)
    (fun _ => wf_update hwf hr hf hobj hd) (hm s hne) hi hi' ?_ ?_ hc hg hs
    (by rw [hd]; exact (Chains.length_update ..).ge) (.update hk hd hst)
  · intro i hm
    rw [Multiset.mem_singleton.1 hm]
    rfl
  · intro i hm
    rw [Multiset.mem_singleton.1 hm]
    exact hf r.e

/-- Notes of a kernel: what an entry says about its key stays. -/
theorem Quiet.updEntry (c : ArCore) (key : Bytes) {f : ArEntry → ArEntry}
    (hf : ∀ e, (f e).toItem = e.toItem) (hst : ∀ e, e.lastAccess ≤ c.stats.clock → e.lfuFreq ≤ 255 →
      (f e).lastAccess ≤ c.stats.clock ∧ (f e).lfuFreq ≤ 255) : Quiet c (c.updEntry key f) := by
  have hkey : ∀ e, (f e).key = e.key := fun e => congrArg Item.key (hf e)
  refine ⟨fun h => h.update hkey, ?_, rfl, rfl, rfl, rfl, (Chains.length_update ..).ge,
    fun _ => .update (Nat.le_refl _) rfl hst⟩
  show (c.dict.update key f).entries.map _ = _
  rw [Dict.entries_update, Multiset.map_map]
  apply Multiset.map_congr rfl
  intro e _
  show (if keyEq key e then f e else e).toItem = e.toItem
  split
  · exact hf e
  · rfl

/-! ## Release -/

/-- What `ar_entry_free_ex` leaves. -/
theorem items_free (hwf : c.WF) (hr : c.Holds r) :
    (c.arEntryFreeEx r.bucket r.tier r.e).WF ∧
      c.items = r.e.toItem ::ₘ (c.arEntryFreeEx r.bucket r.tier r.e).items := by
  obtain ⟨hd, he⟩ := hwf.dict.release hr rfl rfl
  have hi : c.items = r.e.toItem ::ₘ (c.arEntryFreeEx r.bucket r.tier r.e).items := by
    rw [ArCore.items, he, Multiset.map_cons]
    rfl
  refine ⟨⟨hd, fun i hm => hwf.objs i ?_⟩, hi⟩
  rw [hi]
  exact Multiset.mem_cons_of_mem hm

/-- A release leaves the chains where they are. -/
theorem length_free (c : ArCore) (r : Ref) :
    (c.arEntryFreeEx r.bucket r.tier r.e).dict.hot.length = c.dict.hot.length := by
  show (Dict.decTier _ r.tier).hot.length = _
  rw [Dict.hot_decTier, Dict.length_hot_unlink]
  rfl

theorem mem_of_free (hwf : c.WF) (hr : c.Holds r) {e : ArEntry}
    (he : e ∈ (c.arEntryFreeEx r.bucket r.tier r.e).dict.entries) : e ∈ c.dict.entries := by
  rw [(hwf.dict.release hr rfl rfl).2]
  exact Multiset.mem_cons_of_mem he

/-- **A held entry is released.** -/
theorem Evolves.free {t : Nat} {B : Terms} (hwf : c.WF) (hr : c.Holds r) :
    Evolves t B {r.e.key} ∅ c (c.arEntryFreeEx r.bucket r.tier r.e) := by
  obtain ⟨hw, hi⟩ := items_free hwf hr
  have h : Evolves t B {r.e.key} {r.e.key} (c.arWatchTouch r.e.key)
      (c.arEntryFreeEx r.bucket r.tier r.e) := by
    refine .of_items (a := {r.e.toItem}) (b := 0)
      (s := (c.arEntryFreeEx r.bucket r.tier r.e).items) (fun _ => hw) (.post ?_) hi
      (zero_add _).symm ?_ ?_ rfl rfl rfl (length_free c r).ge
      (.of_entries (Nat.le_refl _) fun e he => .inl (mem_of_free hwf hr he))
    · rw [zero_add, Multiset.singleton_add]
      exact .gone (i := r.e.toItem)
    · intro i hm
      rw [Multiset.mem_singleton.1 hm]
      rfl
    · intro i hm
      exact absurd hm (Multiset.notMem_zero i)
  apply (h.after (.touch c r.e.key)).of_dirtied
  intro k hk
  obtain rfl := Set.mem_singleton_iff.1 hk
  exact dirtied_watchTouch c _

/-- What is left holds no entry of the key. -/
theorem free_key_notMem (hwf : c.WF) (hr : c.Holds r) :
    ∀ i ∈ (c.arEntryFreeEx r.bucket r.tier r.e).items, i.key ≠ r.e.key := by
  obtain ⟨-, hi⟩ := items_free hwf hr
  obtain ⟨s, hs, hne⟩ := items_of_mem hwf (mem_items_of_holds hr)
  rw [hi] at hs
  rw [(Multiset.cons_inj_right _).1 hs]
  exact hne

/-- A release that changes no live key. -/
theorem Evolves.reap {t : Nat} {B : Terms} (hwf : c.WF) (hr : c.Holds r)
    (hd : c.cfg.evict = .noop → Due t r.e.expireAt) :
    Evolves t B ∅ ∅ c (c.arEntryFreeEx r.bucket r.tier r.e) := by
  have h : Evolves t B {r.e.key} ∅ c (c.arEntryFreeEx r.bucket r.tier r.e) := .free hwf hr
  refine { h with frame := fun k _ => ?_ }
  by_cases hk : k = r.e.key
  · subst hk
    have hone := itemsAt_of_mem hwf (mem_items_of_holds hr)
    refine .inr ⟨itemsAt_of_notMem (free_key_notMem hwf hr), fun hn i hm => ?_⟩
    rw [show r.e.key = r.e.toItem.key from rfl, hone] at hm
    rw [Multiset.mem_singleton.1 hm]
    exact hd hn
  · exact h.frame k hk

/-- A release of what is due. -/
theorem Expires.reap {t : Nat} {B : Terms} (hwf : c.WF) (hr : c.Holds r) (hd : Due t r.e.expireAt) :
    Expires t B c (c.arEntryFreeEx r.bucket r.tier r.e) := by
  refine ⟨.reap hwf hr fun _ => hd, fun k => ?_⟩
  by_cases hk : r.e.key = k
  · subst hk
    have hone := itemsAt_of_mem hwf (mem_items_of_holds hr)
    refine .inr ⟨itemsAt_of_notMem (free_key_notMem hwf hr), fun i hm => ?_⟩
    rw [show r.e.key = r.e.toItem.key from rfl, hone] at hm
    rw [Multiset.mem_singleton.1 hm]
    exact hd
  · left
    unfold ArCore.itemsAt
    rw [(items_free hwf hr).2, Multiset.filter_cons_of_neg (p := fun i : Item => i.key = k) _ hk]

/-! ## A new entry -/

/-- The item of a new entry. -/
def newItem (key : Bytes) (obj : ArObj) : Item := ⟨key, obj, false, 0⟩

theorem items_linkNew (hwf : c.WF) {key : Bytes} (obj : ArObj) {b : Nat}
    (hk : ∀ i ∈ c.items, i.key ≠ key) (hb : b = keySlot c.dict.hot.length key) :
    (c.linkNew b key obj).dict.WF ∧ (c.linkNew b key obj).items = newItem key obj ::ₘ c.items := by
  obtain ⟨hd, he⟩ := hwf.dict.linkNew (e := ArEntry.mk (newItem key obj) (c.stats.clock + 1) 5) hb.symm
    (keys_ne_of_entries hk) rfl rfl
  refine ⟨hd, ?_⟩
  show Multiset.map _ _ = _
  rw [show (c.linkNew b key obj).dict.entries = _ from he, Multiset.map_cons]
  rfl

/-- **A key that is not there gets an entry.** -/
theorem Evolves.linkNew {t : Nat} {B : Terms} (hwf : c.WF) {key : Bytes} {obj : ArObj}
    {b : Nat} (hk : ∀ i ∈ c.items, i.key ≠ key) (hb : b = keySlot c.dict.hot.length key)
    (hobj : obj.WF) : Evolves t B {key} {key} c (c.linkNew b key obj) := by
  obtain ⟨hd, hi⟩ := items_linkNew hwf obj hk hb
  have hw : (c.linkNew b key obj).WF := by
    refine ⟨hd, fun i hm => ?_⟩
    rw [hi] at hm
    rcases Multiset.mem_cons.1 hm with rfl | hm
    · exact hobj
    · exact hwf.objs i hm
  have hst : Stamps c (c.linkNew b key obj) := by
    have hclock : (c.linkNew b key obj).stats.clock = c.stats.clock + 1 := by
      unfold ArCore.linkNew
      simp
    refine .of_entries (hclock ▸ Nat.le_succ _) fun e he => ?_
    rw [show (c.linkNew b key obj).dict.entries = _ from (hwf.dict.linkNew
      (e := ArEntry.mk (newItem key obj) (c.stats.clock + 1) 5) hb.symm (keys_ne_of_entries hk) rfl rfl).2] at he
    rcases Multiset.mem_cons.1 he with rfl | he
    · exact .inr ⟨hclock.ge, show 5 ≤ 255 by decide⟩
    · exact .inl he
  refine .of_items (a := 0) (b := {newItem key obj}) (s := c.items) (fun _ => hw)
    (.post ?_) (zero_add _).symm hi ?_ ?_ rfl rfl rfl (Chains.length_push ..).ge hst
  · rw [zero_add, Multiset.singleton_add]
    exact .come (i := newItem key obj) rfl rfl
  · intro i hm
    exact absurd hm (Multiset.notMem_zero i)
  · intro i hm
    rw [Multiset.mem_singleton.1 hm]
    rfl

end

/-! ## Moves -/

section
variable (E : Env) {c : ArCore}

theorem Quiet.rehashTable (c : ArCore) (tier : Tier)
    (ht : c.dict.WF → ∃ p, (c.dict.table tier).length = 2 ^ p) (hwf : c.dict.WF) :
    Quiet c (c.rehashTable E tier) := by
  unfold ArCore.rehashTable
  simp only
  split
  · obtain ⟨hd, he⟩ := hwf.rehash (ht hwf) rfl
    refine ⟨fun _ => hd, congrArg (Multiset.map _) he, rfl, rfl, rfl, rfl, ?_,
      fun _ => .of_entries (Nat.le_refl _) fun e hm => .inl (he ▸ hm)⟩
    cases tier with
    | hot =>
      refine (Nat.le_mul_of_pos_right _ Nat.two_pos).trans (Chains.length_rehash _).ge
    | cold => exact Nat.le_refl _
  · exact .malloc E c

theorem Quiet.arRehashIfNeeded (hwf : c.dict.WF) : Quiet c (c.arRehashIfNeeded E) := by
  unfold ArCore.arRehashIfNeeded
  split
  · split
    · exact .refl c
    · exact .rehashTable E c .hot (fun h => h.hotPow) hwf
  · rename_i hl
    have hl : c.dict.layout = .hotCold := by
      cases hc : c.dict.layout with
      | flat => exact absurd hc hl
      | hotCold => rfl
    have h₁ : Quiet c (if c.dict.hotNkeys > c.dict.hot.length then c.rehashTable E .hot else c) := by
      split
      · exact .rehashTable E c .hot (fun h => h.hotPow) hwf
      · exact .refl c
    have hl' : (if c.dict.hotNkeys > c.dict.hot.length then c.rehashTable E .hot else c).dict.layout =
        .hotCold := by
      split
      · unfold ArCore.rehashTable
        simp only
        split
        · exact hl
        · exact hl
      · exact hl
    have h₂ : ∀ c₁ : ArCore, Quiet c c₁ → c₁.dict.layout = .hotCold →
        Quiet c (if !c₁.dict.cold.isEmpty && decide (c₁.dict.coldNkeys > c₁.dict.cold.length)
          then c₁.rehashTable E .cold else c₁) := by
      intro c₁ hq hl
      split
      · exact hq.trans (.rehashTable E c₁ .cold (fun h => h.coldPow hl) (hq.dict hwf))
      · exact hq
    exact h₂ _ h₁ hl'

/-- What a search for the oldest entry finds is in the hot table. -/
theorem Oldest.walk_mem {i : Nat} {l chain : List ArEntry} (hl : ∀ e ∈ l, e ∈ chain)
    {o : ArCore.Oldest} {P : Nat → ArEntry → Prop} (hP : ∀ e ∈ chain, P i e)
    (ho : ∀ b e, o.best = some (b, e) → P b e) :
    ∀ b e, (ArCore.Oldest.walk i l o).best = some (b, e) → P b e := by
  induction l generalizing o with
  | nil => exact ho
  | cons e l ih =>
    unfold ArCore.Oldest.walk
    split
    · apply ih (fun x hx => hl x (.tail _ hx))
      intro b x hx
      split at hx
      · cases hx
        exact hP _ (hl _ (.head _))
      · exact ho b x hx
    · exact ho

theorem oldestHot_spec (n : Nat) (c : ArCore) (o : ArCore.Oldest)
    (ho : ∀ b e, o.best = some (b, e) → e ∈ c.dict.hot.chain b) :
    Quiet c (ArCore.oldestHot E n c o).1 ∧ (ArCore.oldestHot E n c o).1.dict = c.dict ∧
      ∀ b e, (ArCore.oldestHot E n c o).2.best = some (b, e) → e ∈ c.dict.hot.chain b := by
  induction n generalizing c o with
  | zero => exact ⟨.refl c, rfl, ho⟩
  | succ n ih =>
    unfold ArCore.oldestHot
    split
    · obtain ⟨hq, hd, hb⟩ := ih (c.rand E).1 (o.walk _ _)
        (Oldest.walk_mem (P := fun b e => e ∈ c.dict.hot.chain b) (fun _ h => h) (fun _ h => h) ho)
      exact ⟨(Quiet.rand E c).trans hq, hd, hb⟩
    · exact ⟨.refl c, rfl, ho⟩

theorem layout_of_hasCold {d : Dict} (h : d.hasCold = true) : d.layout = .hotCold := by
  unfold Dict.hasCold at h
  simpa using (Bool.and_eq_true_iff.1 h).1

theorem Quiet.demoteOneHotToCold (hwf : c.dict.WF) : Quiet c (c.demoteOneHotToCold E).1 := by
  unfold ArCore.demoteOneHotToCold
  split
  · exact .refl c
  · rename_i hc
    have hl : c.dict.layout = .hotCold := by
      apply layout_of_hasCold
      simp only [Bool.or_eq_true, Bool.not_eq_true', not_or, Bool.not_eq_false] at hc
      exact hc.1
    obtain ⟨hq, hd, hb⟩ := oldestHot_spec E 64 c {} (fun b e h => by cases h)
    simp only
    split
    · exact hq
    · rename_i b e hbest
      have he : e ∈ c.dict.hot.chain b := hb b e hbest
      rw [← hd] at he hl hwf
      obtain ⟨hd', he'⟩ := hwf.demote hl he rfl rfl rfl
      refine hq.trans ⟨fun _ => hd', congrArg (Multiset.map _) he', rfl, rfl, rfl, rfl, ?_,
        fun _ => .of_entries (Nat.le_refl _) fun e hm => .inl (he' ▸ hm)⟩
      exact (Dict.length_hot_unlink _ .hot b e.key).ge

theorem Quiet.maybeDemoteHot (hwf : c.dict.WF) : Quiet c (c.maybeDemoteHot E) := by
  have hloop : ∀ (n : Nat) (c : ArCore), c.dict.WF → Quiet c (c.demoteLoop E n) := by
    intro n
    induction n with
    | zero => exact fun c _ => .refl c
    | succ n ih =>
      intro c hwf
      unfold ArCore.demoteLoop
      have hq := Quiet.demoteOneHotToCold E hwf
      split
      · simp only
        split
        · exact hq.trans (ih _ (hq.dict hwf))
        · exact hq
      · exact .refl c
  unfold ArCore.maybeDemoteHot
  split
  · exact hloop 64 c hwf
  · exact .refl c

/-- **A touch changes nothing that can be seen**: the entry may move to the hot tier, others to the cold
one. -/
theorem Quiet.arTouchGet (hwf : c.dict.WF) {r : Ref} (hr : c.Holds r) : Quiet c (c.arTouchGet E r) := by
  have h₁ : Quiet c ((c.count fun s => { s with clock := c.stats.clock + 1 }).updEntry r.e.key
      fun e => { e with lastAccess := c.stats.clock + 1 }) :=
    (Quiet.count c _ (Nat.le_succ _)).trans (.updEntry _ _ (fun _ => rfl) fun _ _ h => ⟨Nat.le_refl _, h⟩)
  unfold ArCore.arTouchGet
  simp only
  split
  · rename_i hc
    simp only [Bool.and_eq_true, decide_eq_true_eq] at hc
    obtain ⟨⟨hcold, ht⟩, -⟩ := hc
    have hr' : ((c.count fun s => { s with clock := c.stats.clock + 1 }).updEntry r.e.key
        fun e => { e with lastAccess := c.stats.clock + 1 }).Holds
          (r.with { r.e with lastAccess := c.stats.clock + 1 }) :=
      holds_update (c := c) (f := fun e => { e with lastAccess := c.stats.clock + 1 }) hr rfl
    unfold ArCore.Holds at hr'
    rw [show (r.with { r.e with lastAccess := c.stats.clock + 1 }).tier = .cold from ht] at hr'
    obtain ⟨hd, he⟩ := (h₁.dict hwf).promote (layout_of_hasCold hcold) hr' rfl rfl rfl
    refine Quiet.trans ?_ (.maybeDemoteHot E hd)
    refine h₁.trans ⟨fun _ => hd, congrArg (Multiset.map _) he, rfl, rfl, rfl, rfl, ?_,
      fun _ => .of_entries (Nat.le_refl _) fun e hm => .inl (he ▸ hm)⟩
    exact (Dict.length_hot_link _ .hot _).ge
  · exact h₁

theorem Quiet.noteAccess (c : ArCore) (key : Bytes) {f : ArEntry → ArEntry}
    (hf : ∀ e, (f e).toItem = e.toItem) (ha : ∀ e, (f e).lastAccess = e.lastAccess)
    (hq : ∀ e, e.lfuFreq ≤ 255 → (f e).lfuFreq ≤ 255) : Quiet c (c.noteAccess key f) :=
  (Quiet.count c _ (Nat.le_succ _)).trans (.updEntry _ _ (fun e => hf { e with lastAccess := c.stats.clock + 1 })
    fun _ _ h => ⟨(ha _).le, hq _ h⟩)

theorem Quiet.onGet (c : ArCore) (key : Bytes) : Quiet c (c.onGet key) := by
  unfold ArCore.onGet
  split
  case h_1 | h_2 | h_3 => exact .refl c
  case h_4 | h_5 => exact .noteAccess c key (fun _ => rfl) (fun _ => rfl) fun _ h => h
  case h_6 =>
    refine .updEntry c key (fun _ => rfl) fun e h h' => ⟨h, ?_⟩
    simp only
    split <;> omega
  case h_7 | h_8 =>
    refine .noteAccess c key (fun _ => rfl) (fun _ => rfl) fun e h => ?_
    simp only
    split
    · decide
    · split <;> omega

theorem Quiet.onSet (c : ArCore) (key : Bytes) : Quiet c (c.onSet key) := by
  unfold ArCore.onSet
  split
  case h_1 | h_2 | h_3 => exact .refl c
  case h_4 | h_5 => exact .noteAccess c key (fun _ => rfl) (fun _ => rfl) fun _ h => h
  case h_6 =>
    refine .noteAccess c key (fun _ => rfl) (fun _ => rfl) fun e h => ?_
    simp only
    split <;> omega
  case h_7 | h_8 => exact .noteAccess c key (fun _ => rfl) (fun _ => rfl) fun _ _ => Nat.zero_le _

/-! ## Layout -/

theorem Quiet.migrateToHotCold (hl : c.dict.layout = .flat) (hwf : c.dict.WF) :
    Quiet c (c.migrateToHotCold E).1 := by
  unfold ArCore.migrateToHotCold
  simp only
  split
  · have hp : ∃ p, (if c.dict.hot.length < 256 then 256 else c.dict.hot.length) = 2 ^ p := by
      split
      · exact ⟨8, rfl⟩
      · exact hwf.hotPow
    obtain ⟨p, hp⟩ := hp
    obtain ⟨hd, he⟩ := hwf.addCold hl hp rfl
    exact ⟨fun _ => hd, congrArg (Multiset.map _) he, rfl, rfl, rfl, rfl, Nat.le_refl _,
      fun _ => .of_entries (Nat.le_refl _) fun e hm => .inl (he ▸ hm)⟩
  · exact .malloc E c

theorem Quiet.migrateToFlat (hwf : c.dict.WF) : Quiet c (c.migrateToFlat E).1 := by
  obtain ⟨hd, he⟩ := hwf.foldCold rfl
  have hq : Quiet c ({ c with dict := { c.dict with
      hot := c.dict.hot.pushAll entrySlot c.dict.cold.flatten, cold := [], coldNkeys := 0,
      hotNkeys := 0, layout := .flat } }.count fun s =>
        { s with layoutGen := s.layoutGen + 1, migrates := s.migrates + 1 }) :=
    ⟨fun _ => hd, congrArg (Multiset.map _) he, rfl, rfl, rfl, rfl, (Chains.length_pushAll _).ge,
      fun _ => .of_entries (Nat.le_refl _) fun e hm => .inl (he ▸ hm)⟩
  exact hq.trans (.arRehashIfNeeded E (hq.dict hwf))

theorem Quiet.arCoreSetLayout (hwf : c.dict.WF) (want : ArLayoutKind) :
    Quiet c (c.arCoreSetLayout E want).1 := by
  unfold ArCore.arCoreSetLayout
  split
  · exact .refl c
  · rename_i hne
    cases want with
    | flat => exact .migrateToFlat E hwf
    | hotCold =>
      refine .migrateToHotCold E ?_ hwf
      cases hc : c.dict.layout with
      | flat => rfl
      | hotCold => exact absurd hc hne

theorem Quiet.arCoreAdaptLayout (hwf : c.dict.WF) : Quiet c (c.arCoreAdaptLayout E).1 := by
  unfold ArCore.arCoreAdaptLayout
  split
  · split
    · exact .arCoreSetLayout E hwf _
    · exact .refl c
  · split
    · exact .arCoreSetLayout E hwf _
    · exact .refl c

end

end AuraRedis
