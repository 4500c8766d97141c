import AuraRedis.Core.Proof.Ahead

/-!
# Writes before they make room

A write that may grow the key space ends in an eviction loop. `Grows c c₀` is what holds of the core `c₀` the
loop begins with; from there on entries only leave.
-/

set_option autoImplicit false

namespace AuraRedis

section
variable {c c' c₀ : ArCore} {r : Ref} {key : Bytes} {E : Env} {t i : Nat}

theorem nkeys_eq_card (hwf : c.WF) : c.dict.nkeys = c.items.card := by
  rw [hwf.dict.nkeys]
  exact (Multiset.card_map ..).symm

theorem Quiet.nkeys (h : Quiet c c') (hwf : c.WF) : c'.dict.nkeys = c.dict.nkeys := by
  rw [nkeys_eq_card (h.wf hwf), nkeys_eq_card hwf, h.items]

/-- Outside its keys an operation adds nothing. -/
theorem Evolves.items_le {B : Terms} {K W : Set Bytes} (h : Evolves t B K W c c') {p : Item → Prop}
    [DecidablePred p] (hp : ∀ i ∈ c'.items, i.key ∈ K → p i) : c'.items ≤ c.items + c'.items.filter p := by
  classical
  rw [Multiset.le_iff_count]
  intro i
  rw [Multiset.count_add, Multiset.count_filter]
  by_cases hi : i ∈ c'.items
  · by_cases hk : i.key ∈ K
    · rw [if_pos (hp i hi hk)]
      omega
    · have hat : ∀ s : Multiset Item, s.count i = (s.filter (·.key = i.key)).count i := fun s =>
        (Multiset.count_filter_of_pos (p := fun j : Item => j.key = i.key) rfl).symm
      have hle : (c'.itemsAt i.key).count i ≤ (c.itemsAt i.key).count i := by
        rcases h.frame i.key hk with he | ⟨hz, -⟩
        · rw [he]
        · rw [hz, Multiset.count_zero]
          exact Nat.zero_le _
      rw [hat c'.items, hat c.items]
      exact hle.trans (Nat.le_add_right ..)
  · rw [Multiset.count_eq_zero_of_notMem hi]
    exact Nat.zero_le _

/-- An operation that takes away. -/
theorem Evolves.nkeys_le {B : Terms} {W : Set Bytes} (h : Evolves t B ∅ W c c') (hwf : c.WF) :
    c'.dict.nkeys ≤ c.dict.nkeys := by
  have hle := h.items_le (p := fun _ => False) fun _ _ hk => hk
  rw [Multiset.filter_false, add_zero] at hle
  rw [nkeys_eq_card hwf, nkeys_eq_card (h.wf hwf)]
  exact Multiset.card_le_card hle

/-- A write up to its eviction loop: one key more at most. -/
structure Grows (c c₀ : ArCore) : Prop where
  wf : c₀.WF
  nkeys : c₀.dict.nkeys ≤ c.dict.nkeys + 1
  stamps : Stamps c c₀

/-- What is there of its keys afterwards is there under one. -/
theorem Evolves.grows {B : Terms} {K W : Set Bytes} (h : Evolves t B K W c c') (hwf : c.WF)
    (hK : ∀ k ∈ K, k = key ∨ c'.Has k none) : Grows c c' := by
  have hwf' := h.wf hwf
  refine ⟨hwf', ?_, h.stamps hwf⟩
  have hle := h.items_le (p := (·.key = key)) fun i hi hk =>
    (hK i.key hk).resolve_right fun hno => has_none_iff.1 hno i hi rfl
  have hone : (c'.items.filter (·.key = key)).card ≤ 1 := by
    obtain ⟨o, ho⟩ := exists_has hwf' key
    rw [show c'.items.filter (·.key = key) = _ from ho]
    cases o <;> simp
  have hcard := Multiset.card_le_card hle
  rw [Multiset.card_add] at hcard
  rw [nkeys_eq_card hwf, nkeys_eq_card hwf']
  omega

theorem Grows.quiet (h : Grows c c₀) (hq : Quiet c₀ c') : Grows c c' :=
  ⟨hq.wf h.wf, (hq.nkeys h.wf).le.trans h.nkeys, h.stamps.trans (hq.stamps h.wf.dict)⟩

/-- First something that takes away. -/
theorem Grows.after (h : Grows c' c₀) (hle : c'.dict.nkeys ≤ c.dict.nkeys) (hst : Stamps c c') :
    Grows c c₀ := ⟨h.wf, h.nkeys.trans (Nat.succ_le_succ hle), hst.trans h.stamps⟩

/-- Writing through a pointer. -/
theorem wf_updated (hwf : c.WF) {f : ArEntry → ArEntry} (hf : ∀ e, (f e).key = e.key)
    (hobj : ∀ e : ArEntry, e.obj.WF → (f e).obj.WF) (hd : c'.dict = c.dict.update key f) : c'.WF := by
  refine ⟨hd ▸ hwf.dict.update hf, fun i hi => ?_⟩
  obtain ⟨e, he, rfl⟩ := Multiset.mem_map.1 hi
  rw [hd, (hwf.dict.toShape.update key hf).2] at he
  obtain ⟨e₀, he₀, rfl⟩ := Multiset.mem_map.1 he
  have h₀ := hwf.objs e₀.toItem (Multiset.mem_map_of_mem _ he₀)
  split
  · exact hobj e₀ h₀
  · exact h₀

theorem Grows.updated (h : Grows c c₀) {f : ArEntry → ArEntry} (hf : ∀ e, (f e).key = e.key)
    (hobj : ∀ e : ArEntry, e.obj.WF → (f e).obj.WF) (hd : c'.dict = c₀.dict.update key f)
    (hk : c₀.stats.clock ≤ c'.stats.clock) (hst : ∀ e, e.lastAccess ≤ c₀.stats.clock → e.lfuFreq ≤ 255 →
      (f e).lastAccess ≤ c'.stats.clock ∧ (f e).lfuFreq ≤ 255) : Grows c c' :=
  ⟨wf_updated h.wf hf hobj hd, by rw [hd]; exact h.nkeys, h.stamps.trans (.update hk hd hst)⟩

theorem Grows.refl (hwf : c.WF) : Grows c c := ⟨hwf, Nat.le_succ _, .refl c⟩

/-- An access: a promotion, and the note of the kernel. -/
theorem Grows.accessed (h : Grows c c') {e : ArEntry} (hr : c'.Holds (r.with e)) (k : Bytes) :
    Grows c ((if c'.dict.layout = .hotCold ∧ r.tier = .cold
      then c'.arTouchGet E (r.with e) else c').onSet k) := by
  apply Grows.quiet _ (.onSet _ k)
  split
  · exact h.quiet (.arTouchGet E h.wf.dict hr)
  · exact h

/-! ## SET -/

/-- The value of an entry is replaced, and it may be promoted. -/
theorem grows_setExisting (hwf : c.WF) (hr : c.Holds r) (hm : (c.malloc E).2 = true) (val : Bytes)
    (expireAt : Nat) :
    ∃ c₀, (c.setExisting E r val expireAt).1 = (c₀.maybeEvict E).arWatchTouch r.e.key ∧ Grows c c₀ ∧
      ∀ i key, Clears i key c r → Ahead i key c.dict c₀.dict := by
  unfold ArCore.setExisting
  simp only [hm, Bool.not_true, Bool.false_eq_true, if_false]
  generalize hst : (Stats.noteBigkey (if decide (r.e.obj.type ≠ .string) = true
    then (c.malloc E).1.stats.noteBigkey .string r.e.key.length else (c.malloc E).1.stats) .string
      val.length) = stats
  generalize hmem : Mem.setExpireAt _ r.e.expireAt expireAt = mem
  generalize hc₂ : ArCore.updEntry _ r.e.key _ = c₂
  have hd : c₂.dict = c.dict.update r.e.key fun e =>
      { e with obj := .string val, lastAccess := stats.clock + 1, expireAt := expireAt } := by
    rw [← hc₂]
    rfl
  have hg : c₂.cfg = c.cfg := by rw [← hc₂]; rfl
  have hr₂ : c₂.Holds (r.with { r.e with obj := .string val, lastAccess := stats.clock + 1,
                                         expireAt := expireAt }) :=
    holds_update (f := fun e => { e with
      obj := .string val, lastAccess := stats.clock + 1, expireAt := expireAt }) hr hd
  have hclock : stats.clock = c.stats.clock := by
    rw [← hst, clock_noteBigkey]
    split
    · exact clock_noteBigkey ..
    · rfl
  have hclock₂ : c₂.stats.clock = stats.clock + 1 := by rw [← hc₂]; rfl
  have hgrow : Grows c c₂ := (Grows.refl hwf).updated (f := fun e => { e with
    obj := .string val, lastAccess := stats.clock + 1, expireAt := expireAt })
    (fun _ => rfl) (fun _ _ => trivial) hd (by omega) fun _ _ h => ⟨hclock₂.ge, h⟩
  have hwf₂ := hgrow.wf
  have hahead : ∀ i key, Ahead i key c.dict c₂.dict := fun i key => by
    rw [hd]
    exact .update hwf.dict.toShape _ fun _ => rfl
  refine ⟨_, rfl, hgrow.accessed hr₂ _, fun i key hcl => ?_⟩
  have hh : c₂.dict.hot.length = c.dict.hot.length := by rw [hd]; exact Chains.length_update ..
  have hcl' := hcl.congr hh (by rw [hd]; exact Chains.length_update ..) hg
    (e := { r.e with obj := .string val, lastAccess := stats.clock + 1, expireAt := expireAt }) rfl
  split
  · exact ((hahead i key).trans (.arTouchGet hwf₂.dict hr₂ hcl')).trans
      (.onSet ((Quiet.arTouchGet E hwf₂.dict hr₂).dict hwf₂.dict) _)
  · exact (hahead i key).trans (.onSet hwf₂.dict _)

/-- A key is linked, with its value and its deadline, and the tables make room for it. -/
theorem grows_setNew (hwf : c.WF) (hk : ∀ i ∈ c.items, i.key ≠ key) (h₁ : (c.malloc E).2 = true)
    (h₂ : ((c.malloc E).1.malloc E).2 = true) (h₃ : (((c.malloc E).1.malloc E).1.malloc E).2 = true)
    (val : Bytes) (expireAt : Nat) :
    ∃ c₀, (c.setNew E key val expireAt).1 = (c₀.maybeEvict E).arWatchTouch key ∧ Grows c c₀ ∧
      ∀ i key', key ≠ key' → Ahead i key' c.dict c₀.dict := by
  unfold ArCore.setNew
  simp only [h₁, h₂, h₃, Bool.not_true, Bool.or_false, Bool.false_eq_true, if_false]
  have hq₁ : Quiet c (((c.malloc E).1.malloc E).1.malloc E).1 :=
    ((Quiet.malloc E c).trans (.malloc E _)).trans (.malloc E _)
  have hwf₁ := hq₁.wf hwf
  have hd₁ : (((c.malloc E).1.malloc E).1.malloc E).1.dict = c.dict := rfl
  have hk₁ : ∀ i ∈ (((c.malloc E).1.malloc E).1.malloc E).1.items, i.key ≠ key := hk
  generalize (((c.malloc E).1.malloc E).1.malloc E).1 = c₁ at hq₁ hwf₁ hk₁ hd₁ ⊢
  have hev : Evolves 0 .plain {key} {key} c₁
      (c₁.linkNew (hashBin key &&& (c₁.dict.hot.length - 1)) key (.string val)) :=
    .linkNew hwf₁ hk₁ rfl trivial
  have hlink : Grows c (c₁.linkNew (hashBin key &&& (c₁.dict.hot.length - 1)) key (.string val)) :=
    (hev.grows hwf₁ fun k hk => .inl (Set.mem_singleton_iff.1 hk)).after (hq₁.nkeys hwf).le
      (hq₁.stamps hwf.dict)
  have ha : ∀ i key', key ≠ key' → Ahead i key' c.dict
      (c₁.linkNew (hashBin key &&& (c₁.dict.hot.length - 1)) key (.string val)).dict := by
    intro i key' hne
    rw [← hd₁]
    exact .linkNew hwf₁ hk₁ rfl hne
  generalize c₁.linkNew (hashBin key &&& (c₁.dict.hot.length - 1)) key (.string val) = c₂ at hlink ha ⊢
  have hu : ∀ e : ArEntry, ({ e with expireAt := expireAt } : ArEntry).key = e.key := fun _ => rfl
  generalize hc₃ : ArCore.entrySetExpireAt _ key 0 expireAt = c₃
  have hd₃ : c₃.dict = c₂.dict.update key fun e => { e with expireAt := expireAt } := by rw [← hc₃]; rfl
  have hset : Grows c c₃ := hlink.updated hu (fun _ h => h) hd₃ (by rw [← hc₃]; exact Nat.le_refl _)
    fun _ h h' => ⟨by rw [← hc₃]; exact h, h'⟩
  have hq₄ : Quiet c₃ (c₃.onSet key) := .onSet c₃ key
  have hq₅ := hq₄.trans (.maybeDemoteHot E (hq₄.dict hset.wf.dict))
  refine ⟨_, rfl, hset.quiet (hq₅.trans (.arRehashIfNeeded E (hq₅.dict hset.wf.dict))), fun i key' hne => ?_⟩
  have h₃ : Ahead i key' c₂.dict c₃.dict := by
    rw [hd₃]
    exact .update hlink.wf.dict.toShape key hu
  have h₄ : Ahead i key' c₃.dict (c₃.onSet key).dict := .onSet hset.wf.dict key
  have h₅ : Ahead i key' (c₃.onSet key).dict ((c₃.onSet key).maybeDemoteHot E).dict :=
    .maybeDemoteHot (hq₄.dict hset.wf.dict)
  have h₆ := (((ha i key' hne).trans h₃).trans h₄).trans h₅
  exact h₆.trans (.arRehashIfNeeded (hq₅.dict hset.wf.dict))

end

end AuraRedis
