import AuraRedis.Core.Proof.Runs
import AuraRedis.Core.Victim

/-!
# Evictions under a ticking clock

`Sheds E c c' s` says that `s` is what has gone between two cores, each of it due at a reading of the
clock on the way. A sampling loop sheds what its way finds due, and remembers the candidate its kernel prefers
(`InStep`), which is linked still unless it has been found due since; so one eviction is done well exactly when
the preferred candidate is at no visit found due (`evictOne_iff`).
-/

set_option autoImplicit false

namespace AuraRedis

open ArCore (Best Consider)

section
variable {E : Env} {c c' c'' : ArCore} {r : Ref} {s s' : Multiset ArEntry}

theorem Dict.Shape.nodup_entries {d : Dict} (h : d.Shape) : d.entries.Nodup := h.nodup.of_map _

/-! ## Release -/

/-- The release of a held entry, whatever the counters. -/
theorem free_shape (hs : c.dict.Shape) (hr : c.Holds r) :
    let x := c.arEntryFreeEx r.bucket r.tier r.e
    x.dict.Shape ∧ c.dict.entries = r.e ::ₘ x.dict.entries ∧ x.dict.nkeys = c.dict.nkeys - 1 := by
  intro x
  obtain ⟨h, -, hent⟩ := hs.unlink hr
  have hx : x.dict = { (c.dict.unlink (c.dict.owner r.tier) r.bucket r.e.key).decTier r.tier with
      nkeys := ((c.dict.unlink (c.dict.owner r.tier) r.bucket r.e.key).decTier r.tier).nkeys - 1 } := rfl
  rw [Dict.owner_of_chain hr] at hx
  rw [hx]
  refine ⟨h.congr (Dict.hot_decTier ..) (Dict.cold_decTier ..) (Dict.layout_decTier ..), ?_, ?_⟩
  · rw [hent]
    exact congrArg (r.e ::ₘ ·) (Dict.entries_congr (Dict.hot_decTier ..) (Dict.cold_decTier ..)).symm
  · show Dict.nkeys (Dict.decTier _ _) - 1 = _
    rw [Dict.nkeys_decTier, Dict.unlink, Dict.nkeys_setTable]

/-- What stays stays where it is. -/
theorem holds_of_free (hs : c.dict.Shape) (hr : c.Holds r) {r' : Ref} (hr' : c.Holds r')
    (hm : r'.e ∈ (c.arEntryFreeEx r.bucket r.tier r.e).dict.entries) :
    (c.arEntryFreeEx r.bucket r.tier r.e).Holds r' := by
  obtain ⟨-, hent, -⟩ := free_shape hs hr
  have hn := hs.nodup
  rw [hent, Multiset.map_cons, Multiset.nodup_cons] at hn
  exact holds_free hr hr' fun hk => hn.1 (Multiset.mem_map.2 ⟨r'.e, hm, hk⟩)

theorem remove_of_absent {t : Table} {b : Nat} {key : Bytes} (h : ∀ e ∈ t.entries, e.key ≠ key) :
    t.remove b (keyEq key) = t := by
  apply List.ext_getElem?
  intro i
  unfold Chains.remove
  rw [List.getElem?_modify]
  cases hi : t[i]? with
  | none => rfl
  | some l =>
    show some (if b = i then _ else _) = _
    split
    · have : l.eraseP (keyEq key) = l := List.eraseP_of_forall_not fun e he hk => by
        have hm : l ∈ t := List.mem_of_getElem? hi
        exact h e (List.mem_flatten.2 ⟨l, hm, he⟩) (keyEq_iff.1 hk)
      rw [this]
    · rfl

/-- The release of an entry that is gone already: it only miscounts. -/
theorem free_gone (hs : c.dict.Shape) (hn : ∀ e ∈ c.dict.entries, e.key ≠ r.e.key) :
    let x := c.arEntryFreeEx r.bucket r.tier r.e
    x.dict.Shape ∧ x.dict.entries = c.dict.entries := by
  intro x
  have htab : ∀ tier, (c.dict.table tier).remove r.bucket (keyEq r.e.key) = c.dict.table tier := by
    intro tier
    refine remove_of_absent fun e he => hn e ?_
    rw [c.dict.entries_eq tier]
    exact Multiset.mem_add.2 (.inl he)
  have hu : c.dict.unlink (c.dict.owner r.tier) r.bucket r.e.key = c.dict := by
    unfold Dict.unlink
    rw [htab]
    cases c.dict.owner r.tier <;> rfl
  have hx : x.dict = { (c.dict.unlink (c.dict.owner r.tier) r.bucket r.e.key).decTier r.tier with
      nkeys := ((c.dict.unlink (c.dict.owner r.tier) r.bucket r.e.key).decTier r.tier).nkeys - 1 } := rfl
  rw [hu] at hx
  rw [hx]
  exact ⟨hs.congr (Dict.hot_decTier ..) (Dict.cold_decTier ..) (Dict.layout_decTier ..),
    Dict.entries_congr (Dict.hot_decTier ..) (Dict.cold_decTier ..)⟩

/-! ## Expiry on the way -/

/-- `s` has gone, each of it due at a reading of the clock. -/
structure Sheds (E : Env) (c c' : ArCore) (s : Multiset ArEntry) : Prop where
  shape : c'.dict.Shape
  entries : c.dict.entries = c'.dict.entries + s
  due : ∀ e ∈ s, E.Passed c c' e.expireAt
  nkeys : c'.dict.nkeys = c.dict.nkeys - s.card
  tick : c.pos.tick ≤ c'.pos.tick
  cfg : c'.cfg = c.cfg
  holds : ∀ r, c.Holds r → r.e ∈ c'.dict.entries → c'.Holds r

namespace Sheds

/-- Nothing has gone. -/
theorem of_dict (hs : c.dict.Shape) (hd : c'.dict = c.dict) (ht : c.pos.tick ≤ c'.pos.tick)
    (hg : c'.cfg = c.cfg) : Sheds E c c' 0 where
  shape := hd ▸ hs
  entries := by rw [hd, add_zero]
  due e he := absurd he (Multiset.notMem_zero e)
  nkeys := by rw [hd]; rfl
  tick := ht
  cfg := hg
  holds _ hr _ := holds_of_dict hd hr

theorem refl (hs : c.dict.Shape) : Sheds E c c 0 := of_dict hs rfl (le_refl _) rfl

theorem trans (h : Sheds E c c' s) (h' : Sheds E c' c'' s') : Sheds E c c'' (s' + s) where
  shape := h'.shape
  entries := by rw [h.entries, h'.entries, add_assoc]
  due e he := by
    have h₁ := h.tick
    have h₂ := h'.tick
    rcases Multiset.mem_add.1 he with he | he
    · obtain ⟨n, hn, hn', hd⟩ := h'.due e he
      exact ⟨n, by omega, hn', hd⟩
    · obtain ⟨n, hn, hn', hd⟩ := h.due e he
      exact ⟨n, hn, by omega, hd⟩
  nkeys := by
    rw [h'.nkeys, h.nkeys, Multiset.card_add]
    omega
  tick := h.tick.trans h'.tick
  cfg := h'.cfg.trans h.cfg
  holds r hr hm := by
    refine h'.holds r (h.holds r hr ?_) hm
    rw [h'.entries]
    exact Multiset.mem_add.2 (.inl hm)

/-- What is left was there. -/
theorem mem (h : Sheds E c c' s) {e : ArEntry} (he : e ∈ c'.dict.entries) : e ∈ c.dict.entries := by
  rw [h.entries]
  exact Multiset.mem_add.2 (.inl he)

/-- What has gone is gone. -/
theorem notMem (h : Sheds E c c' s) (hs : c.dict.Shape) {e x : ArEntry} (he : e ∈ s)
    (hx : x ∈ c'.dict.entries) : x.key ≠ e.key := by
  have hn := hs.nodup
  rw [h.entries, Multiset.map_add, Multiset.nodup_add] at hn
  intro hk
  refine Multiset.disjoint_left.1 hn.2.2 (Multiset.mem_map_of_mem _ hx) ?_
  rw [hk]
  exact Multiset.mem_map_of_mem _ he

end Sheds

/-- An entry is looked at. -/
theorem entryExpiredNow_sheds (E : Env) (hs : c.dict.Shape) (hr : c.Holds r) :
    let x := c.entryExpiredNow E r
    (x.2 = false ∧ Sheds E c x.1 0) ∨ (x.2 = true ∧ Sheds E c x.1 {r.e}) := by
  intro x
  show (x.2 = false ∧ _) ∨ _
  unfold x ArCore.entryExpiredNow
  split
  · exact .inl ⟨rfl, .refl hs⟩
  · rename_i h0
    by_cases hlt : (c.arNowMs E).2 < r.e.expireAt
    · rw [if_pos hlt]
      exact .inl ⟨rfl, .of_dict hs rfl (Nat.le_succ _) rfl⟩
    · rw [if_neg hlt]
      have hr' : (c.arNowMs E).1.Holds r := hr
      obtain ⟨h₁, h₂, h₃⟩ := free_shape (c := (c.arNowMs E).1) hs hr'
      refine .inr ⟨rfl, h₁, ?_, fun e he => ?_, ?_, Nat.le_succ _, rfl, fun r' hr'' hm => ?_⟩
      · show c.dict.entries = Dict.entries (ArCore.arEntryFreeEx _ _ _ _).dict + _
        rw [add_comm, Multiset.singleton_add]
        exact h₂
      · obtain rfl := Multiset.mem_singleton.1 he
        have hd : E.time c.pos.tick = (c.arNowMs E).2 := rfl
        exact ⟨c.pos.tick, le_refl _, Nat.lt_succ_self _, h0, by omega⟩
      · exact h₃
      · exact holds_of_free (c := (c.arNowMs E).1) hs hr' hr'' hm

/-! ## Ranks -/

/-- What the kernel has remembered of its choice. -/
def ArCore.Best.rank (b : Best) : EvictKernel → Nat ×ₗ Nat ×ₗ Nat
  | .lfu => toLex (0, toLex (b.f, b.t))
  | .ttlAware => if b.foundTtl then toLex (0, toLex (b.exp, b.t)) else toLex (1, toLex (0, b.t))
  | .slru | .tinylfu => toLex (0, toLex (b.prot, b.t))
  | _ => toLex (0, toLex (0, b.t))

theorem rank_lt_iff {a b c a' b' c' : Nat} : toLex (a, toLex (b, c)) < toLex (a', toLex (b', c')) ↔
    a < a' ∨ a = a' ∧ (b < b' ∨ b = b' ∧ c < c') := by
  simp only [Prod.Lex.toLex_lt_toLex]

/-- A kernel takes a candidate when it comes before what it has. -/
theorem considers {k : EvictKernel} {consider : Consider} (hk : k.consider = some consider) (b : Best) (r : Ref) :
    (consider b r).samples = b.samples ∧
      ((k.rank r.e < b.rank k ∧ (consider b r).ref = some r ∧ (consider b r).rank k = k.rank r.e) ∨
        (¬k.rank r.e < b.rank k ∧ consider b r = b)) := by
  cases k with
  | noop | random | rr => cases hk
  | lru =>
    cases hk
    unfold ArCore.considerLru EvictKernel.rank ArCore.Best.rank
    simp only [rank_lt_iff]
    split <;> simp_all
  | lfu =>
    cases hk
    unfold ArCore.considerLfu EvictKernel.rank ArCore.Best.rank
    simp only [rank_lt_iff]
    split <;> simp_all
  | ttlAware =>
    cases hk
    unfold ArCore.considerTtlAware EvictKernel.rank ArCore.Best.rank
    by_cases h0 : r.e.expireAt = 0 <;> cases hf : b.foundTtl <;>
      simp only [h0, ne_eq, not_true_eq_false, not_false_eq_true, Bool.false_eq_true, if_true, if_false,
        rank_lt_iff] <;> split <;> simp_all
  | slru | tinylfu =>
    cases hk
    unfold ArCore.considerSlru EvictKernel.rank ArCore.Best.rank
    generalize (if r.e.lfuFreq ≥ 1 then 1 else 0) = prot
    simp only [rank_lt_iff]
    split <;> simp_all

theorem rank_new {k : EvictKernel} : ({} : Best).rank k = k.rankLimit := by cases k <;> rfl

/-- One more candidate. -/
theorem preferred_concat (k : EvictKernel) (rs : List Ref) (r : Ref) :
    k.preferred (rs ++ [r]) =
      if k.rank r.e < ((k.preferred rs).map fun v => k.rank v.e).getD k.rankLimit then some r else k.preferred rs := by
  have hlow : ∀ v ∈ k.preferred rs, k.rank v.e < k.rankLimit := fun v hv =>
    of_decide_eq_true (List.mem_filter.1 (List.argmin_mem hv)).2
  unfold EvictKernel.preferred at hlow ⊢
  rw [List.filter_append, List.filter_cons, List.filter_nil]
  by_cases hr : k.rank r.e < k.rankLimit
  · rw [if_pos (decide_eq_true hr), List.argmin_concat]
    cases h : (rs.filter fun r => decide (k.rank r.e < k.rankLimit)).argmin fun r => k.rank r.e with
    | none => exact (if_pos hr).symm
    | some v => rfl
  · rw [if_neg (by simpa using hr), List.append_nil]
    split
    · next hlt =>
      cases h : (rs.filter fun r => decide (k.rank r.e < k.rankLimit)).argmin fun r => k.rank r.e with
      | none =>
        rw [h] at hlt
        exact absurd hlt hr
      | some v =>
        rw [h] at hlt
        exact absurd (lt_trans hlt (hlow v h)) hr
    · rfl

/-! ## What is left of a chain -/

theorem eraseP_eq_filter {α : Type} {l : List α} {p : α → Bool} {a : α} (hn : l.Nodup)
    (hu : ∀ x ∈ l, p x = true → x = a) : l.eraseP p = l.filter fun x => !p x := by
  induction l with
  | nil => rfl
  | cons b l ih =>
    rw [List.nodup_cons] at hn
    by_cases hb : p b = true
    · have hba := hu b (.head _) hb
      rw [List.eraseP_cons_of_pos hb, List.filter_cons_of_neg (by simp [hb]), List.filter_eq_self.2]
      intro x hx
      by_contra hx'
      have : x = a := hu x (.tail _ hx) (by simpa using hx')
      rw [this, ← hba] at hx
      exact hn.1 hx
    · rw [List.eraseP_cons_of_neg hb, List.filter_cons_of_pos (by simp [hb]), ih hn.2 fun x hx => hu x (.tail _ hx)]

theorem chain_nodup {d : Dict} (hs : d.Shape) (tier : Tier) (b : Nat) : ((d.table tier).chain b).Nodup := by
  rcases Nat.lt_or_ge b (d.table tier).length with hlt | hge
  · have hn := hs.nodup_entries
    rw [d.entries_eq tier] at hn
    rw [Chains.chain_of_lt hlt]
    have hm := (Multiset.nodup_add.1 hn).1
    exact (List.sublist_flatten_of_mem (List.getElem_mem hlt)).nodup hm
  · rw [Chains.chain_of_le hge]
    exact List.nodup_nil

/-- No entry is linked in two chains. -/
theorem tier_bucket_unique {d : Dict} (hs : d.Shape) {T T' : Tier} {i i' : Nat} {e : ArEntry}
    (h : e ∈ (d.table T).chain i) (h' : e ∈ (d.table T').chain i') : T = T' ∧ i = i' := by
  have htier : T = T' := by
    by_contra hne
    have hdisj := (Multiset.nodup_add.1 hs.nodup_entries).2.2
    have hm := Chains.mem_entries_of_chain h
    have hm' := Chains.mem_entries_of_chain h'
    cases T <;> cases T'
    · exact hne rfl
    · exact Multiset.disjoint_left.1 hdisj hm hm'
    · exact Multiset.disjoint_left.1 hdisj hm' hm
    · exact hne rfl
  subst htier
  exact ⟨rfl, (hs.placed T i e h).symm.trans (hs.placed T i' e h')⟩

/-- A release takes its entry out of its chain. -/
theorem chain_free (hs : c.dict.Shape) (hr : c.Holds r) (T : Tier) (i : Nat) :
    ((c.arEntryFreeEx r.bucket r.tier r.e).dict.table T).chain i =
      ((c.dict.table T).chain i).filter fun e => !(r.e.key == e.key) := by
  have hother : (T, i) ≠ (r.tier, r.bucket) → ((c.dict.table T).chain i).filter (fun e => !(r.e.key == e.key)) =
      (c.dict.table T).chain i := by
    intro hne
    refine List.filter_eq_self.2 fun e he => ?_
    by_contra hk
    have hkey : r.e.key = e.key := by simpa using hk
    obtain rfl : r.e = e := hs.key_inj (Dict.mem_entries_of_chain hr) (Dict.mem_entries_of_chain he) hkey
    obtain ⟨h₁, h₂⟩ := tier_bucket_unique hs he hr
    exact hne (by rw [h₁, h₂])
  rw [table_free hr]
  by_cases ht : r.tier = T
  · subst ht
    rw [Dict.unlink, Dict.table_setTable, Chains.chain_remove]
    split
    · next hb =>
      subst hb
      rw [eraseP_eq_filter (chain_nodup hs _ _) (hs.chain_unique hr)]
      refine List.filter_congr fun e _ => ?_
      rw [keyEq, Bool.beq_comm]
    · next hb => exact (hother fun h => hb (congrArg Prod.snd h).symm).symm
  · rw [table_unlink_ne ht]
    exact (hother fun h => ht (congrArg Prod.fst h).symm).symm

theorem length_table_free (hr : c.Holds r) (T : Tier) :
    ((c.arEntryFreeEx r.bucket r.tier r.e).dict.table T).length = (c.dict.table T).length := by
  rw [table_free hr]
  by_cases ht : r.tier = T
  · subst ht
    rw [Dict.unlink, Dict.table_setTable, Chains.length_remove]
  · rw [table_unlink_ne ht]

theorem layout_free (c : ArCore) (r : Ref) :
    (c.arEntryFreeEx r.bucket r.tier r.e).dict.layout = c.dict.layout := by
  show (Dict.decTier _ r.tier).layout = _
  rw [Dict.layout_decTier, Dict.unlink, Dict.layout_setTable]
  rfl

/-- The count of the cold entries, when there is a cold tier. -/
theorem coldNkeys_free (hs : c.dict.Shape) (hr : c.Holds r) :
    (c.arEntryFreeEx r.bucket r.tier r.e).dict.coldNkeys =
      c.dict.coldNkeys - if r.tier = .cold then 1 else 0 := by
  cases ht : r.tier with
  | hot => rfl
  | cold =>
    have hlay : c.dict.layout = .hotCold := by
      cases hl : c.dict.layout with
      | hotCold => rfl
      | flat =>
        have hr' : r.e ∈ (c.dict.table r.tier).chain r.bucket := hr
        rw [ht, Dict.table, hs.flatCold hl] at hr'
        cases hr'
    have hu : (c.dict.unlink (c.dict.owner .cold) r.bucket r.e.key).layout = .hotCold := by
      rw [Dict.unlink, Dict.layout_setTable, hlay]
    show (if (c.dict.unlink (c.dict.owner .cold) r.bucket r.e.key).layout = .hotCold then
      (c.dict.unlink (c.dict.owner .cold) r.bucket r.e.key).coldNkeys - 1 else _) = _
    rw [if_pos hu, Dict.unlink, Dict.coldNkeys_setTable, if_pos rfl]

/-! ## The way of a sampling loop -/

namespace Walk

variable (w : Walk) (r : Ref) (e : ArEntry)

theorem candidates_visit : (w.visit E r).candidates =
    if Due (E.time w.ticks) r.e.expireAt ∨ r.e.pinned = true then w.candidates else w.candidates ++ [r] := by
  unfold visit candidates
  rw [List.filter_append, List.map_append]
  by_cases hd : Due (E.time w.ticks) r.e.expireAt <;> cases hp : r.e.pinned <;> simp [hd, hp]

theorem dueRefs_visit : (w.visit E r).dueRefs =
    if Due (E.time w.ticks) r.e.expireAt then w.dueRefs ++ [r] else w.dueRefs := by
  unfold visit dueRefs
  rw [List.filter_append, List.map_append]
  by_cases hd : Due (E.time w.ticks) r.e.expireAt <;> simp [hd]

theorem foundDue_visit : (w.visit E r).foundDue e =
    (w.foundDue e || decide (Due (E.time w.ticks) r.e.expireAt) && r.e.key == e.key) := by
  simp [visit, foundDue]

theorem foundDue_iff {w : Walk} {e : ArEntry} : w.foundDue e = true ↔ ∃ r ∈ w.dueRefs, r.e.key = e.key := by
  simp [foundDue, dueRefs, and_assoc]

end Walk

/-- An entry is looked at, by the clock. -/
theorem entryExpiredNow_due (E : Env) (c : ArCore) (r : Ref) :
    let x := c.entryExpiredNow E r
    x.2 = decide (Due (E.time c.pos.tick) r.e.expireAt) ∧
      x.1.pos.tick = (if r.e.expireAt = 0 then c.pos.tick else c.pos.tick + 1) ∧ x.1.pos.rand = c.pos.rand ∧
      x.1.dict = if Due (E.time c.pos.tick) r.e.expireAt then (c.arEntryFreeEx r.bucket r.tier r.e).dict
        else c.dict := by
  intro x
  unfold x ArCore.entryExpiredNow
  by_cases h0 : r.e.expireAt = 0
  · have hnot : ¬Due (E.time c.pos.tick) r.e.expireAt := fun h => h.1 h0
    rw [if_pos h0, if_pos h0, if_neg hnot]
    exact ⟨(decide_eq_false hnot).symm, rfl, rfl, rfl⟩
  · rw [if_neg h0, if_neg h0]
    by_cases hlt : (c.arNowMs E).2 < r.e.expireAt
    · have hnot : ¬Due (E.time c.pos.tick) r.e.expireAt := fun h => Nat.not_le.2 hlt h.2
      rw [if_pos hlt, if_neg hnot]
      exact ⟨(decide_eq_false hnot).symm, rfl, rfl, rfl⟩
    · have hdue : Due (E.time c.pos.tick) r.e.expireAt := ⟨h0, Nat.not_lt.1 hlt⟩
      rw [if_neg hlt, if_pos hdue]
      exact ⟨(decide_eq_true hdue).symm, rfl, rfl, rfl⟩

/-- A sampling loop that follows its way: what it has released is what was found due, the rest is linked as it was,
and it remembers what its kernel prefers. -/
structure InStep (E : Env) (k : EvictKernel) (c : ArCore) (w : Walk) (c' : ArCore) (b : Best) : Prop where
  sheds : Sheds E c c' (w.dueRefs.map Ref.e : List ArEntry)
  tick : c'.pos.tick = w.ticks
  rand : c'.pos.rand = w.draws
  layout : c'.dict.layout = c.dict.layout
  length : ∀ T, (c'.dict.table T).length = (c.dict.table T).length
  chain : ∀ T i, (c'.dict.table T).chain i = ((c.dict.table T).chain i).filter fun e => !w.foundDue e
  coldNkeys : c'.dict.coldNkeys = c.dict.coldNkeys - (w.dueRefs.filter (·.tier = .cold)).length
  samples : b.samples = w.candidates.length
  best : b.ref = k.preferred w.candidates
  rank : b.rank k = (b.ref.map fun v => k.rank v.e).getD k.rankLimit
  held : ∀ r ∈ w.candidates, c.Holds r ∧ r.e.pinned = false

namespace InStep

variable {k : EvictKernel} {w : Walk} {b : Best} {consider : Consider}

theorem start (k : EvictKernel) (hs : c.dict.Shape) : InStep E k c ⟨c.pos.tick, c.pos.rand, []⟩ c {} where
  sheds := .refl hs
  tick := rfl
  rand := rfl
  layout := rfl
  length _ := rfl
  chain _ _ := (List.filter_eq_self.2 fun _ _ => rfl).symm
  coldNkeys := rfl
  samples := rfl
  best := rfl
  rank := rank_new
  held _ h := by cases h

/-- What is held now was held before. -/
theorem holds (h : InStep E k c w c' b) (hr : c'.Holds r) : c.Holds r := by
  unfold ArCore.Holds at hr
  rw [h.chain] at hr
  exact List.mem_of_mem_filter hr

/-- A candidate is considered. -/
theorem considered (h : InStep E k c w c' b) (hk : k.consider = some consider)
    (hp : r.e.pinned = false) (hdue : ¬Due (E.time w.ticks) r.e.expireAt) :
    let b' := consider { b with samples := b.samples + 1 } r
    b'.samples = (w.visit E r).candidates.length ∧ b'.ref = k.preferred (w.visit E r).candidates ∧
      b'.rank k = (b'.ref.map fun v => k.rank v.e).getD k.rankLimit := by
  intro b'
  have hcand : (w.visit E r).candidates = w.candidates ++ [r] := by
    rw [Walk.candidates_visit, if_neg (by simp [hdue, hp])]
  have hrank : ({ b with samples := b.samples + 1 } : Best).rank k = b.rank k := by cases k <;> rfl
  have hbest : b.rank k = ((k.preferred w.candidates).map fun v => k.rank v.e).getD k.rankLimit := by
    rw [h.rank, h.best]
  obtain ⟨hsam, hcase⟩ := considers hk { b with samples := b.samples + 1 } r
  rw [hcand, preferred_concat, List.length_append, ← h.samples, ← hbest]
  refine ⟨hsam, ?_⟩
  obtain ⟨hlt, href, hrk⟩ | ⟨hge, heq⟩ := hcase
  · rw [hrank] at hlt
    rw [if_pos hlt]
    refine ⟨href, hrk.trans ?_⟩
    rw [show b'.ref = some r from href]
    rfl
  · rw [hrank] at hge
    rw [if_neg hge, show b' = _ from heq]
    exact ⟨h.best, hrank.trans h.rank⟩

/-- An entry is looked at, at the reading that its visit has. -/
theorem looked (h : InStep E k c w c' b) (hr : c'.Holds r) :
    let x := c'.entryExpiredNow E r
    x.1.pos.tick = (w.visit E r).ticks ∧ x.1.pos.rand = (w.visit E r).draws ∧
      if Due (E.time w.ticks) r.e.expireAt then
        x.2 = true ∧ x.1.dict = (c'.arEntryFreeEx r.bucket r.tier r.e).dict ∧ Sheds E c' x.1 {r.e}
      else x.2 = false ∧ x.1.dict = c'.dict ∧ Sheds E c' x.1 0 := by
  intro x
  obtain ⟨hx, htick, hrand, hdict⟩ := entryExpiredNow_due E c' r
  rw [h.tick] at hx htick hdict
  refine ⟨htick, hrand.trans h.rand, ?_⟩
  by_cases hdue : Due (E.time w.ticks) r.e.expireAt
  · rw [decide_eq_true hdue] at hx
    rw [if_pos hdue] at hdict ⊢
    obtain ⟨hf, -⟩ | ⟨-, hsh⟩ := entryExpiredNow_sheds E h.sheds.shape hr
    · cases hx.symm.trans hf
    · exact ⟨hx, hdict, hsh⟩
  · rw [decide_eq_false hdue] at hx
    rw [if_neg hdue] at hdict ⊢
    obtain ⟨-, hsh⟩ | ⟨ht, -⟩ := entryExpiredNow_sheds E h.sheds.shape hr
    · exact ⟨hx, hdict, hsh⟩
    · cases hx.symm.trans ht

/-- An entry that is due is dropped. -/
theorem dropped (h : InStep E k c w c' b) (hr : c'.Holds r) (hdue : Due (E.time w.ticks) r.e.expireAt) :
    let x := c'.entryExpiredNow E r
    x.2 = true ∧ InStep E k c (w.visit E r) x.1 b := by
  intro x
  obtain ⟨htick, hrand, hcase⟩ := h.looked hr
  rw [if_pos hdue] at hcase
  obtain ⟨hx, hdict, hsh⟩ := hcase
  have hcand : (w.visit E r).candidates = w.candidates := by rw [Walk.candidates_visit, if_pos (.inl hdue)]
  have hrefs : (w.visit E r).dueRefs = w.dueRefs ++ [r] := by rw [Walk.dueRefs_visit, if_pos hdue]
  have hdue' : ((w.dueRefs ++ [r]).map Ref.e : Multiset ArEntry) = {r.e} + (w.dueRefs.map Ref.e : List ArEntry) := by
    rw [List.map_append, ← Multiset.coe_add, add_comm]
    rfl
  refine ⟨hx, ?_, htick, hrand, ?_, fun T => ?_, fun T i => ?_, ?_, hcand ▸ h.samples, hcand ▸ h.best,
    h.rank, hcand ▸ h.held⟩
  · rw [hrefs, hdue']
    exact h.sheds.trans hsh
  · rw [hdict, layout_free, h.layout]
  · rw [hdict, length_table_free hr, h.length]
  · rw [hdict, chain_free h.sheds.shape hr, h.chain, List.filter_filter]
    refine List.filter_congr fun e _ => ?_
    rw [Walk.foundDue_visit, decide_eq_true hdue, Bool.true_and, Bool.not_or, Bool.and_comm]
  · rw [hdict, coldNkeys_free h.sheds.shape hr, h.coldNkeys, hrefs, List.filter_append, List.length_append,
      Nat.sub_sub]
    cases ht : r.tier <;> simp [ht]

/-- One that is not stays, whatever is remembered of it. -/
theorem passed (h : InStep E k c w c' b) (hr : c'.Holds r) (hdue : ¬Due (E.time w.ticks) r.e.expireAt) :
    let x := c'.entryExpiredNow E r
    x.2 = false ∧ ∀ b' : Best, b'.samples = (w.visit E r).candidates.length →
      b'.ref = k.preferred (w.visit E r).candidates →
      b'.rank k = (b'.ref.map fun v => k.rank v.e).getD k.rankLimit →
      (∀ r' ∈ (w.visit E r).candidates, c.Holds r' ∧ r'.e.pinned = false) → InStep E k c (w.visit E r) x.1 b' := by
  intro x
  obtain ⟨htick, hrand, hcase⟩ := h.looked hr
  rw [if_neg hdue] at hcase
  obtain ⟨hx, hdict, hsh⟩ := hcase
  have hrefs : (w.visit E r).dueRefs = w.dueRefs := by rw [Walk.dueRefs_visit, if_neg hdue]
  have hfound : ∀ e, (w.visit E r).foundDue e = w.foundDue e := fun e => by
    rw [Walk.foundDue_visit, decide_eq_false hdue, Bool.false_and, Bool.or_false]
  refine ⟨hx, fun b' hsam hbest hrk hheld => ⟨?_, htick, hrand, by rw [hdict, h.layout],
    fun T => by rw [hdict, h.length], fun T i => ?_, by rw [hdict, hrefs, h.coldNkeys], hsam, hbest, hrk, hheld⟩⟩
  · have := h.sheds.trans hsh
    rwa [zero_add, ← hrefs] at this
  · rw [hdict, h.chain]
    exact List.filter_congr fun e _ => by rw [hfound]

/-- An entry is visited. -/
theorem visit (h : InStep E k c w c' b) (hk : k.consider = some consider) (hr : c'.Holds r) :
    let x := c'.entryExpiredNow E r
    InStep E k c (w.visit E r) x.1
      (if x.2 then b else if r.e.pinned then b else consider { b with samples := b.samples + 1 } r) := by
  intro x
  by_cases hdue : Due (E.time w.ticks) r.e.expireAt
  · obtain ⟨hx, hstep⟩ := h.dropped hr hdue
    rw [show x.2 = true from hx, if_pos rfl]
    exact hstep
  · obtain ⟨hx, hstep⟩ := h.passed hr hdue
    rw [show x.2 = false from hx, if_neg Bool.false_ne_true]
    cases hp : r.e.pinned with
    | true =>
      have hcand : (w.visit E r).candidates = w.candidates := by rw [Walk.candidates_visit, if_pos (.inr hp)]
      rw [if_pos rfl]
      exact hstep b (hcand ▸ h.samples) (hcand ▸ h.best) h.rank (hcand ▸ h.held)
    | false =>
      obtain ⟨hsam, hbest, hrk⟩ := h.considered hk hp hdue
      rw [if_neg Bool.false_ne_true]
      refine hstep _ hsam hbest hrk fun r' hr' => ?_
      rw [Walk.candidates_visit, if_neg (by simp [hdue, hp]), List.mem_append, List.mem_singleton] at hr'
      obtain hr' | rfl := hr'
      · exact h.held r' hr'
      · exact ⟨h.holds hr, hp⟩

/-- What has been visited is no longer in the way. -/
theorem holds_visit (h : InStep E k c w c' b) (hk : k.consider = some consider) (hr : c'.Holds r) {e : ArEntry}
    (he : c'.Holds ⟨r.tier, r.bucket, e⟩) (hne : e ≠ r.e) : (c'.entryExpiredNow E r).1.Holds ⟨r.tier, r.bucket, e⟩ := by
  have hvisit := (h.visit hk hr).chain r.tier r.bucket
  unfold ArCore.Holds at he ⊢
  rw [hvisit, List.mem_filter]
  rw [h.chain, List.mem_filter] at he
  refine ⟨he.1, ?_⟩
  have hin : e ∈ (c'.dict.table r.tier).chain r.bucket := by
    rw [h.chain, List.mem_filter]
    exact he
  have hkey : r.e.key ≠ e.key := fun hk' =>
    hne (h.sheds.shape.key_inj (Dict.mem_entries_of_chain hin) (Dict.mem_entries_of_chain hr) hk'.symm)
  rw [Walk.foundDue_visit, Bool.not_or, Bool.and_eq_true]
  exact ⟨he.2, by simp [hkey]⟩

theorem chain_walk (h : InStep E k c w c' b) (hk : k.consider = some consider) (m : Nat) {T : Tier} {i : Nat}
    {es : List ArEntry} (hl : ∀ e ∈ es, c'.Holds ⟨T, i, e⟩) (hn : es.Nodup) :
    let x := ArCore.sampleChain E consider m T i es c' b
    InStep E k c (w.chain E m T i es) x.1 x.2 := by
  induction es generalizing c' w b with
  | nil => exact h
  | cons e es ih =>
    intro x
    unfold x ArCore.sampleChain Walk.chain
    rw [← h.samples]
    split
    · have hr := hl e (.head _)
      have hv := h.visit hk hr
      have hl' : ∀ e' ∈ es, (c'.entryExpiredNow E ⟨T, i, e⟩).1.Holds ⟨T, i, e'⟩ := fun e' he' => by
        refine h.holds_visit hk hr (hl e' (.tail _ he')) ?_
        rintro rfl
        exact (List.nodup_cons.1 hn).1 he'
      have := ih hv hl' (List.nodup_cons.1 hn).2
      dsimp only at this ⊢
      split
      · next hx => rwa [if_pos hx] at this
      · next hx =>
        rw [if_neg hx] at this
        split
        · next hp => rwa [if_pos hp] at this
        · next hp => rwa [if_neg hp] at this
    · exact h

theorem attempts_walk (hk : k.consider = some consider) (m left attempt : Nat) (h : InStep E k c w c' b) :
    let x := ArCore.sampleAttempts E consider m left attempt c' b
    InStep E k c (w.attempts E c.dict m left attempt) x.1 x.2 := by
  induction left generalizing attempt c' w b with
  | zero => exact h
  | succ left ih =>
    intro x
    unfold x ArCore.sampleAttempts Walk.attempts
    have hcold : c'.dict.hasCold = c.dict.hasCold := by
      have hempty : c'.dict.cold.isEmpty = c.dict.cold.isEmpty := by
        rw [Bool.eq_iff_iff, List.isEmpty_iff_length_eq_zero, List.isEmpty_iff_length_eq_zero]
        exact iff_of_eq (congrArg (· = 0) (h.length .cold))
      unfold Dict.hasCold
      rw [h.layout, hempty]
    rw [← h.samples, hcold, h.coldNkeys]
    split
    · dsimp only
      generalize (if c.dict.hasCold && decide (c.dict.coldNkeys - (w.dueRefs.filter (·.tier = .cold)).length > 0) &&
        decide (attempt % 2 = 1) then Tier.cold else Tier.hot) = T
      have hempty : (c'.dict.table T).isEmpty = true ↔ (c.dict.table T).length = 0 := by
        rw [List.isEmpty_iff_length_eq_zero, h.length]
      by_cases h0 : (c.dict.table T).length = 0
      · rw [if_pos h0, if_pos (hempty.2 h0)]
        exact ih (attempt + 1) h
      · rw [if_neg h0, if_neg (mt hempty.1 h0)]
        have hdraw : (c'.rand E).2 % (c'.dict.table T).length = E.rand w.draws % (c.dict.table T).length := by
          rw [h.length]
          exact congrArg (fun n => E.rand n % _) h.rand
        have hsheds : Sheds E c (c'.rand E).1 (w.dueRefs.map Ref.e : List ArEntry) := by
          have := h.sheds.trans (.of_dict h.sheds.shape rfl (le_refl _) rfl : Sheds E c' (c'.rand E).1 0)
          rwa [zero_add] at this
        have hrand : InStep E k c { w with draws := w.draws + 1 } (c'.rand E).1 b :=
          ⟨hsheds, h.tick, congrArg (· + 1) h.rand, h.layout, h.length, h.chain, h.coldNkeys, h.samples, h.best,
            h.rank, h.held⟩
        rw [hdraw, ← h.chain]
        refine ih (attempt + 1) (hrand.chain_walk hk m (fun e he => he) ?_)
        exact chain_nodup h.sheds.shape T _
    · exact h

/-- What is remembered was held, and is not pinned. -/
theorem ref_mem (h : InStep E k c w c' b) {v : Ref} (hv : b.ref = some v) : c.Holds v ∧ v.e.pinned = false := by
  rw [h.best] at hv
  exact h.held v (List.mem_of_mem_filter (List.argmin_mem hv))

/-- It is linked as it was, unless it has been found due since. -/
theorem linked (h : InStep E k c w c' b) {v : Ref} (hv : b.ref = some v) (hdue : w.foundDue v.e = false) :
    c'.Holds v := by
  unfold ArCore.Holds
  rw [h.chain, List.mem_filter, hdue]
  exact ⟨(h.ref_mem hv).1, rfl⟩

theorem gone (h : InStep E k c w c' b) (hs : c.dict.Shape) {v : Ref} (hdue : w.foundDue v.e = true) :
    ∀ e ∈ c'.dict.entries, e.key ≠ v.e.key := by
  intro e he
  obtain ⟨r, hr, hkey⟩ := Walk.foundDue_iff.1 hdue
  rw [← hkey]
  exact h.sheds.notMem hs (Multiset.mem_coe.2 (List.mem_map_of_mem hr)) he

end InStep

/-- **The sampling loop of a kernel follows its way.** -/
theorem samplePick_follows {consider : Consider} (hk : c.cfg.evict.consider = some consider) (hs : c.dict.Shape) :
    let x := ArCore.samplePick E consider c
    InStep E c.cfg.evict c (c.walk E) x.1 x.2 :=
  InStep.attempts_walk hk _ 128 0 (.start _ hs)

theorem chooses_consider {k : EvictKernel} {consider : Consider} (h : k.consider = some consider) :
    consider.Chooses := by
  cases k with
  | lru => cases h; exact chooses_considerLru
  | lfu => cases h; exact chooses_considerLfu
  | ttlAware => cases h; exact chooses_considerTtlAware
  | slru | tinylfu => cases h; exact chooses_considerSlru
  | noop | random | rr => cases h

/-- The kernels that sample. -/
theorem evictOne_of_consider {consider : Consider} (h : c.cfg.evict.consider = some consider) :
    c.evictOne E = c.evictSampled E consider := by
  unfold ArCore.evictOne
  cases hk : c.cfg.evict with
  | lru | lfu | ttlAware | slru | tinylfu => rw [hk] at h; cases h; rfl
  | noop | random | rr => rw [hk] at h; cases h

/-! ## One eviction -/

/-- An eviction that only sheds is done well. -/
theorem ArCore.EvictsWell.of_sheds (hwf : c.dict.WF) (h : Sheds E c (c.evictOne E).1 s)
    (hl : ∀ consider, c.cfg.evict.consider = some consider → c.dict.nkeys ≠ 0 →
      (c.samplePick E consider).2.ref = none) : c.EvictsWell E where
  gone := by
    have hent := h.entries
    have hcard := congrArg Multiset.card hent
    rw [Multiset.card_add, ← hwf.nkeys] at hcard
    have hn := h.nkeys
    refine ⟨s, 0, by rwa [add_zero], h.due, Nat.zero_le _, fun e he => absurd he (Multiset.notMem_zero e), ?_⟩
    rw [add_zero]
    omega
  linked consider hk hn v hv := by
    rw [hl consider hk hn] at hv
    cases hv

/-- The eviction of an entry the sampling loop has kept. -/
theorem ArCore.EvictsWell.of_victim (hwf : c.dict.WF) {consider : Consider}
    (hk : c.cfg.evict.consider = some consider) (hn : c.dict.nkeys ≠ 0) {v : Ref}
    (hv : (c.samplePick E consider).2.ref = some v) (h : Sheds E c (c.samplePick E consider).1 s)
    (hr : (c.samplePick E consider).1.Holds v) (hp : v.e.pinned = false) : c.EvictsWell E where
  gone := by
    have hone : (c.evictOne E).1 = ((c.samplePick E consider).1.arEntryFreeEx v.bucket v.tier v.e).count
        fun s => { s with evicted := s.evicted + 1 } := by
      rw [evictOne_of_consider hk, ArCore.evictSampled, if_neg hn]
      simp only [hv]
    obtain ⟨-, hent, hnk⟩ := free_shape h.shape hr
    have hcard := congrArg Multiset.card h.entries
    rw [hent, Multiset.card_add, Multiset.card_cons, ← hwf.nkeys] at hcard
    have hnk' := h.nkeys
    refine ⟨s, {v.e}, ?_, fun e he => ?_, le_refl _, fun e he => ?_, ?_⟩
    · rw [hone, h.entries, hent]
      show v.e ::ₘ Dict.entries _ + s = Dict.entries _ + (s + {v.e})
      rw [Multiset.cons_add, ← Multiset.add_assoc, Multiset.add_comm _ {v.e}, Multiset.singleton_add]
      rfl
    · rw [hone]
      exact h.due e he
    · rw [Multiset.mem_singleton.1 he]
      exact hp
    · rw [hone, Multiset.card_add, Multiset.card_singleton]
      show ((c.samplePick E consider).1.arEntryFreeEx v.bucket v.tier v.e).dict.nkeys + _ = _
      rw [hnk]
      omega
  linked consider' hk' _ w hw := by
    obtain rfl : consider = consider' := Option.some.inj (hk.symm.trans hk')
    rw [hv] at hw
    cases hw
    exact hr

/-- **One eviction by a built-in kernel is done well exactly when the candidate it prefers is at no visit found
due.** -/
theorem evictOne_iff (hc : ArCore.Reachable c) (hb : c.cfg.evict.builtIn = true) :
    c.EvictsWell E ↔ c.prefersLasting E = true := by
  have hwf := hc.wf.dict
  unfold ArCore.prefersLasting
  cases hk : c.cfg.evict.consider with
  | none =>
    have hnoop : c.evictOne E = (c, false) := by
      unfold ArCore.evictOne
      cases he : c.cfg.evict with
      | noop => rfl
      | random | rr => rw [he] at hb; cases hb
      | lru | lfu | ttlAware | slru | tinylfu => rw [he] at hk; cases hk
    refine iff_of_true (.of_sheds hwf (s := 0) ?_ fun consider h => ?_) rfl
    · rw [hnoop]
      exact .refl hwf.toShape
    · rw [hk] at h
      cases h
  | some consider =>
    have hf := samplePick_follows (E := E) hk hwf.toShape
    rw [Option.isNone_some, Bool.false_or, ← hf.best]
    by_cases hn : c.dict.nkeys = 0
    · -- nothing is linked, so nothing is remembered
      refine iff_of_true (.of_sheds hwf (s := 0) ?_ fun _ _ h => absurd hn h) ?_
      · rw [evictOne_of_consider hk, ArCore.evictSampled, if_pos hn]
        exact .refl hwf.toShape
      · refine (Option.all_eq_true ..).2 fun v hv => ?_
        have hm := Dict.mem_entries_of_chain (hf.ref_mem hv).1
        rw [Multiset.card_eq_zero.1 (hwf.nkeys.symm.trans hn)] at hm
        exact absurd hm (Multiset.notMem_zero _)
    · cases hv : (c.samplePick E consider).2.ref with
      | none =>
        refine iff_of_true (.of_sheds hwf (s := ((c.walk E).dueRefs.map Ref.e : List ArEntry)) ?_ fun consider' hk' _ => ?_)
          rfl
        · rw [evictOne_of_consider hk, ArCore.evictSampled, if_neg hn]
          simp only [hv]
          exact hf.sheds
        · obtain rfl : consider = consider' := Option.some.inj (hk.symm.trans hk')
          exact hv
      | some v =>
        rw [Option.all_some, Bool.not_eq_true']
        refine ⟨fun h => ?_, fun h => .of_victim hwf hk hn hv hf.sheds (hf.linked hv h) (hf.ref_mem hv).2⟩
        by_contra hdue
        have hr := Dict.mem_entries_of_chain (h.linked consider hk hn v hv)
        exact hf.gone hwf.toShape (Bool.not_eq_false _ ▸ hdue) v.e hr rfl

/-- Under `lru`, a key with a deadline and one without. -/
def twoKeys : ArCore :=
  ArCore.arCoreCreate.runCalls [.steady 0 (.arCoreSetEvict .lru),
    .steady 0 (.arEntrySetEx (lit "k") (lit "v") 10), .steady 0 (.arEntrySetEx (lit "j") (lit "w") 0)]

theorem reachable_twoKeys : ArCore.Reachable twoKeys := ArCore.Reachable.create.runCalls _

theorem evictOne_steady : twoKeys.EvictsWell (.steady 5) :=
  (evictOne_iff reachable_twoKeys (by decide +kernel)).2 (by decide +kernel)

/-- The clock passes the deadline after its first reading, and chance returns to one chain. -/
def tickingEnv : Env where
  time n := if n ≤ twoKeys.pos.tick then 9 else 10
  rand _ := hashBin (lit "k")
  alloc _ := true

theorem time_tickingEnv (m n : Nat) (h : m ≤ n) : tickingEnv.time m ≤ tickingEnv.time n := by
  unfold tickingEnv
  simp only
  split <;> split <;> omega

/-- The key is remembered, then released as due, and released once more as the victim. -/
theorem evictOne_stale :
    ArCore.Reachable twoKeys ∧ twoKeys.cfg.evict.builtIn = true ∧
      (∀ m n, m ≤ n → tickingEnv.time m ≤ tickingEnv.time n) ∧ ¬twoKeys.EvictsWell tickingEnv ∧
      (twoKeys.evictOne tickingEnv).1.dict.linked.map (·.key) = [lit "j"] ∧
      (twoKeys.evictOne tickingEnv).1.dict.nkeys = 0 := by
  refine ⟨reachable_twoKeys, by decide +kernel, time_tickingEnv, fun h => ?_, by decide +kernel,
    by decide +kernel⟩
  · have hk : twoKeys.cfg.evict = .lru := by decide +kernel
    have hl : ((twoKeys.samplePick tickingEnv ArCore.considerLru).2.ref.all fun v => decide (v.e ∈
        ((twoKeys.samplePick tickingEnv ArCore.considerLru).1.dict.table v.tier).chain v.bucket)) = true := by
      rw [Option.all_eq_true]
      intro v hv
      exact decide_eq_true (h.linked ArCore.considerLru (by rw [hk]; rfl) (by decide +kernel) v hv)
    revert hl
    decide +kernel

end

end AuraRedis
