import AuraRedis.Core.Proof.Moves
import AuraRedis.Core.Scan

/-!
# What only takes away

`Fewer c c'`: entries have left their chains, and nothing has been added, moved or accounted for more. It
holds of every release, lookup and eviction, on any core and under any clock.
-/

set_option autoImplicit false

namespace AuraRedis

structure Fewer (c c' : ArCore) : Prop where
  hot : Chains.Thins c'.dict.hot c.dict.hot
  cold : Chains.Thins c'.dict.cold c.dict.cold
  layout : c'.dict.layout = c.dict.layout
  nkeys : c'.dict.nkeys ≤ c.dict.nkeys
  coldNkeys : c'.dict.coldNkeys ≤ c.dict.coldNkeys
  used : c'.mem.usedMemory ≤ c.mem.usedMemory
  cfg : c'.cfg = c.cfg

namespace Fewer

variable {c c' c'' : ArCore}

/-- The dictionary and the accounting were left alone. -/
theorem of_same (hd : c'.dict = c.dict) (hm : c'.mem = c.mem) (hg : c'.cfg = c.cfg) : Fewer c c' where
  hot := by rw [hd]; exact .refl _
  cold := by rw [hd]; exact .refl _
  layout := by rw [hd]
  nkeys := by rw [hd]
  coldNkeys := by rw [hd]
  used := by rw [hm]
  cfg := hg

theorem refl (c : ArCore) : Fewer c c := of_same rfl rfl rfl

theorem trans (h : Fewer c c') (h' : Fewer c' c'') : Fewer c c'' where
  hot := h'.hot.trans h.hot
  cold := h'.cold.trans h.cold
  layout := h'.layout.trans h.layout
  nkeys := h'.nkeys.trans h.nkeys
  coldNkeys := h'.coldNkeys.trans h.coldNkeys
  used := h'.used.trans h.used
  cfg := h'.cfg.trans h.cfg

theorem table (h : Fewer c c') (tier : Tier) : Chains.Thins (c'.dict.table tier) (c.dict.table tier) := by
  cases tier
  · exact h.hot
  · exact h.cold

theorem hasCold (h : Fewer c c') : c'.dict.hasCold = c.dict.hasCold := by
  unfold Dict.hasCold
  rw [h.layout, Bool.eq_iff_iff]
  simp only [Bool.and_eq_true, Bool.not_eq_true', List.isEmpty_eq_false_iff, ← List.length_pos_iff,
    h.cold.length_eq]

theorem entries_le (h : Fewer c c') : c'.dict.entries ≤ c.dict.entries :=
  add_le_add h.hot.entries_le h.cold.entries_le

/-- What is left is in order. -/
theorem shape (h : Fewer c c') (hs : c.dict.Shape) : c'.dict.Shape where
  hotPow := by rw [h.hot.length_eq]; exact hs.hotPow
  coldPow hl := by rw [h.cold.length_eq]; exact hs.coldPow (h.layout ▸ hl)
  flatCold hl := by
    have hc := hs.flatCold (h.layout ▸ hl)
    have := h.cold.length_eq
    rw [hc] at this
    exact List.length_eq_zero_iff.1 this
  hotPlaced := h.hot.placed hs.hotPlaced
  coldPlaced := h.cold.placed hs.coldPlaced
  nodup := Multiset.nodup_of_le (Multiset.map_le_map h.entries_le) hs.nodup

theorem count (c : ArCore) (f : Stats → Stats) : Fewer c (c.count f) := of_same rfl rfl rfl

theorem counted (h : Fewer c c') (f : Stats → Stats) : Fewer c (c'.count f) := h.trans (count c' f)

theorem touch (c : ArCore) (key : Bytes) : Fewer c (c.arWatchTouch key) := of_same rfl rfl rfl

/-! ## Release -/

theorem used_sub (m : Mem) (n : Nat) : (m.sub n).usedMemory ≤ m.usedMemory := by
  unfold Mem.sub
  simp only
  split <;> omega

theorem used_clearExpire (m : Mem) (at_ : Nat) : (m.clearExpire at_).usedMemory = m.usedMemory := by
  unfold Mem.clearExpire
  split <;> rfl

theorem thins_unlink (d : Dict) (tier : Tier) (b : Nat) (key : Bytes) :
    Chains.Thins (d.unlink tier b key).hot d.hot ∧ Chains.Thins (d.unlink tier b key).cold d.cold := by
  cases tier
  · exact ⟨.remove .., .refl _⟩
  · exact ⟨.refl _, .remove ..⟩

theorem coldNkeys_decTier (d : Dict) (tier : Tier) : (d.decTier tier).coldNkeys ≤ d.coldNkeys := by
  cases tier
  · exact Nat.le_refl _
  · show (if d.layout = .hotCold then d.coldNkeys - 1 else d.coldNkeys) ≤ _
    split <;> omega

/-- `ar_entry_free_ex`, of whatever it is given. -/
theorem free (c : ArCore) (b : Nat) (tier : Tier) (e : ArEntry) : Fewer c (c.arEntryFreeEx b tier e) := by
  obtain ⟨h₁, h₂⟩ := thins_unlink c.dict (c.dict.owner tier) b e.key
  refine ⟨?_, ?_, ?_, ?_, ?_, ?_, rfl⟩
  · show Chains.Thins (Dict.decTier _ tier).hot _
    rw [Dict.hot_decTier]
    exact h₁
  · show Chains.Thins (Dict.decTier _ tier).cold _
    rw [Dict.cold_decTier]
    exact h₂
  · show (Dict.decTier _ tier).layout = _
    rw [Dict.layout_decTier]
    exact Dict.layout_setTable ..
  · show (Dict.decTier _ tier).nkeys - 1 ≤ _
    rw [Dict.nkeys_decTier]
    exact (Nat.sub_le ..).trans (Dict.nkeys_setTable ..).le
  · refine (coldNkeys_decTier _ tier).trans ?_
    exact (Dict.coldNkeys_setTable ..).le
  · have hsub := used_sub ((c.mem.clearExpire e.expireAt).subKey e.obj.type e.total) e.total
    rw [show ((c.mem.clearExpire e.expireAt).subKey e.obj.type e.total).usedMemory = c.mem.usedMemory from
      used_clearExpire ..] at hsub
    show (if e.pinned then _ else _ : Mem).usedMemory ≤ _
    split
    · exact hsub
    · exact hsub

section
variable (E : Env)

theorem arNowMs (c : ArCore) : Fewer c (c.arNowMs E).1 := of_same rfl rfl rfl

theorem rand (c : ArCore) : Fewer c (c.rand E).1 := of_same rfl rfl rfl

theorem malloc (c : ArCore) : Fewer c (c.malloc E).1 := of_same rfl rfl rfl

theorem entryExpiredNow (c : ArCore) (r : Ref) : Fewer c (c.entryExpiredNow E r).1 := by
  unfold ArCore.entryExpiredNow
  split
  · exact .refl c
  · simp only
    split
    · exact .arNowMs E c
    · exact ((arNowMs E c).trans (.free _ r.bucket r.tier r.e)).counted
        fun s => { s with expired := s.expired + 1 }

/-! ## Lookup -/

theorem findLive (c : ArCore) (key : Bytes) (tier : Tier) : Fewer c (c.findLive E key tier).1 := by
  unfold ArCore.findLive
  split
  · exact .refl c
  · exact .entryExpiredNow E c _

theorem arFindEntryEx (c : ArCore) (key : Bytes) : Fewer c (c.arFindEntryEx E key).1 := by
  unfold ArCore.arFindEntryEx
  simp only
  have h := findLive E c key .hot
  split
  · exact h
  · split
    · exact h.trans (.findLive E _ key .cold)
    · exact h

/-! ## Eviction -/

theorem sampleChain (consider : ArCore.Consider) (m : Nat) (tier : Tier) (i : Nat) (l : List ArEntry)
    (c : ArCore) (best : ArCore.Best) :
    Fewer c (ArCore.sampleChain E consider m tier i l c best).1 := by
  induction l generalizing c best with
  | nil => exact .refl c
  | cons e l ih =>
    unfold ArCore.sampleChain
    have h := entryExpiredNow E c ⟨tier, i, e⟩
    split
    · simp only
      split
      · exact h.trans (ih _ _)
      · split
        · exact h.trans (ih _ _)
        · exact h.trans (ih _ _)
    · exact .refl c

theorem sampleAttempts (consider : ArCore.Consider) (m left attempt : Nat) (c : ArCore)
    (best : ArCore.Best) : Fewer c (ArCore.sampleAttempts E consider m left attempt c best).1 := by
  induction left generalizing attempt c best with
  | zero => exact .refl c
  | succ left ih =>
    unfold ArCore.sampleAttempts
    split
    · simp only
      generalize (if (c.dict.hasCold && decide (c.dict.coldNkeys > 0) && decide (attempt % 2 = 1)) = true
        then Tier.cold else Tier.hot) = tier
      split
      · exact ih _ _ _
      · exact ((rand E c).trans (sampleChain E consider m _ _ _ _ _)).trans (ih _ _ _)
    · exact .refl c

theorem evictSampled (consider : ArCore.Consider) (c : ArCore) : Fewer c (c.evictSampled E consider).1 := by
  unfold ArCore.evictSampled
  split
  · exact .refl c
  · have h : Fewer c (c.samplePick E consider).1 := sampleAttempts E consider _ 128 0 c {}
    simp only
    split
    · exact h
    · exact (h.trans (.free ..)).counted fun s => { s with evicted := s.evicted + 1 }

theorem evictFirst (c : ArCore) (tier : Tier) : Fewer c (c.evictFirst tier).1 := by
  have hc := count c fun s => { s with clock := s.clock + 1 }
  unfold ArCore.evictFirst
  simp only
  split
  · exact hc
  · exact (hc.trans (.free ..)).counted fun s => { s with evicted := s.evicted + 1 }

theorem arCoreEvictRandomOne (c : ArCore) : Fewer c c.arCoreEvictRandomOne.1 := by
  unfold ArCore.arCoreEvictRandomOne
  simp only
  split
  · exact .refl c
  · split
    · split
      · exact .evictFirst c .cold
      · exact (evictFirst c .cold).trans (.evictFirst _ .hot)
    · exact .evictFirst c .hot

theorem evictOne (c : ArCore) : Fewer c (c.evictOne E).1 := by
  unfold ArCore.evictOne
  split
  case h_1 => exact .refl c
  case h_2 | h_3 | h_4 | h_5 | h_6 => exact .evictSampled E _ c
  case h_7 => exact .arCoreEvictRandomOne c
  case h_8 =>
    have h := arCoreEvictRandomOne c
    simp only
    split
    · exact h
    · exact h.trans (.arCoreEvictRandomOne _)

theorem evictLoop (n : Nat) (c : ArCore) : Fewer c (c.evictLoop E n) := by
  induction n generalizing c with
  | zero => exact .refl c
  | succ n ih =>
    unfold ArCore.evictLoop
    split
    · have h := evictOne E c
      simp only
      split
      · exact h.trans (ih _)
      · exact h
    · exact .refl c

theorem maybeEvict (c : ArCore) : Fewer c (c.maybeEvict E) := .evictLoop E _ c

theorem arMaybeEvictPub (c : ArCore) : Fewer c (c.arMaybeEvictPub E) := .evictLoop E _ c

/-! ## SCAN -/

theorem growRoom (c : ArCore) (n cap : Nat) : Fewer c (c.growRoom E n cap).1 := by
  have h := malloc E c
  unfold ArCore.growRoom
  split
  · simp only
    split
    · exact h
    · split
      · exact h.trans (.malloc E _)
      · exact h.trans (.malloc E _)
  · exact .refl c

theorem pushRoom (c : ArCore) (n cap : Nat) : Fewer c (c.pushRoom E n cap).1 := by
  have h := growRoom E c n cap
  unfold ArCore.pushRoom
  simp only
  split
  · exact h
  · exact h.trans (.malloc E _)

theorem scanChain (now : Nat) (pat : Bytes) (tier : Tier) (b : Nat) (l : List ArEntry) (c : ArCore)
    (keys : List Bytes) (cap : Nat) : Fewer c (ArCore.scanChain E now pat tier b l c keys cap).1 := by
  induction l generalizing c keys cap with
  | nil => exact .refl c
  | cons e l ih =>
    unfold ArCore.scanChain
    split
    · have h := (count c fun s => { s with expired := s.expired + 1 }).trans (free _ b tier e)
      exact h.trans (ih _ _ _)
    · split
      · have h := pushRoom E c keys.length cap
        simp only
        split
        · exact h.trans (ih _ _ _)
        · exact h
      · exact ih _ _ _

theorem scanLoop (now : Nat) (pat : Bytes) (total slots i : Nat) (c : ArCore) (keys : List Bytes)
    (cap : Nat) : Fewer c (ArCore.scanLoop E now pat total slots i c keys cap).1 := by
  induction slots generalizing i c keys cap with
  | zero => exact .refl c
  | succ slots ih =>
    unfold ArCore.scanLoop
    split
    · exact .refl c
    · rename_i tier b _
      have h := scanChain E now pat tier b ((c.dict.table tier).chain b) c keys cap
      simp only
      split
      · exact h
      · exact h.trans (ih _ _ _ _)

theorem arScan (c : ArCore) (cursor : Nat) (pat : Bytes) (count : Int) :
    Fewer c (c.arScan E cursor pat count).1 := by
  unfold ArCore.arScan
  split
  · exact .refl c
  · simp only
    split
    · exact .refl c
    · exact (arNowMs E c).trans (.scanLoop E _ _ _ _ _ _ _ _)

end

end Fewer

end AuraRedis
