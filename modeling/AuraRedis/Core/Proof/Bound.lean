import AuraRedis.Core.Room
import AuraRedis.Core.Proof.Room
import AuraRedis.Core.Proof.Victim

/-!
# The memory bound

A sampling loop that ends without a candidate has drawn 128 chains and met pinned keys only
(`sampleAttempts_none`); so an eviction loop ends below `maxmemory`, without keys, with such draws, or after
as many keys as it has rounds (`evictLoop_bound`). `memory_bound` says so of every write.
-/

set_option autoImplicit false

namespace AuraRedis

open ArCore (Best Consider)

section
variable {E : Env} {t : Nat} {c c' : ArCore} {r : Ref}

/-! ## Candidates -/

/-- The numbers that a kernel compares are below those it begins with. -/
def ArEntry.InRange (e : ArEntry) : Prop := e.lastAccess < 2 ^ 64 - 1 ∧ e.lfuFreq ≤ 255

theorem inRange_of_stamped (hs : c.Stamped) (hk : c.stats.clock < 2 ^ 64 - 1) : ∀ e ∈ c.dict.entries, e.InRange :=
  fun e he => ⟨(hs e he).1.trans_lt hk, (hs e he).2⟩

/-- A kernel takes the first candidate it meets. -/
theorem takes_first {k : EvictKernel} {consider : Consider} (hk : k.consider = some consider)
    (hr : r.e.InRange) (n : Nat) : (consider { samples := n } r).ref = some r := by
  obtain ⟨ha, hf⟩ := hr
  cases k with
  | noop | random | rr => cases hk
  | lru =>
    cases hk
    exact congrArg Best.ref (if_pos ha)
  | lfu =>
    cases hk
    have h : r.e.lfuFreq < 255 ∨ (r.e.lfuFreq = 255 ∧ r.e.lastAccess < 2 ^ 64 - 1) := by omega
    exact congrArg Best.ref (if_pos h)
  | ttlAware =>
    cases hk
    unfold ArCore.considerTtlAware
    split
    · rw [if_pos (.inl rfl)]
    · rw [if_pos ⟨rfl, ha⟩]
  | slru | tinylfu =>
    cases hk
    unfold ArCore.considerSlru
    have h : (if r.e.lfuFreq ≥ 1 then 1 else 0) < 2 := by split <;> decide
    simp only
    rw [if_pos (.inl h)]

/-- Once a kernel remembers an entry it remembers one to the end. -/
theorem sampleChain_keeps {consider : Consider} (hcon : consider.Chooses) {m : Nat} {tier : Tier} {i : Nat}
    (l : List ArEntry) (c : ArCore) {b : Best} (hb : b.ref ≠ none) :
    (ArCore.sampleChain E consider m tier i l c b).2.ref ≠ none := by
  induction l generalizing c b with
  | nil => exact hb
  | cons e l ih =>
    unfold ArCore.sampleChain
    split
    · simp only
      split
      · exact ih _ hb
      · split
        · exact ih _ hb
        · apply ih
          rcases hcon { b with samples := b.samples + 1 } ⟨tier, i, e⟩ with h | h
          · rw [h]
            exact hb
          · rw [h]
            exact Option.some_ne_none _
    · exact hb

theorem sampleAttempts_keeps {consider : Consider} (hcon : consider.Chooses) {m : Nat} (left attempt : Nat)
    (c : ArCore) {b : Best} (hb : b.ref ≠ none) :
    (ArCore.sampleAttempts E consider m left attempt c b).2.ref ≠ none := by
  induction left generalizing attempt c b with
  | zero => exact hb
  | succ left ih =>
    unfold ArCore.sampleAttempts
    split
    · simp only
      generalize (if c.dict.hasCold && decide (c.dict.coldNkeys > 0) && decide (attempt % 2 = 1)
        then Tier.cold else Tier.hot) = tier
      split
      · exact ih _ _ hb
      · exact ih _ _ (sampleChain_keeps hcon _ _ hb)
    · exact hb

theorem rand_entryExpiredNow (c : ArCore) (r : Ref) :
    (c.entryExpiredNow E r).1.pos.rand = c.pos.rand := by
  unfold ArCore.entryExpiredNow
  split
  · rfl
  · simp only
    split
    · rfl
    · rfl

/-- **A walk that remembers nothing**: what is left of the chain is pinned. -/
theorem sampleChain_none (hE : E.Frozen t) {k : EvictKernel} {consider : Consider}
    (hk : k.consider = some consider) {m : Nat} (hm : 0 < m) {tier : Tier} {i : Nat} {l : List ArEntry}
    (hwf : c.WF) (hl : ∀ e ∈ l, c.Holds ⟨tier, i, e⟩) (hn : (l.map (·.key)).Nodup)
    (hr : ∀ e ∈ l, e.InRange) (hx : (ArCore.sampleChain E consider m tier i l c {}).2.ref = none) :
    let x := ArCore.sampleChain E consider m tier i l c {}
    x.2 = {} ∧ x.1.pos.rand = c.pos.rand ∧ ∀ e ∈ l, e ∈ x.1.dict.entries → e.pinned = true := by
  induction l generalizing c with
  | nil => exact ⟨rfl, rfl, fun e he => absurd he List.not_mem_nil⟩
  | cons e l ih =>
    intro x
    show x.2 = {} ∧ x.1.pos.rand = _ ∧ ∀ e ∈ _, e ∈ x.1.dict.entries → _
    unfold x
    unfold ArCore.sampleChain at hx ⊢
    rw [List.map_cons, List.nodup_cons] at hn
    have hre : c.Holds ⟨tier, i, e⟩ := hl e (.head _)
    have hne : ∀ e' ∈ l, e'.key ≠ e.key := fun e' he' h => hn.1 (List.mem_map.2 ⟨e', he', h⟩)
    have hrand := rand_entryExpiredNow (E := E) c ⟨tier, i, e⟩
    rw [if_pos hm] at hx ⊢
    simp only at hx ⊢
    rcases entryExpiredNow_spec (B := .plain) hE.until hwf hre with
      ⟨hf, -, hq, hdict⟩ | ⟨ht, -, hev, hgone, -, hkeep⟩
    · rw [hf, if_neg (by decide)] at hx ⊢
      have hl' : ∀ e' ∈ l, (c.entryExpiredNow E ⟨tier, i, e⟩).1.Holds ⟨tier, i, e'⟩ := fun e' he' =>
        holds_of_dict hdict (hl e' (.tail _ he'))
      split
      · rename_i hp
        rw [if_pos hp] at hx
        obtain ⟨h₁, h₂, h₃⟩ := ih (hq.wf hwf) hl' hn.2 (fun e' he' => hr e' (.tail _ he')) hx
        refine ⟨h₁, h₂.trans hrand, fun e' he' hent => ?_⟩
        rcases List.mem_cons.1 he' with rfl | he'
        · exact hp
        · exact h₃ e' he' hent
      · rename_i hp
        rw [if_neg hp] at hx
        refine absurd hx (sampleChain_keeps (chooses_consider hk) _ _ ?_)
        rw [takes_first hk (r := ⟨tier, i, e⟩) (hr e (.head _)) 1]
        exact Option.some_ne_none _
    · rw [ht, if_pos rfl] at hx ⊢
      obtain ⟨h₁, h₂, h₃⟩ := ih (hev.wf hwf) (fun e' he' => hkeep _ (hl e' (.tail _ he')) (hne e' he')) hn.2
        (fun e' he' => hr e' (.tail _ he')) hx
      refine ⟨h₁, h₂.trans hrand, fun e' he' hent => ?_⟩
      rcases List.mem_cons.1 he' with rfl | he'
      · -- it was due and has been released
        have hthin := (Fewer.sampleChain E consider m tier i l (c.entryExpiredNow E ⟨tier, i, e'⟩).1 {}).entries_le
        have hin := Multiset.mem_map_of_mem (fun a : ArEntry => a.toItem) (Multiset.mem_of_le hthin hent)
        exact absurd rfl (hgone _ hin)
      · exact h₃ e' he' hent

/-- Where a draw goes. -/
def DrawnFrom (d : Dict) (j : Nat) (tier : Tier) : Prop :=
  (tier = .cold → d.hasCold = true ∧ j % 2 = 1) ∧
    (tier = .hot → d.hasCold = false ∨ d.coldNkeys = 0 ∨ j % 2 = 0)

theorem drawnFrom (d : Dict) (j : Nat) : DrawnFrom d j
    (if d.hasCold && decide (d.coldNkeys > 0) && decide (j % 2 = 1) then .cold else .hot) := by
  split
  · rename_i h
    simp only [Bool.and_eq_true, decide_eq_true_eq] at h
    exact ⟨fun _ => ⟨h.1.1, h.2⟩, fun h' => by cases h'⟩
  · rename_i h
    refine ⟨fun h' => (by cases h'), fun _ => ?_⟩
    cases hc : d.hasCold with
    | false => exact .inl rfl
    | true =>
      simp only [hc, Bool.true_and, Bool.and_eq_true, decide_eq_true_eq] at h
      omega

theorem DrawnFrom.fewer {j : Nat} {tier : Tier} (h : DrawnFrom c.dict j tier) (hf : Fewer c c') :
    DrawnFrom c'.dict j tier := by
  have hcold := hf.coldNkeys
  unfold DrawnFrom
  rw [hf.hasCold]
  refine ⟨h.1, fun ht => ?_⟩
  rcases h.2 ht with h | h | h
  · exact .inl h
  · exact .inr (.inl (by omega))
  · exact .inr (.inr h)

theorem table_ne_nil (hwf : c.WF) {j : Nat} {tier : Tier} (h : DrawnFrom c.dict j tier) :
    (c.dict.table tier).isEmpty = false := by
  cases tier with
  | hot =>
    rw [List.isEmpty_eq_false_iff, ← List.length_pos_iff]
    exact hwf.dict.pow_pos
  | cold =>
    have := (h.1 rfl).1
    unfold Dict.hasCold at this
    simp only [Bool.and_eq_true, Bool.not_eq_true'] at this
    exact this.2

/-- **Attempts that remember nothing**: each has drawn a chain, and what is left of it is pinned. -/
theorem sampleAttempts_none (hE : E.Frozen t) {k : EvictKernel} {consider : Consider}
    (hk : k.consider = some consider) {m : Nat} (hm : 0 < m) (left attempt : Nat) (hwf : c.WF)
    (hr : ∀ e ∈ c.dict.entries, e.InRange)
    (hx : (ArCore.sampleAttempts E consider m left attempt c {}).2.ref = none) :
    let x := (ArCore.sampleAttempts E consider m left attempt c {}).1
    x.pos.rand = c.pos.rand + left ∧ ∀ j < left, ∃ tier, DrawnFrom x.dict (attempt + j) tier ∧
      ∀ e ∈ (x.dict.table tier).chain (E.rand (c.pos.rand + j) % (x.dict.table tier).length),
        e.pinned = true := by
  induction left generalizing c attempt with
  | zero => exact ⟨rfl, fun j hj => absurd hj (Nat.not_lt_zero j)⟩
  | succ left ih =>
    intro x
    have hfew : Fewer c x := .sampleAttempts E consider m (left + 1) attempt c {}
    have hdraw := drawnFrom c.dict attempt
    unfold x at hfew ⊢
    unfold ArCore.sampleAttempts at hx hfew ⊢
    rw [if_pos hm] at hx hfew ⊢
    simp only at hx hfew ⊢
    generalize (if c.dict.hasCold && decide (c.dict.coldNkeys > 0) && decide (attempt % 2 = 1)
      then Tier.cold else Tier.hot) = tier at hx hfew hdraw ⊢
    have hne := table_ne_nil hwf hdraw
    simp only [hne, Bool.false_eq_true, if_false] at hx hfew ⊢
    have hq : Quiet c (c.rand E).1 := .rand E c
    have hi : (c.rand E).2 = E.rand c.pos.rand := rfl
    rw [hi] at hx hfew ⊢
    generalize hidx : E.rand c.pos.rand % (c.dict.table tier).length = i at hx hfew ⊢
    have hwalk := sampleChain_none (c := (c.rand E).1) (l := (c.dict.table tier).chain i) hE hk hm (hq.wf hwf)
      (fun e he => he) (nodup_chain hwf tier i) (fun e he => hr e (Dict.mem_entries_of_chain he)) (by
        by_contra h
        exact sampleAttempts_keeps (chooses_consider hk) _ _ _ h hx)
    have hfew₁ := Fewer.sampleChain E consider m tier i ((c.dict.table tier).chain i) (c.rand E).1 {}
    obtain ⟨hev, -⟩ := sampleChain_spec (B := .plain) (m := m) hE (chooses_consider hk) (hq.wf hwf)
      (T := tier) (i := i) (l := (c.dict.table tier).chain i) (fun e he => he) (nodup_chain hwf tier i)
      (b := {}) (fun r h => by cases h)
    obtain ⟨hb, hpos, hpin⟩ := hwalk
    rw [hb] at hx hfew ⊢
    generalize (ArCore.sampleChain E consider m tier _ _ (c.rand E).1 {}).1 = c₁
      at hx hfew hpos hpin hfew₁ hev ⊢
    have hr₁ : ∀ e ∈ c₁.dict.entries, e.InRange := fun e he =>
      hr e (Multiset.mem_of_le hfew₁.entries_le he)
    obtain ⟨hp, hall⟩ := ih (attempt + 1) (hev.wf (hq.wf hwf)) hr₁ hx
    have hfew₂ := Fewer.sampleAttempts E consider m left (attempt + 1) c₁ {}
    have hpos' : c₁.pos.rand = c.pos.rand + 1 := hpos
    refine ⟨by rw [hp, hpos']; omega, fun j hj => ?_⟩
    cases j with
    | zero =>
      refine ⟨tier, hdraw.fewer hfew, fun e he => ?_⟩
      rw [(hfew.table tier).length_eq, show E.rand (c.pos.rand + 0) % List.length (c.dict.table tier) = i
        from hidx] at he
      have he₁ := ((hfew₂.table tier).chain _).subset he
      exact hpin e ((hfew₁.table tier).chain _ |>.subset he₁) (Dict.mem_entries_of_chain he₁)
    | succ j =>
      obtain ⟨T, h₁, h₂⟩ := hall j (by omega)
      refine ⟨T, ?_, ?_⟩
      · rwa [show attempt + (j + 1) = attempt + 1 + j by omega]
      · rwa [show c.pos.rand + (j + 1) = c₁.pos.rand + j by omega]

/-! ## Eviction -/

/-- An eviction that finds no victim. -/
theorem evictOne_stuck (hE : E.Frozen t) (hwf : c.WF) {consider : Consider}
    (hk : c.cfg.evict.consider = some consider) (hr : ∀ e ∈ c.dict.entries, e.InRange)
    (h : (c.evictOne E).2 = false) :
    (c.evictOne E).1.dict.entries = 0 ∨ (c.evictOne E).1.DrewPinned E := by
  rw [evictOne_of_consider hk] at h ⊢
  unfold ArCore.evictSampled at h ⊢
  split at h
  · rename_i hz
    rw [if_pos hz]
    rw [hwf.dict.nkeys, Multiset.card_eq_zero] at hz
    exact .inl hz
  · rename_i hz
    rw [if_neg hz]
    simp only at h ⊢
    split at h
    · rename_i hnone
      simp only
      have hm : 0 < if c.cfg.evictSamples > 0 then c.cfg.evictSamples.toNat else 16 := by
        split <;> omega
      obtain ⟨hp, hall⟩ := sampleAttempts_none hE hk hm 128 0 hwf hr hnone
      refine .inr ⟨c.pos.rand, hp, fun j hj => ?_⟩
      obtain ⟨tier, ⟨h₁, h₂⟩, h₃⟩ := hall j hj
      rw [Nat.zero_add] at h₁ h₂
      exact ⟨tier, h₁, h₂, h₃⟩
    · cases h

/-- An eviction that finds one. -/
theorem evictOne_takes (hE : E.Frozen t) (hwf : c.WF) {consider : Consider}
    (hk : c.cfg.evict.consider = some consider) (h : (c.evictOne E).2 = true) :
    (c.evictOne E).1.dict.nkeys + 1 ≤ c.dict.nkeys := by
  rw [evictOne_of_consider hk] at h ⊢
  unfold ArCore.evictSampled at h ⊢
  split at h
  · cases h
  · rename_i hz
    rw [if_neg hz]
    simp only at h ⊢
    split at h
    · cases h
    · rename_i v hv
      simp only
      obtain ⟨hev, hgood⟩ := sampleAttempts_spec (B := .plain) hE (chooses_consider hk)
        (if c.cfg.evictSamples > 0 then c.cfg.evictSamples.toNat else 16) 128 0 hwf (b := {})
        (fun r h => by cases h)
      have hfew : Fewer c (c.samplePick E consider).1 := .sampleAttempts E consider _ 128 0 c {}
      have hwf' : (c.samplePick E consider).1.WF := hev.wf hwf
      obtain ⟨hw, hi⟩ := items_free hwf' (hgood v hv).1
      have hcard := congrArg Multiset.card hi
      rw [Multiset.card_cons, ← nkeys_eq_card hwf', ← nkeys_eq_card hw] at hcard
      have hle := hfew.nkeys
      show ((c.samplePick E consider).1.arEntryFreeEx v.bucket v.tier v.e).dict.nkeys + 1 ≤ _
      omega

/-- **An eviction loop** ends below `maxmemory`, without keys, with draws of pinned keys, or after its last
round. -/
theorem evictLoop_bound (hE : E.Frozen t) (n : Nat) (hwf : c.WF) {consider : Consider}
    (hk : c.cfg.evict.consider = some consider) (hr : ∀ e ∈ c.dict.entries, e.InRange) :
    (c.evictLoop E n).shouldEvict = false ∨ (c.evictLoop E n).dict.entries = 0 ∨
      (c.evictLoop E n).DrewPinned E ∨ (c.evictLoop E n).dict.nkeys + n ≤ c.dict.nkeys := by
  induction n generalizing c with
  | zero => exact .inr (.inr (.inr (Nat.le_refl _)))
  | succ n ih =>
    unfold ArCore.evictLoop
    cases hs : c.shouldEvict with
    | false =>
      simp only [Bool.false_eq_true, if_false]
      exact .inl hs
    | true =>
      simp only [if_true]
      have hev : Evolves t .plain ∅ ∅ c (c.evictOne E).1 := .evictOne hE hwf
      cases h : (c.evictOne E).2 with
      | true =>
        have hlt := evictOne_takes hE hwf hk h
        have hfew := Fewer.evictOne E c
        simp only [if_true]
        rcases ih (hev.wf hwf) (hev.cfg ▸ hk) fun e he => hr e (Multiset.mem_of_le hfew.entries_le he) with
          h₁ | h₁ | h₁ | h₁
        · exact .inl h₁
        · exact .inr (.inl h₁)
        · exact .inr (.inr (.inl h₁))
        · exact .inr (.inr (.inr (by omega)))
      | false =>
        simp only [Bool.false_eq_true, if_false]
        rcases evictOne_stuck hE hwf hk hr h with h₁ | h₁
        · exact .inr (.inl h₁)
        · exact .inr (.inr (.inl h₁))

/-! ## What a write leaves -/

/-- What may be above `maxmemory` after a loop of at most `cap` rounds. -/
def Bounded (E : Env) (c c' : ArCore) (cap : Nat) : Prop :=
  c'.mem.usedMemory ≤ c'.cfg.maxmemory ∨ (∀ e ∈ c'.dict.entries, e.pinned = true) ∨ c'.DrewPinned E ∨
    c.CappedBy c' cap

/-- The end of a write, after its loop: keys may still leave, and nothing is drawn. -/
structure Closes (c c' : ArCore) : Prop where
  fewer : Fewer c c'
  rand : c'.pos.rand = c.pos.rand
  clock : c.stats.clock ≤ c'.stats.clock

theorem Closes.drewPinned (h : Closes c c') (hd : c.DrewPinned E) : c'.DrewPinned E := by
  obtain ⟨p, hp, hall⟩ := hd
  refine ⟨p, h.rand.trans hp, fun j hj => ?_⟩
  obtain ⟨tier, h₁, h₂, h₃⟩ := hall j hj
  obtain ⟨h₁, h₂⟩ := DrawnFrom.fewer (c := c) ⟨h₁, h₂⟩ h.fewer
  refine ⟨tier, h₁, h₂, fun e he => h₃ e ?_⟩
  rw [(h.fewer.table tier).length_eq] at he
  exact ((h.fewer.table tier).chain _).subset he

theorem Closes.refl (c : ArCore) : Closes c c := ⟨.refl c, rfl, Nat.le_refl _⟩

theorem Closes.trans {c'' : ArCore} (h : Closes c c') (h' : Closes c' c'') : Closes c c'' :=
  ⟨h.fewer.trans h'.fewer, h'.rand.trans h.rand, h.clock.trans h'.clock⟩

theorem Closes.touch (c : ArCore) (key : Bytes) : Closes c (c.arWatchTouch key) :=
  ⟨.touch c key, rfl, Nat.le_refl _⟩

/-- A write has made room. -/
structure MadeRoom (E : Env) (cap : Nat) (c c' : ArCore) : Prop where
  room : ∃ c₀ n, Grows c c₀ ∧ Closes (c₀.evictLoop E n) c' ∧
    ((c₀.evictLoop E n).dict.nkeys + n ≤ c₀.dict.nkeys → c.CappedBy c' cap)

/-- **What a write leaves that has made room.** -/
theorem MadeRoom.bounded {cap : Nat} (h : MadeRoom E cap c c') (hE : E.Frozen t) (hs : c.Stamped)
    (hk : c'.cfg.evict.consider.isSome = true) (hm : 0 < c'.cfg.maxmemory)
    (hclock : c'.stats.clock < 2 ^ 64 - 1) : Bounded E c c' cap := by
  obtain ⟨c₀, n, hg, h, hcap⟩ := h.room
  have hr : ∀ e ∈ c₀.dict.entries, e.InRange := by
    apply inRange_of_stamped (hg.stamps.stamped hs)
    have hloop : Evolves t .plain ∅ ∅ c₀ (c₀.evictLoop E n) := .evictLoop hE hg.wf n
    have := (hloop.stamps hg.wf).clock
    have := h.clock
    omega
  obtain ⟨c₁, hc₁⟩ : ∃ c₁, c₁ = c₀.evictLoop E n := ⟨_, rfl⟩
  rw [← hc₁] at h hcap
  obtain ⟨consider, hk⟩ := Option.isSome_iff_exists.1 hk
  have hg₁ : c₁.cfg = c₀.cfg := by
    rw [hc₁]
    exact (Fewer.evictLoop E n c₀).cfg
  rw [h.fewer.cfg, hg₁] at hk
  have hle := h.fewer.entries_le
  rcases evictLoop_bound hE n hg.wf hk hr with h₁ | h₁ | h₁ | h₁
  · rw [← hc₁] at h₁
    refine .inl ?_
    have hused := h.fewer.used
    unfold ArCore.shouldEvict ArCore.arCoreOverMaxmemory at h₁
    rw [← h.fewer.cfg] at h₁
    split at h₁
    · rename_i hnoop
      rw [h.fewer.cfg, hg₁] at hnoop
      rw [hnoop] at hk
      cases hk
    · simp only [Bool.and_eq_false_iff, decide_eq_false_iff_not] at h₁
      omega
  · rw [← hc₁] at h₁
    refine .inr (.inl fun e he => ?_)
    have := Multiset.mem_of_le hle he
    rw [h₁] at this
    exact absurd this (Multiset.notMem_zero e)
  · rw [← hc₁] at h₁
    exact .inr (.inr (.inl (h.drewPinned h₁)))
  · rw [← hc₁] at h₁
    exact .inr (.inr (.inr (hcap h₁)))

end

end AuraRedis
