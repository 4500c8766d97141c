import AuraRedis.Core.Proof.Find

/-!
# Eviction and active expiry

A sampling loop releases what is due and remembers an entry that is still linked (`Good`); a kernel
then releases that one. `Evolves.evictLoop` and `Evolves.arCoreActiveExpire` are the loops around them.
-/

set_option autoImplicit false

namespace AuraRedis

open ArCore (Best Consider)

section
variable {E : Env} {t : Nat} {B : Terms} {c : ArCore}

/-! ## Chains -/

theorem nodup_chain (hwf : c.WF) (tier : Tier) (b : Nat) :
    (((c.dict.table tier).chain b).map (·.key)).Nodup := by
  rcases Nat.lt_or_ge b (c.dict.table tier).length with hlt | hge
  · have hn : ((c.dict.table tier).entries.map (·.key)).Nodup := by
      have := hwf.dict.nodup
      rw [c.dict.entries_eq tier, Multiset.map_add] at this
      exact (Multiset.nodup_add.1 this).1
    rw [Chains.chain_of_lt hlt]
    exact ((List.sublist_flatten_of_mem (List.getElem_mem hlt)).map _).nodup hn
  · rw [Chains.chain_of_le hge]
    exact List.nodup_nil

/-! ## Sampling -/

/-- A kernel's choice is what it had or the candidate. -/
def ArCore.Consider.Chooses (f : Consider) : Prop :=
  ∀ best r, (f best r).ref = best.ref ∨ (f best r).ref = some r

theorem chooses_considerLru : ArCore.considerLru.Chooses := by
  intro best r
  unfold ArCore.considerLru
  split
  · exact .inr rfl
  · exact .inl rfl

theorem chooses_considerLfu : ArCore.considerLfu.Chooses := by
  intro best r
  unfold ArCore.considerLfu
  split
  · exact .inr rfl
  · exact .inl rfl

theorem chooses_considerTtlAware : ArCore.considerTtlAware.Chooses := by
  intro best r
  unfold ArCore.considerTtlAware
  split
  · split
    · exact .inr rfl
    · exact .inl rfl
  · split
    · exact .inr rfl
    · exact .inl rfl

theorem chooses_considerSlru : ArCore.considerSlru.Chooses := by
  intro best r
  unfold ArCore.considerSlru
  generalize (if r.e.lfuFreq ≥ 1 then 1 else 0) = prot
  simp only
  split
  · exact .inr rfl
  · exact .inl rfl

/-- What has been remembered is linked, and not due. -/
def Best.Good (t : Nat) (c : ArCore) (best : Best) : Prop :=
  ∀ r, best.ref = some r → c.Holds r ∧ ¬Due t r.e.expireAt

/-- The walk down a chain: `l` is what is left of it. -/
theorem sampleChain_spec (hE : E.Frozen t) {consider : Consider} (hcon : consider.Chooses)
    {m : Nat} {T : Tier} {i : Nat} {l : List ArEntry} (hwf : c.WF)
    (hl : ∀ e ∈ l, c.Holds ⟨T, i, e⟩) (hn : (l.map (·.key)).Nodup) {b : Best}
    (hb : Best.Good t c b) :
    let x := ArCore.sampleChain E consider m T i l c b
    Evolves t B ∅ ∅ c x.1 ∧ Best.Good t x.1 x.2 := by
  induction l generalizing c b with
  | nil => exact ⟨.refl c, hb⟩
  | cons e l ih =>
    intro x
    show Evolves t B ∅ ∅ c x.1 ∧ _
    unfold x ArCore.sampleChain
    rw [List.map_cons, List.nodup_cons] at hn
    have hr : c.Holds ⟨T, i, e⟩ := hl e (.head _)
    have hne : ∀ e' ∈ l, e'.key ≠ e.key := fun e' he' hk =>
      hn.1 (List.mem_map.2 ⟨e', he', hk⟩)
    split
    · simp only
      rcases entryExpiredNow_spec (B := B) hE.until hwf hr with
        ⟨hf, hd, hq, hdict⟩ | ⟨ht, hdue, hev, -, -, hkeep⟩
      · have hl' : ∀ e' ∈ l, (c.entryExpiredNow E ⟨T, i, e⟩).1.Holds ⟨T, i, e'⟩ :=
          fun e' he' => holds_of_dict hdict (hl e' (.tail _ he'))
        have hb' : Best.Good t (c.entryExpiredNow E ⟨T, i, e⟩).1 b := fun r h =>
          ⟨holds_of_dict hdict (hb r h).1, (hb r h).2⟩
        rw [hf, if_neg (by decide)]
        split
        · obtain ⟨h₁, h₂⟩ := ih (hq.wf hwf) hl' hn.2 hb'
          exact ⟨h₁.after (.of_quiet hq), h₂⟩
        · obtain ⟨h₁, h₂⟩ := ih (b := consider { b with samples := b.samples + 1 } ⟨T, i, e⟩)
            (hq.wf hwf) hl' hn.2 (by
              intro r h
              rcases hcon { b with samples := b.samples + 1 } ⟨T, i, e⟩ with he | he
              · exact hb' r (he ▸ h)
              · rw [he] at h
                cases h
                exact ⟨holds_of_dict hdict hr, hd hE⟩)
          exact ⟨h₁.after (.of_quiet hq), h₂⟩
      · rw [ht, if_pos rfl]
        obtain ⟨h₁, h₂⟩ := ih (hev.wf hwf)
          (fun e' he' => hkeep _ (hl e' (.tail _ he')) (hne e' he')) hn.2 (b := b) (by
            intro r h
            obtain ⟨hr', hd'⟩ := hb r h
            refine ⟨hkeep r hr' fun hk => hd' ?_, hd'⟩
            -- the one remembered is not due, so it is another entry
            have := hwf.dict.toShape.key_inj (Dict.mem_entries_of_chain hr')
              (Dict.mem_entries_of_chain hr) hk
            rw [this]
            exact hdue)
        exact ⟨h₁.after hev.toEvolves, h₂⟩
    · exact ⟨.refl c, hb⟩

theorem sampleAttempts_spec (hE : E.Frozen t) {consider : Consider} (hcon : consider.Chooses)
    (m left attempt : Nat) (hwf : c.WF) {b : Best} (hb : Best.Good t c b) :
    let x := ArCore.sampleAttempts E consider m left attempt c b
    Evolves t B ∅ ∅ c x.1 ∧ Best.Good t x.1 x.2 := by
  induction left generalizing attempt c b with
  | zero => exact ⟨.refl c, hb⟩
  | succ left ih =>
    intro x
    show Evolves t B ∅ ∅ c x.1 ∧ _
    unfold x ArCore.sampleAttempts
    split
    · simp only
      generalize (if c.dict.hasCold && decide (c.dict.coldNkeys > 0) && decide (attempt % 2 = 1)
        then Tier.cold else Tier.hot) = T
      split
      · exact ih (attempt + 1) hwf hb
      · have hq : Quiet c (c.rand E).1 := .rand E c
        generalize (c.rand E).2 % (c.dict.table T).length = i
        have hwf' : (c.rand E).1.WF := hq.wf hwf
        obtain ⟨h₁, h₂⟩ := sampleChain_spec (B := B) (m := m) hE hcon
          (T := T) (i := i) (l := (c.dict.table T).chain i) hwf' (fun e he => he)
          (nodup_chain hwf T i) (b := b) hb
        obtain ⟨h₃, h₄⟩ := ih (attempt + 1) (h₁.wf hwf') h₂
        exact ⟨(h₃.after h₁).after (.of_quiet hq), h₄⟩
    · exact ⟨.refl c, hb⟩

/-! ## One eviction -/

theorem Evolves.evictSampled (hE : E.Frozen t) {consider : Consider} (hcon : consider.Chooses)
    (hwf : c.WF) (hk : c.cfg.evict ≠ .noop) : Evolves t B ∅ ∅ c (c.evictSampled E consider).1 := by
  unfold ArCore.evictSampled
  split
  · exact .refl c
  · obtain ⟨h₁, h₂⟩ := sampleAttempts_spec (B := B) hE hcon
      (if c.cfg.evictSamples > 0 then c.cfg.evictSamples.toNat else 16) 128 0 hwf (b := {})
      (fun r h => by cases h)
    simp only
    split
    · exact h₁
    · rename_i v hv
      have hev : Evolves t B ∅ ∅ (ArCore.samplePick E consider c).1
          ((ArCore.samplePick E consider c).1.arEntryFreeEx v.bucket v.tier v.e) :=
        .reap (h₁.wf hwf) (h₂ v hv).1 fun hn => absurd (h₁.cfg ▸ hn) hk
      exact (hev.after h₁).quiet (.count _ (fun s => { s with evicted := s.evicted + 1 }) (Nat.le_refl _))

theorem firstChainFrom_mem {tab : Table} {start left n b : Nat} {e : ArEntry}
    (h : ArCore.firstChainFrom tab start left n = some (b, e)) : e ∈ tab.chain b := by
  induction left generalizing n with
  | zero => cases h
  | succ left ih =>
    unfold ArCore.firstChainFrom at h
    simp only at h
    split at h
    · exact ih h
    · rename_i hc
      cases h
      rw [hc]
      exact .head _

theorem Evolves.evictFirst (hwf : c.WF) (hk : c.cfg.evict ≠ .noop) (tier : Tier) :
    Evolves t B ∅ ∅ c (c.evictFirst tier).1 := by
  unfold ArCore.evictFirst
  simp only
  have hq : Quiet c (c.count fun s => { s with clock := s.clock + 1 }) := .count c _ (Nat.le_succ _)
  split
  · exact .of_quiet hq
  · rename_i b e he
    have hev : Evolves t B ∅ ∅ (c.count fun s => { s with clock := s.clock + 1 })
        ((c.count fun s => { s with clock := s.clock + 1 }).arEntryFreeEx b tier e) :=
      .reap (r := ⟨tier, b, e⟩) (hq.wf hwf) (firstChainFrom_mem he) fun hn => absurd hn hk
    exact (hev.after (.of_quiet hq)).quiet (.count _ (fun s => { s with evicted := s.evicted + 1 }) (Nat.le_refl _))

theorem Evolves.arCoreEvictRandomOne (hwf : c.WF) (hk : c.cfg.evict ≠ .noop) :
    Evolves t B ∅ ∅ c c.arCoreEvictRandomOne.1 := by
  unfold ArCore.arCoreEvictRandomOne
  split
  · exact .refl c
  · split
    · have h : Evolves t B ∅ ∅ c (c.evictFirst .cold).1 := .evictFirst hwf hk .cold
      simp only
      split
      · exact h
      · exact (Evolves.evictFirst (h.wf hwf) (h.cfg ▸ hk) .hot).after h
    · exact .evictFirst hwf hk .hot

/-- **One eviction**, by any kernel. -/
theorem Evolves.evictOne (hE : E.Frozen t) (hwf : c.WF) : Evolves t B ∅ ∅ c (c.evictOne E).1 := by
  unfold ArCore.evictOne
  split
  case h_1 => exact .refl c
  case h_2 hk => exact .evictSampled hE chooses_considerLru hwf (by rw [hk]; decide)
  case h_3 hk => exact .evictSampled hE chooses_considerLfu hwf (by rw [hk]; decide)
  case h_4 hk => exact .evictSampled hE chooses_considerTtlAware hwf (by rw [hk]; decide)
  case h_5 hk => exact .evictSampled hE chooses_considerSlru hwf (by rw [hk]; decide)
  case h_6 hk => exact .evictSampled hE chooses_considerSlru hwf (by rw [hk]; decide)
  case h_7 hk => exact .arCoreEvictRandomOne hwf (by rw [hk]; decide)
  case h_8 hk =>
    have hk' : c.cfg.evict ≠ .noop := by rw [hk]; decide
    have h : Evolves t B ∅ ∅ c c.arCoreEvictRandomOne.1 := .arCoreEvictRandomOne hwf hk'
    simp only
    split
    · exact h
    · exact (Evolves.arCoreEvictRandomOne (h.wf hwf) (h.cfg ▸ hk')).after h

/-! ## Loops -/

theorem Evolves.evictLoop (hE : E.Frozen t) (hwf : c.WF) (n : Nat) :
    Evolves t B ∅ ∅ c (c.evictLoop E n) := by
  induction n generalizing c with
  | zero => exact .refl c
  | succ n ih =>
    unfold ArCore.evictLoop
    split
    · have h : Evolves t B ∅ ∅ c (c.evictOne E).1 := .evictOne hE hwf
      simp only
      split
      · exact (ih (h.wf hwf)).after h
      · exact h
    · exact .refl c

theorem Evolves.maybeEvict (hE : E.Frozen t) (hwf : c.WF) :
    Evolves t B ∅ ∅ c (c.maybeEvict E) := .evictLoop hE hwf _

theorem Evolves.arMaybeEvictPub (hE : E.Frozen t) (hwf : c.WF) :
    Evolves t B ∅ ∅ c (c.arMaybeEvictPub E) := .evictLoop hE hwf _

/-! ## Active expiry -/

theorem Evolves.expireFirst (hwf : c.WF) {tier : Tier} {b : Nat} {l : List ArEntry}
    (hl : ∀ e ∈ l, c.Holds ⟨tier, b, e⟩) :
    Evolves t B ∅ ∅ c (ArCore.expireFirst t tier b l c).1 := by
  induction l with
  | nil => exact .refl c
  | cons e l ih =>
    unfold ArCore.expireFirst
    split
    · rename_i hd
      have hev : Evolves t B ∅ ∅ c (c.arEntryFreeEx b tier e) :=
        .reap (r := ⟨tier, b, e⟩) hwf (hl e (.head _)) fun _ => hd
      exact hev.quiet (.count _ (fun s => { s with expired := s.expired + 1 }) (Nat.le_refl _))
    · exact ih fun e' he' => hl e' (.tail _ he')

theorem Evolves.activeExpireLoop (hwf : c.WF) (left s freed : Nat) :
    Evolves t B ∅ ∅ c (ArCore.activeExpireLoop E t left s c freed).1 := by
  induction left generalizing s c freed with
  | zero => exact .refl c
  | succ left ih =>
    unfold ArCore.activeExpireLoop
    simp only
    generalize (if c.dict.hasCold && decide (c.dict.coldNkeys > 0) && decide (s % 2 = 1)
      then Tier.cold else Tier.hot) = tier
    split
    · exact ih hwf (s + 1) freed
    · have hq : Quiet c (c.rand E).1 := .rand E c
      generalize (c.rand E).2 % (c.dict.table tier).length = b
      have hev : Evolves t B ∅ ∅ (c.rand E).1
          (ArCore.expireFirst t tier b ((c.dict.table tier).chain b) (c.rand E).1).1 :=
        .expireFirst (hq.wf hwf) fun e he => he
      exact ((ih (hev.wf (hq.wf hwf)) (s + 1) _).after hev).after (.of_quiet hq)

/-- **A pass of active expiry.** -/
theorem Evolves.arCoreActiveExpire (hE : E.Frozen t) (hwf : c.WF) (effort : Int) :
    Evolves t B ∅ ∅ c (c.arCoreActiveExpire E effort).1 := by
  unfold ArCore.arCoreActiveExpire
  split
  · exact .refl c
  · have hq : Quiet c (c.arNowMs E).1 := .arNowMs E c
    have hn : (c.arNowMs E).2 = t := hE _
    simp only [hn]
    exact (Evolves.activeExpireLoop (hq.wf hwf) _ 0 0).after (.of_quiet hq)

end

end AuraRedis
