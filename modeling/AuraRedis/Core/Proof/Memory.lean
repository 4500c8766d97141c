import AuraRedis.Core.Proof.Bound
import AuraRedis.Core.Proof.ScanTiers

/-!
# The memory bound of every write

Each write that may grow the key space makes room (`MadeRoom`), and so does a change of `maxmemory`:
`memory_bound`. What it leaves above `maxmemory` is there by the design of the loops, see
`memory_stays`.
-/

set_option autoImplicit false

namespace AuraRedis

open ArCore (Typed)

section
variable {E : Env} {t : Nat} {c c' c₀ : ArCore} {key : Bytes} {r : Ref}

/-! ## Stamps of a run -/

theorem stamps_run (hwf : c.WF) (x : Call) : Stamps c (x.op.run x.E c).1 := by
  cases hk : x.op.isKnob with
  | false => exact (x.op.sound x.frozen hwf hk).evolves.stamps hwf
  | true =>
    obtain ⟨g, s, hev, -⟩ := x.op.knob_evolves (B := .plain) x.frozen hwf hk
    have h := hev.stamps ⟨hwf.dict, hwf.objs⟩
    exact ⟨h.clock, h.stamped⟩

/-- **Every reachable core is stamped.** -/
theorem ArCore.Reachable.stamped (h : ArCore.Reachable c) : c.Stamped := by
  induction h with
  | create =>
    intro e he
    rw [entries_arCoreCreate] at he
    exact absurd he (Multiset.notMem_zero e)
  | call x hc ih => exact (stamps_run hc.wf x).stamped ih

/-! ## The loops -/

/-- `maybe_evict`. -/
theorem Grows.maybeEvict (hg : Grows c c₀) (h : Closes (c₀.maybeEvict E) c') : MadeRoom E 1000000 c c' := by
  unfold ArCore.maybeEvict at h
  simp only at h
  refine ⟨_, _, hg, h, ?_⟩
  have hkeys := hg.nkeys
  have hleft := h.fewer.nkeys
  generalize c₀.evictLoop E _ = c₁ at hleft ⊢
  intro hle
  unfold ArCore.CappedBy
  by_cases hbig : c₀.dict.nkeys + 8 < 2 ^ 31
  · have hn : int32 (c₀.dict.nkeys + 8) = ((c₀.dict.nkeys + 8 : Nat) : Int) := by
      exact_mod_cast int32_natCast hbig
    rw [hn] at hle
    left
    split at hle <;> split at hle <;> omega
  · have h64 : 64 ≤ (if (if int32 (c₀.dict.nkeys + 8) < 64 then 64 else int32 (c₀.dict.nkeys + 8)) > 1000000
        then 1000000 else if int32 (c₀.dict.nkeys + 8) < 64 then 64
        else int32 (c₀.dict.nkeys + 8)).toNat := by
      split <;> split <;> omega
    right
    omega

/-- `ar_maybe_evict_pub`. -/
theorem Grows.arMaybeEvictPub (hg : Grows c c₀) (h : Closes (c₀.arMaybeEvictPub E) c') :
    MadeRoom E 4096 c c' := by
  unfold ArCore.arMaybeEvictPub at h
  simp only at h
  refine ⟨_, _, hg, h, ?_⟩
  have hkeys := hg.nkeys
  have hleft := h.fewer.nkeys
  generalize c₀.evictLoop E _ = c₁ at hleft ⊢
  intro hle
  left
  split at hle <;> split at hle <;> omega

/-- First something that takes away. -/
theorem MadeRoom.after {cap : Nat} (h : MadeRoom E cap c' c₀) (hle : c'.dict.nkeys ≤ c.dict.nkeys)
    (hst : Stamps c c') : MadeRoom E cap c c₀ := by
  obtain ⟨c₁, n, hg, hcl, hcap⟩ := h.room
  refine ⟨c₁, n, hg.after hle hst, hcl, fun hn => ?_⟩
  rcases hcap hn with h | h
  · exact .inl (by omega)
  · exact .inr (by omega)

theorem MadeRoom.quiet {cap : Nat} (h : MadeRoom E cap c' c₀) (hwf : c.WF) (hq : Quiet c c') :
    MadeRoom E cap c c₀ := h.after (hq.nkeys hwf).le (hq.stamps hwf.dict)

theorem MadeRoom.evolves {cap : Nat} {B : Terms} {W : Set Bytes} (h : MadeRoom E cap c' c₀) (hwf : c.WF)
    (hev : Evolves t B ∅ W c c') : MadeRoom E cap c c₀ := h.after (hev.nkeys_le hwf) (hev.stamps hwf)

/-- Then something that draws nothing. -/
theorem MadeRoom.closes {cap : Nat} (h : MadeRoom E cap c c₀) (hcl : Closes c₀ c') : MadeRoom E cap c c' := by
  obtain ⟨c₁, n, hg, hcl₁, hcap⟩ := h.room
  refine ⟨c₁, n, hg, hcl₁.trans hcl, fun hn => ?_⟩
  have := hcl.fewer.nkeys
  rcases hcap hn with h | h
  · exact .inl (by omega)
  · exact .inr (by omega)

theorem rand_findLive (key : Bytes) (tier : Tier) : (c.findLive E key tier).1.pos.rand = c.pos.rand := by
  unfold ArCore.findLive
  split
  · rfl
  · exact rand_entryExpiredNow c _

theorem rand_arFindEntryEx (key : Bytes) : (c.arFindEntryEx E key).1.pos.rand = c.pos.rand := by
  unfold ArCore.arFindEntryEx
  simp only
  split
  · exact rand_findLive key .hot
  · split
    · exact (rand_findLive key .cold).trans (rand_findLive key .hot)
    · exact rand_findLive key .hot

theorem Closes.arFindEntryEx (hE : E.Frozen t) (hwf : c.WF) (key : Bytes) :
    Closes c (c.arFindEntryEx E key).1 :=
  ⟨.arFindEntryEx E c key, rand_arFindEntryEx key,
    ((Expires.arFindEntryEx (B := .plain) hE.until hwf key).stamps hwf).clock⟩

/-! ## Strings -/

theorem MadeRoom.setExisting (hwf : c.WF) (hr : c.Holds r) (val : Bytes) (expireAt : Nat)
    (hok : (c.setExisting E r val expireAt).2 = true) :
    MadeRoom E 1000000 c (c.setExisting E r val expireAt).1 := by
  have hm : (c.malloc E).2 = true := by
    unfold ArCore.setExisting at hok
    by_contra hm
    rw [Bool.not_eq_true] at hm
    simp only [hm, Bool.not_false, if_true] at hok
    cases hok
  obtain ⟨c₀, he, hg, -⟩ := grows_setExisting hwf hr hm val expireAt
  rw [he]
  exact hg.maybeEvict (.touch _ _)

theorem MadeRoom.setNew (hwf : c.WF) (hk : c.Has key none) (val : Bytes) (expireAt : Nat)
    (hok : (c.setNew E key val expireAt).2 = true) :
    MadeRoom E 1000000 c (c.setNew E key val expireAt).1 := by
  obtain ⟨h₁, h₂, h₃⟩ : (c.malloc E).2 = true ∧ ((c.malloc E).1.malloc E).2 = true ∧
      (((c.malloc E).1.malloc E).1.malloc E).2 = true := by
    unfold ArCore.setNew at hok
    simp only at hok
    split at hok
    · cases hok
    · rename_i h₁
      split at hok
      · cases hok
      · rename_i h₂
        refine ⟨by simpa using h₁, ?_⟩
        simpa using h₂
  obtain ⟨c₀, he, hg, -⟩ := grows_setNew hwf (has_none_iff.1 hk) h₁ h₂ h₃ val expireAt
  rw [he]
  exact hg.maybeEvict (.touch _ _)

theorem MadeRoom.arEntrySetEx (hE : E.Frozen t) (hwf : c.WF) (key val : Bytes) (expireAt : Nat)
    (hok : (c.arEntrySetEx E key val expireAt).2 = true) :
    MadeRoom E 1000000 c (c.arEntrySetEx E key val expireAt).1 := by
  unfold ArCore.arEntrySetEx at hok ⊢
  rcases find_cases (B := .plain) hE hwf key with ⟨hn, hev, h0, -⟩ | ⟨r, hs, hq, hr, -, -⟩
  · simp only [hn] at hok ⊢
    exact (MadeRoom.setNew (hev.wf hwf) h0 val expireAt hok).evolves hwf hev
  · simp only [hs] at hok ⊢
    exact (MadeRoom.setExisting (hq.wf hwf) hr val expireAt hok).quiet hwf hq

/-- A `SET` with a deadline in so much time. -/
theorem MadeRoom.setFromNow (hE : E.Frozen t) (hwf : c.WF) (key val : Bytes) (n : Int) (d : Nat → Nat)
    (hok : (if n > 0 then (c.countSet.arNowMs E).1.arEntrySetEx E key val (d (c.countSet.arNowMs E).2)
      else c.countSet.arEntrySetEx E key val 0).2 = true) :
    MadeRoom E 1000000 c (if n > 0 then
      (c.countSet.arNowMs E).1.arEntrySetEx E key val (d (c.countSet.arNowMs E).2)
      else c.countSet.arEntrySetEx E key val 0).1 := by
  have hq : Quiet c c.countSet := .count c _ (Nat.le_refl _)
  split
  · rename_i hn
    rw [if_pos hn] at hok
    have hq' := hq.trans (.arNowMs E _)
    exact (MadeRoom.arEntrySetEx hE (hq'.wf hwf) key val _ hok).quiet hwf hq'
  · rename_i hn
    rw [if_neg hn] at hok
    exact (MadeRoom.arEntrySetEx hE (hq.wf hwf) key val 0 hok).quiet hwf hq

theorem MadeRoom.arAppend (hE : E.Frozen t) (hwf : c.WF) (key : Bytes) {val : Bytes} (hv : val ≠ []) {n : Nat}
    (hok : (c.arAppend E key val).2 = .found n) : MadeRoom E 1000000 c (c.arAppend E key val).1 := by
  have hq₀ : Quiet c c.countSet := .count c _ (Nat.le_refl _)
  have hwf₀ := hq₀.wf hwf
  apply MadeRoom.quiet _ hwf hq₀
  unfold ArCore.arAppend at hok ⊢
  simp only at hok ⊢
  generalize c.countSet = c₀ at hwf₀ hok ⊢
  rcases find_cases (B := .plain) hE hwf₀ key with ⟨hn, hev, -, -⟩ | ⟨r, hs, hq, hr, hk, -⟩
  · simp only [hn] at hok ⊢
    have hwf₁ := hev.wf hwf₀
    generalize (c₀.arFindEntryEx E key).1 = c₁ at hev hwf₁ hok ⊢
    have hset : (c₁.arEntrySet E key val).2 = true → MadeRoom E 1000000 c₁ (c₁.arEntrySet E key val).1 :=
      MadeRoom.arEntrySetEx hE hwf₁ key val 0
    obtain ⟨o, hl, -⟩ := KeyStep.arEntrySet (B := .plain) (W := {key}) hE hwf₁ key val
    have hwf₂ := hl.ev.wf hwf₁
    split at hok
    · cases hok
    · rename_i hf
      rw [if_neg hf]
      have hroom := (hset (by simpa using hf)).closes (.arFindEntryEx hE hwf₂ key)
      split
      · exact hroom.evolves hwf₀ hev
      · exact hroom.evolves hwf₀ hev
  · simp only [hs] at hok ⊢
    subst hk
    have hwf₁ := hq.wf hwf₀
    apply MadeRoom.quiet _ hwf₀ hq
    generalize (c₀.arFindEntryEx E r.e.key).1 = c₁ at hr hwf₁ hok ⊢
    split at hok
    · rename_i old hobj
      have hlen : ¬val.length = 0 := by simpa using hv
      simp only [if_neg hlen] at hok ⊢
      split at hok
      · cases hok
      · rename_i hm
        rw [if_neg hm]
        have hwf₂ : (c₁.malloc E).1.WF := (Quiet.malloc E c₁).wf hwf₁
        have hr₂ : (c₁.malloc E).1.Holds r := hr
        apply MadeRoom.quiet _ hwf₁ (.malloc E c₁)
        generalize (c₁.malloc E).1 = c₂ at hwf₂ hr₂ ⊢
        simp only
        generalize hst : c₂.stats.noteBigkey .string _ = stats
        have hclock : stats.clock = c₂.stats.clock := by rw [← hst, clock_noteBigkey]
        generalize hc₃ : ArCore.updEntry _ r.e.key _ = c₃
        have hd : c₃.dict = c₂.dict.update r.e.key fun e =>
            { e with obj := .string (old ++ val), lastAccess := stats.clock + 1 } := by
          rw [← hc₃]
          rfl
        have hclock₃ : c₃.stats.clock = stats.clock + 1 := by rw [← hc₃]; rfl
        have hg : Grows c₂ c₃ := (Grows.refl hwf₂).updated (f := fun e =>
            { e with obj := .string (old ++ val), lastAccess := stats.clock + 1 })
          (fun _ => rfl) (fun _ _ => trivial) hd (by omega) fun _ _ h => ⟨hclock₃.ge, h⟩
        have hr₃ : c₃.Holds (r.with
            { r.e with obj := .string (old ++ val), lastAccess := stats.clock + 1 }) :=
          holds_update (f := fun e =>
            { e with obj := .string (old ++ val), lastAccess := stats.clock + 1 }) hr₂ hd
        exact (hg.accessed hr₃ r.e.key).maybeEvict (.touch _ _)
    · cases hok

theorem MadeRoom.arIncr (hE : E.Frozen t) (hwf : c.WF) (key : Bytes) (delta : Int) {v : Int}
    (hok : (c.arIncr E key delta).2 = some v) : MadeRoom E 1000000 c (c.arIncr E key delta).1 := by
  have hq₀ : Quiet c c.countSet := .count c _ (Nat.le_refl _)
  have hwf₀ := hq₀.wf hwf
  apply MadeRoom.quiet _ hwf hq₀
  unfold ArCore.arIncr at hok ⊢
  simp only at hok ⊢
  have hev : Evolves t .plain ∅ ∅ c.countSet (c.countSet.arFindEntryEx E key).1 :=
    (Expires.arFindEntryEx hE.until hwf₀ key).toEvolves
  split at hok
  · cases hok
  · simp only at hok
    split at hok
    · rename_i hset
      exact (MadeRoom.arEntrySetEx hE (hev.wf hwf₀) key _ _ hset).evolves hwf₀ hev
    · cases hok

/-- A key gets the name of another. -/
theorem MadeRoom.renameEntry (hwf : c.WF) (hr : c.Holds r) {newkey : Bytes}
    (hno : ∀ i ∈ c.items, i.key ≠ newkey) : MadeRoom E 1000000 c (c.renameEntry E r newkey) := by
  obtain ⟨c₁, c₀, he, hev, hgone, -, hq⟩ := renameEntry_room (E := E) (t := 0) (B := .plain) hwf hr hno rfl
  rw [he]
  have hg : Grows c c₁ := hev.grows hwf fun k hk => by
    rcases hk with rfl | hk
    · exact .inr hgone
    · exact .inl hk
  exact (hg.quiet hq).maybeEvict ((Closes.touch _ _).trans (.touch _ _))

theorem MadeRoom.arRename (hE : E.Frozen t) (hwf : c.WF) {key newkey : Bytes} (hne : key ≠ newkey) (nx : Bool)
    (hok : (c.arRename E key newkey nx).2 = 1) : MadeRoom E 1000000 c (c.arRename E key newkey nx).1 := by
  have hq₀ : Quiet c (c.count fun s => { s with ops := s.ops + 1 }) := .count c _ (Nat.le_refl _)
  have hwf₀ := hq₀.wf hwf
  apply MadeRoom.quiet _ hwf hq₀
  unfold ArCore.arRename at hok ⊢
  simp only at hok ⊢
  generalize (c.count fun s => { s with ops := s.ops + 1 }) = c₀ at hwf₀ hok ⊢
  rcases find_cases (B := .plain) hE hwf₀ key with ⟨hn, -⟩ | ⟨r, hs, hq, hr, hk, -⟩
  · simp only [hn] at hok
    cases hok
  · simp only [hs] at hok ⊢
    subst hk
    rw [if_neg hne] at hok ⊢
    have hwf₁ := hq.wf hwf₀
    apply MadeRoom.quiet _ hwf₀ hq
    generalize (c₀.arFindEntryEx E r.e.key).1 = c₁ at hr hwf₁ hok ⊢
    have hr₂ : (c₁.arFindEntryEx E newkey).1.Holds r := holds_find hE.until hwf₁ hr hne
    have hev₂ : Evolves t .plain ∅ ∅ c₁ (c₁.arFindEntryEx E newkey).1 := (Expires.arFindEntryEx hE.until hwf₁ newkey).toEvolves
    have hevm := hev₂.quiet (.malloc E _)
    have hwfm := hevm.wf hwf₁
    split at hok
    · cases hok
    · rename_i hnx
      rw [if_neg hnx]
      split at hok
      · cases hok
      · rename_i hm
        rw [if_neg hm]
        apply MadeRoom.evolves _ hwf₁ hevm
        have hrm : ((c₁.arFindEntryEx E newkey).1.malloc E).1.Holds r := hr₂
        rcases find_cases (B := .plain) hE hwf₁ newkey with ⟨hn, -, h0, -⟩ | ⟨dest, hs, -, hrd, hkd, -⟩
        · simp only [hn]
          exact .renameEntry hwfm hrm (has_none_iff.1 h0)
        · simp only [hs]
          have hrd : ((c₁.arFindEntryEx E newkey).1.malloc E).1.Holds dest := hrd
          generalize ((c₁.arFindEntryEx E newkey).1.malloc E).1 = c₂ at hwfm hrm hrd
          have hfree : Evolves t .plain {newkey} ∅ c₂ (c₂.arEntryFreeEx dest.bucket dest.tier dest.e) :=
            hkd ▸ Evolves.free hwfm hrd
          have hgone := free_key_notMem hwfm hrd
          rw [hkd] at hgone
          refine (MadeRoom.renameEntry (hfree.wf hwfm) (holds_free hrd hrm (by rw [hkd]; exact hne))
            hgone).after ?_ (hfree.stamps hwfm)
          exact (Fewer.free c₂ dest.bucket dest.tier dest.e).nkeys

/-! ## Containers -/

/-- An entry that is created, and found by the write that goes on. -/
theorem create_found (hE : E.Frozen t) (hwf : c.WF) {type : ArType}
    (hg : (c.arEntryGetOrCreate E key type).2 = .found r) :
    (c.arEntryGetOrCreate E key type).1.Holds r ∧ r.e.key = key ∧
      Evolves t .plain {key} {key} c (c.arEntryGetOrCreate E key type).1 := by
  rcases create_cases (B := .plain) (W := {key}) hE hwf key type with
    ⟨h, -⟩ | ⟨_, h, -⟩ | ⟨r', h, -, hr, hk, -, hev⟩
  · rw [h] at hg
    cases hg
  · rw [h] at hg
    cases hg
  · rw [h] at hg
    cases hg
    refine ⟨hr, hk, ?_⟩
    rcases hev with ⟨hq, -⟩ | ⟨hl, -⟩
    · exact (Evolves.of_quiet hq).mono (Set.empty_subset _) (Set.empty_subset _)
    · exact hl.ev

/-- The end of a write to a container. -/
theorem MadeRoom.writeBack {c₁ : ArCore} {W : Set Bytes} (hwf : c.WF)
    (hev : Evolves t .plain {r.e.key} W c c₁) (hr : c₁.Holds r) {obj : ArObj} (hobj : obj.WF)
    (ht : obj.type = r.e.obj.type) : MadeRoom E 4096 c (c₁.writeBack E r obj) := by
  obtain ⟨c₀, he, hl⟩ := writeBack_room (E := E) (t := t) (B := .plain) (hev.wf hwf) hr hobj ht
  rw [he]
  have hK : ({r.e.key} : Set Bytes) ∪ {r.e.key} ⊆ {r.e.key} := by simp
  have hg : Grows c c₀ := ((hev.trans hl.ev).mono hK fun _ h => h).grows hwf
    fun k hk => .inl (Set.mem_singleton_iff.1 hk)
  exact hg.arMaybeEvictPub (.touch _ _)

/-- The entry has been created, and evicted again. -/
theorem MadeRoom.created (hE : E.Frozen t) (hwf : c.WF) {type : ArType} (ha : E.AllocOk)
    (hg : (c.arEntryGetOrCreate E key type).2 = .missing) :
    MadeRoom E 4096 c (c.arEntryGetOrCreate E key type).1 := by
  unfold ArCore.arEntryGetOrCreate at hg ⊢
  rcases find_cases (B := .plain) hE hwf key with ⟨hn, hev, h0, -⟩ | ⟨r, hs, -⟩
  · simp only [hn, malloc_ok ha, Bool.not_true, Bool.false_eq_true, if_false] at hg ⊢
    have hwf₁ := hev.wf hwf
    apply MadeRoom.evolves _ hwf hev
    generalize (c.arFindEntryEx E key).1 = c₁ at h0 hwf₁ hg ⊢
    have hq₂ : Quiet c₁ ((c₁.malloc E).1.malloc E).1 := (Quiet.malloc E c₁).trans (.malloc E _)
    obtain ⟨hs, hobj, hsome⟩ := emptyObj_spec (E := E) (c := ((c₁.malloc E).1.malloc E).1) type
    have hq₃ := hq₂.trans hs.quiet
    split at hg
    · rename_i hnone
      exact absurd hnone (hsome ha)
    · rename_i obj ho
      obtain rfl := hobj obj ho
      have hwf₃ := hq₃.wf hwf₁
      have hk₃ : ∀ i ∈ (((c₁.malloc E).1.malloc E).1.emptyObj E type).1.items, i.key ≠ key := by
        rw [hq₃.items]
        exact has_none_iff.1 h0
      apply MadeRoom.quiet _ hwf₁ hq₃
      generalize (((c₁.malloc E).1.malloc E).1.emptyObj E type).1 = c₃ at hwf₃ hk₃ hg ⊢
      have hlink : Evolves t .plain {key} {key} c₃
          (c₃.linkNew (arFnvHash key &&& (c₃.dict.hot.length - 1)) key type.empty) :=
        .linkNew hwf₃ hk₃ rfl (wf_empty type)
      have hgrow := hlink.grows hwf₃ fun k hk => .inl (Set.mem_singleton_iff.1 hk)
      generalize c₃.linkNew (arFnvHash key &&& (c₃.dict.hot.length - 1)) key type.empty = c₄
        at hgrow hg ⊢
      have hq₅ := (Quiet.onSet c₄ key).trans
        (.arRehashIfNeeded E ((Quiet.onSet c₄ key).dict hgrow.wf.dict))
      have hgrow₅ := hgrow.quiet hq₅
      have hloop : Evolves t .plain ∅ ∅ ((c₄.onSet key).arRehashIfNeeded E)
          (((c₄.onSet key).arRehashIfNeeded E).arMaybeEvictPub E) := .arMaybeEvictPub hE hgrow₅.wf
      have hroom := hgrow₅.arMaybeEvictPub (.arFindEntryEx hE (hloop.wf hgrow₅.wf) key)
      split
      · exact hroom
      · exact hroom
  · simp only [hs] at hg
    split at hg
    · cases hg
    · cases hg

theorem MadeRoom.arHashHset (hE : E.Frozen t) (hwf : c.WF) (key : Bytes) {pairs : List (Bytes × Bytes)}
    (hp : pairs ≠ []) {n : Nat} (hok : (c.arHashHset E key pairs).2 = .found n) :
    MadeRoom E 4096 c (c.arHashHset E key pairs).1 := by
  unfold ArCore.arHashHset at hok ⊢
  rw [if_neg (by simpa using hp)] at hok ⊢
  simp only at hok ⊢
  split at hok
  · cases hok
  · cases hok
  · rename_i r hg
    obtain ⟨hr, rfl, hev⟩ := create_found hE hwf hg
    split at hok
    · rename_i h ho
      simp only
      obtain ⟨hs, hw, -⟩ := hsetFields_spec (E := E) (c := (c.arEntryGetOrCreate E r.e.key .hash).1)
        pairs (hash_wf (hev.wf hwf) hr ho) 0
      exact .writeBack hwf (hev.quiet hs.quiet) (hs.holds hr) hw (by rw [ho]; rfl)
    · cases hok

theorem MadeRoom.arListPush (hE : E.Frozen t) (hwf : c.WF) (key : Bytes) (left : Bool) {vals : List Bytes}
    (hp : vals ≠ []) {n : Nat} (hok : (c.arListPush E key left vals).2 = .found n) :
    MadeRoom E 4096 c (c.arListPush E key left vals).1 := by
  unfold ArCore.arListPush at hok ⊢
  rw [if_neg (by simpa using hp)] at hok ⊢
  simp only at hok ⊢
  split at hok
  · cases hok
  · cases hok
  · rename_i r hg
    obtain ⟨hr, rfl, hev⟩ := create_found hE hwf hg
    split at hok
    · rename_i l ho
      simp only
      obtain ⟨hs, -⟩ := pushVals_spec (E := E) (c := (c.arEntryGetOrCreate E r.e.key .list).1) left vals l
      exact .writeBack hwf (hev.quiet hs.quiet) (hs.holds hr) trivial (by rw [ho]; rfl)
    · cases hok

theorem MadeRoom.arZsetZadd (hE : E.Frozen t) (hwf : c.WF) (key : Bytes) {ns : List ArZNode}
    (hp : ns ≠ []) {n : Nat} (hok : (c.arZsetZadd E key ns).2 = .added n) :
    MadeRoom E 4096 c (c.arZsetZadd E key ns).1 := by
  unfold ArCore.arZsetZadd at hok ⊢
  rw [if_neg (by simpa using hp)] at hok ⊢
  simp only at hok ⊢
  split at hok
  · cases hok
  · cases hok
  · rename_i r hg
    obtain ⟨hr, rfl, hev⟩ := create_found hE hwf hg
    split at hok
    · rename_i z ho
      split at hok
      · cases hok
      · rename_i hover
        rw [if_neg hover]
        obtain ⟨hs, -⟩ := zaddMembers_spec (E := E) (c := (c.arEntryGetOrCreate E r.e.key .zset).1) ns z 0
        have hz : z.WF := wf_zset (hev.wf hwf) hr ho
        exact .writeBack hwf (hev.quiet hs.quiet) (hs.holds hr) (hz.zaddMembers ns 0 hover)
          (by rw [ho]; rfl)
    · cases hok

theorem MadeRoom.arHashHincrby (hE : E.Frozen t) (hwf : c.WF) (key field : Bytes) (incr : Int)
    (ha : E.AllocOk) {v : Int} (hok : (c.arHashHincrby E key field incr).2 = .value v) :
    MadeRoom E 4096 c (c.arHashHincrby E key field incr).1 := by
  unfold ArCore.arHashHincrby at hok ⊢
  simp only at hok ⊢
  split at hok
  · rename_i hg
    exact .created hE hwf ha hg
  · cases hok
  · rename_i r hg
    obtain ⟨hr, rfl, hev⟩ := create_found hE hwf hg
    have hwf₁ := hev.wf hwf
    split at hok
    · rename_i h ho
      generalize (c.arEntryGetOrCreate E r.e.key .hash).1 = c₁ at hr hev hwf₁ hok ⊢
      obtain ⟨hs, hsome, hx⟩ := hincrField_spec (E := E) (c := c₁) (hash_wf hwf₁ hr ho) field
      generalize c₁.hincrField E h field = x at hs hsome hx hok ⊢
      obtain ⟨c₂, none | ⟨h', none | w⟩⟩ := x
      · exact absurd rfl (hsome ha)
      · cases hok
      · simp only [malloc_ok ha, Bool.not_true, Bool.false_eq_true, if_false]
        obtain ⟨-, -, hset, -⟩ := hx h' (some w) rfl
        have hs' := hs.trans (.malloc E c₂)
        exact .writeBack hwf (hev.quiet hs'.quiet) (hs'.holds hr)
          (hset (Decimal.ofInt (int64 (w + incr)))).1 (by rw [ho]; rfl)
    · cases hok

/-- A change of `maxmemory`. -/
theorem MadeRoom.arCoreSetMaxmemory (hwf : c.WF) (bytes : Nat) :
    MadeRoom E 1000000 c (c.arCoreSetMaxmemory E bytes) := by
  have hg : Grows c (c.setCfg fun g => { g with maxmemory := bytes }) :=
    ⟨⟨hwf.dict, hwf.objs⟩, Nat.le_succ _, .of_dict (Nat.le_refl _) rfl⟩
  unfold ArCore.arCoreSetMaxmemory
  exact hg.maybeEvict (.refl _)

/-! ## Every write -/

/-- **Every write that may grow the key space makes room.** -/
theorem MadeRoom.run (hwf : c.WF) (x : Call) (h : x.op.MakesRoom x.E (x.op.run x.E c).2) :
    MadeRoom x.E x.op.roundCap c (x.op.run x.E c).1 := by
  obtain ⟨E, t, op, hE⟩ := x
  cases op with
  | arEntrySetEx key val at_ => exact .arEntrySetEx hE hwf key val at_ h
  | arSetBinEx key val sec =>
    exact .setFromNow hE hwf key val sec (fun now => (now + uint64 sec * 1000) % 2 ^ 64) h
  | arSetBinPx key val ms => exact .setFromNow hE hwf key val ms (fun now => (now + uint64 ms) % 2 ^ 64) h
  | arAppend key val => exact .arAppend hE hwf key h.1 h.2.choose_spec
  | arIncr key delta => exact .arIncr hE hwf key delta h.choose_spec
  | arRename key newkey nx => exact .arRename hE hwf h.1 nx h.2
  | arHashHset key pairs => exact .arHashHset hE hwf key h.1 h.2.choose_spec
  | arHashHincrby key field incr => exact .arHashHincrby hE hwf key field incr h.2 h.1.choose_spec
  | arListPush key left vals => exact .arListPush hE hwf key left h.1 h.2.choose_spec
  | arZsetZadd key ns => exact .arZsetZadd hE hwf key h.1 h.2.choose_spec
  | arCoreSetMaxmemory bytes =>
    simp only [ArOp.run, ArOp.roundCap]
    exact .arCoreSetMaxmemory hwf bytes
  | _ => exact h.elim

/-- **The memory bound**: after a write that may grow the key space, or a change of `maxmemory`, the memory is
below `maxmemory`, or only pinned keys are left, or the last 128 draws have hit pinned keys only, or the loop
has used up its rounds. -/
theorem memory_bound (hc : ArCore.Reachable c) (x : Call)
    (hr : x.op.MakesRoom x.E (x.op.run x.E c).2)
    (hk : (x.op.run x.E c).1.cfg.evict.consider.isSome = true) (hm : 0 < (x.op.run x.E c).1.cfg.maxmemory)
    (hclock : (x.op.run x.E c).1.stats.clock < 2 ^ 64 - 1) :
    let c' := (x.op.run x.E c).1
    c'.mem.usedMemory ≤ c'.cfg.maxmemory ∨ (∀ e ∈ c'.dict.linked, e.pinned = true) ∨ c'.DrewPinned x.E ∨
      c.CappedBy c' x.op.roundCap := by
  have h := (MadeRoom.run hc.wf x hr).bounded x.frozen hc.stamped hk hm hclock
  simp only [mem_linked]
  exact h

/-- Keys are evicted by age, and there is room for one byte. -/
@[irreducible] def oneByte : ArCore :=
  ArCore.arCoreCreate.runCalls [.steady 0 (.arCoreSetEvict .lru), .steady 0 (.arCoreSetMaxmemory 1)]

theorem reachable_oneByte : ArCore.Reachable oneByte := by
  unfold oneByte
  exact ArCore.Reachable.create.runCalls _

/-- A `SET`, while chance points to the chain of its key. -/
def setTowards : Call := ⟨.towards (lit "k"), 0, .arEntrySetEx (lit "k") (lit "v") 0, fun _ => rfl⟩

theorem memory_bound_oneByte :
    let c' := (setTowards.op.run setTowards.E oneByte).1
    c'.mem.usedMemory ≤ c'.cfg.maxmemory ∨ (∀ e ∈ c'.dict.linked, e.pinned = true) ∨
      c'.DrewPinned setTowards.E ∨ oneByte.CappedBy c' setTowards.op.roundCap :=
  memory_bound reachable_oneByte setTowards
    (show (oneByte.arEntrySetEx (.towards (lit "k")) (lit "k") (lit "v") 0).2 = true by decide +kernel)
    (by decide +kernel) (by decide +kernel) (by decide +kernel)

/-- What is left is above `maxmemory`, and a kernel may take some of it. -/
abbrev Overfull (c : ArCore) : Prop :=
  c.cfg.evict.consider.isSome = true ∧ 0 < c.cfg.maxmemory ∧ c.cfg.maxmemory < c.mem.usedMemory ∧
    ∃ e ∈ c.dict.linked, e.pinned = false

/-- **Writes leave more than `maxmemory` and keys that are not pinned**: the draws of a `SET` and of a change
of `maxmemory` hit no key, and `HDEL` makes no room. -/
theorem memory_stays :
    Overfull (oneByte.runCalls [.steady 0 (.arEntrySetEx (lit "k") (lit "v") 0)]) ∧
    Overfull (ArCore.arCoreCreate.runCalls [.steady 0 (.arEntrySetEx (lit "k") (lit "v") 0),
      .steady 0 (.arCoreSetEvict .lru), .steady 0 (.arCoreSetMaxmemory 1)]) ∧
    Overfull (ArCore.arCoreCreate.runCalls [.steady 0 (.arCoreSetMaxmemory 1),
      .steady 0 (.arEntrySetEx (lit "k") (lit "v") 0), .steady 0 (.arCoreSetEvict .lru),
      ⟨.towards (lit "k"), 0, .arHashHdel (lit "h") [lit "f"], fun _ => rfl⟩]) :=
  ⟨by decide +kernel, by decide +kernel, by decide +kernel⟩

end

end AuraRedis
