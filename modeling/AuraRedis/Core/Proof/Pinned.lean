import AuraRedis.Core.Proof.Victim

/-!
# Pinned keys under eviction

`Releases` is what a kernel does that does not sample: it releases the entry it stops at. An eviction takes
what was due, entries that are not pinned, and the one it stops at (`evictOne_loses`); so the pinned keys
survive an eviction loop exactly when no round of it stops at a live pinned one (`spares_iff`).
-/

set_option autoImplicit false

namespace AuraRedis

section
variable {E : Env} {c c' c'' : ArCore}

/-! ## The plugin kernels -/

/-- The entry of a stop, if there is one, is released, and nothing else happens to the entries. -/
structure Releases (c c' : ArCore) (stop : Option ArEntry) : Prop where
  shape : c'.dict.Shape
  entries : c.dict.entries = c'.dict.entries + (stop.elim 0 ({·}) : Multiset ArEntry)
  pos : c'.pos = c.pos
  cfg : c'.cfg = c.cfg

/-- One tier. -/
theorem evictFirst_takes (hs : c.dict.Shape) (tier : Tier) {t : Table} (ht : t = c.dict.table tier)
    {stop : Option ArEntry} (hstop : stop =
      (ArCore.firstChainFrom t (c.stats.clock % t.length) (min t.length 64) 0).map (·.2)) :
    Releases c (c.evictFirst tier).1 stop ∧ (c.evictFirst tier).2 = stop.isSome ∧
      (stop = none → (c.evictFirst tier).1 = c.count fun s => { s with clock := s.clock + 1 }) := by
  subst ht
  unfold ArCore.evictFirst
  simp only
  cases hf : ArCore.firstChainFrom (c.dict.table tier) (c.stats.clock % (c.dict.table tier).length)
      (min (c.dict.table tier).length 64) 0 with
  | none =>
    rw [hf] at hstop
    subst hstop
    exact ⟨⟨hs, (add_zero _).symm, rfl, rfl⟩, rfl, fun _ => rfl⟩
  | some be =>
    obtain ⟨b, e⟩ := be
    rw [hf] at hstop
    subst hstop
    have hr : c.Holds ⟨tier, b, e⟩ := firstChainFrom_mem hf
    obtain ⟨h₁, h₂, -⟩ := free_shape (c := c.count fun s => { s with clock := s.clock + 1 }) hs hr
    refine ⟨⟨h₁, ?_, rfl, rfl⟩, rfl, fun h => by cases h⟩
    show c.dict.entries = _ + {e}
    rw [Multiset.add_comm, Multiset.singleton_add]
    exact h₂

/-- `ar_core_evict_random_one`. -/
theorem random_takes (hs : c.dict.Shape) :
    Releases c c.arCoreEvictRandomOne.1 c.randomStop ∧ c.arCoreEvictRandomOne.2 = c.randomStop.isSome := by
  unfold ArCore.arCoreEvictRandomOne ArCore.randomStop
  simp only
  split
  · exact ⟨⟨hs, (add_zero _).symm, rfl, rfl⟩, rfl⟩
  · split
    · cases hstop : (ArCore.firstChainFrom c.dict.cold (c.stats.clock % c.dict.cold.length)
          (min c.dict.cold.length 64) 0).map (·.2) with
      | none =>
        obtain ⟨-, h₂, h₃⟩ := evictFirst_takes hs .cold (t := c.dict.cold) rfl hstop.symm
        obtain ⟨h₄, h₅, -⟩ := evictFirst_takes
          (c := c.count fun s => { s with clock := s.clock + 1 }) hs .hot rfl rfl
        rw [h₂, h₃ rfl, if_neg (by decide)]
        exact ⟨⟨h₄.shape, h₄.entries, h₄.pos, h₄.cfg⟩, h₅⟩
      | some e =>
        obtain ⟨h₁, h₂, -⟩ := evictFirst_takes hs .cold (t := c.dict.cold) rfl hstop.symm
        rw [h₂, Option.isSome_some, if_pos rfl]
        exact ⟨h₁, h₂⟩
    · obtain ⟨h₁, h₂, -⟩ := evictFirst_takes hs .hot rfl rfl
      exact ⟨h₁, h₂⟩

/-! ## One eviction -/

/-- What an eviction takes: what was due at a reading of the clock, entries that are not pinned, and the
one it stops at. -/
structure Loses (E : Env) (c c' : ArCore) (stop : Option ArEntry) : Prop where
  shape : c'.dict.Shape
  gone : ∃ due taken, c.dict.entries = c'.dict.entries + (due + taken) ∧
    (∀ e ∈ due, E.Passed c c' e.expireAt) ∧ (∀ e ∈ taken, e.pinned = false ∨ stop = some e) ∧
    ∀ e, stop = some e → e ∈ taken
  tick : c.pos.tick ≤ c'.pos.tick
  cfg : c'.cfg = c.cfg
  pos : c.cfg.evict.builtIn = false → c'.pos = c.pos

theorem Releases.loses {stop : Option ArEntry} (h : Releases c c' stop) : Loses E c c' stop where
  shape := h.shape
  gone := by
    refine ⟨0, stop.elim 0 ({·}), by rw [h.entries, zero_add], fun e he => absurd he (Multiset.notMem_zero e),
      fun e he => ?_, fun e he => ?_⟩
    · cases stop with
      | none => exact absurd he (Multiset.notMem_zero e)
      | some x => exact .inr (congrArg some (Multiset.mem_singleton.1 he).symm)
    · subst he
      exact Multiset.mem_singleton_self e
  tick := by rw [h.pos]
  cfg := h.cfg
  pos _ := h.pos

/-- The sampling kernels stop nowhere. -/
theorem evictSampled_loses {consider : ArCore.Consider} (hk : c.cfg.evict.consider = some consider)
    (hs : c.dict.Shape) : Loses E c (c.evictSampled E consider).1 none := by
  have hb : c.cfg.evict.builtIn = false → ∀ {P : Prop}, P := fun h => by
    cases hc : c.cfg.evict with
    | random | rr => rw [hc] at hk; cases hk
    | noop | lru | lfu | ttlAware | slru | tinylfu => rw [hc] at h; cases h
  unfold ArCore.evictSampled
  split
  · exact ⟨hs, ⟨0, 0, by rw [add_zero, add_zero], fun e he => absurd he (Multiset.notMem_zero e),
      fun e he => absurd he (Multiset.notMem_zero e), fun e he => by cases he⟩, le_refl _, rfl, fun _ => rfl⟩
  · rename_i hn
    have hf := samplePick_follows (E := E) hk hs
    have hsh := hf.sheds
    simp only
    cases hv : (c.samplePick E consider).2.ref with
    | none =>
      exact ⟨hsh.shape, ⟨_, 0, by rw [add_zero]; exact hsh.entries, hsh.due,
        fun e he => absurd he (Multiset.notMem_zero e), fun e he => by cases he⟩, hsh.tick, hsh.cfg,
        fun h => hb h⟩
    | some v =>
      cases hdue : (c.walk E).foundDue v.e with
      | false =>
        obtain ⟨h₁, h₂, -⟩ := free_shape hsh.shape (hf.linked hv hdue)
        refine ⟨h₁, ⟨_, {v.e}, ?_, hsh.due, fun e he => .inl ?_, fun e he => by cases he⟩, hsh.tick,
          hsh.cfg, fun h => hb h⟩
        · rw [hsh.entries, h₂, Multiset.cons_add, ← Multiset.add_assoc, Multiset.add_comm _ {v.e},
            Multiset.singleton_add]
          rfl
        · rw [Multiset.mem_singleton.1 he]
          exact (hf.ref_mem hv).2
      | true =>
        obtain ⟨h₁, h₂⟩ := free_gone hsh.shape (hf.gone hs hdue)
        refine ⟨h₁, ⟨_, 0, ?_, hsh.due, fun e he => absurd he (Multiset.notMem_zero e),
          fun e he => by cases he⟩, hsh.tick, hsh.cfg, fun h => hb h⟩
        rw [add_zero, hsh.entries, ← h₂]
        rfl

/-- **What one eviction takes.** -/
theorem evictOne_loses (hs : c.dict.Shape) : Loses E c (c.evictOne E).1 c.evictStop := by
  cases hk : c.cfg.evict.consider with
  | some consider =>
    have hstop : c.evictStop = none := by
      unfold ArCore.evictStop
      cases hc : c.cfg.evict with
      | random | rr => rw [hc] at hk; cases hk
      | noop | lru | lfu | ttlAware | slru | tinylfu => rfl
    rw [hstop, evictOne_of_consider hk]
    exact evictSampled_loses hk hs
  | none =>
    unfold ArCore.evictOne ArCore.evictStop
    cases hc : c.cfg.evict with
    | lru | lfu | ttlAware | slru | tinylfu => rw [hc] at hk; cases hk
    | noop =>
      exact (⟨hs, (add_zero _).symm, rfl, rfl⟩ : Releases c c none).loses
    | random => exact (random_takes hs).1.loses
    | rr =>
      obtain ⟨h₁, h₂⟩ := random_takes hs
      simp only
      cases hstop : c.randomStop with
      | some e =>
        rw [hstop] at h₁ h₂
        rw [h₂, Option.isSome_some, if_pos rfl]
        exact h₁.loses
      | none =>
        rw [hstop] at h₁ h₂
        rw [h₂, if_neg (by decide)]
        have h₃ := (random_takes h₁.shape).1
        have hent := h₁.entries
        rw [show ((none : Option ArEntry).elim 0 ({·}) : Multiset ArEntry) = 0 from rfl, add_zero] at hent
        exact (⟨h₃.shape, hent.trans h₃.entries, h₃.pos.trans h₁.pos, h₃.cfg.trans h₁.cfg⟩ :
          Releases c _ _).loses

/-! ## Pinned keys -/

/-- The stop of an eviction is what decides. -/
theorem Loses.spares {stop : Option ArEntry} (h : Loses E c c' stop) (hs : c.dict.Shape)
    (hp : stop ≠ none → c'.pos = c.pos) : c.SparesPinned E c' ↔ c.Fair E stop := by
  obtain ⟨due, taken, hent, hdue, htaken, hstop⟩ := h.gone
  refine ⟨fun hspare e he hpin => ?_, fun hfair e he hpin hlive => ?_⟩
  · by_contra hd
    have hin : e ∈ c.dict.entries := by
      rw [hent]
      exact Multiset.mem_add.2 (.inr (Multiset.mem_add.2 (.inr (hstop e he))))
    have hpos := hp (by rw [he]; exact fun hx => by cases hx)
    have hout := hspare e hin hpin fun n hn hn' => by
      obtain rfl : n = c.pos.tick := by rw [hpos] at hn'; omega
      exact hd
    have hnd := hs.nodup_entries
    rw [hent] at hnd
    refine Multiset.disjoint_left.1 (Multiset.nodup_add.1 hnd).2.2 hout ?_
    exact Multiset.mem_add.2 (.inr (hstop e he))
  · rw [hent] at he
    rcases Multiset.mem_add.1 he with he | he
    · exact he
    · rcases Multiset.mem_add.1 he with he | he
      · obtain ⟨n, hn, hn', hd⟩ := hdue e he
        exact absurd hd (hlive n hn hn'.le)
      · rcases htaken e he with hu | hu
        · rw [hpin] at hu
          cases hu
        · exact absurd (hfair e hu hpin) (hlive _ (le_refl _) h.tick)

/-! ## Loops -/

/-- The sampling kernels stop nowhere, in one round or in many. -/
theorem evictStop_of_builtIn (hb : c.cfg.evict.builtIn = true) : c.evictStop = none := by
  unfold ArCore.evictStop
  cases hc : c.cfg.evict with
  | random | rr => rw [hc] at hb; cases hb
  | noop | lru | lfu | ttlAware | slru | tinylfu => rfl

theorem fair_none : c.Fair E none := fun e he => by cases he

theorem fairRounds_of_builtIn (hs : c.dict.Shape) (hb : c.cfg.evict.builtIn = true) (n : Nat) :
    c.FairRounds E n := by
  induction n generalizing c with
  | zero => trivial
  | succ n ih =>
    intro _
    have h := evictOne_loses (E := E) hs
    refine ⟨?_, fun _ => ih h.shape (by rw [h.cfg]; exact hb)⟩
    rw [evictStop_of_builtIn hb]
    exact fair_none

/-- What loops keep whatever they take. -/
theorem evictLoop_keeps (hs : c.dict.Shape) (n : Nat) :
    let x := c.evictLoop E n
    (∀ e ∈ x.dict.entries, e ∈ c.dict.entries) ∧ c.pos.tick ≤ x.pos.tick ∧
      (c.cfg.evict.builtIn = false → x.pos = c.pos) := by
  induction n generalizing c with
  | zero => exact ⟨fun _ he => he, le_refl _, fun _ => rfl⟩
  | succ n ih =>
    intro x
    unfold x ArCore.evictLoop
    split
    · have h := evictOne_loses (E := E) hs
      obtain ⟨due, taken, hent, -⟩ := h.gone
      have hmem : ∀ e ∈ (c.evictOne E).1.dict.entries, e ∈ c.dict.entries := fun e he => by
        rw [hent]
        exact Multiset.mem_add.2 (.inl he)
      simp only
      split
      · obtain ⟨h₁, h₂, h₃⟩ := ih h.shape
        exact ⟨fun e he => hmem e (h₁ e he), h.tick.trans h₂,
          fun hb => (h₃ (by rw [h.cfg]; exact hb)).trans (h.pos hb)⟩
      · exact ⟨hmem, h.tick, h.pos⟩
    · exact ⟨fun _ he => he, le_refl _, fun _ => rfl⟩

theorem spares_trans (h : c.SparesPinned E c') (h' : c'.SparesPinned E c'')
    (ht : c.pos.tick ≤ c'.pos.tick) (ht' : c'.pos.tick ≤ c''.pos.tick) : c.SparesPinned E c'' :=
  fun e he hp hlive => h' e (h e he hp fun n hn hn' => hlive n hn (hn'.trans ht')) hp
    fun n hn hn' => hlive n (ht.trans hn) hn'

theorem evictLoop_spares (hs : c.dict.Shape) (n : Nat) :
    c.SparesPinned E (c.evictLoop E n) ↔ c.FairRounds E n := by
  induction n generalizing c with
  | zero => exact iff_of_true (fun _ he _ _ => he) trivial
  | succ n ih =>
    unfold ArCore.evictLoop ArCore.FairRounds
    by_cases hover : c.shouldEvict = true
    · have h := evictOne_loses (E := E) hs
      have hone : c.SparesPinned E (c.evictOne E).1 ↔ c.Fair E c.evictStop := by
        refine h.spares hs fun hne => h.pos ?_
        by_contra hb
        exact hne (evictStop_of_builtIn (by simpa using hb))
      simp only [hover, if_true, forall_const]
      by_cases hr : (c.evictOne E).2 = true
      · simp only [hr, if_true, forall_const]
        obtain ⟨hsub, htick, hpos⟩ := evictLoop_keeps (E := E) h.shape n
        rw [← ih h.shape, ← hone]
        refine ⟨fun hall => ?_, fun hboth => spares_trans hboth.1 hboth.2 h.tick htick⟩
        cases hb : c.cfg.evict.builtIn with
        | true =>
          refine ⟨?_, (ih h.shape).2 (fairRounds_of_builtIn h.shape (by rw [h.cfg]; exact hb) n)⟩
          rw [hone, evictStop_of_builtIn hb]
          exact fair_none
        | false =>
          -- the clock is never read, so there is one time for all rounds
          have h₁ := h.pos hb
          have h₂ := hpos (by rw [h.cfg]; exact hb)
          rw [h₁] at h₂
          refine ⟨fun e he hp hlive => hsub e (hall e he hp fun k hk hk' => hlive k hk ?_),
            fun e he hp hlive => hall e ?_ hp fun k hk hk' => hlive k ?_ hk'⟩
          · rw [h₂] at hk'
            rwa [h₁]
          · obtain ⟨due, taken, hent, -⟩ := h.gone
            rw [hent]
            exact Multiset.mem_add.2 (.inl he)
          · rwa [h₁]
      · simp only [hr, if_false, Bool.false_eq_true, false_implies, and_true]
        exact hone
    · simp only [hover, if_false, Bool.false_eq_true, false_implies]
      exact iff_of_true (fun _ he _ _ => he) trivial

/-- **Pinned keys survive an eviction exactly when it stops at no live pinned entry**: a loop of any
number of rounds, one round, and the helper the plugins are built on. -/
theorem spares_iff (hc : ArCore.Reachable c) (E : Env) :
    (∀ n, c.SparesPinned E (c.evictLoop E n) ↔ c.FairRounds E n) ∧
    (c.SparesPinned E (c.evictOne E).1 ↔ c.Fair E c.evictStop) ∧
    (c.SparesPinned E c.arCoreEvictRandomOne.1 ↔ c.Fair E c.randomStop) := by
  have hs := hc.wf.dict.toShape
  have h := evictOne_loses (E := E) hs
  refine ⟨evictLoop_spares hs, h.spares hs fun hne => h.pos ?_, ?_⟩
  · by_contra hb
    exact hne (evictStop_of_builtIn (by simpa using hb))
  · have ht := (random_takes hs).1
    exact (ht.loses (E := E)).spares hs fun _ => ht.pos

/-- Under the `random` plugin, a pinned key. -/
def pinnedKey : ArCore :=
  ArCore.arCoreCreate.runCalls [.steady 0 (.arCoreLoadEvictPlugin .random),
    .steady 0 (.arEntrySetEx (lit "z") (lit "v") 0), .steady 0 (.arCorePin (lit "z"))]

theorem reachable_pinnedKey : ArCore.Reachable pinnedKey := ArCore.Reachable.create.runCalls _

theorem spares_pinnedKey :
    (pinnedKey.SparesPinned (.steady 0) (pinnedKey.evictLoop (.steady 0) 3) ↔
      pinnedKey.FairRounds (.steady 0) 3) ∧
    (pinnedKey.SparesPinned (.steady 0) (pinnedKey.evictOne (.steady 0)).1 ↔
      pinnedKey.Fair (.steady 0) pinnedKey.evictStop) := by
  obtain ⟨hloop, hone, -⟩ := spares_iff reachable_pinnedKey (.steady 0)
  exact ⟨hloop 3, hone⟩

/-- The pass after a change of `maxmemory` takes the pinned key. -/
theorem random_takes_pinned :
    ArCore.Reachable pinnedKey ∧
      ¬pinnedKey.SparesPinned (.steady 0) ((ArOp.arCoreSetMaxmemory 1).run (.steady 0) pinnedKey).1 := by
  refine ⟨reachable_pinnedKey, fun h => ?_⟩
  have hkey : ∃ e ∈ pinnedKey.dict.linked, e.pinned = true ∧ e.expireAt = 0 := by decide +kernel
  obtain ⟨e, he, hp, h0⟩ := hkey
  have hout := h e (mem_linked.1 he) hp fun _ _ _ hd => hd.1 h0
  have hnone : ((ArOp.arCoreSetMaxmemory 1).run (.steady 0) pinnedKey).1.dict.linked = [] := by
    decide +kernel
  rw [← mem_linked, hnone] at hout
  cases hout

end

end AuraRedis
