import AuraRedis.Core.Op
import AuraRedis.Core.Proof.Scan

/-!
# Every call does what it means

`ArOp.sound`: a call evolves the core within its keys, and under the noop kernel it makes of the map
what it means. `ArOp.Exact` is the proviso of the accounting and `ArOp.untold` that of the watchers: `LREM`
that empties its list, `HINCRBY` without memory, `ZADD` of more members than a set may have.
-/

set_option autoImplicit false

namespace AuraRedis

open ArCore (Typed)

namespace ArOp

/-- When the accounting stays exact. -/
def Exact (E : Env) (s : Store) : ArOp → Prop
  | arHashHincrby _ _ _ => E.AllocOk
  | arListLrem key count elem => ∀ l d, s key = some (.list l, d) → ¬LremEmpties l count elem
  | _ => True

/-- The deadline a call gives a key of the map, or a string it writes. -/
def asked (t : Nat) (s : Store) : ArOp → Option (Bytes × Nat)
  | arExpire key n => if 0 < n ∧ (s key).isSome then some (key, (t + uint64 n * 1000) % 2 ^ 64) else none
  | arPexpire key n => if 0 < n ∧ (s key).isSome then some (key, (t + uint64 n) % 2 ^ 64) else none
  | arExpireat key n => if 0 < n ∧ (s key).isSome then some (key, uint64 n * 1000 % 2 ^ 64) else none
  | arPexpireat key n => if 0 < n ∧ (s key).isSome then some (key, uint64 n) else none
  | arEntrySetEx key _ d => some (key, d)
  | arSetBinEx key _ n => if 0 < n then some (key, (t + uint64 n * 1000) % 2 ^ 64) else none
  | arSetBinPx key _ n => if 0 < n then some (key, (t + uint64 n) % 2 ^ 64) else none
  | _ => none

/-- A `ZADD` that the cap on the members cannot refuse. -/
def Fills : ArOp → Prop
  | arZsetZadd _ ns => ns.length ≤ ArCore.zsetMaxMembers
  | _ => True

/-- What a call may post. -/
def terms (E : Env) (t : Nat) (s : Store) (op : ArOp) : Terms where
  exact := op.Exact E s
  alloc := E.AllocOk
  asked := op.asked t s
  flush := op = arFlushdb
  fills := op.Fills

/-- The keys of a call. -/
def keys : ArOp → Set Bytes
  | find key | arExistsBin key | arDelBin key | arTtl key | arPttl key => {key}
  | arExpire key _ | arPexpire key _ | arExpireat key _ | arPexpireat key _ => {key}
  | arRename key newkey _ => {key, newkey}
  | arCorePin key | arCoreUnpin key => {key}
  | arFlushdb => Set.univ
  | arEntrySetEx key _ _ | arSetBinEx key _ _ | arSetBinPx key _ _ => {key}
  | getPtr key | arStrlen key | arAppend key _ | arIncr key _ => {key}
  | arHashHset key _ | arHashHget key _ | arHashHdel key _ | arHashHexists key _ => {key}
  | arHashHlen key | arHashHincrby key _ _ | hashGet key | hgetall key => {key}
  | arListPush key _ _ | arListPop key _ | arListLlen key | arListGet key => {key}
  | arListLindex key _ | arListLrem key _ _ | arListLtrim key _ _ => {key}
  | arZsetZadd key _ | arZsetZcard key | arZsetGet key | arZsetZscore key _ => {key}
  | arZsetZrem key _ => {key}
  | _ => ∅

/-- The keys whose watchers may not hear of a change. -/
def untold (E : Env) : ArOp → Set Bytes
  | arHashHincrby key _ _ => {k | k = key ∧ ¬E.AllocOk}
  | arZsetZadd key ns => {k | k = key ∧ ArCore.zsetMaxMembers < ns.length}
  | _ => ∅

/-- A call evolves the core, and means what it should. -/
structure Sound (E : Env) (t : Nat) (c : ArCore) (op : ArOp) : Prop where
  evolves : Evolves t (op.terms E t (c.view t)) op.keys (op.untold E) c (op.run E c).1
  means : E.AllocOk → c.cfg.evict = .noop → op.Means t (c.view t) ((op.run E c).1.view t, (op.run E c).2)
  full : E.AllocOk → op.Fills → c.AllFull → (op.run E c).1.AllFull

end ArOp

section
variable {E : Env} {t : Nat} {B : Terms} {W : Set Bytes} {c : ArCore} {key : Bytes}

/-! ## Lookups and pins -/

theorem KeyStep.find (hE : E.Frozen t) (hwf : c.WF) (key : Bytes) :
    KeyStep E t B W key Spec.find c
      ((c.arFindEntryEx E key).1, (c.arFindEntryEx E key).2.map fun r => (r.e.obj.type, r.e.expireAt)) := by
  rcases find_cases (B := B) hE hwf key with ⟨hn, hev, h0, hp⟩ | ⟨r, hs, hq, hr, hk, hp⟩
  · exact .missing hev h0 hp fun _ _ => by rw [hn]; rfl
  · refine .kept hwf hq hk hp fun _ _ => ?_
    simp only [hs, Spec.find, Item.slot, Option.map_some]
    cases r.e.obj <;> rfl

/-- A pin is no matter of the map. -/
theorem Leaves.pin {r : Ref} (hwf : c.WF) (hr : c.Holds r) (hk : r.e.key = key) (b : Bool) (n : Nat)
    (hn : ∀ s, Journal B (c.mem, r.e.toItem ::ₘ s)
      ({ c.mem with pinnedKeys := n }, { r.e.toItem with pinned := b } ::ₘ s)) :
    Leaves t B W key (some { r.e.toItem with pinned := b }) c
      ({ c with mem := { c.mem with pinnedKeys := n } }.updEntry key fun e => { e with pinned := b }) := by
  subst hk
  have hput : Leaves t B {r.e.key} r.e.key (some { r.e.toItem with pinned := b }) c
      ({ c with mem := { c.mem with pinnedKeys := n } }.updEntry r.e.key
        fun e => { e with pinned := b }) :=
    .put (f := fun e => { e with pinned := b }) hwf hr (fun _ => rfl)
      (hwf.objs r.e.toItem (mem_items_of_holds hr)) rfl
      (fun s _ => hn s) rfl rfl rfl (Nat.le_refl _) fun _ h h' => ⟨h, h'⟩
  exact hput.unchanged (has_of_mem (hput.ev.wf hwf) (mem_items_of_holds
    (holds_update (f := fun e => { e with pinned := b }) hr rfl))) hwf hr rfl rfl rfl

theorem KeyStep.arCorePin (hE : E.Frozen t) (hwf : c.WF) (key : Bytes) :
    KeyStep E t B W key Spec.exist c (c.arCorePin E key) := by
  unfold ArCore.arCorePin
  rcases find_cases (B := B) hE hwf key with ⟨hn, hev, h0, hp⟩ | ⟨r, hs, hq, hr, hk, hp⟩
  · simp only [hn]
    exact .missing hev h0 hp fun _ _ => rfl
  · simp only [hs]
    split
    · exact .kept hwf hq hk hp fun _ _ => rfl
    · rename_i hpin
      have hpost : ∀ s, Journal B _ _ := fun s => .post (.pin (m := (c.arFindEntryEx E key).1.mem)
        (s := s) (i := r.e.toItem) (Bool.eq_false_of_not_eq_true hpin))
      exact .found hwf hp ((Leaves.pin (hq.wf hwf) hr hk true _ hpost).after (.of_quiet hq)) (fun _ _ => rfl)
        fun _ _ hfull i hi => by
          cases hi
          exact hfull

theorem KeyStep.arCoreUnpin (hE : E.Frozen t) (hwf : c.WF) (key : Bytes) :
    KeyStep E t B W key (fun s => (s, ())) c ((c.arCoreUnpin E key).1, ()) := by
  unfold ArCore.arCoreUnpin
  rcases find_cases (B := B) hE hwf key with ⟨hn, hev, h0, hp⟩ | ⟨r, hs, hq, hr, hk, hp⟩
  · simp only [hn]
    exact .missing hev h0 hp fun _ _ => rfl
  · simp only [hs]
    split
    · rename_i hpin
      have hpost : ∀ s, Journal B _ _ := fun s => .post (.unpin (m := (c.arFindEntryEx E key).1.mem)
        (s := s) (i := r.e.toItem) hpin)
      exact .found hwf hp ((Leaves.pin (hq.wf hwf) hr hk false _ hpost).after (.of_quiet hq)) (fun _ _ => rfl)
        fun _ _ hfull i hi => by
          cases hi
          exact hfull
    · exact .kept hwf hq hk hp fun _ _ => rfl

/-- A step that leaves the slot of its key leaves the map. -/
theorem step_read {β : Type} {f : Option Slot → Option Slot × β} (hwf : c.WF) (hf : ∀ s, (f s).1 = s) :
    ((c.view t).step t key f).1 = c.view t := by
  funext k
  show Function.update (c.view t) key (Store.alive t (f (c.view t key)).1) k = c.view t k
  rw [hf]
  by_cases hk : k = key
  · subst hk
    rw [Function.update_self]
    obtain ⟨o, ho⟩ := exists_has hwf k
    unfold ArCore.view
    rw [peek_of_has hwf ho, filter_slot, alive_alive]
  · rw [Function.update_of_ne hk]

/-! ## HGETALL -/

/-- The pairs in the chains of a field table are those of its map. -/
theorem ArHash.WF.lists {h : ArHash} (hw : h.WF) : Lists h.fields h.buckets.flatten := by
  have hp : (List.map Prod.toSigma h.buckets.flatten).dedupKeys.Perm
      (List.map Prod.toSigma h.buckets.flatten) :=
    List.lookup_ext (List.nodupKeys_dedupKeys _) hw.nodupKeys fun x y => by rw [List.dlookup_dedupKeys]
  exact (Multiset.coe_eq_coe.2 hp).symm

theorem hgetall_spec (hE : E.Frozen t) (hwf : c.WF) (key : Bytes) :
    Evolves t B {key} W c (c.hgetall E key).1 ∧
      Spec.HgetallAnswers (c.view t key) (c.hgetall E key).2 := by
  have hcore : (c.hgetall E key).1 = (c.arEntryGetTyped E key .hash).1 := readHash_core c key _
  refine ⟨?_, ?_⟩
  · rw [hcore]
    exact (Expires.arEntryGetTyped hE.until hwf key .hash).mono (Set.empty_subset _) (Set.empty_subset _)
  · unfold ArCore.hgetall ArCore.readHash ArCore.view
    rcases typed_cases (B := B) hE hwf key .hash with
      ⟨hg, -, -, hp⟩ | ⟨r, hg, -, -, hp, ht⟩ | ⟨r, hg, hq, hr, -, hp, ht⟩
    · simp only [hg, hp]
      rfl
    · simp only [hg, hp, Option.map_some, Item.slot]
      cases ho : r.e.obj with
      | hash h => exact absurd (congrArg ArObj.type ho) ht
      | string _ | list _ | zset _ => rfl
    · simp only [hg, hp, Option.map_some, Item.slot]
      cases ho : r.e.obj with
      | hash h => exact ⟨_, rfl, (hash_wf (hq.wf hwf) hr ho).lists⟩
      | string _ | list _ | zset _ => exact absurd ht (by rw [ho]; exact fun h => by cases h)

/-! ## Every call -/

/-- A call on one key. -/
theorem ArOp.Sound.of_keyStep {op : ArOp} {f : Option Slot → Option Slot × op.Ans} (hwf : c.WF)
    (h : KeyStep E t (op.terms E t (c.view t)) (op.untold E) key f c (op.run E c)) (hk : op.keys = {key})
    (hm : ∀ x, x = (c.view t).step t key f → op.Means t (c.view t) x) : op.Sound E t c :=
  ⟨hk ▸ h.evolves, fun ha hn => hm _ (h.view hwf ha hn), fun ha hf hall => h.allFull hf ha hall⟩

/-- A call that leaves the map. -/
theorem ArOp.Sound.of_evolves {op : ArOp} (hwf : c.WF)
    (h : Evolves t (op.terms E t (c.view t)) ∅ ∅ c (op.run E c).1)
    (hm : ∀ x, x.1 = c.view t → op.Means t (c.view t) x) : op.Sound E t c :=
  ⟨h.mono (Set.empty_subset _) (Set.empty_subset _), fun _ hn => hm _ (h.view hwf hn),
    fun _ _ hall => hall.evolves h⟩

/-- **Every call that is not a knob does what it means.** -/
theorem ArOp.sound (hE : E.Frozen t) (hwf : c.WF) (op : ArOp) (hop : op.isKnob = false) :
    op.Sound E t c := by
  cases op with
  | tally ops sets =>
    exact .of_evolves hwf (.of_quiet (.count c (fun s =>
      { s with ops := s.ops + ops, sets := s.sets + sets }) (Nat.le_refl _))) fun _ h => h
  | find key => exact .of_keyStep hwf (.find hE hwf key) rfl fun _ h => h
  | arExistsBin key => exact .of_keyStep hwf (.arExistsBin hE hwf key) rfl fun _ h => h
  | arDelBin key => exact .of_keyStep hwf (.arDelBin hE hwf key) rfl fun _ h => h
  | arRename key newkey nx =>
    obtain ⟨hev, hv, hfull⟩ := arRename_spec (B := (ArOp.arRename key newkey nx).terms E t (c.view t)) hE hwf key newkey nx rfl
    exact ⟨hev, hv, fun _ _ => hfull⟩
  | arExpire key n => exact .of_keyStep hwf (.arExpire hE hwf key n fun h h' => if_pos ⟨h, h'⟩) rfl fun _ h => h
  | arPexpire key n => exact .of_keyStep hwf (.arPexpire hE hwf key n fun h h' => if_pos ⟨h, h'⟩) rfl fun _ h => h
  | arExpireat key n => exact .of_keyStep hwf (.arExpireat hE hwf key n fun h h' => if_pos ⟨h, h'⟩) rfl fun _ h => h
  | arPexpireat key n => exact .of_keyStep hwf (.arPexpireat hE hwf key n fun h h' => if_pos ⟨h, h'⟩) rfl fun _ h => h
  | arTtl key => exact .of_keyStep hwf (.ttlWith hE hwf key _) rfl fun _ h => h
  | arPttl key => exact .of_keyStep hwf (.ttlWith hE hwf key _) rfl fun _ h => h
  | arCorePin key => exact .of_keyStep hwf (.arCorePin hE hwf key) rfl fun _ h => h
  | arCoreUnpin key =>
    have h : KeyStep E t (ArOp.terms E t (c.view t) (.arCoreUnpin key)) ∅ key (fun s => (s, ())) c
        ((c.arCoreUnpin E key).1, ()) :=
      .arCoreUnpin hE hwf key
    exact ⟨h.evolves, fun ha hn => (congrArg Prod.fst (h.view hwf ha hn)).trans (step_read hwf fun _ => rfl),
      fun ha hf hall => h.allFull hf ha hall⟩
  | arFlushdb =>
    refine ⟨.arFlushdb hwf rfl, fun _ _ => ?_, fun _ _ _ => allFull_arFlushdb hwf⟩
    show (c.arFlushdb.view t, ()) = _
    rw [view_arFlushdb hwf]
    rfl
  | arDbsize => exact .of_evolves hwf (Expires.arDbsize hE.until hwf).toEvolves fun _ h => h
  | arScan cursor pat n => exact .of_evolves hwf (Expires.arScan hE.until hwf cursor pat n).toEvolves fun _ h => h
  | arKeys pat => exact .of_evolves hwf (Expires.arKeys hE.until hwf pat).toEvolves fun _ h => h
  | arCoreActiveExpire effort =>
    exact .of_evolves hwf (.arCoreActiveExpire hE hwf effort) fun _ h => h
  | arEntrySetEx key val d => exact .of_keyStep hwf (.arEntrySetEx hE hwf key val (.asked rfl)) rfl fun _ h => h
  | arSetBinEx key val n => exact .of_keyStep hwf (.arSetBinEx hE hwf key val n fun h => if_pos h) rfl fun _ h => h
  | arSetBinPx key val n => exact .of_keyStep hwf (.arSetBinPx hE hwf key val n fun h => if_pos h) rfl fun _ h => h
  | getPtr key => exact .of_keyStep hwf (.getPtr hE hwf key) rfl fun _ h => h
  | arStrlen key => exact .of_keyStep hwf (.arStrlen hE hwf key) rfl fun _ h => h
  | arAppend key val => exact .of_keyStep hwf (.arAppend hE hwf key val) rfl fun _ h => h
  | arIncr key delta => exact .of_keyStep hwf (.arIncr hE hwf key delta) rfl fun _ h => h
  | arHashHset key pairs => exact .of_keyStep hwf (.arHashHset hE hwf key pairs) rfl fun _ h => h
  | arHashHget key field => exact .of_keyStep hwf (.arHashHget hE hwf key field) rfl fun _ h => h
  | arHashHdel key fields => exact .of_keyStep hwf (.arHashHdel hE hwf key fields) rfl fun _ h => h
  | arHashHexists key field =>
    exact .of_keyStep hwf (.arHashHexists hE hwf key field) rfl fun _ h => h
  | arHashHlen key => exact .of_keyStep hwf (.arHashHlen hE hwf key) rfl fun _ h => h
  | arHashHincrby key field incr =>
    refine .of_keyStep hwf (.arHashHincrby hE hwf key field incr ?_ (Or.elim · id id)) rfl fun _ h => h
    by_cases ha : E.AllocOk
    · exact .inr ha
    · exact .inl ⟨rfl, ha⟩
  | hashGet key =>
    have hev : Evolves t (ArOp.terms E t (c.view t) (.hashGet key)) ∅ ∅ c (c.readHash E key id).1 := by
      rw [readHash_core]
      exact (Expires.arEntryGetTyped hE.until hwf key .hash).toEvolves
    exact .of_evolves hwf hev fun _ h => h
  | hgetall key =>
    obtain ⟨hev, ha⟩ := hgetall_spec (B := ArOp.terms E t (c.view t) (.hgetall key)) (W := ∅) hE hwf key
    have hread : Evolves t .plain ∅ ∅ c (c.hgetall E key).1 := by
      rw [show (c.hgetall E key).1 = _ from readHash_core c key _]
      exact (Expires.arEntryGetTyped hE.until hwf key .hash).toEvolves
    exact ⟨hev, fun _ hn => ⟨hread.view hwf hn, ha⟩, fun _ _ hall => hall.evolves hread⟩
  | arHscan key cursor pat n => exact .of_evolves hwf (Expires.arHscan hE.until hwf key cursor pat n).toEvolves fun _ h => h
  | arListPush key left vals =>
    exact .of_keyStep hwf (.arListPush hE hwf key left vals) rfl fun _ h => h
  | arListPop key left => exact .of_keyStep hwf (.arListPop hE hwf key left) rfl fun _ h => h
  | arListLlen key => exact .of_keyStep hwf (.arListLlen hE hwf key) rfl fun _ h => h
  | arListGet key => exact .of_keyStep hwf (.arListGet hE hwf key) rfl fun _ h => h
  | arListLindex key index =>
    exact .of_keyStep hwf (.arListLindex hE hwf key index) rfl fun _ h => h
  | arListLrem key n elem => exact .of_keyStep hwf (.arListLrem hE hwf key n elem id) rfl fun _ h => h
  | arListLtrim key start stop =>
    exact .of_keyStep hwf (.arListLtrim hE hwf key start stop) rfl fun _ h => h
  | arZsetZadd key ns =>
    refine .of_keyStep hwf (.arZsetZadd hE hwf key ns ?_ id) rfl fun _ h => h
    by_cases hn : ns.length ≤ ArCore.zsetMaxMembers
    · exact .inr hn
    · exact .inl ⟨rfl, Nat.lt_of_not_le hn⟩
  | arZsetZcard key => exact .of_keyStep hwf (.arZsetZcard hE hwf key) rfl fun _ h => h
  | arZsetGet key => exact .of_keyStep hwf (.readZset hE hwf key id) rfl fun _ h => h
  | arZsetZscore key member =>
    exact .of_keyStep hwf (.arZsetZscore hE hwf key member) rfl fun _ h => h
  | arZsetZrem key members => exact .of_keyStep hwf (.arZsetZrem hE hwf key members) rfl fun _ h => h
  | arCoreSetLayout want =>
    exact .of_evolves hwf (.of_quiet (.arCoreSetLayout E hwf.dict want)) fun _ h => h
  | arCoreAdaptLayout =>
    exact .of_evolves hwf (.of_quiet (.arCoreAdaptLayout E hwf.dict)) fun _ h => h
  | arCoreSetMaxmemory _ | arCoreSetEvict _ | arCoreLoadEvictPlugin _ | arCoreSetEvictSamples _ => cases hop
  | arCoreSetHotSoftCapPct _ | arCoreSetHotSoftCapMin _ | arCoreSetHotPromoteOnGet _ => cases hop

/-- A knob means nothing to the map. -/
theorem ArOp.means_knob (op : ArOp) (hop : op.isKnob = true) {s : Store} (y : Store × op.Ans)
    (hy : y.1 = s) : op.Means t s y := by
  cases op with
  | arCoreSetMaxmemory _ | arCoreSetEvict _ | arCoreLoadEvictPlugin _ => exact hy
  | arCoreSetEvictSamples _ | arCoreSetHotSoftCapPct _ | arCoreSetHotSoftCapMin _ => exact hy
  | arCoreSetHotPromoteOnGet _ => exact hy
  | _ => cases hop

/-- **A knob changes the configuration**, and then it may evict or demote. -/
theorem ArOp.knob_evolves (hE : E.Frozen t) (hwf : c.WF) (op : ArOp) (hop : op.isKnob = true) :
    ∃ g s, Evolves t B ∅ ∅ { c with cfg := g, srv := s } (op.run E c).1 ∧
      (op.setsKernel = false → g.evict = c.cfg.evict) := by
  have hwf' : ∀ g s, ({ c with cfg := g, srv := s } : ArCore).WF := fun _ _ => ⟨hwf.dict, hwf.objs⟩
  cases op with
  | arCoreSetMaxmemory bytes =>
    have h := Evolves.maybeEvict (t := t) (B := B) hE (hwf' { c.cfg with maxmemory := bytes } c.srv)
    simp only [ArOp.run, ArCore.arCoreSetMaxmemory]
    exact ⟨_, _, h, fun _ => rfl⟩
  | arCoreSetEvict kernel => exact ⟨_, _, .refl _, fun h => by cases h⟩
  | arCoreLoadEvictPlugin kernel =>
    have hq := Quiet.count { c with cfg := { c.cfg with evict := kernel },
                                    srv := { c.srv with evictPlugin := true } }
      (fun s => { s with pluginReloads := s.pluginReloads + 1 }) (Nat.le_refl _)
    have h := (Evolves.maybeEvict (t := t) (B := B) hE (hq.wf (hwf' _ _))).after (.of_quiet hq)
    simp only [ArOp.run, ArCore.arCoreLoadEvictPlugin]
    exact ⟨_, _, h, fun h => by cases h⟩
  | arCoreSetEvictSamples n => exact ⟨_, _, .refl _, fun _ => rfl⟩
  | arCoreSetHotSoftCapPct pct =>
    exact ⟨{ c.cfg with hotSoftCapPct := if pct < 1 then 1 else if pct > 100 then 100 else pct }, c.srv,
      .of_quiet (.maybeDemoteHot E hwf.dict), fun _ => rfl⟩
  | arCoreSetHotSoftCapMin n =>
    exact ⟨{ c.cfg with hotSoftCapMin := if n < 0 then 0 else if n > 1000000 then 1000000 else n }, c.srv,
      .of_quiet (.maybeDemoteHot E hwf.dict), fun _ => rfl⟩
  | arCoreSetHotPromoteOnGet on => exact ⟨_, _, .refl _, fun _ => rfl⟩
  | _ => cases hop

end

end AuraRedis
