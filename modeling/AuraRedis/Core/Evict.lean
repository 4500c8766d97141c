import AuraRedis.Core.Dict

/-!
# Eviction and active expiry

The kernels share one sampling loop (`samplePick`); they differ in what they remember of the best
entry so far and in when another entry is better, which is a `Consider`. Every sampling loop releases
the entries it meets that are due, and skips the pinned ones.
-/

set_option autoImplicit false

namespace AuraRedis

namespace ArCore

section
variable (E : Env)

/-! ## Sampling -/

/-- The best entry so far, with the numbers the kernels compare. -/
structure Best where
  ref : Option Ref := none
  t : Nat := 2 ^ 64 - 1
  f : Nat := 255
  exp : Nat := 2 ^ 64 - 1
  prot : Nat := 2
  foundTtl : Bool := false
  samples : Nat := 0

/-- What a kernel does with one more candidate. -/
abbrev Consider := Best → Ref → Best

/-- `sample_pick_lru`: the oldest. -/
def considerLru : Consider := fun best r =>
  if r.e.lastAccess < best.t then { best with t := r.e.lastAccess, ref := some r } else best

/-- `sample_pick_lfu`: the least used, then the oldest. -/
def considerLfu : Consider := fun best r =>
  if r.e.lfuFreq < best.f ∨ (r.e.lfuFreq = best.f ∧ r.e.lastAccess < best.t)
  then { best with f := r.e.lfuFreq, t := r.e.lastAccess, ref := some r } else best

/-- `sample_pick_ttl_aware`: the next to expire, or the oldest until one with a deadline is met. -/
def considerTtlAware : Consider := fun best r =>
  if r.e.expireAt ≠ 0 then
    if best.foundTtl = false ∨ r.e.expireAt < best.exp ∨
        (r.e.expireAt = best.exp ∧ r.e.lastAccess < best.t)
    then { best with foundTtl := true, exp := r.e.expireAt, t := r.e.lastAccess, ref := some r }
    else best
  else if best.foundTtl = false ∧ r.e.lastAccess < best.t
  then { best with t := r.e.lastAccess, exp := 2 ^ 64 - 1, ref := some r }
  else best

/-- `sample_pick_slru`: a probationary entry before a protected one, then the oldest. -/
def considerSlru : Consider := fun best r =>
  let prot := if r.e.lfuFreq ≥ 1 then 1 else 0
  if prot < best.prot ∨ (prot = best.prot ∧ r.e.lastAccess < best.t)
  then { best with prot := prot, t := r.e.lastAccess, ref := some r } else best

/-- The walk down one chain: entries that are due are released, pinned ones skipped, the others
sampled. -/
def sampleChain (consider : Consider) (maxSamples : Nat) (tier : Tier) (i : Nat) :
    List ArEntry → ArCore → Best → ArCore × Best
  | [], c, best => (c, best)
  | e :: chain, c, best =>
    if best.samples < maxSamples then
      let r : Ref := ⟨tier, i, e⟩
      let x := c.entryExpiredNow E r
      if x.2 then sampleChain consider maxSamples tier i chain x.1 best
      else if e.pinned then sampleChain consider maxSamples tier i chain x.1 best
      else
        sampleChain consider maxSamples tier i chain x.1
          (consider { best with samples := best.samples + 1 } r)
    else (c, best)

/-- The attempts of a sampling loop: hot and cold chains in turn when there is a cold tier. -/
def sampleAttempts (consider : Consider) (maxSamples : Nat) :
    Nat → Nat → ArCore → Best → ArCore × Best
  | 0, _, c, best => (c, best)
  | left + 1, attempt, c, best =>
    if best.samples < maxSamples then
      let tier : Tier :=
        if c.dict.hasCold && decide (c.dict.coldNkeys > 0) && decide (attempt % 2 = 1)
        then .cold else .hot
      let t := c.dict.table tier
      if t.isEmpty then sampleAttempts consider maxSamples left (attempt + 1) c best
      else
        let n := c.rand E
        let i := n.2 % t.length
        let r := sampleChain E consider maxSamples tier i (t.chain i) n.1 best
        sampleAttempts consider maxSamples left (attempt + 1) r.1 r.2
    else (c, best)

/-- The sampling loop of a kernel. -/
def samplePick (consider : Consider) (c : ArCore) : ArCore × Best :=
  let maxSamples := if c.cfg.evictSamples > 0 then c.cfg.evictSamples.toNat else 16
  sampleAttempts E consider maxSamples 128 0 c {}

/-- `evict_lru_one` and its siblings. -/
def evictSampled (consider : Consider) (c : ArCore) : ArCore × Bool :=
  if c.dict.nkeys = 0 then (c, false)
  else
    let r := samplePick E consider c
    match r.2.ref with
    | none => (r.1, false)
    | some v =>
      ((r.1.arEntryFreeEx v.bucket v.tier v.e).count fun s => { s with evicted := s.evicted + 1 },
        true)

/-! ## The random plugin kernels -/

/-- The search of `ar_core_evict_random_one` in one tier, over `left` chains from `start + n` on. -/
def firstChainFrom (t : Table) (start : Nat) : Nat → Nat → Option (Nat × ArEntry)
  | 0, _ => none
  | left + 1, n =>
    let b := (start + n) % t.length
    match t.chain b with
    | [] => firstChainFrom t start left (n + 1)
    | e :: _ => some (b, e)

/-- One tier of `ar_core_evict_random_one`. -/
def evictFirst (c : ArCore) (tier : Tier) : ArCore × Bool :=
  let t := c.dict.table tier
  let start := c.stats.clock % t.length
  let c := c.count fun s => { s with clock := s.clock + 1 }
  match firstChainFrom t start (min t.length 64) 0 with
  | none => (c, false)
  | some (b, e) =>
    ((c.arEntryFreeEx b tier e).count fun s => { s with evicted := s.evicted + 1 }, true)

/-- `ar_core_evict_random_one`. -/
def arCoreEvictRandomOne (c : ArCore) : ArCore × Bool :=
  if c.dict.nkeys = 0 then (c, false)
  else if c.dict.hasCold && decide (c.dict.coldNkeys > 0) then
    let r := c.evictFirst .cold
    if r.2 then r else r.1.evictFirst .hot
  else c.evictFirst .hot

/-! ## Kernels -/

/-- `ar_core_over_maxmemory`. -/
def arCoreOverMaxmemory (c : ArCore) : Bool :=
  decide (c.cfg.maxmemory > 0) && decide (c.mem.usedMemory > c.cfg.maxmemory)

/-- `core->evict->should_evict`. -/
def shouldEvict (c : ArCore) : Bool :=
  match c.cfg.evict with
  | .noop => false
  | _ => c.arCoreOverMaxmemory

/-- `core->evict->evict_one`. -/
def evictOne (c : ArCore) : ArCore × Bool :=
  match c.cfg.evict with
  | .noop => (c, false)
  | .lru => c.evictSampled E considerLru
  | .lfu => c.evictSampled E considerLfu
  | .ttlAware => c.evictSampled E considerTtlAware
  | .slru => c.evictSampled E considerSlru
  | .tinylfu => c.evictSampled E considerSlru
  | .random => c.arCoreEvictRandomOne
  | .rr =>
    let r := c.arCoreEvictRandomOne
    if r.2 then r else r.1.arCoreEvictRandomOne

/-- `e->last_access = ++db->clock`, and what else a kernel notes. -/
def noteAccess (c : ArCore) (key : Bytes) (f : ArEntry → ArEntry) : ArCore :=
  let now := c.stats.clock + 1
  (c.count fun s => { s with clock := now }).updEntry key fun e => f { e with lastAccess := now }

/-- `core->evict->on_get`. -/
def onGet (c : ArCore) (key : Bytes) : ArCore :=
  match c.cfg.evict with
  | .noop | .random | .rr => c
  | .lru | .ttlAware => c.noteAccess key id
  | .lfu =>
    c.updEntry key fun e => { e with lfuFreq := if e.lfuFreq < 255 then e.lfuFreq + 1 else e.lfuFreq }
  | .slru | .tinylfu =>
    c.noteAccess key fun e => { e with
      lfuFreq := if e.lfuFreq = 0 then 1 else if e.lfuFreq < 255 then e.lfuFreq + 1 else e.lfuFreq }

/-- `core->evict->on_set`. -/
def onSet (c : ArCore) (key : Bytes) : ArCore :=
  match c.cfg.evict with
  | .noop | .random | .rr => c
  | .lru | .ttlAware => c.noteAccess key id
  | .lfu =>
    c.noteAccess key fun e => { e with lfuFreq := if e.lfuFreq = 0 then 5 else e.lfuFreq }
  | .slru | .tinylfu => c.noteAccess key fun e => { e with lfuFreq := 0 }

/-! ## Eviction loops -/

/-- `while (should_evict && guard++ < limit) if (!evict_one) break`. -/
def evictLoop : Nat → ArCore → ArCore
  | 0, c => c
  | guard + 1, c =>
    if c.shouldEvict then
      let r := c.evictOne E
      if r.2 then evictLoop guard r.1 else r.1
    else c

/-- `maybe_evict`. -/
def maybeEvict (c : ArCore) : ArCore :=
  let limit := int32 (c.dict.nkeys + 8)
  let limit := if limit < 64 then 64 else limit
  let limit := if limit > 1000000 then 1000000 else limit
  evictLoop E limit.toNat c

/-- `ar_maybe_evict_pub`. -/
def arMaybeEvictPub (c : ArCore) : ArCore :=
  let maxRounds := c.dict.nkeys + 16
  let maxRounds := if maxRounds < 64 then 64 else maxRounds
  let maxRounds := if maxRounds > 4096 then 4096 else maxRounds
  evictLoop E maxRounds c

/-! ## Active expiry -/

/-- One expiry credit: the first entry of a chain that is due at `now`. -/
def expireFirst (now : Nat) (tier : Tier) (b : Nat) : List ArEntry → ArCore → ArCore × Bool
  | [], c => (c, false)
  | e :: chain, c =>
    if e.expireAt ≠ 0 ∧ now ≥ e.expireAt then
      ((c.arEntryFreeEx b tier e).count fun s => { s with expired := s.expired + 1 }, true)
    else expireFirst now tier b chain c

/-- The loop of `ar_core_active_expire`, and how many entries it released. -/
def activeExpireLoop (now : Nat) : Nat → Nat → ArCore → Nat → ArCore × Nat
  | 0, _, c, freed => (c, freed)
  | left + 1, s, c, freed =>
    let tier : Tier :=
      if c.dict.hasCold && decide (c.dict.coldNkeys > 0) && decide (s % 2 = 1) then .cold else .hot
    let t := c.dict.table tier
    if t.isEmpty then activeExpireLoop now left (s + 1) c freed
    else
      let n := c.rand E
      let b := n.2 % t.length
      let r := expireFirst now tier b (t.chain b) n.1
      activeExpireLoop now left (s + 1) r.1 (if r.2 then freed + 1 else freed)

/-- `ar_core_active_expire`. -/
def arCoreActiveExpire (c : ArCore) (effort : Int) : ArCore × Nat :=
  if effort ≤ 0 ∨ c.dict.nkeys = 0 then (c, 0)
  else
    let effort := if effort > 64 then 64 else effort
    let n := c.arNowMs E
    activeExpireLoop E n.2 effort.toNat 0 n.1 0

end

end ArCore

end AuraRedis
