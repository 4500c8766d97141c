import AuraRedis.Core.View
import AuraRedis.Core.Proof.Dict
import Mathlib.Data.List.MinMax
import Mathlib.Data.Prod.Lex

/-!
# Victims

What an eviction may take away, under a clock that may tick while it runs. A sampling kernel remembers
an entry across the chains it visits, and releases what is due when it visits it. Which entries it visits is
settled by the tables, the clock and chance (`walk`), and which one it remembers by their ranks (`preferred`).
The plugin kernels take the first entry they meet: `evictStop`.
-/

set_option autoImplicit false

namespace AuraRedis

/-- What the kernels that sample do with a candidate. -/
def EvictKernel.consider : EvictKernel → Option ArCore.Consider
  | .lru => some ArCore.considerLru
  | .lfu => some ArCore.considerLfu
  | .ttlAware => some ArCore.considerTtlAware
  | .slru | .tinylfu => some ArCore.considerSlru
  | .noop | .random | .rr => none

/-- The kernels of `ar_core_set_evict_by_name`. -/
def EvictKernel.builtIn : EvictKernel → Bool
  | .random | .rr => false
  | _ => true

/-- A deadline had passed at one of the readings of the clock between two cores. -/
def Env.Passed (E : Env) (c c' : ArCore) (at_ : Nat) : Prop :=
  ∃ n, c.pos.tick ≤ n ∧ n < c'.pos.tick ∧ Due (E.time n) at_

namespace ArCore

/-! ## One eviction -/

/-- **One eviction done well**: what is gone was due at some reading of the clock, but for one entry at
most, which was not pinned; the count of the keys follows; and a victim is linked where the kernel says
when it is released. -/
structure EvictsWell (E : Env) (c : ArCore) : Prop where
  gone : ∃ due victim : Multiset ArEntry,
    c.dict.entries = (c.evictOne E).1.dict.entries + (due + victim) ∧
    (∀ e ∈ due, E.Passed c (c.evictOne E).1 e.expireAt) ∧
    victim.card ≤ 1 ∧ (∀ e ∈ victim, e.pinned = false) ∧
    (c.evictOne E).1.dict.nkeys + (due + victim).card = c.dict.nkeys
  linked : ∀ consider, c.cfg.evict.consider = some consider → c.dict.nkeys ≠ 0 →
    ∀ v, (c.samplePick E consider).2.ref = some v →
      v.e ∈ ((c.samplePick E consider).1.dict.table v.tier).chain v.bucket

end ArCore

/-! ## What a sampling loop comes upon -/

/-- An entry that a sampling loop looks at, and whether its deadline is over by the clock then. -/
structure Visit where
  ref : Ref
  due : Bool

/-- The way of a sampling loop over the tables that a call finds: which reading of the clock and which number of
chance come next, and the visits so far. -/
structure Walk where
  ticks : Nat
  draws : Nat
  visits : List Visit := []

namespace Walk

/-- The entry has been found due, and is gone. -/
def foundDue (w : Walk) (e : ArEntry) : Bool := w.visits.any fun v => v.due && v.ref.e.key == e.key

/-- What is to be chosen from: neither due when it was visited nor pinned. -/
def candidates (w : Walk) : List Ref := (w.visits.filter fun v => !v.due && !v.ref.e.pinned).map Visit.ref

def dueRefs (w : Walk) : List Ref := (w.visits.filter Visit.due).map Visit.ref

variable (E : Env)

/-- One more entry. The clock is read for one that has a deadline. -/
def visit (w : Walk) (r : Ref) : Walk :=
  { w with
    ticks := if r.e.expireAt = 0 then w.ticks else w.ticks + 1
    visits := w.visits ++ [⟨r, decide (Due (E.time w.ticks) r.e.expireAt)⟩] }

/-- Down a chain, until there are enough candidates. -/
def chain (maxSamples : Nat) (tier : Tier) (i : Nat) : List ArEntry → Walk → Walk
  | [], w => w
  | e :: es, w =>
    if w.candidates.length < maxSamples then chain maxSamples tier i es (w.visit E ⟨tier, i, e⟩) else w

/-- The chains that chance draws, hot and cold ones in turn as long as there are cold entries. -/
def attempts (d : Dict) (maxSamples : Nat) : Nat → Nat → Walk → Walk
  | 0, _, w => w
  | left + 1, attempt, w =>
    if w.candidates.length < maxSamples then
      let coldLeft := d.coldNkeys - (w.dueRefs.filter (·.tier = .cold)).length
      let tier : Tier := if d.hasCold && decide (coldLeft > 0) && decide (attempt % 2 = 1) then .cold else .hot
      let n := (d.table tier).length
      if n = 0 then attempts d maxSamples left (attempt + 1) w
      else
        let i := E.rand w.draws % n
        let es := ((d.table tier).chain i).filter fun e => !w.foundDue e
        attempts d maxSamples left (attempt + 1) (chain E maxSamples tier i es { w with draws := w.draws + 1 })
    else w

end Walk

/-- What the entries are compared by, the lowest first. -/
def EvictKernel.rank (k : EvictKernel) (e : ArEntry) : Nat ×ₗ Nat ×ₗ Nat :=
  match k with
  | .lfu => toLex (0, toLex (e.lfuFreq, e.lastAccess))
  | .ttlAware =>
    if e.expireAt ≠ 0 then toLex (0, toLex (e.expireAt, e.lastAccess)) else toLex (1, toLex (0, e.lastAccess))
  | .slru | .tinylfu => toLex (0, toLex (if e.lfuFreq ≥ 1 then 1 else 0, e.lastAccess))
  | _ => toLex (0, toLex (0, e.lastAccess))

/-- What an entry must be below to be chosen. -/
def EvictKernel.rankLimit : EvictKernel → Nat ×ₗ Nat ×ₗ Nat
  | .lfu => toLex (0, toLex (255, 2 ^ 64 - 1))
  | .ttlAware => toLex (1, toLex (0, 2 ^ 64 - 1))
  | .slru | .tinylfu => toLex (0, toLex (2, 2 ^ 64 - 1))
  | _ => toLex (0, toLex (0, 2 ^ 64 - 1))

/-- The candidate of the lowest rank, the first of them. -/
def EvictKernel.preferred (k : EvictKernel) (rs : List Ref) : Option Ref :=
  (rs.filter fun r => k.rank r.e < k.rankLimit).argmin fun r => k.rank r.e

namespace ArCore

/-- The way of the sampling loop of an eviction. -/
def walk (E : Env) (c : ArCore) : Walk :=
  let maxSamples := if c.cfg.evictSamples > 0 then c.cfg.evictSamples.toNat else 16
  Walk.attempts E c.dict maxSamples 128 0 ⟨c.pos.tick, c.pos.rand, []⟩

/-- **The candidate that the kernel prefers is at no visit found due.** -/
def prefersLasting (E : Env) (c : ArCore) : Bool :=
  c.cfg.evict.consider.isNone ||
    (c.cfg.evict.preferred (c.walk E).candidates).all fun r => !(c.walk E).foundDue r.e

/-! ## The plugin kernels -/

/-- The entry at which `ar_core_evict_random_one` stops: the first of the first chain it finds that is
not empty. -/
def randomStop (c : ArCore) : Option ArEntry :=
  let stop := fun (t : Table) (clock : Nat) =>
    (firstChainFrom t (clock % t.length) (min t.length 64) 0).map (·.2)
  if c.dict.nkeys = 0 then none
  else if c.dict.hasCold && decide (c.dict.coldNkeys > 0) then
    (stop c.dict.cold c.stats.clock).or (stop c.dict.hot (c.stats.clock + 1))
  else stop c.dict.hot c.stats.clock

/-- The entry at which a kernel that does not sample stops. -/
def evictStop (c : ArCore) : Option ArEntry :=
  match c.cfg.evict with
  | .random => c.randomStop
  | .rr => c.randomStop.or c.arCoreEvictRandomOne.1.randomStop
  | _ => none

/-- No pinned entry is gone that was live throughout: at every reading of the clock between the two
cores and at the time it shows then. -/
def SparesPinned (E : Env) (c c' : ArCore) : Prop :=
  ∀ e ∈ c.dict.entries, e.pinned = true →
    (∀ n, c.pos.tick ≤ n → n ≤ c'.pos.tick → ¬Due (E.time n) e.expireAt) → e ∈ c'.dict.entries

/-- An entry that is not a live pinned one. -/
def Fair (E : Env) (c : ArCore) (stop : Option ArEntry) : Prop :=
  ∀ e, stop = some e → e.pinned = true → Due (E.time c.pos.tick) e.expireAt

/-- No round of an eviction loop stops at a live pinned entry. -/
def FairRounds (E : Env) : Nat → ArCore → Prop
  | 0, _ => True
  | guard + 1, c =>
    c.shouldEvict = true → Fair E c c.evictStop ∧
      ((c.evictOne E).2 = true → FairRounds E guard (c.evictOne E).1)

end ArCore

end AuraRedis
