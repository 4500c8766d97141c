import AuraRedis.Core.Types

/-!
# The dictionary

Lookups, lazy expiry, the release of an entry, the moves between the tiers, the doubling of a table
and the change of layout, as in `ar_core.c` and the accounting helpers of `ar_types.c`. A function
that takes an entry by pointer takes its current value: it unlinks by key and does its accounting on
the value, whether or not the chain it was given holds the entry.
-/

set_option autoImplicit false

namespace AuraRedis

/-! ## Hashing -/

/-- `hash_bin`. -/
def hashBin (s : Bytes) : Nat :=
  s.foldl (fun h b => (h ^^^ b.toNat) * 1099511628211 % 2 ^ 64) 1469598103934665603

/-- `ar_fnv_hash`. -/
def arFnvHash (s : Bytes) : Nat :=
  s.foldl (fun h b => (h ^^^ b.toNat) * 1099511628211 % 2 ^ 64) 1469598103934665603

/-- The chain of a key in a table of `n` chains. -/
def keySlot (n : Nat) (key : Bytes) : Nat := hashBin key &&& (n - 1)

def entrySlot (n : Nat) (e : ArEntry) : Nat := keySlot n e.key

/-- `key_eq`. -/
def keyEq (key : Bytes) (e : ArEntry) : Bool := e.key == key

/-! ## Payload sizes -/

/-- `hash_obj_bytes`. -/
def hashObjBytes (h : ArHash) : Nat :=
  24 + h.buckets.length * 8 + (h.buckets.flatten.map fun f => 40 + f.1.length + f.2.length).sum

/-- `list_obj_bytes`. -/
def listObjBytes (l : List Bytes) : Nat := 24 + (l.map fun v => 32 + v.length).sum

/-- `zset_obj_bytes`. -/
def zsetObjBytes (z : ArZSet) : Nat := 24 + z.cap * 24 + (z.arr.map fun n => n.member.length).sum

/-- `ar_entry_payload_bytes`. -/
def ArObj.payloadBytes : ArObj → Nat
  | .string val => val.length
  | .hash h => hashObjBytes h
  | .list l => listObjBytes l
  | .zset z => zsetObjBytes z

/-- `sizeof(ArEntry)`. -/
def entrySize : Nat := 80

/-- What an entry is accounted for. -/
def Item.total (i : Item) : Nat := i.key.length + i.obj.payloadBytes + entrySize

/-! ## Accounting -/

namespace Mem

/-- `ar_mem_add`. The counter counts allocated bytes, so it does not wrap. -/
def add (m : Mem) (n : Nat) : Mem := { m with usedMemory := m.usedMemory + n }

/-- `ar_mem_sub`. -/
def sub (m : Mem) (n : Nat) : Mem :=
  { m with usedMemory := if m.usedMemory ≥ n then m.usedMemory - n else 0 }

/-- `core->used_memory -= n`, in the unsigned type. -/
def subWrap (m : Mem) (n : Nat) : Mem :=
  { m with usedMemory := if n ≤ m.usedMemory then m.usedMemory - n else m.usedMemory + 2 ^ 64 - n }

/-- `ar_type_stats_bytes_delta`. -/
def bytesDelta (m : Mem) (type : ArType) (delta : Int) : Mem :=
  let b := m.typeBytes type
  let b' := if delta ≥ 0 then b + delta.toNat
    else if b ≥ delta.natAbs then b - delta.natAbs else 0
  { m with typeBytes := Function.update m.typeBytes type b' }

/-- `ar_type_stats_add_key`, its note of a big key apart. -/
def addKey (m : Mem) (type : ArType) (bytes : Nat) : Mem :=
  { m with
    typeNkeys := Function.update m.typeNkeys type (m.typeNkeys type + 1)
    typeBytes := Function.update m.typeBytes type (m.typeBytes type + bytes) }

/-- `ar_type_stats_sub_key`. -/
def subKey (m : Mem) (type : ArType) (bytes : Nat) : Mem :=
  { m with
    typeNkeys := Function.update m.typeNkeys type (m.typeNkeys type - 1)
    typeBytes := Function.update m.typeBytes type
      (if m.typeBytes type ≥ bytes then m.typeBytes type - bytes else 0) }

/-- `entry_clear_expire`, of an entry whose deadline is `at_`. -/
def clearExpire (m : Mem) (at_ : Nat) : Mem :=
  if at_ = 0 then m
  else { m with
    keysWithTtl := m.keysWithTtl - 1
    expireAtSum := if m.expireAtSum ≥ at_ then m.expireAtSum - at_ else 0 }

/-- `entry_set_expire_at`, on an entry whose deadline was `old`. -/
def setExpireAt (m : Mem) (old new : Nat) : Mem :=
  let m := m.clearExpire old
  if new = 0 then m
  else { m with
    keysWithTtl := m.keysWithTtl + 1
    expireAtSum := (m.expireAtSum + new) % 2 ^ 64 }

/-- The accounting of a key whose name changes length. -/
def rekey (m : Mem) (type : ArType) (old new : Nat) : Mem :=
  if new > old then (m.add (new - old)).bytesDelta type ((new - old : Nat) : Int)
  else if new < old then (m.sub (old - new)).bytesDelta type (-((old - new : Nat) : Int))
  else m

/-- The accounting of a container that shrank. -/
def shrink (m : Mem) (type : ArType) (old new : Nat) : Mem :=
  if old ≥ new then (m.sub (old - new)).bytesDelta type (-((old - new : Nat) : Int)) else m

/-- The accounting of a container that changed. -/
def resize (m : Mem) (type : ArType) (old new : Nat) : Mem :=
  if new ≥ old then (m.add (new - old)).bytesDelta type ((new - old : Nat) : Int)
  else (m.sub (old - new)).bytesDelta type (-((old - new : Nat) : Int))

end Mem

/-- `ar_type_stats_note_bigkey`. -/
def Stats.noteBigkey (s : Stats) (type : ArType) (payload : Nat) : Stats :=
  if payload > s.bigkeyBytes then { s with bigkeyBytes := payload, bigkeyType := type } else s

/-! ## Tables -/

namespace Dict

def table (d : Dict) : Tier → Table
  | .hot => d.hot
  | .cold => d.cold

def setTable (d : Dict) (t : Table) : Tier → Dict
  | .hot => { d with hot := t }
  | .cold => { d with cold := t }

/-- `layout == AR_LAYOUT_HOT_COLD && cold_buckets`. -/
def hasCold (d : Dict) : Bool := decide (d.layout = .hotCold) && !d.cold.isEmpty

/-- `(tier == 1 && core->cold_buckets) ? core->cold_buckets : core->buckets`. -/
def owner (d : Dict) : Tier → Tier
  | .hot => .hot
  | .cold => if d.cold.isEmpty then .hot else .cold

/-- `unlink_entry`. -/
def unlink (d : Dict) (tier : Tier) (bucket : Nat) (key : Bytes) : Dict :=
  d.setTable ((d.table tier).remove bucket (keyEq key)) tier

/-- Link at the front of a chain. -/
def linkAt (d : Dict) (tier : Tier) (bucket : Nat) (e : ArEntry) : Dict :=
  d.setTable ((d.table tier).push bucket e) tier

/-- Link at the front of the key's chain, by `hash_bin`. -/
def link (d : Dict) (tier : Tier) (e : ArEntry) : Dict :=
  d.linkAt tier (entrySlot (d.table tier).length e) e

/-- Write through a pointer to the entry of `key`. -/
def update (d : Dict) (key : Bytes) (f : ArEntry → ArEntry) : Dict :=
  let g := fun e => if keyEq key e then f e else e
  { d with hot := d.hot.update g, cold := d.cold.update g }

/-- One entry less on a tier's counter, under `hot_cold`. -/
def decTier (d : Dict) : Tier → Dict
  | .hot => { d with hotNkeys := if d.layout = .hotCold then d.hotNkeys - 1 else d.hotNkeys }
  | .cold => { d with coldNkeys := if d.layout = .hotCold then d.coldNkeys - 1 else d.coldNkeys }

/-- One entry more in the hot tier, under `hot_cold`. -/
def incHot (d : Dict) : Dict :=
  { d with hotNkeys := if d.layout = .hotCold then d.hotNkeys + 1 else d.hotNkeys }

/-- `scan_total_buckets` entries, in the order of the chains: hot, then cold. -/
def linked (d : Dict) : List ArEntry := d.hot.flatten ++ d.cold.flatten

end Dict

/-- Where `ar_find_entry_ex` found an entry. -/
structure Ref where
  tier : Tier
  bucket : Nat
  e : ArEntry

/-! ## Watches -/

/-- `ar_watch_touch`, on one connection. -/
def ArConn.watchTouch (conn : ArConn) (key : Bytes) : ArConn :=
  if conn.inUse && decide (key ∈ conn.tx.watchKeys)
  then { conn with tx := { conn.tx with watchDirty := true } } else conn

/-- `ar_watch_touch_all`, on one connection. -/
def ArConn.watchTouchAll (conn : ArConn) : ArConn :=
  if conn.inUse && !conn.tx.watchKeys.isEmpty
  then { conn with tx := { conn.tx with watchDirty := true } } else conn

namespace ArCore

def arWatchTouch (c : ArCore) (key : Bytes) : ArCore :=
  { c with conns := c.conns.map (·.watchTouch key) }

def arWatchTouchAll (c : ArCore) : ArCore := { c with conns := c.conns.map ArConn.watchTouchAll }

/-! ## Reading the outside -/

section
variable (E : Env)

def arNowMs (c : ArCore) : ArCore × Nat :=
  ({ c with pos := { c.pos with tick := c.pos.tick + 1 } }, E.time c.pos.tick)

/-- `rand()`. -/
def rand (c : ArCore) : ArCore × Nat :=
  ({ c with pos := { c.pos with rand := c.pos.rand + 1 } }, E.rand c.pos.rand)

/-- One allocation. -/
def malloc (c : ArCore) : ArCore × Bool :=
  ({ c with pos := { c.pos with alloc := c.pos.alloc + 1 } }, E.alloc c.pos.alloc)

end

/-- Write through a pointer to the entry of `key`. -/
def updEntry (c : ArCore) (key : Bytes) (f : ArEntry → ArEntry) : ArCore :=
  { c with dict := c.dict.update key f }

/-- Count something. -/
def count (c : ArCore) (f : Stats → Stats) : ArCore := { c with stats := f c.stats }

/-! ## Release of an entry -/

/-- `ar_entry_free_ex`. -/
def arEntryFreeEx (c : ArCore) (bucket : Nat) (tier : Tier) (e : ArEntry) : ArCore :=
  let c := c.arWatchTouch e.key
  let m := c.mem.clearExpire e.expireAt
  let d := c.dict.unlink (c.dict.owner tier) bucket e.key
  let total := e.total
  let m := (m.subKey e.obj.type total).sub total
  let m := if e.pinned then { m with pinnedKeys := m.pinnedKeys - 1 } else m
  let d := d.decTier tier
  { c with dict := { d with nkeys := d.nkeys - 1 }, mem := m }

section
variable (E : Env)

/-- `entry_expired_now`. -/
def entryExpiredNow (c : ArCore) (r : Ref) : ArCore × Bool :=
  if r.e.expireAt = 0 then (c, false)
  else
    let n := c.arNowMs E
    if n.2 < r.e.expireAt then (n.1, false)
    else ((n.1.arEntryFreeEx r.bucket r.tier r.e).count fun s => { s with expired := s.expired + 1 },
      true)

/-! ## Lookup -/

/-- `find_in_table`. -/
def findInTable (c : ArCore) (key : Bytes) (tier : Tier) : Option Ref :=
  let t := c.dict.table tier
  if t.isEmpty then none
  else
    let b := keySlot t.length key
    (t.find b (keyEq key)).map fun e => ⟨tier, b, e⟩

/-- A lookup in one table: an entry that is due is released. -/
def findLive (c : ArCore) (key : Bytes) (tier : Tier) : ArCore × Option Ref :=
  match c.findInTable key tier with
  | none => (c, none)
  | some r =>
    let x := c.entryExpiredNow E r
    (x.1, if x.2 then none else some r)

/-- `ar_find_entry_ex`. -/
def arFindEntryEx (c : ArCore) (key : Bytes) : ArCore × Option Ref :=
  let r := c.findLive E key .hot
  match r.2 with
  | some ref => (r.1, some ref)
  | none => if r.1.dict.hasCold then r.1.findLive E key .cold else r

/-! ## Moves between the tiers -/

/-- `hot_soft_cap`. -/
def hotSoftCap (c : ArCore) : Nat :=
  let pct := if c.cfg.hotSoftCapPct > 0 then c.cfg.hotSoftCapPct else 25
  let pct := if pct > 100 then 100 else pct
  let cap := c.dict.nkeys * pct.toNat / 100
  let floor := if c.cfg.hotSoftCapMin > 0 then c.cfg.hotSoftCapMin.toNat else 0
  if cap < floor then floor else cap

/-- The candidate of a search for the oldest entry. -/
structure Oldest where
  best : Option (Nat × ArEntry) := none
  bestT : Nat := 2 ^ 64 - 1
  samples : Nat := 0

/-- The walk down one chain in `demote_one_hot_to_cold`. -/
def Oldest.walk (i : Nat) : List ArEntry → Oldest → Oldest
  | [], o => o
  | e :: chain, o =>
    if o.samples < 16 then
      let o := { o with samples := o.samples + 1 }
      Oldest.walk i chain
        (if e.lastAccess < o.bestT then { o with best := some (i, e), bestT := e.lastAccess } else o)
    else o

/-- The search of `demote_one_hot_to_cold`, for a number of attempts. -/
def oldestHot : Nat → ArCore → Oldest → ArCore × Oldest
  | 0, c, o => (c, o)
  | attempts + 1, c, o =>
    if o.samples < 16 then
      let r := c.rand E
      let i := r.2 % r.1.dict.hot.length
      oldestHot attempts r.1 (o.walk i (r.1.dict.hot.chain i))
    else (c, o)

/-- `demote_one_hot_to_cold`. -/
def demoteOneHotToCold (c : ArCore) : ArCore × Bool :=
  if !c.dict.hasCold || c.dict.hotNkeys == 0 then (c, false)
  else
    let r := oldestHot E 64 c {}
    match r.2.best with
    | none => (r.1, false)
    | some (b, e) =>
      let d := r.1.dict.unlink .hot b e.key
      let d := { d with hotNkeys := d.hotNkeys - 1 }
      let d := d.link .cold e
      let d := { d with coldNkeys := d.coldNkeys + 1 }
      ({ r.1 with dict := d }.count fun s => { s with demotions := s.demotions + 1 }, true)

/-- The loop of `maybe_demote_hot`. -/
def demoteLoop : Nat → ArCore → ArCore
  | 0, c => c
  | guard + 1, c =>
    if c.dict.hotNkeys > c.hotSoftCap then
      let r := c.demoteOneHotToCold E
      if r.2 then demoteLoop guard r.1 else r.1
    else c

/-- `maybe_demote_hot`. -/
def maybeDemoteHot (c : ArCore) : ArCore :=
  if c.dict.layout = .hotCold then demoteLoop E 64 c else c

/-- `ar_touch_get`. -/
def arTouchGet (c : ArCore) (r : Ref) : ArCore :=
  let now := c.stats.clock + 1
  let c := c.count fun s => { s with clock := now }
  let c := c.updEntry r.e.key fun e => { e with lastAccess := now }
  let e := { r.e with lastAccess := now }
  if c.dict.hasCold && decide (r.tier = .cold) && c.cfg.hotPromoteOnGet then
    let d := c.dict.unlink .cold r.bucket e.key
    let d := { d with coldNkeys := d.coldNkeys - 1 }
    let d := d.link .hot e
    let d := { d with hotNkeys := d.hotNkeys + 1 }
    let c := { c with dict := d }.count fun s => { s with promotions := s.promotions + 1 }
    c.maybeDemoteHot E
  else c

/-! ## Growth -/

/-- `rehash_table`: the table twice as long, or as it was when there is no memory. -/
def rehashTable (c : ArCore) (tier : Tier) : ArCore :=
  let r := c.malloc E
  if r.2 then
    let t := r.1.dict.table tier
    { r.1 with dict := r.1.dict.setTable (t.rehash entrySlot (t.length * 2)) tier }
  else r.1

/-- `ar_rehash_if_needed`. -/
def arRehashIfNeeded (c : ArCore) : ArCore :=
  if c.dict.layout = .flat then
    if c.dict.nkeys ≤ c.dict.hot.length then c else c.rehashTable E .hot
  else
    let c := if c.dict.hotNkeys > c.dict.hot.length then c.rehashTable E .hot else c
    if !c.dict.cold.isEmpty && decide (c.dict.coldNkeys > c.dict.cold.length)
    then c.rehashTable E .cold else c

/-! ## Layout -/

/-- `migrate_to_hot_cold`, from `flat`. -/
def migrateToHotCold (c : ArCore) : ArCore × Bool :=
  let cn := if c.dict.hot.length < 256 then 256 else c.dict.hot.length
  let r := c.malloc E
  if r.2 then
    let d := r.1.dict
    let d := { d with cold := List.replicate cn [], coldNkeys := 0, hotNkeys := d.nkeys,
                      layout := .hotCold }
    ({ r.1 with dict := d }.count fun s =>
      { s with layoutGen := s.layoutGen + 1, migrates := s.migrates + 1 }, true)
  else (r.1, false)

/-- `migrate_to_flat`, from `hot_cold`. -/
def migrateToFlat (c : ArCore) : ArCore × Bool :=
  let d := c.dict
  let d := { d with hot := d.hot.pushAll entrySlot d.cold.flatten, cold := [], coldNkeys := 0,
                    hotNkeys := 0, layout := .flat }
  let c := { c with dict := d }.count fun s =>
    { s with layoutGen := s.layoutGen + 1, migrates := s.migrates + 1 }
  (c.arRehashIfNeeded E, true)

/-- `ar_core_set_layout`, of the layout a name stands for. -/
def arCoreSetLayout (c : ArCore) (want : ArLayoutKind) : ArCore × Bool :=
  if c.dict.layout = want then (c, true)
  else match want with
    | .hotCold => c.migrateToHotCold E
    | .flat => c.migrateToFlat E

/-- `ar_core_adapt_layout`. -/
def arCoreAdaptLayout (c : ArCore) : ArCore × Bool :=
  if c.dict.nkeys ≥ 500 ∧ c.stats.gets > c.stats.sets * 3 then
    if c.dict.layout ≠ .hotCold then c.arCoreSetLayout E .hotCold else (c, false)
  else if c.dict.nkeys < 64 ∧ c.dict.layout = .hotCold then c.arCoreSetLayout E .flat
  else (c, false)

end

end ArCore

end AuraRedis
