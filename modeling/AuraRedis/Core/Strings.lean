import AuraRedis.Core.Evict

/-!
# Operations on keys and strings

`ar_entry_set_ex` and the operations of `ar_core.c` that the server calls. Each returns the core and
the result of the C function; a wrong-type flag is a result of its own.
-/

set_option autoImplicit false

namespace AuraRedis

namespace ArCore

section
variable (E : Env)

/-! ## SET -/

/-- `ar_entry_set_ex`, on an entry that exists. -/
def setExisting (c : ArCore) (r : Ref) (val : Bytes) (expireAt : Nat) : ArCore × Bool :=
  let key := r.e.key
  let x := c.malloc E
  if !x.2 then (x.1, false)
  else
    let c := x.1
    let oldPay := r.e.obj.payloadBytes
    -- a value of another type goes first, and leaves the shell of an empty string
    let typed := decide (r.e.obj.type ≠ .string)
    let m := if typed then
        (((c.mem.subKey r.e.obj.type (key.length + oldPay + entrySize)).sub oldPay).addKey .string
          (key.length + entrySize))
      else c.mem
    let vlen := if typed then 0 else oldPay
    let m := (m.subWrap vlen).bytesDelta .string (-vlen)
    let m := (m.add val.length).bytesDelta .string val.length
    let stats := if typed then c.stats.noteBigkey .string key.length else c.stats
    let stats := stats.noteBigkey .string val.length
    let now := stats.clock + 1
    let m := m.setExpireAt r.e.expireAt expireAt
    let c := { c with mem := m, stats := { stats with clock := now } }.updEntry key fun e =>
      { e with obj := .string val, lastAccess := now, expireAt := expireAt }
    let e := { r.e with obj := .string val, lastAccess := now, expireAt := expireAt }
    let c := if c.dict.layout = .hotCold ∧ r.tier = .cold then c.arTouchGet E { r with e := e } else c
    let c := c.onSet key
    let c := c.maybeEvict E
    (c.arWatchTouch key, true)

/-- A new entry, linked in a chain of the hot table and accounted for. -/
def linkNew (c : ArCore) (bucket : Nat) (key : Bytes) (obj : ArObj) : ArCore :=
  let now := c.stats.clock + 1
  let e : ArEntry :=
    { key := key, obj := obj, pinned := false, expireAt := 0, lastAccess := now, lfuFreq := 5 }
  let d := c.dict.linkAt .hot bucket e
  let d := { d with nkeys := d.nkeys + 1 }.incHot
  let m := (c.mem.add e.total).addKey obj.type e.total
  let stats := { c.stats with clock := now }.noteBigkey obj.type (e.total - entrySize)
  { c with dict := d, mem := m, stats := stats.noteBigkey obj.type obj.payloadBytes }

/-- `entry_set_expire_at`. -/
def entrySetExpireAt (c : ArCore) (key : Bytes) (old new : Nat) : ArCore :=
  { c with mem := c.mem.setExpireAt old new }.updEntry key fun e => { e with expireAt := new }

/-- `ar_entry_set_ex`, on a key that does not exist. -/
def setNew (c : ArCore) (key val : Bytes) (expireAt : Nat) : ArCore × Bool :=
  let x := c.malloc E
  if !x.2 then (x.1, false)
  else
    let k := x.1.malloc E
    let v := k.1.malloc E
    if !k.2 || !v.2 then (v.1, false)
    else
      let b := hashBin key &&& (v.1.dict.hot.length - 1)
      let c := (v.1.linkNew b key (.string val)).count fun s =>
        { s with uniqueSets := s.uniqueSets + 1 }
      let c := c.entrySetExpireAt key 0 expireAt
      let c := c.onSet key
      let c := c.maybeDemoteHot E
      let c := c.arRehashIfNeeded E
      let c := c.maybeEvict E
      (c.arWatchTouch key, true)

/-- `ar_entry_set_ex`. -/
def arEntrySetEx (c : ArCore) (key val : Bytes) (expireAt : Nat) : ArCore × Bool :=
  let f := c.arFindEntryEx E key
  match f.2 with
  | some r => f.1.setExisting E r val expireAt
  | none => f.1.setNew E key val expireAt

/-- `ar_entry_set`. -/
def arEntrySet (c : ArCore) (key val : Bytes) : ArCore × Bool := c.arEntrySetEx E key val 0

def countSet (c : ArCore) : ArCore :=
  c.count fun s => { s with ops := s.ops + 1, sets := s.sets + 1 }

/-- `ar_set_bin`. -/
def arSetBin (c : ArCore) (key val : Bytes) : ArCore × Bool := c.countSet.arEntrySet E key val

/-- `ar_set_bin_ex`. -/
def arSetBinEx (c : ArCore) (key val : Bytes) (expireSec : Int) : ArCore × Bool :=
  let c := c.countSet
  if expireSec > 0 then
    let n := c.arNowMs E
    n.1.arEntrySetEx E key val ((n.2 + uint64 expireSec * 1000) % 2 ^ 64)
  else c.arEntrySetEx E key val 0

/-- `ar_set_bin_px`. -/
def arSetBinPx (c : ArCore) (key val : Bytes) (expireMs : Int) : ArCore × Bool :=
  let c := c.countSet
  if expireMs > 0 then
    let n := c.arNowMs E
    n.1.arEntrySetEx E key val ((n.2 + uint64 expireMs) % 2 ^ 64)
  else c.arEntrySetEx E key val 0

/-! ## Deadlines -/

/-- `ar_expire`, `ar_pexpire`, `ar_expireat` and `ar_pexpireat`: `deadline` reads the clock when it
needs to. -/
def expireWith (c : ArCore) (key : Bytes) (n : Int) (deadline : ArCore → ArCore × Nat) :
    ArCore × Bool :=
  let f := c.arFindEntryEx E key
  match f.2 with
  | none => (f.1, false)
  | some r =>
    if n ≤ 0 then
      let c := { f.1 with mem := f.1.mem.clearExpire r.e.expireAt }.updEntry key fun e =>
        { e with expireAt := 0 }
      (c.arWatchTouch key, true)
    else
      let d := deadline f.1
      ((d.1.entrySetExpireAt key r.e.expireAt d.2).arWatchTouch key, true)

/-- `ar_expire`. -/
def arExpire (c : ArCore) (key : Bytes) (seconds : Int) : ArCore × Bool :=
  c.expireWith E key seconds fun c =>
    let n := c.arNowMs E
    (n.1, (n.2 + uint64 seconds * 1000) % 2 ^ 64)

/-- `ar_pexpire`. -/
def arPexpire (c : ArCore) (key : Bytes) (ms : Int) : ArCore × Bool :=
  c.expireWith E key ms fun c =>
    let n := c.arNowMs E
    (n.1, (n.2 + uint64 ms) % 2 ^ 64)

/-- `ar_expireat`. -/
def arExpireat (c : ArCore) (key : Bytes) (unixSec : Int) : ArCore × Bool :=
  c.expireWith E key unixSec fun c => (c, uint64 unixSec * 1000 % 2 ^ 64)

/-- `ar_pexpireat`. -/
def arPexpireat (c : ArCore) (key : Bytes) (unixMs : Int) : ArCore × Bool :=
  c.expireWith E key unixMs fun c => (c, uint64 unixMs)

/-- `ar_ttl` and `ar_pttl`: what is left of a deadline, by `left`. -/
def ttlWith (c : ArCore) (key : Bytes) (left : Nat → Nat → Int) : ArCore × Int :=
  let f := c.arFindEntryEx E key
  match f.2 with
  | none => (f.1, -2)
  | some r =>
    if r.e.expireAt = 0 then (f.1, -1)
    else
      let n := f.1.arNowMs E
      if n.2 ≥ r.e.expireAt then (n.1, -2) else (n.1, left r.e.expireAt n.2)

/-- `ar_ttl`. -/
def arTtl (c : ArCore) (key : Bytes) : ArCore × Int :=
  c.ttlWith E key fun at_ now => int64 ((at_ - now + 999) % 2 ^ 64 / 1000)

/-- `ar_pttl`. -/
def arPttl (c : ArCore) (key : Bytes) : ArCore × Int :=
  c.ttlWith E key fun at_ now => int64 (at_ - now)

/-- `ar_core_avg_ttl_ms`, at the time `now`. -/
def arCoreAvgTtlMs (c : ArCore) (now : Nat) : Nat :=
  if c.mem.keysWithTtl = 0 then 0 else c.mem.expireAtSum / c.mem.keysWithTtl - now

/-! ## Reads -/

/-- A sampled `GET`: the shadow counters. -/
def shadowSample (c : ArCore) (hit : Bool) : ArCore :=
  if c.cfg.shadowSamplePct > 0 then
    let n := c.rand E
    if ((n.2 % 100 : Nat) : Int) < n.1.cfg.shadowSamplePct then
      n.1.count fun s =>
        if hit then { s with shadowSamples := s.shadowSamples + 1, shadowHits := s.shadowHits + 1 }
        else { s with shadowSamples := s.shadowSamples + 1, shadowMisses := s.shadowMisses + 1 }
    else n.1
  else c

def countGet (c : ArCore) : ArCore :=
  c.count fun s => { s with ops := s.ops + 1, gets := s.gets + 1 }

def countMiss (c : ArCore) : ArCore := c.count fun s => { s with misses := s.misses + 1 }

def countHit (c : ArCore) : ArCore := c.count fun s => { s with hits := s.hits + 1 }

/-- What a keyed read that may meet another type answers. -/
inductive Typed (α : Type) where
  | found (a : α)
  | missing
  | wrongType
  deriving DecidableEq

/-- `get_ptr`, of the server. -/
def getPtr (c : ArCore) (key : Bytes) : ArCore × Typed Bytes :=
  let c := c.countGet
  let f := c.arFindEntryEx E key
  match f.2 with
  | none => (f.1.countMiss.shadowSample E false, .missing)
  | some r =>
    match r.e.obj with
    | .string val =>
      let c := f.1.countHit.shadowSample E true
      ((c.arTouchGet E r).onGet key, .found val)
    | _ => (f.1, .wrongType)

/-- `ar_strlen`. -/
def arStrlen (c : ArCore) (key : Bytes) : ArCore × Typed Nat :=
  let c := c.count fun s => { s with ops := s.ops + 1 }
  let f := c.arFindEntryEx E key
  match f.2 with
  | none => (f.1, .missing)
  | some r =>
    match r.e.obj with
    | .string val => (f.1, .found val.length)
    | _ => (f.1, .wrongType)

/-- `ar_exists_bin`. -/
def arExistsBin (c : ArCore) (key : Bytes) : ArCore × Bool :=
  let f := c.arFindEntryEx E key
  (f.1, f.2.isSome)

/-! ## Writes -/

/-- `ar_del_bin`. -/
def arDelBin (c : ArCore) (key : Bytes) : ArCore × Bool :=
  let f := c.arFindEntryEx E key
  match f.2 with
  | none => (f.1, false)
  | some r =>
    ((f.1.arEntryFreeEx r.bucket r.tier r.e).count fun s => { s with ops := s.ops + 1 }, true)

/-- `ar_append`; `missing` is its `-1` without a wrong type. -/
def arAppend (c : ArCore) (key val : Bytes) : ArCore × Typed Nat :=
  let c := c.countSet
  let f := c.arFindEntryEx E key
  match f.2 with
  | none =>
    let x := f.1.arEntrySet E key val
    if !x.2 then (x.1, .missing)
    else
      let g := x.1.arFindEntryEx E key
      match g.2 with
      | none => (g.1, .missing)
      | some r => (g.1, .found r.e.obj.payloadBytes)
  | some r =>
    match r.e.obj with
    | .string old =>
      if val.length = 0 then (f.1, .found old.length)
      else
        let x := f.1.malloc E
        if !x.2 then (x.1, .missing)
        else
          let new := old ++ val
          let stats := x.1.stats.noteBigkey .string new.length
          let now := stats.clock + 1
          let m := (x.1.mem.add val.length).bytesDelta .string val.length
          let c := { x.1 with mem := m, stats := { stats with clock := now } }.updEntry key fun e =>
            { e with obj := .string new, lastAccess := now }
          let e := { r.e with obj := .string new, lastAccess := now }
          let c := if c.dict.layout = .hotCold ∧ r.tier = .cold
            then c.arTouchGet E { r with e := e } else c
          let c := c.onSet key
          let c := c.maybeEvict E
          (c.arWatchTouch key, .found new.length)
    | _ => (f.1, .wrongType)

/-- The end of `ar_rename`: the entry leaves its chain, gets the new name and enters the hot table. -/
def renameEntry (c : ArCore) (r : Ref) (newkey : Bytes) : ArCore :=
  let key := r.e.key
  let d := (c.dict.unlink (c.dict.owner r.tier) r.bucket key).decTier r.tier
  let now := c.stats.clock + 1
  let e := { r.e with key := newkey, lastAccess := now }
  let d := (d.link .hot e).incHot
  let c := { c with dict := d, mem := c.mem.rekey e.obj.type key.length newkey.length,
                    stats := { c.stats with clock := now, sets := c.stats.sets + 1 } }
  let c := c.onSet newkey
  let c := c.maybeDemoteHot E
  let c := c.arRehashIfNeeded E
  let c := c.maybeEvict E
  (c.arWatchTouch key).arWatchTouch newkey

/-- `ar_rename`: `1` done, `0` no such key, `2` the destination exists, `-1` no memory. -/
def arRename (c : ArCore) (key newkey : Bytes) (nx : Bool) : ArCore × Int :=
  let c := c.count fun s => { s with ops := s.ops + 1 }
  let f := c.arFindEntryEx E key
  match f.2 with
  | none => (f.1, 0)
  | some r =>
    if key = newkey then (f.1, 1)
    else
      let g := f.1.arFindEntryEx E newkey
      if g.2.isSome && nx then (g.1, 2)
      else
        let x := g.1.malloc E
        if !x.2 then (x.1, -1)
        else
          let c := match g.2 with
            | some dest => x.1.arEntryFreeEx dest.bucket dest.tier dest.e
            | none => x.1
          (c.renameEntry E r newkey, 1)

/-- The integer a string holds, when `strtoll` reads all of it. -/
def parseInteger (val : Bytes) : Option Int :=
  if val.length ≥ 64 then none
  else
    let r := CString.strtoll val
    if r.2 = 0 ∨ (val ++ [0])[r.2]? ≠ some 0 then none else some r.1

/-- The number `ar_incr` starts from and the deadline it keeps. -/
def incrFrom : Option Ref → Option (Int × Nat)
  | none => some (0, 0)
  | some r =>
    match r.e.obj with
    | .string val => (parseInteger val).map fun v => (v, r.e.expireAt)
    | _ => none

/-- `ar_incr`; `none` is `ok == 0`. -/
def arIncr (c : ArCore) (key : Bytes) (delta : Int) : ArCore × Option Int :=
  let c := c.countSet
  let f := c.arFindEntryEx E key
  match incrFrom f.2 with
  | none => (f.1, none)
  | some (v, keepExp) =>
    let v := int64 (v + delta)
    let x := f.1.arEntrySetEx E key (Decimal.ofInt v) keepExp
    (x.1, if x.2 then some v else none)

/-- `ar_flushdb`. -/
def arFlushdb (c : ArCore) : ArCore :=
  let d := c.dict
  let d := { d with hot := List.replicate d.hot.length [],
                    cold := List.replicate d.cold.length [],
                    coldNkeys := if d.cold.isEmpty then d.coldNkeys else 0,
                    nkeys := 0, hotNkeys := 0 }
  let m := { c.mem with usedMemory := 0, keysWithTtl := 0, expireAtSum := 0,
                        typeNkeys := fun _ => 0, typeBytes := fun _ => 0 }
  let c := { c with dict := d, mem := m }.count fun s =>
    { s with bigkeyBytes := 0, bigkeyType := .string, ops := s.ops + 1 }
  c.arWatchTouchAll

/-! ## Pins and knobs -/

/-- `ar_core_pin`. -/
def arCorePin (c : ArCore) (key : Bytes) : ArCore × Bool :=
  let f := c.arFindEntryEx E key
  match f.2 with
  | none => (f.1, false)
  | some r =>
    if r.e.pinned then (f.1, true)
    else
      ({ f.1 with mem := { f.1.mem with pinnedKeys := f.1.mem.pinnedKeys + 1 } }.updEntry key
        fun e => { e with pinned := true }, true)

/-- `ar_core_unpin`. -/
def arCoreUnpin (c : ArCore) (key : Bytes) : ArCore × Bool :=
  let f := c.arFindEntryEx E key
  match f.2 with
  | none => (f.1, false)
  | some r =>
    if r.e.pinned then
      ({ f.1 with mem := { f.1.mem with pinnedKeys := f.1.mem.pinnedKeys - 1 } }.updEntry key
        fun e => { e with pinned := false }, true)
    else (f.1, false)

def setCfg (c : ArCore) (f : Cfg → Cfg) : ArCore := { c with cfg := f c.cfg }

/-- `ar_core_set_maxmemory`. -/
def arCoreSetMaxmemory (c : ArCore) (bytes : Nat) : ArCore :=
  (c.setCfg fun g => { g with maxmemory := bytes }).maybeEvict E

/-- `ar_core_set_evict_by_name`, of the kernel a name stands for. -/
def arCoreSetEvict (c : ArCore) (kernel : EvictKernel) : ArCore :=
  { c.setCfg fun g => { g with evict := kernel } with srv := { c.srv with evictPlugin := false } }

/-- `ar_core_load_evict_plugin`, of a plugin of the repository. -/
def arCoreLoadEvictPlugin (c : ArCore) (kernel : EvictKernel) : ArCore :=
  let c := { c.setCfg fun g => { g with evict := kernel } with srv := { c.srv with evictPlugin := true } }
  (c.count fun s => { s with pluginReloads := s.pluginReloads + 1 }).maybeEvict E

/-- `ar_core_set_evict_samples`. -/
def arCoreSetEvictSamples (c : ArCore) (n : Int) : ArCore :=
  c.setCfg fun g => { g with evictSamples := if n < 1 then 1 else if n > 256 then 256 else n }

/-- `ar_core_set_hot_soft_cap_pct`. -/
def arCoreSetHotSoftCapPct (c : ArCore) (pct : Int) : ArCore :=
  (c.setCfg fun g =>
    { g with hotSoftCapPct := if pct < 1 then 1 else if pct > 100 then 100 else pct }).maybeDemoteHot E

/-- `ar_core_set_hot_soft_cap_min`. -/
def arCoreSetHotSoftCapMin (c : ArCore) (n : Int) : ArCore :=
  (c.setCfg fun g =>
    { g with hotSoftCapMin := if n < 0 then 0 else if n > 1000000 then 1000000 else n }).maybeDemoteHot E

/-- `ar_core_set_hot_promote_on_get`. -/
def arCoreSetHotPromoteOnGet (c : ArCore) (on : Bool) : ArCore :=
  c.setCfg fun g => { g with hotPromoteOnGet := on }

end

/-- `ar_core_create`. -/
def arCoreCreate : ArCore where
  dict := { hot := List.replicate 1024 [], cold := [], nkeys := 0, hotNkeys := 0, coldNkeys := 0,
            layout := .flat }
  mem := { usedMemory := 0, pinnedKeys := 0, keysWithTtl := 0, expireAtSum := 0,
           typeNkeys := fun _ => 0, typeBytes := fun _ => 0 }
  stats := {}
  pos := {}
  cfg := {}
  conns := List.replicate 1024 {}
  srv := {}

end ArCore

end AuraRedis
