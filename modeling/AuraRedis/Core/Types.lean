import AuraRedis.Lib.Chains
import AuraRedis.Lib.CString
import AuraRedis.Resp.Parse

/-!
# The data model of the core

The entries of the key space, the core that owns them, and the connections. An entry is named by its
key: a pointer to an entry is the entry's key, which `Dict.WF` allows because no key is linked twice.
The bytes of a value are a list; the sizes the source computes with `sizeof` are those of a 64-bit
machine.

What the functions read from outside the program is an `Env`: the successive results of the clock, of
`rand()` and of the allocator during one call, `Pos` counting how many have been used.
-/

set_option autoImplicit false

namespace AuraRedis

open CString (CArray)

/-! ## The outside -/

structure Env where
  /-- Milliseconds, one for each reading of the clock. -/
  time : Nat → Nat
  rand : Nat → Nat
  /-- Whether each allocation succeeds. -/
  alloc : Nat → Bool

structure Pos where
  tick : Nat := 0
  rand : Nat := 0
  alloc : Nat := 0
  deriving DecidableEq

namespace Env

/-- Every reading of the clock during the call is `t`. -/
def Frozen (E : Env) (t : Nat) : Prop := ∀ n, E.time n = t

/-- Every allocation during the call succeeds. -/
def AllocOk (E : Env) : Prop := ∀ n, E.alloc n = true

end Env

/-! ## Values -/

/-- A `double`, by its bit pattern. -/
structure CDouble where
  bits : BitVec 64
  deriving DecidableEq

namespace CDouble

/-- Exponent and fraction. -/
def magnitude (x : CDouble) : Nat := x.bits.toNat % 2 ^ 63

def isNaN (x : CDouble) : Bool := decide (0x7FF0000000000000 < x.magnitude)

/-- The position of a double that is not a NaN: sign and magnitude, the two zeroes in one place. -/
def rank (x : CDouble) : Int := if x.bits.msb then -x.magnitude else x.magnitude

/-- `a < b`. -/
def lt (a b : CDouble) : Bool := !a.isNaN && !b.isNaN && decide (a.rank < b.rank)

def infinity : CDouble := ⟨0x7FF0000000000000#64⟩

def negInfinity : CDouble := ⟨0xFFF0000000000000#64⟩

end CDouble

/-- The C library's conversions of doubles. -/
class Libc where
  /-- `strtod` on a C string: the number, and how many bytes it takes. -/
  strtod : Bytes → CDouble × Nat
  /-- What `printf("%.17g")` writes. -/
  fmt17g : CDouble → Bytes

inductive ArType where
  | string | hash | list | zset
  deriving DecidableEq, Repr

/-- The chains of `(field, value)` pairs, and `nfields`. -/
structure ArHash where
  buckets : Chains (Bytes × Bytes)
  nfields : Nat
  deriving DecidableEq

structure ArZNode where
  score : CDouble
  member : Bytes
  deriving DecidableEq

structure ArZSet where
  arr : List ArZNode
  cap : Nat
  deriving DecidableEq

/-- A value, by its type: `val` of a string, `obj` of the others. -/
inductive ArObj where
  | string (val : Bytes)
  | hash (h : ArHash)
  | list (l : List Bytes)
  | zset (z : ArZSet)
  deriving DecidableEq

def ArObj.type : ArObj → ArType
  | string _ => .string
  | hash _ => .hash
  | list _ => .list
  | zset _ => .zset

/-- What an entry says about its key. -/
structure Item where
  key : Bytes
  obj : ArObj
  pinned : Bool
  /-- `0`: none. -/
  expireAt : Nat
  deriving DecidableEq

/-- An entry: an item, and what eviction has noted about it. -/
structure ArEntry extends Item where
  lastAccess : Nat
  lfuFreq : Nat
  deriving DecidableEq

/-! ## The dictionary -/

inductive ArLayoutKind where
  | flat | hotCold
  deriving DecidableEq, Repr

inductive Tier where
  | hot | cold
  deriving DecidableEq, Repr

abbrev Table := Chains ArEntry

/-- Both tables and their counters. `cold` is empty when `cold_buckets` is `NULL`. -/
structure Dict where
  hot : Table
  cold : Table
  nkeys : Nat
  hotNkeys : Nat
  coldNkeys : Nat
  layout : ArLayoutKind

/-- The counters that follow the entries. -/
structure Mem where
  usedMemory : Nat
  pinnedKeys : Nat
  keysWithTtl : Nat
  expireAtSum : Nat
  typeNkeys : ArType → Nat
  typeBytes : ArType → Nat

/-- The other counters. -/
structure Stats where
  ops : Nat := 0
  gets : Nat := 0
  sets : Nat := 0
  hits : Nat := 0
  misses : Nat := 0
  evicted : Nat := 0
  expired : Nat := 0
  clock : Nat := 0
  layoutGen : Nat := 0
  promotions : Nat := 0
  demotions : Nat := 0
  migrates : Nat := 0
  bigkeyBytes : Nat := 0
  bigkeyType : ArType := .string
  shadowSamples : Nat := 0
  shadowHits : Nat := 0
  shadowMisses : Nat := 0
  shadowDiverges : Nat := 0
  uniqueSets : Nat := 0
  pluginReloads : Nat := 0

/-! ## Configuration -/

/-- The kernels of `ar_core_set_evict_by_name`, then those of the plugins in the repository. -/
inductive EvictKernel where
  | noop | lru | lfu | ttlAware | slru | tinylfu
  | random | rr
  deriving DecidableEq, Repr

structure Cfg where
  evict : EvictKernel := .noop
  evictSamples : Int := 16
  maxmemory : Nat := 0
  hotSoftCapPct : Int := 25
  hotSoftCapMin : Int := 256
  hotPromoteOnGet : Bool := true
  shadowPolicy : CArray 32 := .empty 32
  shadowSamplePct : Int := 0
  protectedMode : Bool := true
  requirepass : Bytes := []
  maxclients : Int := 128
  timeoutSec : Int := 0
  tcpBacklog : Int := 512
  slowlogSlowerThanUs : Int := 10000
  slowlogMaxLen : Int := 128
  rdbDir : CArray 256 := .ofBytes 256 (lit ".")
  rdbFilename : CArray 128 := .ofBytes 128 (lit "dump.aura-rdb")
  configPath : CArray 512 := .empty 512
  bindAddr : CArray 64 := .ofBytes 64 (lit "127.0.0.1")

/-! ## Connections -/

/-- `MULTI` and `WATCH`. -/
structure ArTx where
  inMulti : Bool := false
  multiQ : List (List Bytes) := []
  watchKeys : List Bytes := []
  watchDirty : Bool := false
  deriving DecidableEq

/-- A slot of `conns`. `wbuf` is what is buffered, of which `woff` bytes have been written to the socket, and
`sock` all that has been written to it. A slot has no buffers (`rcap` and `wcap` are 0) before its first use. -/
structure ArConn where
  inUse : Bool := false
  fd : Int := -1
  wbuf : Bytes := []
  rcap : Nat := 0
  wcap : Nat := 0
  woff : Nat := 0
  sock : Bytes := []
  shouldClose : Bool := false
  authenticated : Bool := false
  isReplica : Bool := false
  isMasterLink : Bool := false
  tx : ArTx := {}
  pubsubMode : Bool := false
  subChannels : List Bytes := []
  clientId : Nat := 0
  peerAddr : CArray 48 := .empty 48
  name : CArray 64 := .empty 64
  ctimeMs : Nat := 0
  lastActiveMs : Nat := 0
  lastCmd : CArray 48 := .empty 48

/-! ## The core -/

/-- An entry of the slow log: at most eight arguments of at most 47 bytes. -/
structure ArSlowEntry where
  id : Nat := 0
  unixTs : Int := 0
  durationUs : Nat := 0
  args : List Bytes := []
  deriving DecidableEq

/-- What the policy agent says of itself. -/
structure ArExplain where
  mid : CArray 32 := .empty 32
  reason : CArray 64 := .empty 64
  op : CArray 32 := .empty 32
  evict : CArray 16 := .empty 16
  layout : CArray 16 := .empty 16
  join : CArray 192 := .empty 192
  deriving DecidableEq

/-- What the server keeps beside the key space. `rdbBgsavePid` is positive while a child saves. -/
structure ArSrv where
  quit : Bool := false
  shuttingDown : Bool := false
  nextClientId : Nat := 1
  evictPlugin : Bool := false
  replReadonly : Bool := false
  replApplying : Bool := false
  masterHost : CArray 64 := .empty 64
  masterPort : Int := 0
  tcpPort : Int := 0
  tlsPort : Int := 0
  tlsListens : Bool := false
  policyHints : List (CArray 16 × CArray 32) := []
  explain : ArExplain := {}
  rdbLastSaveTime : Nat := 0
  rdbLastBgsaveOk : Bool := true
  rdbLoading : Bool := false
  rdbBgsavePid : Int := 0
  slowlog : List ArSlowEntry := List.replicate 128 {}
  slowlogLen : Int := 0
  slowlogHead : Int := 0
  slowlogNextId : Nat := 0
  slowlogCount : Nat := 0
  cmdLt1ms : Nat := 0
  cmdLt10ms : Nat := 0
  cmdLt100ms : Nat := 0
  cmdGe100ms : Nat := 0
  cmdLatencySumUs : Nat := 0
  cmdLatencySamples : Nat := 0

structure ArCore where
  dict : Dict
  mem : Mem
  stats : Stats
  pos : Pos
  cfg : Cfg
  conns : List ArConn
  srv : ArSrv

end AuraRedis
