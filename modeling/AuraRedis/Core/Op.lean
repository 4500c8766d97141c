import AuraRedis.Core.Scan
import AuraRedis.Core.View

/-!
# The interface of the core

`ArOp`: the calls the server makes, each with the answer of its C function. `ArOp.run` makes the call and
`ArOp.Means` is what the call means on the map. A `Call` comes with what it reads from outside.
-/

set_option autoImplicit false

namespace AuraRedis

open ArCore (Typed)

inductive ArOp
  /-- `core->ops += ops; core->sets += sets`. -/
  | tally (ops sets : Nat)
  -- keys
  | find (key : Bytes)
  | arExistsBin (key : Bytes)
  | arDelBin (key : Bytes)
  | arRename (key newkey : Bytes) (nx : Bool)
  | arExpire (key : Bytes) (seconds : Int)
  | arPexpire (key : Bytes) (ms : Int)
  | arExpireat (key : Bytes) (unixSec : Int)
  | arPexpireat (key : Bytes) (unixMs : Int)
  | arTtl (key : Bytes)
  | arPttl (key : Bytes)
  | arCorePin (key : Bytes)
  | arCoreUnpin (key : Bytes)
  | arFlushdb
  | arDbsize
  | arScan (cursor : Nat) (pat : Bytes) (count : Int)
  | arKeys (pat : Bytes)
  | arCoreActiveExpire (effort : Int)
  -- strings
  | arEntrySetEx (key val : Bytes) (expireAt : Nat)
  | arSetBinEx (key val : Bytes) (expireSec : Int)
  | arSetBinPx (key val : Bytes) (expireMs : Int)
  | getPtr (key : Bytes)
  | arStrlen (key : Bytes)
  | arAppend (key val : Bytes)
  | arIncr (key : Bytes) (delta : Int)
  -- hashes
  | arHashHset (key : Bytes) (pairs : List (Bytes × Bytes))
  | arHashHget (key field : Bytes)
  | arHashHdel (key : Bytes) (fields : List Bytes)
  | arHashHexists (key field : Bytes)
  | arHashHlen (key : Bytes)
  | arHashHincrby (key field : Bytes) (incr : Int)
  /-- `ar_entry_get_typed` of a hash. -/
  | hashGet (key : Bytes)
  | hgetall (key : Bytes)
  | arHscan (key : Bytes) (cursor : Nat) (pat : Bytes) (count : Int)
  -- lists
  | arListPush (key : Bytes) (left : Bool) (vals : List Bytes)
  | arListPop (key : Bytes) (left : Bool)
  | arListLlen (key : Bytes)
  | arListGet (key : Bytes)
  | arListLindex (key : Bytes) (index : Int)
  | arListLrem (key : Bytes) (count : Int) (elem : Bytes)
  | arListLtrim (key : Bytes) (start stop : Int)
  -- sorted sets
  | arZsetZadd (key : Bytes) (ns : List ArZNode)
  | arZsetZcard (key : Bytes)
  | arZsetGet (key : Bytes)
  | arZsetZscore (key member : Bytes)
  | arZsetZrem (key : Bytes) (members : List Bytes)
  -- layout
  | arCoreSetLayout (want : ArLayoutKind)
  | arCoreAdaptLayout
  -- knobs
  | arCoreSetMaxmemory (bytes : Nat)
  | arCoreSetEvict (kernel : EvictKernel)
  | arCoreLoadEvictPlugin (kernel : EvictKernel)
  | arCoreSetEvictSamples (n : Int)
  | arCoreSetHotSoftCapPct (pct : Int)
  | arCoreSetHotSoftCapMin (n : Int)
  | arCoreSetHotPromoteOnGet (on : Bool)

namespace ArOp

/-- The answer of a call. -/
abbrev Ans : ArOp → Type
  | find _ => Option (ArType × Nat)
  | arExistsBin _ | arDelBin _ | arCorePin _ | arCoreUnpin _ => Bool
  | arExpire _ _ | arPexpire _ _ | arExpireat _ _ | arPexpireat _ _ => Bool
  | arRename _ _ _ | arTtl _ | arPttl _ => Int
  | arDbsize | arCoreActiveExpire _ => Nat
  | arScan _ _ _ => List Bytes × Nat
  | arKeys _ => List Bytes
  | arEntrySetEx _ _ _ | arSetBinEx _ _ _ | arSetBinPx _ _ _ => Bool
  | getPtr _ => Typed Bytes
  | arStrlen _ | arAppend _ _ => Typed Nat
  | arIncr _ _ => Option Int
  | arHashHset _ _ | arHashHdel _ _ | arHashHlen _ => Typed Nat
  | arHashHget _ _ => Typed Bytes
  | arHashHexists _ _ => Typed Bool
  | arHashHincrby _ _ _ => ArCore.HincrResult
  | hashGet _ => Typed ArHash
  | hgetall _ => Typed (List (Bytes × Bytes))
  | arHscan _ _ _ _ => Typed (List Bytes × Nat)
  | arListPush _ _ _ | arListLlen _ => Typed Nat
  | arListPop _ _ | arListLindex _ _ => Typed Bytes
  | arListGet _ => Typed (List Bytes)
  | arListLrem _ _ _ => Typed Int
  | arListLtrim _ _ _ => Typed Unit
  | arZsetZadd _ _ => ArCore.ZaddResult
  | arZsetZcard _ | arZsetZrem _ _ => Typed Nat
  | arZsetGet _ => Typed (List ArZNode)
  | arZsetZscore _ _ => Typed CDouble
  | arCoreSetLayout _ | arCoreAdaptLayout => Bool
  | _ => Unit

/-- The call. -/
def run (E : Env) (c : ArCore) : (op : ArOp) → ArCore × op.Ans
  | tally ops sets => (c.count fun s => { s with ops := s.ops + ops, sets := s.sets + sets }, ())
  | find key =>
    let f := c.arFindEntryEx E key
    (f.1, f.2.map fun r => (r.e.obj.type, r.e.expireAt))
  | arExistsBin key => c.arExistsBin E key
  | arDelBin key => c.arDelBin E key
  | arRename key newkey nx => c.arRename E key newkey nx
  | arExpire key seconds => c.arExpire E key seconds
  | arPexpire key ms => c.arPexpire E key ms
  | arExpireat key unixSec => c.arExpireat E key unixSec
  | arPexpireat key unixMs => c.arPexpireat E key unixMs
  | arTtl key => c.arTtl E key
  | arPttl key => c.arPttl E key
  | arCorePin key => c.arCorePin E key
  | arCoreUnpin key => c.arCoreUnpin E key
  | arFlushdb => (c.arFlushdb, ())
  | arDbsize => c.arDbsize E
  | arScan cursor pat count => c.arScan E cursor pat count
  | arKeys pat => c.arKeys E pat
  | arCoreActiveExpire effort => c.arCoreActiveExpire E effort
  | arEntrySetEx key val expireAt => c.arEntrySetEx E key val expireAt
  | arSetBinEx key val expireSec => c.arSetBinEx E key val expireSec
  | arSetBinPx key val expireMs => c.arSetBinPx E key val expireMs
  | getPtr key => c.getPtr E key
  | arStrlen key => c.arStrlen E key
  | arAppend key val => c.arAppend E key val
  | arIncr key delta => c.arIncr E key delta
  | arHashHset key pairs => c.arHashHset E key pairs
  | arHashHget key field => c.arHashHget E key field
  | arHashHdel key fields => c.arHashHdel E key fields
  | arHashHexists key field => c.arHashHexists E key field
  | arHashHlen key => c.arHashHlen E key
  | arHashHincrby key field incr => c.arHashHincrby E key field incr
  | hashGet key => c.readHash E key id
  | hgetall key => c.hgetall E key
  | arHscan key cursor pat count => c.arHscan E key cursor pat count
  | arListPush key left vals => c.arListPush E key left vals
  | arListPop key left => c.arListPop E key left
  | arListLlen key => c.arListLlen E key
  | arListGet key => c.arListGet E key
  | arListLindex key index => c.arListLindex E key index
  | arListLrem key count elem => c.arListLrem E key count elem
  | arListLtrim key start stop => c.arListLtrim E key start stop
  | arZsetZadd key ns => c.arZsetZadd E key ns
  | arZsetZcard key => c.arZsetZcard E key
  | arZsetGet key => c.readZset E key ArZSet.arr
  | arZsetZscore key member => c.arZsetZscore E key member
  | arZsetZrem key members => c.arZsetZrem E key members
  | arCoreSetLayout want => c.arCoreSetLayout E want
  | arCoreAdaptLayout => c.arCoreAdaptLayout E
  | arCoreSetMaxmemory bytes => (c.arCoreSetMaxmemory E bytes, ())
  | arCoreSetEvict kernel => (c.arCoreSetEvict kernel, ())
  | arCoreLoadEvictPlugin kernel => (c.arCoreLoadEvictPlugin E kernel, ())
  | arCoreSetEvictSamples n => (c.arCoreSetEvictSamples n, ())
  | arCoreSetHotSoftCapPct pct => (c.arCoreSetHotSoftCapPct E pct, ())
  | arCoreSetHotSoftCapMin n => (c.arCoreSetHotSoftCapMin E n, ())
  | arCoreSetHotPromoteOnGet on => (c.arCoreSetHotPromoteOnGet on, ())

end ArOp

/-! ## What the calls mean -/

/-- The pairs are the fields of a hash, each once, in some order. -/
def Lists (m : FieldMap) (l : List (Bytes × Bytes)) : Prop :=
  (↑(l.map Prod.toSigma) : Multiset _) = m.entries

namespace Spec

/-- Type and deadline. -/
def find (s : Option Slot) : Option Slot × Option (ArType × Nat) :=
  (s, s.map fun s => (match s.1 with
    | .string _ => .string
    | .hash _ => .hash
    | .list _ => .list
    | .zset _ => .zset, s.2))

/-- What `HGETALL` may answer. -/
def HgetallAnswers : Option Slot → Typed (List (Bytes × Bytes)) → Prop
  | none, a => a = .missing
  | some (.hash m, _), a => ∃ l, a = .found l ∧ Lists m l
  | some _, a => a = .wrongType

end Spec

namespace ArOp

/-- **What a call at time `t` makes of a map, and what it answers.** The answers of the walks over the
table and of `HSCAN`, and whether there was anything to unpin or to migrate, are no matter of the map. -/
def Means (t : Nat) (s : Store) : (op : ArOp) → Store × op.Ans → Prop
  | find key, x => x = s.step t key Spec.find
  | arExistsBin key, x => x = s.step t key Spec.exist
  | arDelBin key, x => x = s.step t key Spec.del
  | arRename key newkey nx, x => x = Spec.rename key newkey nx s
  | arExpire key n, x => x = s.step t key (Spec.expire n ((t + uint64 n * 1000) % 2 ^ 64))
  | arPexpire key n, x => x = s.step t key (Spec.expire n ((t + uint64 n) % 2 ^ 64))
  | arExpireat key n, x => x = s.step t key (Spec.expire n (uint64 n * 1000 % 2 ^ 64))
  | arPexpireat key n, x => x = s.step t key (Spec.expire n (uint64 n))
  | arTtl key, x =>
    x = s.step t key (Spec.ttl t fun at_ now => int64 ((at_ - now + 999) % 2 ^ 64 / 1000))
  | arPttl key, x => x = s.step t key (Spec.ttl t fun at_ now => int64 (at_ - now))
  | arCorePin key, x => x = s.step t key Spec.exist
  | arFlushdb, x => x = Spec.flush s
  | arEntrySetEx key val expireAt, x => x = s.step t key (Spec.set val expireAt)
  | arSetBinEx key val n, x =>
    x = s.step t key (Spec.set val (if n > 0 then (t + uint64 n * 1000) % 2 ^ 64 else 0))
  | arSetBinPx key val n, x =>
    x = s.step t key (Spec.set val (if n > 0 then (t + uint64 n) % 2 ^ 64 else 0))
  | getPtr key, x => x = s.step t key Spec.get
  | arStrlen key, x => x = s.step t key Spec.strlen
  | arAppend key val, x => x = s.step t key (Spec.append val)
  | arIncr key delta, x => x = s.step t key (Spec.incr delta)
  | arHashHset key pairs, x => x = s.step t key (Spec.hset pairs)
  | arHashHget key field, x => x = s.step t key (Spec.hget field)
  | arHashHdel key fields, x => x = s.step t key (Spec.hdel fields)
  | arHashHexists key field, x => x = s.step t key (Spec.hexists field)
  | arHashHlen key, x => x = s.step t key Spec.hlen
  | arHashHincrby key field incr, x => x = s.step t key (Spec.hincrby field incr)
  | hgetall key, x => x.1 = s ∧ Spec.HgetallAnswers (s key) x.2
  | arListPush key left vals, x => x = s.step t key (Spec.push left vals)
  | arListPop key left, x => x = s.step t key (Spec.pop left)
  | arListLlen key, x => x = s.step t key Spec.llen
  | arListGet key, x => x = s.step t key Spec.lget
  | arListLindex key index, x => x = s.step t key (Spec.lindex index)
  | arListLrem key count elem, x => x = s.step t key (Spec.lrem count elem)
  | arListLtrim key start stop, x => x = s.step t key (Spec.ltrim start stop)
  | arZsetZadd key ns, x => x = s.step t key (Spec.zadd ns)
  | arZsetZcard key, x => x = s.step t key Spec.zcard
  | arZsetGet key, x => x = s.step t key Spec.zget
  | arZsetZscore key member, x => x = s.step t key (Spec.zscore member)
  | arZsetZrem key members, x => x = s.step t key (Spec.zrem members)
  | tally _ _, x | arCoreUnpin _, x | arDbsize, x | arScan _ _ _, x | arKeys _, x => x.1 = s
  | hashGet _, x | arCoreActiveExpire _, x | arHscan _ _ _ _, x | arCoreSetLayout _, x | arCoreAdaptLayout, x => x.1 = s
  | arCoreSetMaxmemory _, x | arCoreSetEvict _, x | arCoreLoadEvictPlugin _, x => x.1 = s
  | arCoreSetEvictSamples _, x | arCoreSetHotSoftCapPct _, x | arCoreSetHotSoftCapMin _, x => x.1 = s
  | arCoreSetHotPromoteOnGet _, x => x.1 = s

/-- The calls that change the configuration. -/
def isKnob : ArOp → Bool
  | arCoreSetMaxmemory _ | arCoreSetEvict _ | arCoreLoadEvictPlugin _ | arCoreSetEvictSamples _ => true
  | arCoreSetHotSoftCapPct _ | arCoreSetHotSoftCapMin _ | arCoreSetHotPromoteOnGet _ => true
  | _ => false

/-- The calls that choose a kernel. -/
def setsKernel : ArOp → Bool
  | arCoreSetEvict _ | arCoreLoadEvictPlugin _ => true
  | _ => false

end ArOp

/-! ## Runs -/

/-- A call and what it reads from outside, at time `t`. -/
structure Call where
  E : Env
  t : Nat
  op : ArOp
  /-- There is one clock value for the call. -/
  frozen : E.Frozen t

namespace ArCore

/-- The calls one after the other. -/
def runCalls (c : ArCore) : List Call → ArCore
  | [] => c
  | x :: xs => runCalls (x.op.run x.E c).1 xs

/-- What holds of each call and the core it is made on. -/
def Each (P : ArCore → Call → Prop) (c : ArCore) : List Call → Prop
  | [] => True
  | x :: xs => P c x ∧ Each P (x.op.run x.E c).1 xs

/-- Their answers. -/
def answers (c : ArCore) : List Call → List ((op : ArOp) × op.Ans)
  | [] => []
  | x :: xs => ⟨x.op, (x.op.run x.E c).2⟩ :: answers (x.op.run x.E c).1 xs

/-- The cores there are. -/
inductive Reachable : ArCore → Prop
  | create : Reachable arCoreCreate
  | call {c : ArCore} (x : Call) : Reachable c → Reachable (x.op.run x.E c).1

end ArCore

/-- The calls one after the other on a map, at times that do not decrease from `t` on. -/
inductive Store.Run : Nat → Store → List Call → List ((op : ArOp) × op.Ans) → Nat → Store → Prop
  | nil (t : Nat) (s : Store) : Run t s [] [] t s
  | cons {t t' : Nat} {s s₁ s' : Store} {x : Call} {a : x.op.Ans} {xs : List Call}
      {as : List ((op : ArOp) × op.Ans)} : t ≤ x.t → x.op.Means x.t (s.at_ x.t) (s₁, a) →
      Run x.t s₁ xs as t' s' → Run t s (x :: xs) (⟨x.op, a⟩ :: as) t' s'

end AuraRedis
