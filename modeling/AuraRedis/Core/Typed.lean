import AuraRedis.Core.Strings

/-!
# Hashes, lists and sorted sets

The operations of `ar_types.c` that the server calls. The element loops are functions of the container
alone and of the allocator; the operation then writes the container back through the entry and does
the accounting.
-/

set_option autoImplicit false

namespace AuraRedis

/-! ## Fields of a hash -/

namespace ArHash

/-- The chain of a field, by `ar_fnv_hash`. -/
def fieldSlot (n : Nat) (f : Bytes × Bytes) : Nat := arFnvHash f.1 &&& (n - 1)

def fieldEq (field : Bytes) (f : Bytes × Bytes) : Bool := f.1 == field

/-- `hash_find`. -/
def find (h : ArHash) (field : Bytes) : Option Bytes :=
  (h.buckets.find (arFnvHash field &&& (h.buckets.length - 1)) (fieldEq field)).map (·.2)

/-- Write the value of a field that exists. -/
def setVal (h : ArHash) (field val : Bytes) : ArHash :=
  { h with buckets := h.buckets.update fun f => if fieldEq field f then (f.1, val) else f }

/-- Link a new field. -/
def link (h : ArHash) (field val : Bytes) : ArHash :=
  { buckets := h.buckets.push (arFnvHash field &&& (h.buckets.length - 1)) (field, val)
    nfields := h.nfields + 1 }

/-- Unlink a field. -/
def unlink (h : ArHash) (field : Bytes) : ArHash :=
  { buckets := h.buckets.remove (arFnvHash field &&& (h.buckets.length - 1)) (fieldEq field)
    nfields := h.nfields - 1 }

end ArHash

/-! ## Nodes of a sorted set -/

/-- `memcmp` on the common length, then the lengths. -/
def memcmp (a b : Bytes) : Ordering := if a < b then .lt else if b < a then .gt else .eq

/-- `zcmp`. -/
def zcmp (a b : ArZNode) : Ordering :=
  if a.score.lt b.score then .lt
  else if b.score.lt a.score then .gt
  else memcmp a.member b.member

namespace ArZSet

/-- `zfind_member`. -/
def find (z : ArZSet) (member : Bytes) : Option ArZNode := z.arr.find? (·.member == member)

/-- Take out a member. -/
def remove (z : ArZSet) (member : Bytes) : ArZSet :=
  { z with arr := z.arr.eraseP (·.member == member) }

/-- Take out a member that may not be there. -/
def without (z : ArZSet) (member : Bytes) : ArZSet :=
  match z.find member with
  | some _ => z.remove member
  | none => z

/-- Put a node before the first one that does not come before it. -/
def insertNode (n : ArZNode) : List ArZNode → List ArZNode
  | [] => [n]
  | x :: arr => if zcmp x n = .lt then x :: insertNode n arr else n :: x :: arr

/-- `while (nc < need) nc *= 2`. -/
def growCap (need : Nat) : Nat → Nat → Nat
  | 0, nc => nc
  | fuel + 1, nc => if nc < need then growCap need fuel (nc * 2) else nc

end ArZSet

namespace ArCore

section
variable (E : Env)

/-! ## Typed entries -/

/-- `ar_entry_get_typed`. -/
def arEntryGetTyped (c : ArCore) (key : Bytes) (want : ArType) : ArCore × Typed Ref :=
  let f := c.arFindEntryEx E key
  match f.2 with
  | none => (f.1, .missing)
  | some r => (f.1, if r.e.obj.type = want then .found r else .wrongType)

/-- The empty container of a type, and whether there was memory for it. -/
def emptyObj (c : ArCore) (type : ArType) : ArCore × Option ArObj :=
  match type with
  | .string => (c, some (.string []))
  | .hash =>
    let h := c.malloc E
    if !h.2 then (h.1, none)
    else
      let b := h.1.malloc E
      (b.1, if b.2 then some (.hash ⟨List.replicate 16 [], 0⟩) else none)
  | .list =>
    let l := c.malloc E
    (l.1, if l.2 then some (.list []) else none)
  | .zset =>
    let z := c.malloc E
    (z.1, if z.2 then some (.zset ⟨[], 0⟩) else none)

/-- `ar_entry_get_or_create`. The entry it creates may be evicted before it is returned. -/
def arEntryGetOrCreate (c : ArCore) (key : Bytes) (type : ArType) : ArCore × Typed Ref :=
  let f := c.arFindEntryEx E key
  match f.2 with
  | some r => (f.1, if r.e.obj.type = type then .found r else .wrongType)
  | none =>
    let x := f.1.malloc E
    if !x.2 then (x.1, .missing)
    else
      let k := x.1.malloc E
      if !k.2 then (k.1, .missing)
      else
        let o := k.1.emptyObj E type
        match o.2 with
        | none => (o.1.count fun s => { s with clock := s.clock + 1 }, .missing)
        | some obj =>
          let b := arFnvHash key &&& (o.1.dict.hot.length - 1)
          let c := o.1.linkNew b key obj
          let c := c.onSet key
          let c := c.arRehashIfNeeded E
          let c := c.arMaybeEvictPub E
          let g := c.arFindEntryEx E key
          match g.2 with
          | none => (g.1, .missing)
          | some r => (g.1, .found r)

/-- The end of a write to a container: its new contents, the accounting, an access, room for it. -/
def writeBack (c : ArCore) (r : Ref) (obj : ArObj) : ArCore :=
  let old := r.e.obj.payloadBytes
  let new := obj.payloadBytes
  let stats := if new ≥ old then c.stats.noteBigkey obj.type new else c.stats
  let now := stats.clock + 1
  let c := { c with mem := c.mem.resize obj.type old new, stats := { stats with clock := now } }
  let c := c.updEntry r.e.key fun e => { e with obj := obj, lastAccess := now }
  (c.arMaybeEvictPub E).arWatchTouch r.e.key

/-- Contents that shrank, and the accounting. -/
def shrinkBack (c : ArCore) (r : Ref) (obj : ArObj) : ArCore :=
  { c with mem := c.mem.shrink obj.type r.e.obj.payloadBytes obj.payloadBytes }.updEntry r.e.key
    fun e => { e with obj := obj }

/-! ## HASH -/

/-- `hash_maybe_rehash`. -/
def hashMaybeRehash (c : ArCore) (h : ArHash) : ArCore × ArHash :=
  if h.nfields ≤ h.buckets.length then (c, h)
  else
    let x := c.malloc E
    (x.1, if x.2 then
      { h with buckets := h.buckets.rehash ArHash.fieldSlot (h.buckets.length * 2) } else h)

/-- One pair of `ar_hash_hset`; `true` when the field is new. -/
def hsetField (c : ArCore) (h : ArHash) (field val : Bytes) : ArCore × ArHash × Bool :=
  match h.find field with
  | some _ =>
    let v := c.malloc E
    (v.1, if v.2 then h.setVal field val else h, false)
  | none =>
    let x := c.malloc E
    if !x.2 then (x.1, h, false)
    else
      let f := x.1.malloc E
      let v := f.1.malloc E
      if !f.2 || !v.2 then (v.1, h, false)
      else
        let y := v.1.hashMaybeRehash E (h.link field val)
        (y.1, y.2, true)

/-- The loop of `ar_hash_hset`, and how many fields are new. -/
def hsetFields : List (Bytes × Bytes) → ArCore → ArHash → Nat → ArCore × ArHash × Nat
  | [], c, h, added => (c, h, added)
  | (field, val) :: pairs, c, h, added =>
    let x := c.hsetField E h field val
    hsetFields pairs x.1 x.2.1 (if x.2.2 then added + 1 else added)

/-- `ar_hash_hset`. -/
def arHashHset (c : ArCore) (key : Bytes) (pairs : List (Bytes × Bytes)) : ArCore × Typed Nat :=
  if pairs.isEmpty then (c, .found 0)
  else
    let g := c.arEntryGetOrCreate E key .hash
    match g.2 with
    | .missing => (g.1, .missing)
    | .wrongType => (g.1, .wrongType)
    | .found r =>
      match r.e.obj with
      | .hash h =>
        let x := hsetFields E pairs g.1 h 0
        (x.1.writeBack E r (.hash x.2.1), .found x.2.2)
      | _ => (g.1, .wrongType)

/-- `ar_hash_hget`. -/
def arHashHget (c : ArCore) (key field : Bytes) : ArCore × Typed Bytes :=
  let g := c.arEntryGetTyped E key .hash
  match g.2 with
  | .missing => (g.1, .missing)
  | .wrongType => (g.1, .wrongType)
  | .found r =>
    match r.e.obj with
    | .hash h =>
      match h.find field with
      | none => (g.1, .missing)
      | some val =>
        let x := g.1.malloc E
        (x.1, if x.2 then .found val else .missing)
    | _ => (g.1, .wrongType)

/-- The loop of `ar_hash_hdel`, and how many fields are gone. -/
def hdelFields : List Bytes → ArHash → Nat → ArHash × Nat
  | [], h, removed => (h, removed)
  | field :: fields, h, removed =>
    match h.find field with
    | none => hdelFields fields h removed
    | some _ => hdelFields fields (h.unlink field) (removed + 1)

/-- `ar_hash_hdel`. -/
def arHashHdel (c : ArCore) (key : Bytes) (fields : List Bytes) : ArCore × Typed Nat :=
  let g := c.arEntryGetTyped E key .hash
  match g.2 with
  | .missing => (g.1, .missing)
  | .wrongType => (g.1, .wrongType)
  | .found r =>
    match r.e.obj with
    | .hash h =>
      let x := hdelFields fields h 0
      let c := g.1.shrinkBack r (.hash x.1)
      if x.1.nfields = 0 then
        let f := c.arFindEntryEx E key
        match f.2 with
        | none => (f.1, .found x.2)
        | some r => (f.1.arEntryFreeEx r.bucket r.tier r.e, .found x.2)
      else if x.2 > 0 then (c.arWatchTouch key, .found x.2)
      else (c, .found x.2)
    | _ => (g.1, .wrongType)

/-- A read of a hash that needs no memory. -/
def readHash {α : Type} (c : ArCore) (key : Bytes) (f : ArHash → α) : ArCore × Typed α :=
  let g := c.arEntryGetTyped E key .hash
  match g.2 with
  | .missing => (g.1, .missing)
  | .wrongType => (g.1, .wrongType)
  | .found r =>
    match r.e.obj with
    | .hash h => (g.1, .found (f h))
    | _ => (g.1, .wrongType)

/-- `ar_hash_hexists`. -/
def arHashHexists (c : ArCore) (key field : Bytes) : ArCore × Typed Bool :=
  c.readHash E key fun h => (h.find field).isSome

/-- `ar_hash_hlen`. -/
def arHashHlen (c : ArCore) (key : Bytes) : ArCore × Typed Nat :=
  c.readHash E key fun h => h.nfields

/-- What `ar_hash_hincrby` answers; without memory it answers `0` and no flag. -/
inductive HincrResult where
  | value (v : Int)
  | wrongType
  | notInt
  deriving DecidableEq

/-- `ar_hash_hincrby`, on the hash: the old number and the hash that has the field; `none` when there
is no memory for the field. -/
def hincrField (c : ArCore) (h : ArHash) (field : Bytes) : ArCore × Option (ArHash × Option Int) :=
  match h.find field with
  | some val => (c, some (h, parseInteger val))
  | none =>
    let x := c.malloc E
    if !x.2 then (x.1, none)
    else
      let f := x.1.malloc E
      if !f.2 then (f.1, none)
      else
        -- the field's first value is a copy of "0" that is not checked
        let v := f.1.malloc E
        (v.1, some (h.link field (lit "0"), some 0))

/-- `ar_hash_hincrby`. -/
def arHashHincrby (c : ArCore) (key field : Bytes) (incr : Int) : ArCore × HincrResult :=
  let g := c.arEntryGetOrCreate E key .hash
  match g.2 with
  | .missing => (g.1, .value 0)
  | .wrongType => (g.1, .wrongType)
  | .found r =>
    match r.e.obj with
    | .hash h =>
      let x := g.1.hincrField E h field
      match x.2 with
      | none => (x.1, .value 0)
      | some (_, none) => (x.1, .notInt)
      | some (h', some v) =>
        let v := int64 (v + incr)
        let y := x.1.malloc E
        if !y.2 then
          -- the field stays linked; nothing is accounted and nobody is told
          (y.1.updEntry key fun e => { e with obj := .hash h' }, .value 0)
        else (y.1.writeBack E r (.hash (h'.setVal field (Decimal.ofInt v))), .value v)
    | _ => (g.1, .wrongType)

/-! ## LIST -/

/-- The loop of `ar_list_push`. -/
def pushVals (left : Bool) : List Bytes → ArCore → List Bytes → ArCore × List Bytes
  | [], c, l => (c, l)
  | val :: vals, c, l =>
    let n := c.malloc E
    if !n.2 then pushVals left vals n.1 l
    else
      let v := n.1.malloc E
      if !v.2 then pushVals left vals v.1 l
      else pushVals left vals v.1 (if left then val :: l else l ++ [val])

/-- `ar_list_push`: the length of the list, read after the eviction that may have released it. -/
def arListPush (c : ArCore) (key : Bytes) (left : Bool) (vals : List Bytes) : ArCore × Typed Nat :=
  if vals.isEmpty then (c, .found 0)
  else
    let g := c.arEntryGetOrCreate E key .list
    match g.2 with
    | .missing => (g.1, .missing)
    | .wrongType => (g.1, .wrongType)
    | .found r =>
      match r.e.obj with
      | .list l =>
        let x := pushVals E left vals g.1 l
        (x.1.writeBack E r (.list x.2), .found x.2.length)
      | _ => (g.1, .wrongType)

/-- `ar_list_pop`. -/
def arListPop (c : ArCore) (key : Bytes) (left : Bool) : ArCore × Typed Bytes :=
  let g := c.arEntryGetTyped E key .list
  match g.2 with
  | .missing => (g.1, .missing)
  | .wrongType => (g.1, .wrongType)
  | .found r =>
    match r.e.obj with
    | .list l =>
      match (if left then l.head? else l.getLast?) with
      | none => (g.1, .missing)
      | some out =>
        let l' := if left then l.tail else l.dropLast
        let c := g.1.shrinkBack r (.list l')
        if l'.isEmpty then
          (c.arEntryFreeEx r.bucket r.tier { r.e with obj := .list l' }, .found out)
        else (c.arWatchTouch key, .found out)
    | _ => (g.1, .wrongType)

/-- A read of a list that needs no memory: `ar_list_llen`, and what is read through
`ar_list_get`. -/
def readList {α : Type} (c : ArCore) (key : Bytes) (f : List Bytes → α) : ArCore × Typed α :=
  let g := c.arEntryGetTyped E key .list
  match g.2 with
  | .missing => (g.1, .missing)
  | .wrongType => (g.1, .wrongType)
  | .found r =>
    match r.e.obj with
    | .list l => (g.1, .found (f l))
    | _ => (g.1, .wrongType)

/-- `ar_list_llen`. -/
def arListLlen (c : ArCore) (key : Bytes) : ArCore × Typed Nat := c.readList E key List.length

/-- `ar_list_get`. -/
def arListGet (c : ArCore) (key : Bytes) : ArCore × Typed (List Bytes) := c.readList E key id

/-- The element at an index that may count from the end. -/
def listIndex (l : List Bytes) (index : Int) : Option Bytes :=
  let index := if index < 0 then l.length + index else index
  if index < 0 then none else l[index.toNat]?

/-- `ar_list_lindex`. -/
def arListLindex (c : ArCore) (key : Bytes) (index : Int) : ArCore × Typed Bytes :=
  let g := c.readList E key fun l => listIndex l index
  match g.2 with
  | .found (some val) =>
    let x := g.1.malloc E
    (x.1, if x.2 then .found val else .missing)
  | .found none => (g.1, .missing)
  | .missing => (g.1, .missing)
  | .wrongType => (g.1, .wrongType)

/-- The walk of `ar_list_lrem` over a list: `stop` says, after a removal, whether it was the last. -/
def lremWalk (elem : Bytes) (stop : Int → Bool) : List Bytes → Int → List Bytes × Int
  | [], removed => ([], removed)
  | v :: l, removed =>
    if v = elem then
      if stop (removed + 1) then (l, removed + 1) else lremWalk elem stop l (removed + 1)
    else
      let x := lremWalk elem stop l removed
      (v :: x.1, x.2)

/-- The walk from the head or from the tail. The negation of the least `int64_t` is itself. -/
def lremList (l : List Bytes) (count : Int) (elem : Bytes) : List Bytes × Int :=
  if count ≥ 0 then lremWalk elem (fun n => decide (count ≠ 0) && decide (n ≥ count)) l 0
  else
    let limit := int64 (-count)
    let x := lremWalk elem (fun n => decide (n ≥ limit)) l.reverse 0
    (x.1.reverse, x.2)

/-- `ar_list_lrem`. -/
def arListLrem (c : ArCore) (key : Bytes) (count : Int) (elem : Bytes) : ArCore × Typed Int :=
  let g := c.arEntryGetTyped E key .list
  match g.2 with
  | .missing => (g.1, .missing)
  | .wrongType => (g.1, .wrongType)
  | .found r =>
    match r.e.obj with
    | .list l =>
      let x := lremList l count elem
      if x.1.isEmpty then
        -- the entry is released with what is left of its list: the nodes are not accounted for
        let c := g.1.updEntry key fun e => { e with obj := .list x.1 }
        ((c.arEntryFreeEx r.bucket r.tier { r.e with obj := .list x.1 }).arWatchTouch key, .found x.2)
      else
        let c := g.1.shrinkBack r (.list x.1)
        let now := c.stats.clock + 1
        let c := (c.count fun s => { s with clock := now }).updEntry key fun e =>
          { e with lastAccess := now }
        (c.arWatchTouch key, .found x.2)
    | _ => (g.1, .wrongType)

/-- The window `LTRIM` keeps: where it starts and how long it is; `none` when it is empty. -/
def trimWindow (len start stop : Int) : Option (Nat × Nat) :=
  let start := if start < 0 then len + start else start
  let stop := if stop < 0 then len + stop else stop
  let start := if start < 0 then 0 else start
  let stop := if stop ≥ len then len - 1 else stop
  if start > stop ∨ start ≥ len ∨ len = 0 then none
  else some (start.toNat, (stop - start + 1).toNat)

/-- `ar_list_ltrim`; `missing` is its answer for a key that does not exist. -/
def arListLtrim (c : ArCore) (key : Bytes) (start stop : Int) : ArCore × Typed Unit :=
  let g := c.arEntryGetTyped E key .list
  match g.2 with
  | .missing => (g.1, .missing)
  | .wrongType => (g.1, .wrongType)
  | .found r =>
    match r.e.obj with
    | .list l =>
      match trimWindow l.length start stop with
      | none => ((g.1.arEntryFreeEx r.bucket r.tier r.e).arWatchTouch key, .found ())
      | some (from_, keep) =>
        let l' := (l.drop from_).take keep
        if l'.isEmpty then
          let c := g.1.updEntry key fun e => { e with obj := .list l' }
          ((c.arEntryFreeEx r.bucket r.tier { r.e with obj := .list l' }).arWatchTouch key, .found ())
        else
          let c := g.1.shrinkBack r (.list l')
          let now := c.stats.clock + 1
          let c := (c.count fun s => { s with clock := now }).updEntry key fun e =>
            { e with lastAccess := now }
          (c.arWatchTouch key, .found ())
    | _ => (g.1, .wrongType)

/-! ## ZSET -/

/-- `zensure_cap`; `false` when there is no memory. -/
def zensureCap (c : ArCore) (z : ArZSet) (need : Nat) : ArCore × ArZSet × Bool :=
  if z.cap ≥ need then (c, z, true)
  else
    let x := c.malloc E
    if !x.2 then (x.1, z, false)
    else (x.1, { z with cap := ArZSet.growCap need 64 (if z.cap ≠ 0 then z.cap * 2 else 8) }, true)

/-- One pair of `ar_zset_zadd`, and what it adds to the count. -/
def zaddMember (c : ArCore) (z : ArZSet) (n : ArZNode) : ArCore × ArZSet × Nat :=
  let old := z.find n.member
  let z := z.without n.member
  let x := c.zensureCap E z (z.arr.length + 1)
  if !x.2.2 then (x.1, z, if old.isNone then 1 else 0)
  else
    let m := x.1.malloc E
    if !m.2 then (m.1, x.2.1, 0)
    else
      (m.1, { x.2.1 with arr := ArZSet.insertNode n x.2.1.arr }, if old.isNone then 1 else 0)

/-- The loop of `ar_zset_zadd`. -/
def zaddMembers : List ArZNode → ArCore → ArZSet → Nat → ArCore × ArZSet × Nat
  | [], c, z, added => (c, z, added)
  | n :: ns, c, z, added =>
    let x := c.zaddMember E z n
    zaddMembers ns x.1 x.2.1 (added + x.2.2)

/-- What `ar_zset_zadd` answers. -/
inductive ZaddResult where
  | added (n : Nat)
  | noMemory
  | oversize
  | wrongType
  deriving DecidableEq

/-- `AR_ZSET_MAX_MEMBERS`. -/
def zsetMaxMembers : Nat := 4096

/-- `ar_zset_zadd`. -/
def arZsetZadd (c : ArCore) (key : Bytes) (ns : List ArZNode) : ArCore × ZaddResult :=
  if ns.isEmpty then (c, .added 0)
  else
    let g := c.arEntryGetOrCreate E key .zset
    match g.2 with
    | .missing => (g.1, .noMemory)
    | .wrongType => (g.1, .wrongType)
    | .found r =>
      match r.e.obj with
      | .zset z =>
        let newMembers := ns.countP fun n => (z.find n.member).isNone
        if newMembers > 0 ∧ z.arr.length + newMembers > zsetMaxMembers then (g.1, .oversize)
        else
          let x := zaddMembers E ns g.1 z 0
          (x.1.writeBack E r (.zset x.2.1), .added x.2.2)
      | _ => (g.1, .wrongType)

/-- A read of a sorted set that needs no memory: `ar_zset_zcard`, and what is read through
`ar_zset_get`. -/
def readZset {α : Type} (c : ArCore) (key : Bytes) (f : ArZSet → α) : ArCore × Typed α :=
  let g := c.arEntryGetTyped E key .zset
  match g.2 with
  | .missing => (g.1, .missing)
  | .wrongType => (g.1, .wrongType)
  | .found r =>
    match r.e.obj with
    | .zset z => (g.1, .found (f z))
    | _ => (g.1, .wrongType)

/-- `ar_zset_zcard`. -/
def arZsetZcard (c : ArCore) (key : Bytes) : ArCore × Typed Nat :=
  c.readZset E key fun z => z.arr.length

/-- `ar_zset_get`. -/
def arZsetGet (c : ArCore) (key : Bytes) : ArCore × Typed ArZSet := c.readZset E key id

/-- `ar_zset_zscore`: the score whose text it returns. -/
def arZsetZscore (c : ArCore) (key member : Bytes) : ArCore × Typed CDouble :=
  let g := c.readZset E key fun z => z.find member
  match g.2 with
  | .found (some n) =>
    let x := g.1.malloc E
    (x.1, if x.2 then .found n.score else .missing)
  | .found none => (g.1, .missing)
  | .missing => (g.1, .missing)
  | .wrongType => (g.1, .wrongType)

/-- The loop of `ar_zset_zrem`, and how many members are gone. -/
def zremMembers : List Bytes → ArZSet → Nat → ArZSet × Nat
  | [], z, removed => (z, removed)
  | member :: members, z, removed =>
    match z.find member with
    | none => zremMembers members z removed
    | some _ => zremMembers members (z.remove member) (removed + 1)

/-- `ar_zset_zrem`. -/
def arZsetZrem (c : ArCore) (key : Bytes) (members : List Bytes) : ArCore × Typed Nat :=
  let g := c.arEntryGetTyped E key .zset
  match g.2 with
  | .missing => (g.1, .missing)
  | .wrongType => (g.1, .wrongType)
  | .found r =>
    match r.e.obj with
    | .zset z =>
      let x := zremMembers members z 0
      let c := g.1.shrinkBack r (.zset x.1)
      if x.1.arr.isEmpty then
        (c.arEntryFreeEx r.bucket r.tier { r.e with obj := .zset x.1 }, .found x.2)
      else if x.2 > 0 then (c.arWatchTouch key, .found x.2)
      else (c, .found x.2)
    | _ => (g.1, .wrongType)

end

end ArCore

end AuraRedis
