import AuraRedis.Core.Typed
import Mathlib.Data.Finmap

/-!
# The key space as a map

What the core is for: a finite map from keys to slots, a value with its deadline. `ArCore.view t c` is the
map the core `c` stands for at time `t`, and `Spec` gives the meaning of each operation on the slot of
its key: what the slot becomes, and the answer.
-/

set_option autoImplicit false

namespace AuraRedis

/-- A deadline has passed. -/
def Due (t at_ : Nat) : Prop := at_ ≠ 0 ∧ at_ ≤ t

instance (t at_ : Nat) : Decidable (Due t at_) := inferInstanceAs (Decidable (_ ∧ _))

/-- The fields of a hash and their values. -/
abbrev FieldMap := Finmap fun _ : Bytes => Bytes

def ArHash.fields (h : ArHash) : FieldMap := (h.buckets.flatten.map Prod.toSigma).toFinmap

/-- A value. -/
inductive AVal where
  | string (val : Bytes)
  | hash (m : FieldMap)
  | list (l : List Bytes)
  | zset (arr : List ArZNode)
  deriving DecidableEq

def ArObj.abs : ArObj → AVal
  | string val => .string val
  | hash h => .hash h.fields
  | list l => .list l
  | zset z => .zset z.arr

/-- A value and its deadline. -/
abbrev Slot := AVal × Nat

abbrev Store := Bytes → Option Slot

def Item.slot (i : Item) : Slot := (i.obj.abs, i.expireAt)

/-- The item of a key, unless it is due. -/
def ArCore.peek (t : Nat) (c : ArCore) (key : Bytes) : Option Item :=
  (c.dict.linked.find? fun e => e.key == key && !decide (Due t e.expireAt)).map (·.toItem)

/-- **The map a core stands for.** -/
def ArCore.view (t : Nat) (c : ArCore) : Store := fun key => (c.peek t key).map Item.slot

namespace Store

/-- What is left of a slot at a time. -/
def alive (t : Nat) (s : Option Slot) : Option Slot := s.filter fun s => !decide (Due t s.2)

/-- What is left of a store. -/
def at_ (t : Nat) (s : Store) : Store := fun key => alive t (s key)

/-- One slot changes. -/
def step {β : Type} (t : Nat) (key : Bytes) (f : Option Slot → Option Slot × β) (s : Store) :
    Store × β :=
  (Function.update s key (alive t (f (s key)).1), (f (s key)).2)

end Store

namespace Spec

open ArCore (Typed)

/-! ## Any value -/

def set (val : Bytes) (deadline : Nat) (_ : Option Slot) : Option Slot × Bool :=
  (some (.string val, deadline), true)

def exist (s : Option Slot) : Option Slot × Bool := (s, s.isSome)

/-- The deadline of a key, `0` when there is none. -/
def deadline (s : Option Slot) : Option Slot × Nat := (s, (s.map (·.2)).getD 0)

def del (s : Option Slot) : Option Slot × Bool := (none, s.isSome)

def expire (n : Int) (deadline : Nat) : Option Slot → Option Slot × Bool
  | none => (none, false)
  | some (v, _) => (some (v, if n ≤ 0 then 0 else deadline), true)

def ttl (t : Nat) (left : Nat → Nat → Int) (s : Option Slot) : Option Slot × Int :=
  (s, match s with
    | none => -2
    | some (_, 0) => -1
    | some (_, at_) => left at_ t)

/-! ## Strings -/

def get (s : Option Slot) : Option Slot × Typed Bytes :=
  (s, match s with
    | none => .missing
    | some (.string val, _) => .found val
    | some _ => .wrongType)

def strlen (s : Option Slot) : Option Slot × Typed Nat :=
  (s, match s with
    | none => .missing
    | some (.string val, _) => .found val.length
    | some _ => .wrongType)

def append (val : Bytes) : Option Slot → Option Slot × Typed Nat
  | none => (some (.string val, 0), .found val.length)
  | some (.string old, d) => (some (.string (old ++ val), d), .found (old.length + val.length))
  | some s => (some s, .wrongType)

/-- The integer a slot stands for, and the deadline it keeps. -/
def integer : Option Slot → Option (Int × Nat)
  | none => some (0, 0)
  | some (.string val, d) => (ArCore.parseInteger val).map fun v => (v, d)
  | some _ => none

def incr (delta : Int) (s : Option Slot) : Option Slot × Option Int :=
  match integer s with
  | none => (s, none)
  | some (v, d) => (some (.string (Decimal.ofInt (int64 (v + delta))), d), some (int64 (v + delta)))

/-! ## Hashes -/

/-- A read of a hash. -/
def readHash {α : Type} (f : FieldMap → Typed α) (s : Option Slot) : Option Slot × Typed α :=
  (s, match s with
    | none => .missing
    | some (.hash m, _) => f m
    | some _ => .wrongType)

/-- The pairs of `HSET` one after the other, and how many fields are new. -/
def hsetPairs : List (Bytes × Bytes) → FieldMap → Nat → FieldMap × Nat
  | [], m, added => (m, added)
  | (field, val) :: pairs, m, added =>
    hsetPairs pairs (m.insert field val) (if (m.lookup field).isNone then added + 1 else added)

/-- A write to a container that is created when it is missing. -/
def orCreate {β : Type} (empty : AVal) (s : Option Slot) (f : AVal → Nat → Option Slot × β) :
    Option Slot × β :=
  match s with
  | none => f empty 0
  | some (v, d) => f v d

def hset (pairs : List (Bytes × Bytes)) (s : Option Slot) : Option Slot × Typed Nat :=
  if pairs.isEmpty then (s, .found 0)
  else orCreate (.hash ∅) s fun v d =>
    match v with
    | .hash m => (some (.hash (hsetPairs pairs m 0).1, d), .found (hsetPairs pairs m 0).2)
    | v => (some (v, d), .wrongType)

def hget (field : Bytes) : Option Slot → Option Slot × Typed Bytes :=
  readHash fun m => ((m.lookup field).map .found).getD .missing

def hdelFields : List Bytes → FieldMap → Nat → FieldMap × Nat
  | [], m, removed => (m, removed)
  | field :: fields, m, removed =>
    hdelFields fields (m.erase field) (if (m.lookup field).isNone then removed else removed + 1)

/-- A hash without fields is no key. -/
def hdel (fields : List Bytes) (s : Option Slot) : Option Slot × Typed Nat :=
  match s with
  | none => (s, .missing)
  | some (.hash m, d) =>
    let x := hdelFields fields m 0
    (if x.1.entries.card = 0 then none else some (.hash x.1, d), .found x.2)
  | some _ => (s, .wrongType)

def hexists (field : Bytes) : Option Slot → Option Slot × Typed Bool :=
  readHash fun m => .found (m.lookup field).isSome

def hlen : Option Slot → Option Slot × Typed Nat := readHash fun m => .found m.entries.card

def hincrby (field : Bytes) (incr : Int) (s : Option Slot) : Option Slot × ArCore.HincrResult :=
  orCreate (.hash ∅) s fun v d =>
    match v with
    | .hash m =>
      match (m.lookup field).elim (some 0) ArCore.parseInteger with
      | none => (some (.hash m, d), .notInt)
      | some v => (some (.hash (m.insert field (Decimal.ofInt (int64 (v + incr)))), d),
          .value (int64 (v + incr)))
    | v => (some (v, d), .wrongType)

/-! ## Lists -/

def readList {α : Type} (f : List Bytes → Typed α) (s : Option Slot) : Option Slot × Typed α :=
  (s, match s with
    | none => .missing
    | some (.list l, _) => f l
    | some _ => .wrongType)

def llen : Option Slot → Option Slot × Typed Nat := readList fun l => .found l.length

def lget : Option Slot → Option Slot × Typed (List Bytes) := readList .found

def lindex (index : Int) : Option Slot → Option Slot × Typed Bytes :=
  readList fun l => ((ArCore.listIndex l index).map .found).getD .missing

def pushVals (left : Bool) (vals l : List Bytes) : List Bytes :=
  if left then vals.reverse ++ l else l ++ vals

def push (left : Bool) (vals : List Bytes) (s : Option Slot) : Option Slot × Typed Nat :=
  if vals.isEmpty then (s, .found 0)
  else orCreate (.list []) s fun v d =>
    match v with
    | .list l => (some (.list (pushVals left vals l), d), .found (pushVals left vals l).length)
    | v => (some (v, d), .wrongType)

/-- A list without elements is no key. -/
def orNone (l : List Bytes) (d : Nat) : Option Slot := if l.isEmpty then none else some (.list l, d)

def pop (left : Bool) (s : Option Slot) : Option Slot × Typed Bytes :=
  match s with
  | none => (s, .missing)
  | some (.list l, d) =>
    match if left then l.head? else l.getLast? with
    | none => (s, .missing)
    | some out => (orNone (if left then l.tail else l.dropLast) d, .found out)
  | some _ => (s, .wrongType)

def lrem (count : Int) (elem : Bytes) (s : Option Slot) : Option Slot × Typed Int :=
  match s with
  | none => (s, .missing)
  | some (.list l, d) =>
    (orNone (ArCore.lremList l count elem).1 d, .found (ArCore.lremList l count elem).2)
  | some _ => (s, .wrongType)

def ltrim (start stop : Int) (s : Option Slot) : Option Slot × Typed Unit :=
  match s with
  | none => (s, .missing)
  | some (.list l, d) =>
    (match ArCore.trimWindow l.length start stop with
      | none => none
      | some (from_, keep) => orNone ((l.drop from_).take keep) d, .found ())
  | some _ => (s, .wrongType)

/-! ## Sorted sets -/

def readZset {α : Type} (f : List ArZNode → Typed α) (s : Option Slot) : Option Slot × Typed α :=
  (s, match s with
    | none => .missing
    | some (.zset arr, _) => f arr
    | some _ => .wrongType)

def member? (arr : List ArZNode) (member : Bytes) : Option ArZNode := arr.find? (·.member == member)

/-- The pairs of `ZADD` one after the other, and how many members are new. -/
def zaddNodes : List ArZNode → List ArZNode → Nat → List ArZNode × Nat
  | [], arr, added => (arr, added)
  | n :: ns, arr, added =>
    zaddNodes ns (ArZSet.insertNode n (arr.eraseP (·.member == n.member)))
      (added + if (member? arr n.member).isNone then 1 else 0)

def zadd (ns : List ArZNode) (s : Option Slot) : Option Slot × ArCore.ZaddResult :=
  if ns.isEmpty then (s, .added 0)
  else orCreate (.zset []) s fun v d =>
    match v with
    | .zset arr =>
      let new := ns.countP fun n => (member? arr n.member).isNone
      if new > 0 ∧ arr.length + new > ArCore.zsetMaxMembers then (some (.zset arr, d), .oversize)
      else (some (.zset (zaddNodes ns arr 0).1, d), .added (zaddNodes ns arr 0).2)
    | v => (some (v, d), .wrongType)

def zcard : Option Slot → Option Slot × Typed Nat := readZset fun arr => .found arr.length

def zget : Option Slot → Option Slot × Typed (List ArZNode) := readZset .found

def zscore (member : Bytes) : Option Slot → Option Slot × Typed CDouble :=
  readZset fun arr => ((member? arr member).map fun n => .found n.score).getD .missing

def zremMembers : List Bytes → List ArZNode → Nat → List ArZNode × Nat
  | [], arr, removed => (arr, removed)
  | member :: members, arr, removed =>
    zremMembers members (arr.eraseP (·.member == member))
      (if (member? arr member).isNone then removed else removed + 1)

def zrem (members : List Bytes) (s : Option Slot) : Option Slot × Typed Nat :=
  match s with
  | none => (s, .missing)
  | some (.zset arr, d) =>
    let x := zremMembers members arr 0
    (if x.1.isEmpty then none else some (.zset x.1, d), .found x.2)
  | some _ => (s, .wrongType)

/-! ## Two keys, and all of them -/

/-- `RENAME`: what the key has moves to the other name. -/
def rename (key newkey : Bytes) (nx : Bool) (s : Store) : Store × Int :=
  match s key with
  | none => (s, 0)
  | some slot =>
    if key = newkey then (s, 1)
    else if (s newkey).isSome && nx then (s, 2)
    else (Function.update (Function.update s key none) newkey (some slot), 1)

/-- `FLUSHDB`. -/
def flush (_ : Store) : Store × Unit := (fun _ => none, ())

end Spec

end AuraRedis
