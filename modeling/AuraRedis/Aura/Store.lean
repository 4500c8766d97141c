import AuraRedis.Aura.Resp
import Mathlib.Data.Finmap

/-!
# The store of the Aura server

The tables of `store.aura` and what its functions do to them. An entry is a string, a list or a hash with its
deadline, 0 for none; a function that answers `#f` answers `none`. What the machine answers is a `Host`: the
clock, and the order in which a table shows its keys.
-/

set_option autoImplicit false

namespace Aura

abbrev Table (α : Type) := Finmap fun _ : Bytes => α

inductive Value
  | string (v : Bytes)
  | list (xs : List Bytes)
  | hash (h : Table Bytes)

structure Entry where
  value : Value
  ex : Int := 0

/-- What the machine answers, by how often it has been asked. -/
class Host where
  /-- `current-time-ms`. -/
  now : Nat → Int
  /-- `hash-keys`. -/
  keys : Nat → Finset Bytes → List Bytes
  nodup_keys : ∀ n s, (keys n s).Nodup
  mem_keys : ∀ n s k, k ∈ keys n s ↔ k ∈ s

structure Store where
  db : Table Entry := ∅
  /-- How often the machine has been asked. -/
  asked : Nat := 0

section
variable [Host]

def currentTimeMs : StateM Store Int := do
  let s ← get
  set { s with asked := s.asked + 1 }
  return Host.now s.asked

def hashKeys {α : Type} (t : Table α) : StateM Store (List Bytes) := do
  let s ← get
  set { s with asked := s.asked + 1 }
  return Host.keys s.asked t.keys

/-- `hash-ref db key #f`. -/
def hashRef (key : Bytes) : StateM Store (Option Entry) := do
  return (← get).db.lookup key

/-- `hash-set! db key e`. -/
def hashSet (key : Bytes) (e : Entry) : StateM Store Unit := modify fun s => { s with db := s.db.insert key e }

/-- `hash-remove! db key`. -/
def hashRemove (key : Bytes) : StateM Store Unit := modify fun s => { s with db := s.db.erase key }

/-! ## Keys -/

def storeAlive (e : Entry) (now : Int) : Bool := e.ex == 0 || decide (e.ex > now)

/-- `store-touch!`: the entry of a key, which is dropped when its deadline is over. -/
def storeTouch (key : Bytes) : StateM Store (Option Entry) := do
  match ← hashRef key with
  | none => return none
  | some e =>
    if e.ex = 0 then return some e
    else if e.ex > (← currentTimeMs) then return some e
    else
      hashRemove key
      return none

def storeGet (key : Bytes) : StateM Store (Option Entry) := storeTouch key

/-- `store-purge!`. -/
def storePurge : StateM Store Unit := do
  let now ← currentTimeMs
  let ks ← hashKeys (← get).db
  for k in ks do
    match ← hashRef k with
    | some e => if !storeAlive e now then hashRemove k
    | none => pure ()

/-- `store-del!`. -/
def storeDel (keys : List Bytes) : StateM Store Int := do
  let mut n := 0
  for k in keys do
    if (← storeTouch k).isSome then
      hashRemove k
      n := n + 1
  return n

/-- `store-exists?`. -/
def storeExists (keys : List Bytes) : StateM Store Int := do
  let mut n := 0
  for k in keys do
    if (← storeTouch k).isSome then n := n + 1
  return n

def storeKeys : StateM Store (List Bytes) := do
  storePurge
  hashKeys (← get).db

def storeDbsize : StateM Store Int := do
  storePurge
  return (← get).db.keys.card

def storeType (key : Bytes) : StateM Store Bytes := do
  match ← storeGet key with
  | none => return lit "none"
  | some ⟨.string _, _⟩ => return lit "string"
  | some ⟨.list _, _⟩ => return lit "list"
  | some ⟨.hash _, _⟩ => return lit "hash"

def storeTtl (key : Bytes) : StateM Store Int := do
  match ← storeGet key with
  | none => return -2
  | some e =>
    if e.ex = 0 then return -1
    else
      let left := (e.ex - (← currentTimeMs)).tdiv 1000
      return if left < 0 then -2 else left

/-- `store-expire!`. -/
def storeExpire (key : Bytes) (seconds : Int) : StateM Store Int := do
  match ← storeGet key with
  | none => return 0
  | some e =>
    hashSet key { e with ex := (← currentTimeMs) + seconds * 1000 }
    return 1

/-- How `store-rename!` ends. -/
inductive Renamed
  | ok | missing | busy | same
  deriving DecidableEq

/-- `store-rename!`. -/
def storeRename (src dst : Bytes) (nx : Bool) : StateM Store Renamed := do
  if src = dst then return .same
  else
    match ← storeTouch src with
    | none => return .missing
    | some e =>
      let _ ← storeTouch dst
      if nx && decide (dst ∈ (← get).db) then return .busy
      else
        hashSet dst e
        hashRemove src
        return .ok

/-! ## Strings -/

/-- `store-set-string!`: an entry that holds a string is set in place, which leaves the same one. -/
def storeSetString (key val : Bytes) (exMs : Int) : StateM Store Unit :=
  hashSet key ⟨.string val, if exMs > 0 then exMs else 0⟩

/-- `store-incr!`. -/
def storeIncr [Runtime] (key : Bytes) (delta : Int) : StateM Store (Option Int) := do
  match ← storeTouch key with
  | none =>
    storeSetString key (Decimal.ofInt delta) 0
    return some delta
  | some ⟨.string v, ex⟩ =>
    match Runtime.stringToNumber v with
    | none => return none
    | some cur =>
      hashSet key ⟨.string (Decimal.ofInt (cur + delta)), ex⟩
      return some (cur + delta)
  | some _ => return none

/-- `store-append!`. -/
def storeAppend (key val : Bytes) : StateM Store (Option Int) := do
  match ← storeTouch key with
  | none =>
    storeSetString key val 0
    return some val.length
  | some ⟨.string v, ex⟩ =>
    hashSet key ⟨.string (v ++ val), ex⟩
    return some (v ++ val).length
  | some _ => return none

def storeStrlen (key : Bytes) : StateM Store (Option Int) := do
  match ← storeTouch key with
  | none => return some 0
  | some ⟨.string v, _⟩ => return some v.length
  | some _ => return none

/-- `store-getset!`: the old value, if there was one. -/
def storeGetset (key val : Bytes) : StateM Store (Option (Option Bytes)) := do
  match ← storeTouch key with
  | none =>
    storeSetString key val 0
    return some none
  | some ⟨.string old, ex⟩ =>
    hashSet key ⟨.string val, ex⟩
    return some (some old)
  | some _ => return none

/-! ## Lists -/

/-- `store-ensure-list!`. -/
def storeEnsureList (key : Bytes) : StateM Store (Option (List Bytes × Int)) := do
  match ← hashRef key with
  | none =>
    hashSet key ⟨.list [], 0⟩
    return some ([], 0)
  | some ⟨.list xs, ex⟩ => return some (xs, ex)
  | some _ => return none

/-- `store-list-push!`. -/
def storeListPush (key val : Bytes) (left : Bool) : StateM Store (Option Int) := do
  let _ ← storeTouch key
  match ← storeEnsureList key with
  | none => return none
  | some (xs, ex) =>
    let xs := if left then val :: xs else xs ++ [val]
    hashSet key ⟨.list xs, ex⟩
    return some xs.length

/-- What is left of a list, and no key for an empty one. -/
def putList (key : Bytes) (xs : List Bytes) (ex : Int) : StateM Store Unit :=
  if xs = [] then hashRemove key else hashSet key ⟨.list xs, ex⟩

/-- `store-list-pop!`. -/
def storeListPop (key : Bytes) (left : Bool) : StateM Store (Option Bytes) := do
  match ← storeTouch key with
  | some ⟨.list xs, ex⟩ =>
    match if left then xs else xs.reverse with
    | [] => return none
    | v :: rest =>
      putList key (if left then rest else rest.reverse) ex
      return some v
  | _ => return none

def storeListLen (key : Bytes) : StateM Store Int := do
  match ← storeGet key with
  | some ⟨.list xs, _⟩ => return xs.length
  | _ => return 0

/-! ## Hashes -/

/-- `store-ensure-hash!`. -/
def storeEnsureHash (key : Bytes) : StateM Store (Option (Table Bytes × Int)) := do
  match ← hashRef key with
  | none =>
    hashSet key ⟨.hash ∅, 0⟩
    return some (∅, 0)
  | some ⟨.hash h, ex⟩ => return some (h, ex)
  | some _ => return none

/-- `store-hash-set!`. -/
def storeHashSet (key field val : Bytes) : StateM Store (Option Int) := do
  let _ ← storeTouch key
  match ← storeEnsureHash key with
  | none => return none
  | some (h, ex) =>
    hashSet key ⟨.hash (h.insert field val), ex⟩
    return some (if field ∈ h then 0 else 1)

def storeHashGet (key field : Bytes) : StateM Store (Option Bytes) := do
  match ← storeGet key with
  | some ⟨.hash h, _⟩ => return h.lookup field
  | _ => return none

/-- The loop of `store-hash-del!`. -/
def dropFields : List Bytes → Table Bytes → Int → Table Bytes × Int
  | [], h, n => (h, n)
  | f :: fs, h, n => if f ∈ h then dropFields fs (h.erase f) (n + 1) else dropFields fs h n

/-- `store-hash-del!`. -/
def storeHashDel (key : Bytes) (fields : List Bytes) : StateM Store Int := do
  match ← storeGet key with
  | some ⟨.hash h, ex⟩ =>
    let (h', n) := dropFields fields h 0
    if h'.keys.card = 0 then hashRemove key else hashSet key ⟨.hash h', ex⟩
    return n
  | _ => return 0

/-- The loop of `store-hash-getall`. -/
def gatherFields (h : Table Bytes) : List Bytes → List Bytes → List Bytes
  | [], out => out
  | k :: ks, out => gatherFields h ks (k :: (h.lookup k).getD [] :: out)

def storeHashGetall (key : Bytes) : StateM Store (List Bytes) := do
  match ← storeGet key with
  | some ⟨.hash h, _⟩ => return (gatherFields h (← hashKeys h) []).reverse
  | _ => return []

end

end Aura
