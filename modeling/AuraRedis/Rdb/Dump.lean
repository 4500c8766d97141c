import AuraRedis.Server.World

/-!
# Snapshots: the writer

The aura-rdb format, version 2, as `ar_rdb.c` writes it: numbers are little-endian, a blob is its length and
its bytes, an entry is its type, its key, its deadline and its payload.
-/

set_option autoImplicit false

namespace AuraRedis

open Code

namespace Rdb

/-- `AURA_RDB_MAGIC`. -/
def magic : Bytes := lit "AURARDB" ++ [0]

/-- `AURA_RDB_VERSION_V1` and `AURA_RDB_VERSION`. -/
def versionV1 : Nat := 1

def version : Nat := 2

/-- `AURA_RDB_MAX_BLOB`. -/
def maxBlob : Nat := 16777216

/-- `AURA_RDB_MAX_ELEMS`. -/
def maxElems : Nat := 1000000

/-- The reader's limit on the number of entries. -/
def maxEntries : Nat := 10000000

/-- What the writer refuses to call the length of a blob. -/
def maxLen : Nat := 0x7fffffff

/-! ## Numbers -/

/-- The `k` low bytes of a number, the least first: `wr_u32` and `wr_u64`. -/
def le : Nat → Nat → Bytes
  | 0, _ => []
  | k + 1, n => UInt8.ofNat n :: le k (n / 256)

/-- The number that some bytes are, the least first. -/
def ofLe : Bytes → Nat
  | [] => 0
  | b :: s => b.toNat + 256 * ofLe s

/-! ## Entries -/

/-- `wr_blob`. -/
def wrBlob (p : Bytes) : Option Bytes := if p.length > maxLen then none else some (le 4 p.length ++ p)

/-- Some pieces one after the other, unless the writer fails on one. -/
def wrAll {α : Type} (f : α → Option Bytes) : List α → Option Bytes
  | [] => some []
  | a :: as => (f a).bind fun s => (wrAll f as).map fun s' => s ++ s'

/-- `write_hash`: the number of fields must be the number of those written. -/
def writeHash (h : ArHash) : Option Bytes :=
  (wrAll wrBlob (h.buckets.flatten.flatMap fun f => [f.1, f.2])).bind fun s =>
    if h.buckets.flatten.length % 2 ^ 32 = h.nfields % 2 ^ 32 then some (le 4 h.nfields ++ s) else none

/-- `write_list`. -/
def writeList (l : List Bytes) : Option Bytes := (wrAll wrBlob l).map fun s => le 4 l.length ++ s

/-- `write_zset`. -/
def writeZset (z : ArZSet) : Option Bytes :=
  (wrAll (fun n : ArZNode => (wrBlob n.member).map fun s => le 8 n.score.bits.toNat ++ s) z.arr).map fun s =>
    le 4 z.arr.length ++ s

/-- `ArType`, as a number. -/
def typeCode : ArObj → Nat
  | .string _ => 0
  | .hash _ => 1
  | .list _ => 2
  | .zset _ => 3

def writePayload : ArObj → Option Bytes
  | .string val => wrBlob val
  | .hash h => writeHash h
  | .list l => writeList l
  | .zset z => writeZset z

/-- `write_entry_v2`. -/
def writeEntryV2 (e : ArEntry) : Option Bytes :=
  (wrBlob e.key).bind fun key =>
    (writePayload e.obj).map fun payload => le 1 (typeCode e.obj) ++ (key ++ (le 8 e.expireAt ++ payload))

/-- `entry_live`. -/
def entryLive (now : Nat) (e : ArEntry) : Bool := !(decide (e.expireAt ≠ 0) && decide (now ≥ e.expireAt))

/-- The entries a snapshot at `now` has. -/
def live (c : ArCore) (now : Nat) : List ArEntry := c.dict.linked.filter (entryLive now)

/-- The bytes of a snapshot, unless the writer fails. -/
def dump (c : ArCore) (now : Nat) : Option Bytes :=
  (wrAll writeEntryV2 (live c now)).map fun s => magic ++ (le 4 version ++ (le 8 (live c now).length ++ s))

/-! ## Saving -/

/-- `ar_rdb_build_path`. -/
def buildPath (c : ArCore) : Bytes :=
  (if c.cfg.rdbDir.val = [] then lit "." else c.cfg.rdbDir.val) ++ lit "/" ++
    (if c.cfg.rdbFilename.val = [] then lit "dump.aura-rdb" else c.cfg.rdbFilename.val)

/-- `ar_rdb_save_to_path`: the file is written aside and renamed when it is whole. -/
def saveToPath (path : Bytes) : Code Bool := do
  let now ← eff .now
  let core ← eff .core
  match dump core now with
  | none => return false
  | some data => eff (.writeFile path data)

/-- `ar_rdb_save`. -/
def arRdbSave : Code Bool := do
  let core ← eff .core
  if ← saveToPath (buildPath core) then
    let t ← eff .time
    eff (.setSrv fun s => { s with rdbLastSaveTime := t, rdbLastBgsaveOk := true })
    return true
  else return false

/-- `ar_rdb_poll_bgsave`. -/
def arRdbPollBgsave : Code Unit := do
  let core ← eff .core
  if core.srv.rdbBgsavePid ≤ 0 then return
  match ← eff .wait with
  | none => return
  | some ok =>
    let t ← eff .time
    eff (.setSrv fun s => { s with
      rdbLastBgsaveOk := ok, rdbBgsavePid := 0
      rdbLastSaveTime := if ok then t else s.rdbLastSaveTime })

/-- `ar_rdb_bgsave`: `1` started or done, `0` failed, `-1` already in progress. The child's snapshot is of the
core at the fork. -/
def arRdbBgsave : Code Int := do
  arRdbPollBgsave
  let core ← eff .core
  if core.srv.rdbBgsavePid > 0 then return -1
  let now ← eff .now
  match ← eff (.fork (buildPath core) (dump core now)) with
  | none => return if ← arRdbSave then 1 else 0
  | some pid =>
    eff (.setSrv fun s => { s with rdbBgsavePid := pid })
    return 1

end Rdb

end AuraRedis
