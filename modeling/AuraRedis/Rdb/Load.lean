import AuraRedis.Rdb.Dump

/-!
# Snapshots: the reader

`ar_rdb_load` and what it calls, over the bytes of the file that have not been read. `Prog.fail` is the end of
the load: what it has inserted so far remains.
-/

set_option autoImplicit false

namespace AuraRedis

open Code

namespace Rdb

/-! ## Reading -/

/-- The next `k` bytes, with `fread`. -/
def rdBytes (k : Nat) (s : Bytes) : Code (Bytes × Bytes) :=
  if s.length < k then fail else pure (s.take k, s.drop k)

/-- `rd_u8`, `rd_u32` and `rd_u64`: a number of `k` bytes. -/
def rdNum (k : Nat) (s : Bytes) : Code (Nat × Bytes) := do
  let r ← rdBytes k s
  pure (ofLe r.1, r.2)

/-- `rd_f64`. -/
def rdF64 (s : Bytes) : Code (CDouble × Bytes) := do
  let r ← rdNum 8 s
  pure (⟨BitVec.ofNat 64 r.1⟩, r.2)

/-- A length within a limit. -/
def rdLen (limit : Nat) (s : Bytes) : Code (Nat × Bytes) := do
  let r ← rdNum 4 s
  if r.1 > limit then fail else pure r

/-- `malloc`, where the reader gives up without memory. -/
def alloc : Code Unit := check (eff .malloc)

/-- `rd_blob`. -/
def rdBlob (s : Bytes) : Code (Bytes × Bytes) := do
  let n ← rdLen maxBlob s
  alloc
  rdBytes n.1 n.2

/-- `n` elements of a container, each read and then used. -/
def rdElems (elem : Bytes → Code Bytes) : Nat → Bytes → Code Bytes
  | 0, s => pure s
  | n + 1, s => do
    let s ← elem s
    rdElems elem n s

/-- The payload of a container: the number of its elements, and the elements. -/
def rdContainer (elem : Bytes → Code Bytes) (s : Bytes) : Code Bytes := do
  let n ← rdLen maxElems s
  rdElems elem n.1 n.2

/-! ## Elements -/

/-- `drain_hash_payload` and its siblings, one element. -/
def drainField (s : Bytes) : Code Bytes := do
  let field ← rdBlob s
  let val ← rdBlob field.2
  pure val.2

def drainItem (s : Bytes) : Code Bytes := do
  let val ← rdBlob s
  pure val.2

def drainMember (s : Bytes) : Code Bytes := do
  let score ← rdF64 s
  let member ← rdBlob score.2
  pure member.2

/-- One field of a hash, set by itself. -/
def loadField (key : Bytes) (s : Bytes) : Code Bytes := do
  let field ← rdBlob s
  let val ← rdBlob field.2
  match ← call (.arHashHset key [(field.1, val.1)]) with
  | .found _ => pure val.2
  | _ => fail

/-- One element of a list, pushed by itself. -/
def loadItem (key : Bytes) (s : Bytes) : Code Bytes := do
  let val ← rdBlob s
  match ← call (.arListPush key false [val.1]) with
  | .found _ => pure val.2
  | _ => fail

/-- One member of a sorted set, added by itself. -/
def loadMember (key : Bytes) (s : Bytes) : Code Bytes := do
  let score ← rdF64 s
  let member ← rdBlob score.2
  match ← call (.arZsetZadd key [⟨score.1, member.1⟩]) with
  | .added _ => pure member.2
  | _ => fail

/-! ## Entries -/

/-- `exp && now >= exp`. -/
def expired (exp now : Nat) : Bool := decide (exp ≠ 0) && decide (now ≥ exp)

/-- The seconds `apply_expire_abs` gives a key. -/
def expireSec (exp now : Nat) : Int :=
  let sec := int64 ((uint64 (exp - now) + 999) % 2 ^ 64 / 1000 : Nat)
  if sec ≤ 0 then 1 else sec

/-- `apply_expire_abs`. -/
def applyExpireAbs (key : Bytes) (exp now : Nat) : Code Unit :=
  if exp = 0 ∨ now ≥ exp then pure ()
  else check (call (.arExpire key (expireSec exp now)))

/-- A container of `load_one_v2`. -/
def loadContainer (drain load : Bytes → Code Bytes) (key : Bytes) (exp now : Nat) (s : Bytes) : Code Bytes :=
  if expired exp now then rdContainer drain s
  else do
    let s ← rdContainer load s
    applyExpireAbs key exp now
    pure s

/-- A string of `load_one_v2`. -/
def loadString (key : Bytes) (exp now : Nat) (s : Bytes) : Code Bytes := do
  let val ← rdBlob s
  if !expired exp now then check (call (.arEntrySetEx key val.1 exp))
  pure val.2

/-- `load_one_v2`. -/
def loadOneV2 (now : Nat) (s : Bytes) : Code Bytes := do
  let type ← rdNum 1 s
  let key ← rdBlob type.2
  let exp ← rdNum 8 key.2
  match type.1 with
  | 0 => loadString key.1 exp.1 now exp.2
  | 1 => loadContainer drainField (loadField key.1) key.1 exp.1 now exp.2
  | 2 => loadContainer drainItem (loadItem key.1) key.1 exp.1 now exp.2
  | 3 => loadContainer drainMember (loadMember key.1) key.1 exp.1 now exp.2
  | _ => fail

/-- `load_one_v1`. -/
def loadOneV1 (now : Nat) (s : Bytes) : Code Bytes := do
  let key ← rdBlob s
  let val ← rdBlob key.2
  let exp ← rdNum 8 val.2
  if !expired exp.1 now then check (call (.arEntrySetEx key.1 val.1 exp.1))
  pure exp.2

/-- The loop over the entries. -/
def loadEntries (one : Bytes → Code Bytes) : Nat → Bytes → Code Unit
  | 0, _ => pure ()
  | n + 1, s => do
    let s ← one s
    loadEntries one n s

/-- The bytes of a snapshot. -/
def loadBytes (s : Bytes) : Code Unit := do
  let m ← rdBytes 8 s
  if m.1 ≠ magic then fail
  let ver ← rdNum 4 m.2
  if ver.1 ≠ version ∧ ver.1 ≠ versionV1 then fail
  let n ← rdNum 8 ver.2
  if n.1 > maxEntries then fail
  let now ← eff .now
  loadEntries (if ver.1 = versionV1 then loadOneV1 now else loadOneV2 now) n.1 n.2

/-- `ar_rdb_load`: a file that does not exist is no error. -/
def arRdbLoad : Code Bool := do
  let core ← eff .core
  match ← eff (.readFile (buildPath core)) with
  | none => return false
  | some none => return true
  | some (some s) =>
    eff (.setSrv fun v => { v with rdbLoading := true })
    let ok ← (loadBytes s).attempt
    eff (.setSrv fun v => { v with rdbLoading := false })
    return ok.isSome

end Rdb

end AuraRedis
