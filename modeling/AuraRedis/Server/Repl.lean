import AuraRedis.Server.Reply

/-!
# Replication

The master's side: the commands it passes on to its replica feeds, and the stream of commands that stands
for the whole key space. The replica's side: the link to the master.
-/

set_option autoImplicit false

namespace AuraRedis

open Code

/-- `AR_MAX_CONN`. -/
def maxConn : Nat := 1024

/-! ## Feeding the replicas -/

/-- `repl_arm_flush`. -/
def replArmFlush (r : Nat) : Code Unit := do
  if !((← eff .core).conn r).inUse then return
  if !(← eff (.flush r)) then eff (.close r)

/-- A command, as the writers write it. -/
def respAppendCommand (c : Nat) (argv : List Bytes) : Code Unit := do
  respAppendArrayHdr c (int32 argv.length)
  Prog.each (respAppendBulk c) argv

/-- One feed of `repl_propagate`. -/
def replFeed (argv : List Bytes) (r : Nat) : Code Unit := do
  let x := (← eff .core).conn r
  if !x.inUse || !x.isReplica then return
  match ← (respAppendCommand r argv).attempt with
  | none => eff (.close r)
  | some _ => replArmFlush r

/-- `repl_propagate`. -/
def replPropagate (argv : List Bytes) : Code Unit := do
  if argv.length < 1 then return
  let core ← eff .core
  if core.srv.replReadonly || core.srv.replApplying then return
  Prog.each (replFeed argv) (List.range maxConn)

/-! ## The full stream -/

/-- The seconds an entry still has, rounded up. -/
def ttlSec (e : ArEntry) (now : Nat) : Int := int64 ((uint64 (e.expireAt - now) + 999) % 2 ^ 64 / 1000 : Nat)

/-- `repl_emit_expire`. -/
def replEmitExpire (c : Nat) (e : ArEntry) (now : Nat) : Code Unit :=
  if e.expireAt = 0 ∨ ttlSec e now ≤ 0 then pure ()
  else respAppendCommand c [lit "EXPIRE", e.key, Decimal.ofInt (ttlSec e now)]

/-- `repl_sync_string`. -/
def replSyncString (c : Nat) (e : ArEntry) (val : Bytes) (now : Nat) : Code Unit :=
  if e.expireAt = 0 then respAppendCommand c [lit "SET", e.key, val]
  else if ttlSec e now ≤ 0 then pure ()
  else respAppendCommand c [lit "SET", e.key, val, lit "EX", Decimal.ofInt (ttlSec e now)]

/-- `repl_sync_hash`, `repl_sync_list` and `repl_sync_zset`: nothing for an empty container, or one command
whose header counts `argc` arguments. -/
def replSyncContainer (c : Nat) (e : ArEntry) (now len : Nat) (argc : Int) (name : String)
    (args : List Bytes) : Code Unit := do
  if len = 0 then return
  respAppendArrayHdr c argc
  respAppendBulk c (lit name)
  respAppendBulk c e.key
  Prog.each (respAppendBulk c) args
  replEmitExpire c e now

/-- The `switch` of `repl_fullsync`, on an entry that is not due. -/
def replSyncEntry [Libc] (c now : Nat) (e : ArEntry) : Code Unit :=
  if e.expireAt ≠ 0 ∧ now ≥ e.expireAt then pure ()
  else match e.obj with
    | .string val => replSyncString c e val now
    | .hash h =>
      replSyncContainer c e now h.nfields (int32 (2 + int32 h.nfields * 2)) "HSET"
        (h.buckets.flatten.flatMap fun f => [f.1, f.2])
    | .list l => replSyncContainer c e now l.length (int32 (2 + int32 l.length)) "RPUSH" l
    | .zset z =>
      replSyncContainer c e now z.arr.length (int32 (2 + int32 z.arr.length * 2)) "ZADD"
        (z.arr.flatMap fun n => [Libc.fmt17g n.score, n.member])

/-- `repl_fullsync`. -/
def replFullsync [Libc] (c : Nat) : Code Unit := do
  let now ← eff .now
  let core ← eff .core
  Prog.each (replSyncEntry c now) core.dict.linked

/-! ## The link to the master -/

/-- `repl_close_master_links`. -/
def replCloseMasterLinks : Code Unit :=
  Prog.each (fun i => do
    let x := (← eff .core).conn i
    if x.inUse && x.isMasterLink then eff (.close i)) (List.range maxConn)

/-- `repl_connect_master`. -/
def replConnectMaster (host : Bytes) (port : Int) : Code Bool := do
  if port ≤ 0 ∨ port > 65535 then return false
  replCloseMasterLinks
  let some fd ← eff .connect | return false
  let some i ← eff (.connAlloc fd) | return false
  eff (.becomeMasterLink i)
  if !(← eff .ask) then
    eff (.close i)
    return false
  match ← (respAppendCommand i [lit "SYNC"]).attempt with
  | none =>
    eff (.close i)
    return false
  | some _ =>
    if !(← eff (.flush i)) then
      eff (.close i)
      return false
    eff (.setSrv fun s => { s with masterHost := .ofBytes 64 host, masterPort := port, replReadonly := true })
    return true

end AuraRedis
