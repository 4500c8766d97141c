import AuraRedis.Server.Links
import AuraRedis.Server.Typed

/-!
# dispatch

What becomes of a command: the refusals, `WATCH` and `MULTI`, the queue of a transaction, and the table of
the commands. `EXEC` calls `dispatch` for each command of its queue.
-/

set_option autoImplicit false

namespace AuraRedis

open Code

namespace Dispatch

/-! ## Refusals -/

/-- `cmd_allowed_unauth`. -/
def cmdAllowedUnauth (cmd : Bytes) : Bool := ["auth", "ping", "quit", "hello"].any (cmdEq cmd)

/-- `cmd_is_write`. -/
def cmdIsWrite (cmd : Bytes) : Bool :=
  ["set", "setnx", "setex", "psetex", "getset", "del", "unlink", "append", "rename", "renamenx", "expire",
   "pexpire", "expireat", "pexpireat", "flushdb", "mset", "incr", "decr", "incrby", "decrby", "pin", "unpin",
   "policy", "evict", "layout", "plugin", "save", "bgsave", "hset", "hdel", "hincrby", "lpush", "rpush", "lpop",
   "rpop", "lrem", "ltrim", "zadd", "zrem", "publish"].any (cmdEq cmd)

/-- `pubsub_is_allowed`. -/
def pubsubIsAllowed (cmd : Bytes) : Bool :=
  ["subscribe", "unsubscribe", "psubscribe", "punsubscribe", "ping", "quit", "reset"].any (cmdEq cmd)

def readOnly : String := "READONLY You can't write against a read only replica."

/-- Why a command is refused on a connection, if it is. -/
def refusal (core : ArCore) (x : ArConn) (argv : List Bytes) : Option String :=
  let cmd := arg argv 0
  if core.cfg.requirepass ≠ [] ∧ !x.authenticated ∧ !cmdAllowedUnauth cmd then
    some "NOAUTH Authentication required."
  else if core.srv.replReadonly ∧ cmdIsWrite cmd ∧ !x.isMasterLink then some readOnly
  else if core.srv.replReadonly ∧ !x.isMasterLink ∧ cmdEq cmd "config" ∧ argv.length ≥ 2 ∧
      (cmdEq (arg argv 1) "set" || cmdEq (arg argv 1) "rewrite") then some readOnly
  else if x.pubsubMode ∧ !pubsubIsAllowed cmd then
    some "ERR only (P)SUBSCRIBE / (P)UNSUBSCRIBE / PING / QUIT allowed in this context"
  else none

/-! ## WATCH -/

/-- `AR_WATCH_MAX`. -/
def watchMax : Nat := 64

/-- The loop of `WATCH`. -/
def watchKeys (c : Nat) : List Bytes → Code Unit
  | [] => replyOk c
  | key :: rest => do
    let tx := ((← eff .core).conn c).tx
    if tx.watchKeys.contains key then watchKeys c rest
    else if tx.watchKeys.length ≥ watchMax then replyErr c "ERR WATCH key limit exceeded"
    else if ← eff .malloc then
      eff (.setTx c fun tx => { tx with watchKeys := tx.watchKeys ++ [key] })
      watchKeys c rest
    else replyErr c "ERR OOM"

def watch (c : Nat) (argv : List Bytes) : Code Unit :=
  if argv.length < 2 then wrongArgs c "watch"
  else do
    let tx := ((← eff .core).conn c).tx
    if tx.inMulti then replyErr c "ERR WATCH inside MULTI is not allowed"
    else watchKeys c (argv.drop 1)

def unwatch (c : Nat) (argv : List Bytes) : Code Unit :=
  if argv.length ≠ 1 then wrongArgs c "unwatch"
  else do
    eff (.setTx c ArTx.watchClear)
    replyOk c

/-! ## MULTI -/

def multi (c : Nat) (argv : List Bytes) : Code Unit :=
  if argv.length ≠ 1 then wrongArgs c "multi"
  else do
    let tx := ((← eff .core).conn c).tx
    if tx.inMulti then replyErr c "ERR MULTI calls can not be nested"
    else
      eff (.setTx c fun tx => { tx with inMulti := true, multiQ := [] })
      replyOk c

/-- `multi_clear`, then `watch_clear`. -/
def txClear (tx : ArTx) : ArTx := tx.multiClear.watchClear

def discard (c : Nat) (argv : List Bytes) : Code Unit :=
  if argv.length ≠ 1 then wrongArgs c "discard"
  else do
    let tx := ((← eff .core).conn c).tx
    if !tx.inMulti then replyErr c "ERR DISCARD without MULTI"
    else
      eff (.setTx c txClear)
      replyOk c

/-- The header, then the commands of a queue, each by `nested`. -/
def runQueue (nested : Nat → List Bytes → Code Unit) (c : Nat) (q : List (List Bytes)) : Code Unit := do
  wbufAppend c (Resp.arrayHdr q.length)
  Prog.each (nested c) q

def exec (nested : Nat → List Bytes → Code Unit) (c : Nat) (argv : List Bytes) : Code Unit :=
  if argv.length ≠ 1 then wrongArgs c "exec"
  else do
    let tx := ((← eff .core).conn c).tx
    if !tx.inMulti then replyErr c "ERR EXEC without MULTI"
    else if tx.watchDirty then
      eff (.setTx c txClear)
      replyNullArray c
    else
      eff (.setTx c fun tx => { tx with inMulti := false })
      let ran ← (runQueue nested c tx.multiQ).attempt
      eff (.setTx c txClear)
      if ran.isNone then fail

/-- `AR_MULTI_MAX`. -/
def multiMax : Nat := 128

/-- `AR_MULTI_ARGV`. -/
def multiArgv : Nat := 32

/-- A copy of each argument. -/
def copyArgs : List Bytes → Code Bool
  | [] => return true
  | _ :: rest => do
    if ← eff .malloc then copyArgs rest else return false

/-- A command inside `MULTI`. -/
def queue (c : Nat) (argv : List Bytes) : Code Unit := do
  let tx := ((← eff .core).conn c).tx
  if tx.multiQ.length ≥ multiMax then replyErr c "ERR MULTI queue is full"
  else if argv.length > multiArgv then replyErr c "ERR too many arguments to queue"
  else if ← copyArgs argv then
    eff (.setTx c fun tx => { tx with multiQ := tx.multiQ ++ [argv] })
    wbufAppend c (lit "+QUEUED\r\n")
  else replyErr c "ERR OOM"

/-! ## The commands -/

/-- The commands that are never queued. -/
def txCommands (nested : Nat → List Bytes → Code Unit) : List (String × (Nat → List Bytes → Code Unit)) :=
  [("watch", watch), ("unwatch", unwatch), ("multi", multi), ("discard", discard), ("exec", exec nested)]

/-- The other branches, in the order of the source. -/
def commands [Libc] : List (String × (Nat → List Bytes → Code Unit)) :=
  [("sync", sync), ("replicaof", replicaof), ("slaveof", replicaof), ("auth", auth), ("hello", hello),
   ("ping", ping), ("quit", quit), ("shutdown", shutdown), ("save", save), ("bgsave", bgsave),
   ("get", get), ("set", set), ("setnx", setnx), ("setex", setex), ("psetex", psetex), ("getset", getset),
   ("expire", expire), ("ttl", ttl), ("pttl", pttl), ("pexpire", pexpire), ("expireat", expireat),
   ("pexpireat", pexpireat), ("del", del), ("unlink", unlink), ("append", append), ("strlen", strlen),
   ("rename", rename), ("renamenx", renamenx), ("exists", exist), ("mget", mget), ("mset", mset),
   ("incr", incr), ("decr", decr), ("incrby", incrby), ("decrby", decrby), ("dbsize", dbsize),
   ("flushdb", flushdb), ("command", command), ("evict", evict), ("client", client), ("config", config),
   ("info", info), ("shadow", shadow), ("hotcold", hotcold), ("hot_cold", hotcold), ("policy", policy),
   ("pin", pin), ("unpin", unpin), ("layout", layout), ("plugin", plugin),
   ("zadd", zadd), ("zscore", zscore), ("zrem", zrem), ("zcard", zcard), ("zrange", zrange),
   ("zrangebyscore", zrangebyscore), ("lpush", lpush), ("rpush", rpush), ("lpop", lpop), ("rpop", rpop),
   ("llen", llen), ("lindex", lindex), ("lrange", lrange), ("lrem", lrem), ("ltrim", ltrim), ("type", type),
   ("hset", hset), ("hget", hget), ("hmget", hmget), ("hgetall", hgetall), ("hdel", hdel),
   ("hexists", hexists), ("hlen", hlen), ("hincrby", hincrby), ("hscan", hscan),
   ("subscribe", subscribe), ("unsubscribe", unsubscribe), ("publish", publish), ("scan", scan),
   ("keys", keys), ("slowlog", slowlog)]

/-- The branch of a command. -/
def lookup (table : List (String × (Nat → List Bytes → Code Unit))) (cmd : Bytes) :
    Option (Nat → List Bytes → Code Unit) :=
  (table.find? fun h => cmdEq cmd h.1).map (·.2)

/-- A command that is neither refused nor queued. -/
def runCommand [Libc] (c : Nat) (argv : List Bytes) : Code Unit :=
  match lookup commands (arg argv 0) with
  | some h => h c argv
  | none => replyErr c "ERR unknown command"

/-- `dispatch`, where `EXEC` runs its queue by `nested`. -/
def dispatchBy [Libc] (nested : Nat → List Bytes → Code Unit) (c : Nat) (argv : List Bytes) : Code Unit :=
  if argv.length < 1 then replyErr c "ERR empty command"
  else do
    eff (.noteLastCmd c (arg argv 0))
    let core ← eff .core
    match refusal core (core.conn c) argv with
    | some e => replyErr c e
    | none =>
      match lookup (txCommands nested) (arg argv 0) with
      | some h => h c argv
      | none => if (core.conn c).tx.inMulti then queue c argv else runCommand c argv

end Dispatch

/-- `dispatch`, of a command that `EXEC` runs. It is none of `txCommands`, for those are never queued, so it
calls no `dispatch` in turn. -/
def dispatchQueued [Libc] : Nat → List Bytes → Code Unit := Dispatch.dispatchBy fun _ _ => fail

/-- `dispatch`. -/
def dispatch [Libc] : Nat → List Bytes → Code Unit := Dispatch.dispatchBy dispatchQueued

end AuraRedis
