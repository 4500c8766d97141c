import AuraRedis.Rdb.Dump
import AuraRedis.Server.Status

/-!
# Commands on connections

The branches of `dispatch` that are about the connections and the process: replication links, passwords,
`CLIENT`, publish and subscribe, snapshots and the end of the server.
-/

set_option autoImplicit false

namespace AuraRedis

open Code
open CString (CArray cstr atoi strtoull)

namespace Dispatch

/-! ## Replication -/

def sync [Libc] (c : Nat) (argv : List Bytes) : Code Unit :=
  if argv.length ≠ 1 then wrongArgs c "sync"
  else do
    let core ← eff .core
    if core.srv.replReadonly then replyErr c "ERR SYNC against a replica"
    else
      eff (.becomeReplica c)
      match ← (replFullsync c).attempt with
      | none => replyErr c "ERR sync failed"
      | some _ => return

/-- `REPLICAOF` and `SLAVEOF`. -/
def replicaof (c : Nat) (argv : List Bytes) : Code Unit :=
  if argv.length = 3 ∧ cmdEq (arg argv 1) "no" ∧ cmdEq (arg argv 2) "one" then do
    replCloseMasterLinks
    eff (.setSrv fun s => { s with replReadonly := false, masterHost := .empty 64, masterPort := 0 })
    replyOk c
  else if argv.length ≠ 3 then wrongArgs c "replicaof"
  else
    let port := atoi (cut 16 (arg argv 2))
    if port ≤ 0 then replyErr c "ERR invalid port"
    else do
      if ← replConnectMaster (cut 64 (arg argv 1)) port then replyOk c
      else replyErr c "ERR replicaof connect failed"

/-! ## Passwords -/

def wrongPass : String := "WRONGPASS invalid username-password pair"

/-- The password of `AUTH`: the last argument, after an optional user name. -/
def authPassword (argv : List Bytes) : Option Bytes :=
  if argv.length = 2 then some (arg argv 1) else if argv.length = 3 then some (arg argv 2) else none

def auth (c : Nat) (argv : List Bytes) : Code Unit := do
  let core ← eff .core
  if core.cfg.requirepass = [] then
    replyErr c ("ERR AUTH called without any password configured for " ++
      "the default user. Are you sure your configuration " ++ "is correct?")
  else
    match authPassword argv with
    | none => wrongArgs c "auth"
    | some pw =>
      if pw = core.cfg.requirepass then
        eff (.authenticate c)
        replyOk c
      else replyErr c wrongPass

/-- The loop of `HELLO` over its arguments; whether no password was wrong. -/
def helloAuth (c : Nat) (pass : Bytes) : List Bytes → Code Bool
  | a :: b :: rest => do
    if cmdEq a "auth" && pass ≠ [] then
      -- after a user name, when there is one
      if rest.headD b = pass then
        eff (.authenticate c)
        helloAuth c pass (b :: rest)
      else return false
    else helloAuth c pass (b :: rest)
  | _ => return true

def hello (c : Nat) (argv : List Bytes) : Code Unit := do
  let core ← eff .core
  if ← helloAuth c core.cfg.requirepass (argv.drop 1) then
    wbufAppend c (lit "*4\r\n$6\r\nserver\r\n$10\r\naura-redis\r\n" ++ lit "$7\r\nversion\r\n$3\r\n0.1\r\n")
  else replyErr c wrongPass

/-! ## The connection and the process -/

def ping (c : Nat) (argv : List Bytes) : Code Unit :=
  if argv.length = 1 then replyPong c
  else if argv.length = 2 then replyBulk c (arg argv 1)
  else wrongArgs c "ping"

/-- The reply may be lost. -/
def quit (c : Nat) (_ : List Bytes) : Code Unit := do
  let _ ← (replyOk c).attempt
  eff (.closeSoon c)

def shutdown (c : Nat) (argv : List Bytes) : Code Unit :=
  if argv.length > 2 then wrongArgs c "shutdown"
  else do
    let _ ← (replyOk c).attempt
    eff (.closeSoon c)
    eff (.setSrv fun s => { s with quit := true, shuttingDown := true })

def save (c : Nat) (argv : List Bytes) : Code Unit :=
  if argv.length ≠ 1 then wrongArgs c "save"
  else do
    if ← Rdb.arRdbSave then replyOk c else replyErr c "ERR save failed"

def bgsave (c : Nat) (argv : List Bytes) : Code Unit :=
  if argv.length ≠ 1 then wrongArgs c "bgsave"
  else do
    let rc ← Rdb.arRdbBgsave
    if rc < 0 then replyErr c "ERR Background save already in progress"
    else if rc = 0 then replyErr c "ERR bgsave failed"
    else replyOk c

def command (c : Nat) (_ : List Bytes) : Code Unit := wbufAppend c (Resp.arrayHdr 0)

/-! ## CLIENT -/

/-- The line of `CLIENT LIST` about a connection. -/
def clientLine (now : Nat) (x : ArConn) : Bytes :=
  let flags := (if x.isReplica then lit "S" else []) ++ (if x.isMasterLink then lit "M" else []) ++
    (if x.pubsubMode then lit "P" else []) ++ (if x.tx.inMulti then lit "x" else [])
  let secs (at_ : Nat) : Nat := if at_ ≠ 0 ∧ now ≥ at_ then (now - at_) / 1000 else 0
  lit "id=" ++ Decimal.ofNat x.clientId ++
  lit " addr=" ++ (if x.peerAddr.val = [] then lit "unknown" else x.peerAddr.val) ++
  lit " fd=" ++ Decimal.ofInt x.fd ++
  lit " name=" ++ x.name.val ++
  lit " age=" ++ Decimal.ofNat (secs x.ctimeMs) ++
  lit " idle=" ++ Decimal.ofNat (secs x.lastActiveMs) ++
  lit " flags=" ++ (if flags = [] then lit "N" else flags) ++
  lit " db=0 cmd=" ++ x.lastCmd.val ++ [10]

/-- The lines, in a buffer of `cap` bytes that grows; `none` when it cannot. -/
def clientLines (now : Nat) : List ArConn → Bytes → Nat → Code (Option Bytes)
  | [], out, _ => return some out
  | x :: xs, out, cap =>
    if !x.inUse then clientLines now xs out cap
    else
      let line := clientLine now x
      let need := out.length + line.length + 1
      if need ≤ cap then clientLines now xs (out ++ line) cap
      else do
        if ← eff .malloc then
          clientLines now xs (out ++ line) (ArZSet.growCap need need (if cap ≠ 0 then cap * 2 else 1024))
        else return none

def clientList (c : Nat) (argv : List Bytes) : Code Unit :=
  if argv.length ≠ 2 then wrongArgs c "client|list"
  else do
    let now ← eff .now
    let core ← eff .core
    match ← clientLines now core.conns [] 0 with
    | none => replyErr c "ERR out of memory"
    | some out => replyBulk c out

/-- The first connection in use that is as asked is closed, this one after the reply. -/
def clientKillBy (c : Nat) (is : ArConn → Bool) : Code Unit := do
  let core ← eff .core
  match core.conns.findIdx? fun x => x.inUse && is x with
  | none => replyErr c "ERR No such client"
  | some i =>
    if i = c then eff (.closeSoon c) else eff (.close i)
    replyOk c

def clientKill (c : Nat) (argv : List Bytes) : Code Unit :=
  if argv.length = 3 then clientKillBy c fun x => x.peerAddr.val = cut 64 (arg argv 2)
  else if argv.length = 4 ∧ cmdEq (arg argv 2) "id" then
    clientKillBy c fun x => x.clientId = (strtoull (cut 32 (arg argv 3))).1
  else replyErr c syntaxError

def client (c : Nat) (argv : List Bytes) : Code Unit :=
  if argv.length < 2 then wrongArgs c "client"
  else if cmdEq (arg argv 1) "list" then clientList c argv
  else if cmdEq (arg argv 1) "id" then
    if argv.length ≠ 2 then wrongArgs c "client|id"
    else do
      let core ← eff .core
      replyInt c (int64 (core.conn c).clientId)
  else if cmdEq (arg argv 1) "setname" then
    if argv.length ≠ 3 then wrongArgs c "client|setname"
    else do
      eff (.setName c (arg argv 2))
      replyOk c
  else if cmdEq (arg argv 1) "kill" then clientKill c argv
  else replyErr c ("ERR Unknown subcommand or wrong number of arguments " ++ "for 'client'")

/-! ## Publish and subscribe -/

/-- `AR_PUBSUB_MAX`. -/
def pubsubMax : Nat := 64

/-- `reply_pubsub_msg`. -/
def replyPubsubMsg (c : Nat) (kind : String) (chan : Bytes) (nsubs : Int) : Code Unit := do
  respAppendArrayHdr c 3
  respAppendBulk c (lit kind)
  respAppendBulk c chan
  replyInt c nsubs

/-- `conn_add_sub`: the number of channels; `none` is `-1`. -/
def connAddSub (c : Nat) (chan : Bytes) : Code (Option Nat) := do
  let x := (← eff .core).conn c
  if x.subscribed chan then return some x.subChannels.length
  if x.subChannels.length ≥ pubsubMax then return none
  if !(← eff .malloc) then return none
  eff (.setSubs c true (x.subChannels ++ [chan]))
  return some (x.subChannels.length + 1)

/-- `conn_del_sub`. -/
def connDelSub (c : Nat) (chan : Bytes) : Code Nat := do
  let x := (← eff .core).conn c
  if !x.subscribed chan then return x.subChannels.length
  let subs := x.subChannels.erase chan
  eff (.setSubs c (x.pubsubMode && !subs.isEmpty) subs)
  return subs.length

/-- The loop of `SUBSCRIBE`. -/
def subscribeTo (c : Nat) : List Bytes → Code Unit
  | [] => return
  | chan :: rest => do
    match ← connAddSub c chan with
    | none => replyErr c "ERR subscribe failed"
    | some n =>
      replyPubsubMsg c "subscribe" chan n
      subscribeTo c rest

def subscribe (c : Nat) (argv : List Bytes) : Code Unit :=
  if argv.length < 2 then wrongArgs c "subscribe" else subscribeTo c (argv.drop 1)

/-- One channel of `UNSUBSCRIBE` without arguments: its name is copied before it goes. -/
def unsubscribeOne (c : Nat) (chan : Bytes) : Code Unit := do
  let keep ← eff .malloc
  let n ← connDelSub c chan
  replyPubsubMsg c "unsubscribe" (if keep then chan else []) n

/-- One argument of `UNSUBSCRIBE`. -/
def unsubscribeFrom (c : Nat) (chan : Bytes) : Code Unit := do
  let n ← connDelSub c chan
  replyPubsubMsg c "unsubscribe" chan n

def unsubscribe (c : Nat) (argv : List Bytes) : Code Unit :=
  if argv.length = 1 then do
    let core ← eff .core
    Prog.each (unsubscribeOne c) (core.conn c).subChannels
  else Prog.each (unsubscribeFrom c) (argv.drop 1)

/-- The message to one connection; whether it is one of the receivers. -/
def publishTo (chan msg : Bytes) (i : Nat) : Code Bool := do
  let x := (← eff .core).conn i
  if !x.inUse || !x.pubsubMode || !x.subscribed chan then return false
  match ← (respAppendCommand i [lit "message", chan, msg]).attempt with
  | none => return false
  | some _ =>
    let _ ← eff (.flush i)
    return true

/-- `publish_local`. -/
def publishLocal (chan msg : Bytes) : List Nat → Int → Code Int
  | [], receivers => return receivers
  | i :: is, receivers => do
    let ok ← publishTo chan msg i
    publishLocal chan msg is (if ok then receivers + 1 else receivers)

def publish (c : Nat) (argv : List Bytes) : Code Unit :=
  if argv.length ≠ 3 then wrongArgs c "publish"
  else do
    let n ← publishLocal (arg argv 1) (arg argv 2) (List.range maxConn) 0
    replyInt c n

end Dispatch

end AuraRedis
