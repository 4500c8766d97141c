import AuraRedis.Server.Repl

/-!
# Commands on strings and keys

The branches of `dispatch` for the commands on string values and on keys of any type, each under the name of
its command.
-/

set_option autoImplicit false

namespace AuraRedis

open Code
open CString (atoll)

/-- `"ERR wrong number of arguments for '…'"`. -/
def wrongArgs (c : Nat) (name : String) : Code Unit :=
  replyErr c ("ERR wrong number of arguments for '" ++ name ++ "'")

def replyNotInt (c : Nat) : Code Unit := replyErr c "ERR value is not an integer or out of range"

/-- How many of some keys a call says yes to. -/
def countKeys (f : Bytes → Code Bool) : List Bytes → Int → Code Int
  | [], n => pure n
  | key :: keys, n => do
    let ok ← f key
    countKeys f keys (if ok then n + 1 else n)

namespace Dispatch

/-! ## GET and SET -/

def get (c : Nat) (argv : List Bytes) : Code Unit :=
  if argv.length ≠ 2 then wrongArgs c "get"
  else do
    match ← call (.getPtr (arg argv 1)) with
    | .wrongType => replyWrongType c
    | .missing => replyNullBulk c
    | .found v => replyBulk c v

/-- The options of `SET`; a time is `-1` when it is not given. -/
structure SetOpts where
  nx : Bool := false
  xx : Bool := false
  keepttl : Bool := false
  exSec : Int := -1
  pxMs : Int := -1
  exatSec : Int := -1
  pxatMs : Int := -1
  deriving DecidableEq

/-- Whether a time has been given. -/
def SetOpts.timed (o : SetOpts) : Bool :=
  decide (o.exSec ≥ 0) || decide (o.pxMs ≥ 0) || decide (o.exatSec ≥ 0) || decide (o.pxatMs ≥ 0)

def syntaxError : String := "ERR syntax error"

/-- The argument of `EX` and its siblings. -/
def setTime (o : SetOpts) (v : Bytes) : Except String Int :=
  if o.timed || o.keepttl then .error syntaxError
  else match nbuf v with
    | none => .error "ERR invalid expire time in 'set'"
    | some v => if atoll v ≤ 0 then .error "ERR invalid expire time in 'set'" else .ok (atoll v)

/-- The loop over the options of `SET`. -/
def setOpts : List Bytes → SetOpts → Except String SetOpts
  | [], o => .ok o
  | a :: rest, o =>
    if cmdEq a "nx" then if o.xx then .error syntaxError else setOpts rest { o with nx := true }
    else if cmdEq a "xx" then if o.nx then .error syntaxError else setOpts rest { o with xx := true }
    else if cmdEq a "keepttl" then
      if o.timed then .error syntaxError else setOpts rest { o with keepttl := true }
    else
      match rest with
      | [] => .error syntaxError
      | v :: rest =>
        if cmdEq a "ex" then setTime o v >>= fun n => setOpts rest { o with exSec := n }
        else if cmdEq a "px" then setTime o v >>= fun n => setOpts rest { o with pxMs := n }
        else if cmdEq a "exat" then setTime o v >>= fun n => setOpts rest { o with exatSec := n }
        else if cmdEq a "pxat" then setTime o v >>= fun n => setOpts rest { o with pxatMs := n }
        else .error syntaxError

/-- `core->ops++; core->sets++`, then `ar_entry_set_ex`. -/
def entrySet (key val : Bytes) (expireAt : Nat) : Code Bool := do
  call (.tally 1 1)
  call (.arEntrySetEx key val expireAt)

/-- The write of `SET`. -/
def setWrite (key val : Bytes) (o : SetOpts) : Code Bool :=
  if o.exSec > 0 then call (.arSetBinEx key val o.exSec)
  else if o.pxMs > 0 then call (.arSetBinPx key val o.pxMs)
  else if o.exatSec > 0 then entrySet key val (uint64 o.exatSec * 1000 % 2 ^ 64)
  else if o.pxatMs > 0 then entrySet key val (uint64 o.pxatMs)
  else if o.keepttl then do
    let e0 ← call (.find key)
    entrySet key val ((e0.map (·.2)).getD 0)
  else entrySet key val 0

def set (c : Nat) (argv : List Bytes) : Code Unit :=
  if argv.length < 3 then wrongArgs c "set"
  else
    match setOpts (argv.drop 3) {} with
    | .error e => replyErr c e
    | .ok o => do
      let exist ← call (.arExistsBin (arg argv 1))
      if o.nx && exist then replyNullBulk c
      else if o.xx && !exist then replyNullBulk c
      else
        if ← setWrite (arg argv 1) (arg argv 2) o then
          replPropagate argv
          replyOk c
        else replyErr c "ERR OOM"

def setnx (c : Nat) (argv : List Bytes) : Code Unit :=
  if argv.length ≠ 3 then wrongArgs c "setnx"
  else do
    if ← call (.arExistsBin (arg argv 1)) then replyInt c 0
    else if ← entrySet (arg argv 1) (arg argv 2) 0 then
      replPropagate argv
      replyInt c 1
    else replyErr c "ERR OOM"

/-- `SETEX` and `PSETEX`: `write` is the call for a positive time. -/
def setTimed (name : String) (write : Bytes → Bytes → Int → Code Bool) (c : Nat) (argv : List Bytes) :
    Code Unit :=
  if argv.length ≠ 4 then wrongArgs c name
  else
    match nbuf (arg argv 2) with
    | none => replyErr c ("ERR invalid expire time in '" ++ name ++ "'")
    | some v =>
      if atoll v ≤ 0 then replyErr c ("ERR invalid expire time in '" ++ name ++ "'")
      else do
        if ← write (arg argv 1) (arg argv 3) (atoll v) then
          replPropagate argv
          replyOk c
        else replyErr c "ERR OOM"

def setex : Nat → List Bytes → Code Unit := setTimed "setex" fun key val n => call (.arSetBinEx key val n)

def psetex : Nat → List Bytes → Code Unit := setTimed "psetex" fun key val n => call (.arSetBinPx key val n)

/-- The write half of `GETSET`, and the reply. -/
def getsetWrite (c : Nat) (argv : List Bytes) (reply : Code Unit) : Code Unit := do
  call (.tally 0 1)
  if ← call (.arEntrySetEx (arg argv 1) (arg argv 2) 0) then
    replPropagate argv
    reply
  else replyErr c "ERR OOM"

def getset (c : Nat) (argv : List Bytes) : Code Unit :=
  if argv.length ≠ 3 then wrongArgs c "getset"
  else do
    match ← call (.getPtr (arg argv 1)) with
    | .wrongType => replyWrongType c
    | .missing => getsetWrite c argv (replyNullBulk c)
    | .found v =>
      -- the old value is copied before it is overwritten
      if ← eff .malloc then getsetWrite c argv (replyBulk c v) else replyErr c "ERR OOM"

def append (c : Nat) (argv : List Bytes) : Code Unit :=
  if argv.length ≠ 3 then wrongArgs c "append"
  else do
    match ← call (.arAppend (arg argv 1) (arg argv 2)) with
    | .wrongType => replyWrongType c
    | .missing => replyErr c "ERR OOM"
    | .found n =>
      replPropagate argv
      replyInt c n

def strlen (c : Nat) (argv : List Bytes) : Code Unit :=
  if argv.length ≠ 2 then wrongArgs c "strlen"
  else do
    match ← call (.arStrlen (arg argv 1)) with
    | .wrongType => replyWrongType c
    | .missing => replyInt c 0
    | .found n => replyInt c n

/-- One slot of `MGET`: a key of another type is a null bulk, too. -/
def mgetSlot (c : Nat) (key : Bytes) : Code Unit := do
  match ← call (.getPtr key) with
  | .found v => replyBulk c v
  | _ => replyNullBulk c

def mget (c : Nat) (argv : List Bytes) : Code Unit :=
  if argv.length < 2 then wrongArgs c "mget"
  else replyArray c (argv.length - 1) (argv.drop 1) (mgetSlot c)

/-- The loop of `MSET`. -/
def msetPairs : List Bytes → Code Bool
  | key :: val :: rest => do
    if ← entrySet key val 0 then msetPairs rest else pure false
  | _ => pure true

def mset (c : Nat) (argv : List Bytes) : Code Unit :=
  if argv.length < 3 ∨ (argv.length - 1) % 2 ≠ 0 then wrongArgs c "mset"
  else do
    if ← msetPairs (argv.drop 1) then
      replPropagate argv
      replyOk c
    else replyErr c "ERR OOM"

/-! ## Counters -/

/-- The call of `INCR` and its siblings, and the reply. -/
def incrWith (c : Nat) (argv : List Bytes) (delta : Int) : Code Unit := do
  match ← call (.arIncr (arg argv 1) delta) with
  | none => replyNotInt c
  | some v =>
    replPropagate argv
    replyInt c v

def incr (c : Nat) (argv : List Bytes) : Code Unit :=
  if argv.length ≠ 2 then wrongArgs c "incr" else incrWith c argv 1

def decr (c : Nat) (argv : List Bytes) : Code Unit :=
  if argv.length ≠ 2 then wrongArgs c "decr" else incrWith c argv (-1)

/-- `INCRBY` and `DECRBY`: `sign` is what becomes of the argument. -/
def incrBy (name : String) (sign : Int → Int) (c : Nat) (argv : List Bytes) : Code Unit :=
  if argv.length ≠ 3 then wrongArgs c name
  else
    match intArg (arg argv 2) with
    | none => replyNotInt c
    | some delta => incrWith c argv (sign delta)

def incrby : Nat → List Bytes → Code Unit := incrBy "incrby" id

/-- The negation of the least `int64_t` is itself. -/
def decrby : Nat → List Bytes → Code Unit := incrBy "decrby" fun delta => int64 (-delta)

/-! ## Deadlines -/

/-- `EXPIRE` and its siblings. -/
def expireWith (name : String) (set : Bytes → Int → Code Bool) (c : Nat) (argv : List Bytes) : Code Unit :=
  if argv.length ≠ 3 then wrongArgs c name
  else
    match nbuf (arg argv 2) with
    | none => replyNotInt c
    | some v => do
      let ok ← set (arg argv 1) (atoll v)
      call (.tally 1 0)
      if ok then replPropagate argv
      replyInt c (if ok then 1 else 0)

def expire : Nat → List Bytes → Code Unit := expireWith "expire" fun key n => call (.arExpire key n)

def pexpire : Nat → List Bytes → Code Unit := expireWith "pexpire" fun key n => call (.arPexpire key n)

def expireat : Nat → List Bytes → Code Unit := expireWith "expireat" fun key n => call (.arExpireat key n)

def pexpireat : Nat → List Bytes → Code Unit := expireWith "pexpireat" fun key n => call (.arPexpireat key n)

/-- `TTL` and `PTTL`. -/
def ttlWith (name : String) (read : Bytes → Code Int) (c : Nat) (argv : List Bytes) : Code Unit :=
  if argv.length ≠ 2 then wrongArgs c name
  else do
    let ttl ← read (arg argv 1)
    call (.tally 1 0)
    replyInt c ttl

def ttl : Nat → List Bytes → Code Unit := ttlWith "ttl" fun key => call (.arTtl key)

def pttl : Nat → List Bytes → Code Unit := ttlWith "pttl" fun key => call (.arPttl key)

/-! ## Keys -/

/-- `DEL` and `UNLINK`. -/
def delWith (name : String) (c : Nat) (argv : List Bytes) : Code Unit :=
  if argv.length < 2 then wrongArgs c name
  else do
    let n ← countKeys (fun key => call (.arDelBin key)) (argv.drop 1) 0
    if n > 0 then replPropagate argv
    replyInt c n

def del : Nat → List Bytes → Code Unit := delWith "del"

def unlink : Nat → List Bytes → Code Unit := delWith "unlink"

def exist (c : Nat) (argv : List Bytes) : Code Unit :=
  if argv.length < 2 then wrongArgs c "exists"
  else do
    let n ← countKeys (fun key => call (.arExistsBin key)) (argv.drop 1) 0
    call (.tally 1 0)
    replyInt c n

/-- `RENAME` and `RENAMENX`; the answer `2` says that the destination exists. -/
def renameWith (name : String) (nx : Bool) (c : Nat) (argv : List Bytes) : Code Unit :=
  if argv.length ≠ 3 then wrongArgs c name
  else do
    let rc ← call (.arRename (arg argv 1) (arg argv 2) nx)
    if rc = 0 then replyErr c "ERR no such key"
    else if rc < 0 then replyErr c "ERR OOM"
    else if nx then
      if rc = 2 then replyInt c 0
      else
        replPropagate argv
        replyInt c 1
    else
      replPropagate argv
      replyOk c

def rename : Nat → List Bytes → Code Unit := renameWith "rename" false

def renamenx : Nat → List Bytes → Code Unit := renameWith "renamenx" true

/-- `ar_type_name`. -/
def arTypeName : ArType → String
  | .string => "string"
  | .hash => "hash"
  | .list => "list"
  | .zset => "zset"

def type (c : Nat) (argv : List Bytes) : Code Unit :=
  if argv.length ≠ 2 then wrongArgs c "type"
  else do
    match ← call (.find (arg argv 1)) with
    | none => replyBulk c (lit "none")
    | some e => replyBulk c (lit (arTypeName e.1))

def dbsize (c : Nat) (argv : List Bytes) : Code Unit :=
  if argv.length ≠ 1 then wrongArgs c "dbsize"
  else do
    let n ← call .arDbsize
    replyInt c (int64 n)

def flushdb (c : Nat) (argv : List Bytes) : Code Unit := do
  call .arFlushdb
  replPropagate argv
  replyOk c

/-! ## The walk over the keys -/

/-- The options of `SCAN` and `HSCAN`. -/
structure ScanOpts where
  pattern : Bytes := []
  count : Int := 10

/-- The loop over the options of `SCAN` and `HSCAN`. -/
def scanOpts : List Bytes → ScanOpts → Except String ScanOpts
  | [], o => .ok o
  | a :: rest, o =>
    match rest with
    | [] => .error syntaxError
    | v :: rest =>
      if cmdEq a "match" then scanOpts rest { o with pattern := v }
      else if cmdEq a "count" then
        match nbuf v with
        | none => .error "ERR value is not an integer or out of range"
        | some v =>
          let r := CString.strtoll v
          if r.2 ≠ (CString.cstr v).length ∨ r.1 < 1 then
            .error "ERR value is not an integer or out of range"
          else scanOpts rest { o with count := min r.1 10000 }
      else .error syntaxError

/-- The cursor of `SCAN` and `HSCAN`. -/
def cursorArg (a : Bytes) : Option Nat :=
  (nbuf a).bind fun v =>
    let r := CString.strtoull v
    if r.2 ≠ (CString.cstr v).length then none else some r.1

/-- A page: the next cursor and what was found. -/
def replyPage (c : Nat) (next : Nat) (elems : List Bytes) : Code Unit := do
  wbufAppend c (Resp.arrayHdr 2)
  replyBulk c (Decimal.ofNat next)
  replyArray c elems.length elems (replyBulk c)

def scan (c : Nat) (argv : List Bytes) : Code Unit :=
  if argv.length < 2 then wrongArgs c "scan"
  else
    match cursorArg (arg argv 1) with
    | none => replyErr c "ERR invalid cursor"
    | some cursor =>
      match scanOpts (argv.drop 2) {} with
      | .error e => replyErr c e
      | .ok o => do
        let r ← call (.arScan cursor o.pattern o.count)
        replyPage c r.2 r.1

def keys (c : Nat) (argv : List Bytes) : Code Unit :=
  if argv.length ≠ 2 then wrongArgs c "keys"
  else do
    let r ← call (.arKeys (arg argv 1))
    replyArray c r.length r (replyBulk c)

end Dispatch

end AuraRedis
