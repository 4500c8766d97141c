import AuraRedis.Aura.Store

/-!
# The commands of the Aura server

`cmdDispatch` answers a command with the bytes of its reply (`commands.aura`). A branch counts its arguments
before it reads them.
-/

set_option autoImplicit false

namespace Aura

def redisVersion : Bytes := lit "aura-redis-0.2"

def asciiUpcase (s : Bytes) : Bytes := s.map fun c => if 97 ≤ c ∧ c ≤ 122 then c - 32 else c

/-- `cmd-eq?`. -/
def cmdEq (s : Bytes) (name : String) : Bool := asciiUpcase s == lit name

def argAt (args : List Bytes) (i : Nat) : Bytes := args[i]?.getD []

def argsFrom (args : List Bytes) (i : Nat) : List Bytes := args.drop i

def wireBulkOrNull : Option Bytes → Wire
  | some s => .bulk s
  | none => .null

/-- `key-match?`. -/
def keyMatch (pattern key : Bytes) : Bool :=
  if pattern = lit "*" then true
  else if pattern.getLast? = some 42 then pattern.dropLast.isPrefixOf key
  else pattern == key

def wrongArgs (name : Bytes) : Bytes :=
  respEncodeError (lit "ERR wrong number of arguments for '" ++ name ++ lit "'")

def wrongType : Bytes := respEncodeError (lit "WRONGTYPE Operation against a key holding the wrong kind of value")

def notInt : Bytes := respEncodeError (lit "ERR value is not an integer or out of range")

/-- A number, or an error for `#f`. -/
def intOr (err : Bytes) : Option Int → Bytes
  | some n => respEncodeInt n
  | none => err

def replyString : Option Entry → Bytes
  | none => respNull
  | some ⟨.string v, _⟩ => respEncodeBulk v
  | some _ => wrongType

section
variable [Runtime]

/-- The loop of `parse-set-opts`. -/
def setOptsLoop : List Bytes → Int → Bool → Bool → Option (Int × Bool × Bool)
  | [], exMs, nx, xx => some (exMs, nx, xx)
  | [o], exMs, nx, xx =>
    if asciiUpcase o = lit "NX" then some (exMs, true, xx)
    else if asciiUpcase o = lit "XX" then some (exMs, nx, true)
    else none
  | o :: v :: rest, exMs, nx, xx =>
    if asciiUpcase o = lit "EX" then
      match Runtime.stringToNumber v with
      | some sec => setOptsLoop rest (sec * 1000) nx xx
      | none => none
    else if asciiUpcase o = lit "PX" then
      match Runtime.stringToNumber v with
      | some ms => setOptsLoop rest ms nx xx
      | none => none
    else if asciiUpcase o = lit "NX" then setOptsLoop (v :: rest) exMs true xx
    else if asciiUpcase o = lit "XX" then setOptsLoop (v :: rest) exMs nx true
    else none

variable [Host]

/-- `parse-set-opts`: the deadline, 0 for none, and the two conditions. -/
def parseSetOpts (args : List Bytes) : StateM Store (Option (Int × Bool × Bool)) := do
  match setOptsLoop (argsFrom args 3) 0 false false with
  | none => return none
  | some (exMs, nx, xx) =>
    if exMs > 0 then
      let now ← currentTimeMs
      return some (now + exMs, nx, xx)
    else return some (0, nx, xx)

def infoBulk (serverStartMs : Int) : StateM Store Bytes := do
  let keys ← storeDbsize
  let uptime := ((← currentTimeMs) - serverStartMs).tdiv 1000
  return lit "# Server\r\n" ++ lit "redis_version:" ++ redisVersion ++ lit "\r\n" ++ lit "aura_redis_version:" ++
    redisVersion ++ lit "\r\n" ++ lit "tcp_port:loopback\r\n" ++ lit "# Keyspace\r\n" ++ lit "db0:keys=" ++
    Decimal.ofInt keys ++ lit "\r\n" ++ lit "# Stats\r\n" ++ lit "uptime_in_seconds:" ++ Decimal.ofInt uptime ++
    lit "\r\n"

/-- The loop of `MGET`. -/
def mgetItems : List Bytes → StateM Store (List Wire)
  | [] => return []
  | k :: ks => do
    let x := match ← storeGet k with
      | some ⟨.string v, _⟩ => Wire.bulk v
      | _ => .null
    return x :: (← mgetItems ks)

/-- The loop of `MSET`. -/
def msetPairs : List Bytes → StateM Store Unit
  | k :: v :: rest => do
    storeSetString k v 0
    msetPairs rest
  | _ => return ()

/-- `SET` with options. -/
def setWith (args : List Bytes) : StateM Store Bytes := do
  match ← parseSetOpts args with
  | none => return respEncodeError (lit "ERR syntax error")
  | some (ex, nx, xx) =>
    let there := (← storeTouch (argAt args 1)).isSome
    if nx && there then return respNull
    else if xx && !there then return respNull
    else
      storeSetString (argAt args 1) (argAt args 2) ex
      return respOk

/-- `SETEX` and `PSETEX`. -/
def setTimed (name : String) (scale : Int) (args : List Bytes) : StateM Store Bytes := do
  if args.length < 4 then return wrongArgs (lit name)
  else
    match Runtime.stringToNumber (argAt args 2) with
    | none => return notInt
    | some n =>
      let now ← currentTimeMs
      storeSetString (argAt args 1) (argAt args 3) (now + n * scale)
      return respOk

def renameReply : Renamed → Bytes
  | .missing => respEncodeError (lit "ERR no such key")
  | _ => respOk

def renamenxReply : Renamed → Bytes
  | .missing => respEncodeError (lit "ERR no such key")
  | .busy => respZero
  | _ => respOne

/-- `cmd-dispatch`, of a server that was started at `serverStartMs`. -/
def cmdDispatch (serverStartMs : Int) (args : List Bytes) : StateM Store Bytes := do
  let cmd := argAt args 0
  let nargs := args.length
  if nargs = 0 then return respEncodeError (lit "ERR empty command")
  else if cmdEq cmd "GET" && nargs == 2 then return replyString (← storeGet (argAt args 1))
  else if cmdEq cmd "SET" && nargs == 3 then
    storeSetString (argAt args 1) (argAt args 2) 0
    return respOk
  else if cmdEq cmd "PING" then return if nargs ≥ 2 then respEncodeBulk (argAt args 1) else respPong
  else if cmdEq cmd "ECHO" then
    return if nargs < 2 then wrongArgs (lit "echo") else respEncodeBulk (argAt args 1)
  else if cmdEq cmd "QUIT" then return respOk
  else if cmdEq cmd "SET" then if nargs < 3 then return wrongArgs (lit "set") else setWith args
  else if cmdEq cmd "SETEX" then setTimed "setex" 1000 args
  else if cmdEq cmd "PSETEX" then setTimed "psetex" 1 args
  else if cmdEq cmd "GET" then
    if nargs < 2 then return wrongArgs (lit "get") else return replyString (← storeGet (argAt args 1))
  else if cmdEq cmd "MGET" then
    if nargs < 2 then return wrongArgs (lit "mget")
    else return respEncode (.array (← mgetItems (argsFrom args 1)))
  else if cmdEq cmd "MSET" then
    if nargs < 3 ∨ (nargs - 1) % 2 = 1 then return wrongArgs (lit "mset")
    else
      msetPairs (argsFrom args 1)
      return respOk
  else if cmdEq cmd "APPEND" then
    if nargs < 3 then return wrongArgs (lit "append")
    else return intOr wrongType (← storeAppend (argAt args 1) (argAt args 2))
  else if cmdEq cmd "STRLEN" then
    if nargs < 2 then return wrongArgs (lit "strlen") else return intOr wrongType (← storeStrlen (argAt args 1))
  else if cmdEq cmd "GETSET" then
    if nargs < 3 then return wrongArgs (lit "getset")
    else
      match ← storeGetset (argAt args 1) (argAt args 2) with
      | none => return wrongType
      | some old => return respEncode (wireBulkOrNull old)
  else if cmdEq cmd "DEL" || cmdEq cmd "UNLINK" then
    if nargs < 2 then return wrongArgs cmd else return respEncodeInt (← storeDel (argsFrom args 1))
  else if cmdEq cmd "EXISTS" then
    if nargs < 2 then return wrongArgs (lit "exists") else return respEncodeInt (← storeExists (argsFrom args 1))
  else if cmdEq cmd "INCR" then
    if nargs < 2 then return wrongArgs (lit "incr") else return intOr notInt (← storeIncr (argAt args 1) 1)
  else if cmdEq cmd "DECR" then
    if nargs < 2 then return wrongArgs (lit "decr") else return intOr notInt (← storeIncr (argAt args 1) (-1))
  else if cmdEq cmd "KEYS" then
    let pat := if nargs ≥ 2 then argAt args 1 else lit "*"
    return respEncode (.array (((← storeKeys).filter (keyMatch pat)).map .bulk))
  else if cmdEq cmd "DBSIZE" then return respEncodeInt (← storeDbsize)
  else if cmdEq cmd "INFO" then return respEncodeBulk (← infoBulk serverStartMs)
  else if cmdEq cmd "RENAME" then
    if nargs < 3 then return wrongArgs (lit "rename")
    else return renameReply (← storeRename (argAt args 1) (argAt args 2) false)
  else if cmdEq cmd "RENAMENX" then
    if nargs < 3 then return wrongArgs (lit "renamenx")
    else return renamenxReply (← storeRename (argAt args 1) (argAt args 2) true)
  else if cmdEq cmd "FLUSHDB" then
    modify fun s => { s with db := ∅ }
    return respOk
  else if cmdEq cmd "TYPE" then
    if nargs < 2 then return wrongArgs (lit "type") else return respEncodeSimple (← storeType (argAt args 1))
  else if cmdEq cmd "TTL" then
    if nargs < 2 then return wrongArgs (lit "ttl") else return respEncodeInt (← storeTtl (argAt args 1))
  else if cmdEq cmd "EXPIRE" then
    if nargs < 3 then return wrongArgs (lit "expire")
    else
      match Runtime.stringToNumber (argAt args 2) with
      | none => return notInt
      | some sec => return respEncodeInt (← storeExpire (argAt args 1) sec)
  else if cmdEq cmd "LPUSH" then
    if nargs < 3 then return wrongArgs (lit "lpush")
    else return intOr wrongType (← storeListPush (argAt args 1) (argAt args 2) true)
  else if cmdEq cmd "RPUSH" then
    if nargs < 3 then return wrongArgs (lit "rpush")
    else return intOr wrongType (← storeListPush (argAt args 1) (argAt args 2) false)
  else if cmdEq cmd "LPOP" then
    if nargs < 2 then return wrongArgs (lit "lpop")
    else return respEncode (wireBulkOrNull (← storeListPop (argAt args 1) true))
  else if cmdEq cmd "RPOP" then
    if nargs < 2 then return wrongArgs (lit "rpop")
    else return respEncode (wireBulkOrNull (← storeListPop (argAt args 1) false))
  else if cmdEq cmd "LLEN" then
    if nargs < 2 then return wrongArgs (lit "llen") else return respEncodeInt (← storeListLen (argAt args 1))
  else if cmdEq cmd "HSET" then
    if nargs < 4 then return wrongArgs (lit "hset")
    else return intOr wrongType (← storeHashSet (argAt args 1) (argAt args 2) (argAt args 3))
  else if cmdEq cmd "HGET" then
    if nargs < 3 then return wrongArgs (lit "hget")
    else return respEncode (wireBulkOrNull (← storeHashGet (argAt args 1) (argAt args 2)))
  else if cmdEq cmd "HDEL" then
    if nargs < 3 then return wrongArgs (lit "hdel")
    else return respEncodeInt (← storeHashDel (argAt args 1) (argsFrom args 2))
  else if cmdEq cmd "HGETALL" then
    if nargs < 2 then return wrongArgs (lit "hgetall")
    else return respEncode (.array ((← storeHashGetall (argAt args 1)).map .bulk))
  else return respEncodeError (lit "ERR unknown command '" ++ cmd ++ lit "'")

end

end Aura
