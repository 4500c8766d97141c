import AuraRedis.Server.Strings

/-!
# Commands on sorted sets, lists and hashes

The branches of `dispatch` for the typed values. A read of a missing key answers as an empty value does.
-/

set_option autoImplicit false

namespace AuraRedis

open Code

/-- An answer with a count: `missing` is `0`. -/
def replyCount (c : Nat) : ArCore.Typed Nat → Code Unit
  | .wrongType => replyWrongType c
  | .missing => replyInt c 0
  | .found n => replyInt c n

/-- An answer with a value: `missing` is the null bulk. -/
def replyValue (c : Nat) : ArCore.Typed Bytes → Code Unit
  | .wrongType => replyWrongType c
  | .missing => replyNullBulk c
  | .found v => replyBulk c v

/-- The number of elements removed: the command is passed on when there are any. -/
def replyRemoved (c : Nat) (argv : List Bytes) (n : Int) : Code Unit := do
  if n > 0 then replPropagate argv
  replyInt c n

def replyEmpty (c : Nat) : Code Unit := wbufAppend c (Resp.arrayHdr 0)

/-- The window of `LRANGE` and `ZRANGE`: where it starts and how long it is; `none` when it is empty. -/
def rangeWindow (len start stop : Int) : Option (Nat × Nat) :=
  let start := if start < 0 then len + start else start
  let stop := if stop < 0 then len + stop else stop
  let start := if start < 0 then 0 else start
  let stop := if stop ≥ len then len - 1 else stop
  if start > stop ∨ start ≥ len then none else some (start.toNat, (stop - start + 1).toNat)

/-- The two bounds of a range. -/
def rangeArgs (argv : List Bytes) : Option (Int × Int) :=
  match nbuf (arg argv 2), nbuf (arg argv 3) with
  | some a, some b =>
    match wholeNumber a, wholeNumber b with
    | some start, some stop => some (start, stop)
    | _, _ => none
  | _, _ => none

/-- How many names a command may have. -/
def maxNames : Nat := 64

namespace Dispatch

/-! ## ZSET -/

section
variable [Libc]

/-- The pairs of `ZADD`. -/
def zaddArgs : List Bytes → Option (List ArZNode)
  | score :: member :: rest =>
    match parseDouble score with
    | none => none
    | some s => (zaddArgs rest).map fun ns => ⟨s, member⟩ :: ns
  | _ => some []

def zadd (c : Nat) (argv : List Bytes) : Code Unit :=
  if argv.length < 4 ∨ (argv.length - 2) % 2 ≠ 0 then wrongArgs c "zadd"
  else if (argv.length - 2) / 2 > maxNames then replyErr c "ERR too many members"
  else
    match zaddArgs (argv.drop 2) with
    | none => replyErr c "ERR value is not a valid float"
    | some ns => do
      match ← call (.arZsetZadd (arg argv 1) ns) with
      | .wrongType => replyWrongType c
      | .oversize => replyErr c "ERR zset max members exceeded (Tier-2 sorted-array cap)"
      | .noMemory => replyErr c "ERR zadd failed"
      | .added n =>
        replPropagate argv
        replyInt c n

def zscore (c : Nat) (argv : List Bytes) : Code Unit :=
  if argv.length ≠ 3 then wrongArgs c "zscore"
  else do
    match ← call (.arZsetZscore (arg argv 1) (arg argv 2)) with
    | .wrongType => replyWrongType c
    | .missing => replyNullBulk c
    | .found s => replyBulk c (Libc.fmt17g s)

def zrem (c : Nat) (argv : List Bytes) : Code Unit :=
  if argv.length < 3 then wrongArgs c "zrem"
  else if argv.length - 2 > maxNames then replyErr c "ERR too many members"
  else do
    match ← call (.arZsetZrem (arg argv 1) (argv.drop 2)) with
    | .wrongType => replyWrongType c
    | .missing => replyRemoved c argv 0
    | .found n => replyRemoved c argv n

def zcard (c : Nat) (argv : List Bytes) : Code Unit :=
  if argv.length ≠ 2 then wrongArgs c "zcard"
  else do
    replyCount c (← call (.arZsetZcard (arg argv 1)))

/-- A member, and its score when asked for. -/
def replyMember (c : Nat) (withscores : Bool) (n : ArZNode) : Code Unit := do
  replyBulk c n.member
  if withscores then replyBulk c (Libc.fmt17g n.score)

/-- The members of a range. -/
def replyMembers (c : Nat) (withscores : Bool) (count : Int) (ns : List ArZNode) : Code Unit :=
  replyArray c (if withscores then int32 (count * 2) else count) ns (replyMember c withscores)

def zrange (c : Nat) (argv : List Bytes) : Code Unit :=
  if argv.length < 4 ∨ argv.length > 5 then wrongArgs c "zrange"
  else if argv.length = 5 ∧ cmdEq (arg argv 4) "withscores" = false then replyErr c syntaxError
  else
    match rangeArgs argv with
    | none => replyNotInt c
    | some (start, stop) => do
      match ← call (.arZsetGet (arg argv 1)) with
      | .wrongType => replyWrongType c
      | .missing => replyEmpty c
      | .found ns =>
        match rangeWindow ns.length start stop with
        | none => replyEmpty c
        | some (from_, n) =>
          replyMembers c (decide (argv.length = 5)) (int32 n) ((ns.drop from_).take n)

/-- `AR_ZSET_RANGE_MATCH_CAP`. -/
def rangeMatchCap : Nat := 256

/-- The options of `ZRANGEBYSCORE`. -/
structure ByScoreOpts where
  withscores : Bool := false
  limOff : Int := 0
  limCnt : Int := -1

/-- The loop over the options of `ZRANGEBYSCORE`. -/
def byScoreOpts : List Bytes → ByScoreOpts → Except String ByScoreOpts
  | [], o => .ok o
  | a :: rest, o =>
    if cmdEq a "withscores" then byScoreOpts rest { o with withscores := true }
    else if cmdEq a "limit" then
      match rest with
      | off :: cnt :: rest =>
        match (buf 32 off).bind wholeNumber, (buf 32 cnt).bind wholeNumber with
        | some off, some cnt => byScoreOpts rest { o with limOff := off, limCnt := cnt }
        | _, _ => .error "ERR value is not an integer or out of range"
      | _ => .error syntaxError
    else .error syntaxError

/-- How many of `nm` matches are skipped and how many shown. -/
def byScoreWindow (nm : Nat) (o : ByScoreOpts) : Nat × Nat :=
  let skip := int32 o.limOff
  let skip := if skip < 0 then 0 else skip
  let take := if o.limCnt < 0 then (nm : Int) else int32 o.limCnt
  let skip := if skip > nm then (nm : Int) else skip
  let outn := nm - skip
  let outn := if outn > take then take else outn
  (skip.toNat, outn.toNat)

def zrangebyscore (c : Nat) (argv : List Bytes) : Code Unit :=
  if argv.length < 4 then wrongArgs c "zrangebyscore"
  else
    match parseDouble (arg argv 2), parseDouble (arg argv 3) with
    | some minv, some maxv =>
      match byScoreOpts (argv.drop 4) {} with
      | .error e => replyErr c e
      | .ok o => do
        match ← call (.arZsetGet (arg argv 1)) with
        | .wrongType => replyWrongType c
        | .missing => replyEmpty c
        | .found ns =>
          if ns.length = 0 then replyEmpty c
          else
            let hits := (ns.filter fun n => !n.score.lt minv && !maxv.lt n.score).take rangeMatchCap
            let w := byScoreWindow hits.length o
            replyMembers c o.withscores w.2 ((hits.drop w.1).take w.2)
    | _, _ => replyErr c "ERR min or max is not a float"

end

/-! ## LIST -/

/-- `LPUSH` and `RPUSH`. -/
def pushWith (name : String) (left : Bool) (c : Nat) (argv : List Bytes) : Code Unit :=
  if argv.length < 3 then wrongArgs c name
  else if argv.length - 2 > maxNames then replyErr c "ERR too many values"
  else do
    match ← call (.arListPush (arg argv 1) left (argv.drop 2)) with
    | .found n =>
      replPropagate argv
      replyInt c n
    | _ => replyWrongType c

def lpush : Nat → List Bytes → Code Unit := pushWith "lpush" true

def rpush : Nat → List Bytes → Code Unit := pushWith "rpush" false

/-- `LPOP` and `RPOP`. -/
def popWith (name : String) (left : Bool) (c : Nat) (argv : List Bytes) : Code Unit :=
  if argv.length ≠ 2 then wrongArgs c name
  else do
    match ← call (.arListPop (arg argv 1) left) with
    | .wrongType => replyWrongType c
    | .missing => replyNullBulk c
    | .found v =>
      replPropagate argv
      replyBulk c v

def lpop : Nat → List Bytes → Code Unit := popWith "lpop" true

def rpop : Nat → List Bytes → Code Unit := popWith "rpop" false

def llen (c : Nat) (argv : List Bytes) : Code Unit :=
  if argv.length ≠ 2 then wrongArgs c "llen"
  else do
    replyCount c (← call (.arListLlen (arg argv 1)))

def lindex (c : Nat) (argv : List Bytes) : Code Unit :=
  if argv.length ≠ 3 then wrongArgs c "lindex"
  else
    match intArg (arg argv 2) with
    | none => replyNotInt c
    | some idx => do
      replyValue c (← call (.arListLindex (arg argv 1) idx))

def lrange (c : Nat) (argv : List Bytes) : Code Unit :=
  if argv.length ≠ 4 then wrongArgs c "lrange"
  else
    match rangeArgs argv with
    | none => replyNotInt c
    | some (start, stop) => do
      match ← call (.arListGet (arg argv 1)) with
      | .wrongType => replyWrongType c
      | .missing => replyEmpty c
      | .found l =>
        match rangeWindow l.length start stop with
        | none => replyEmpty c
        | some (from_, n) =>
          -- the count is an `int`, and the loop runs to it
          replyArray c (int32 n) ((l.drop from_).take (int32 n).toNat) (replyBulk c)

def lrem (c : Nat) (argv : List Bytes) : Code Unit :=
  if argv.length ≠ 4 then wrongArgs c "lrem"
  else
    match intArg (arg argv 2) with
    | none => replyNotInt c
    | some count => do
      match ← call (.arListLrem (arg argv 1) count (arg argv 3)) with
      | .wrongType => replyWrongType c
      | .missing => replyRemoved c argv 0
      | .found n => replyRemoved c argv n

def ltrim (c : Nat) (argv : List Bytes) : Code Unit :=
  if argv.length ≠ 4 then wrongArgs c "ltrim"
  else
    match rangeArgs argv with
    | none => replyNotInt c
    | some (start, stop) => do
      match ← call (.arListLtrim (arg argv 1) start stop) with
      | .wrongType => replyWrongType c
      | _ =>
        replPropagate argv
        replyOk c

/-! ## HASH -/

/-- The pairs of `HSET`. -/
def hsetArgs : List Bytes → List (Bytes × Bytes)
  | field :: val :: rest => (field, val) :: hsetArgs rest
  | _ => []

def hset (c : Nat) (argv : List Bytes) : Code Unit :=
  if argv.length < 4 ∨ (argv.length - 2) % 2 ≠ 0 then wrongArgs c "hset"
  else if (argv.length - 2) / 2 > maxNames then replyErr c "ERR too many fields"
  else do
    match ← call (.arHashHset (arg argv 1) (hsetArgs (argv.drop 2))) with
    | .wrongType => replyWrongType c
    | .missing => replyErr c "ERR hset failed"
    | .found n =>
      replPropagate argv
      replyInt c n

def hget (c : Nat) (argv : List Bytes) : Code Unit :=
  if argv.length ≠ 3 then wrongArgs c "hget"
  else do
    replyValue c (← call (.arHashHget (arg argv 1) (arg argv 2)))

/-- One field of `HMGET`. -/
def hmgetField (c : Nat) (key field : Bytes) : Code Unit := do
  match ← call (.arHashHget key field) with
  | .found v => replyBulk c v
  | _ => replyNullBulk c

def hmget (c : Nat) (argv : List Bytes) : Code Unit :=
  if argv.length < 3 then wrongArgs c "hmget"
  else do
    match ← call (.hashGet (arg argv 1)) with
    | .wrongType => replyWrongType c
    | .missing => replyArray c (argv.length - 2) (argv.drop 2) fun _ => replyNullBulk c
    | .found _ => replyArray c (argv.length - 2) (argv.drop 2) (hmgetField c (arg argv 1))

/-- A field and its value. -/
def replyField (c : Nat) (f : Bytes × Bytes) : Code Unit := do
  replyBulk c f.1
  replyBulk c f.2

def hgetall (c : Nat) (argv : List Bytes) : Code Unit :=
  if argv.length ≠ 2 then wrongArgs c "hgetall"
  else do
    match ← call (.hashGet (arg argv 1)) with
    | .wrongType => replyWrongType c
    | .missing => replyEmpty c
    | .found h => replyArray c (int32 (h.nfields * 2)) h.buckets.flatten (replyField c)

def hdel (c : Nat) (argv : List Bytes) : Code Unit :=
  if argv.length < 3 then wrongArgs c "hdel"
  else if argv.length - 2 > maxNames then replyErr c "ERR too many fields"
  else do
    match ← call (.arHashHdel (arg argv 1) (argv.drop 2)) with
    | .wrongType => replyWrongType c
    | .missing => replyRemoved c argv 0
    | .found n => replyRemoved c argv n

def hexists (c : Nat) (argv : List Bytes) : Code Unit :=
  if argv.length ≠ 3 then wrongArgs c "hexists"
  else do
    match ← call (.arHashHexists (arg argv 1) (arg argv 2)) with
    | .wrongType => replyWrongType c
    | .missing => replyInt c 0
    | .found ex => replyInt c (if ex then 1 else 0)

def hlen (c : Nat) (argv : List Bytes) : Code Unit :=
  if argv.length ≠ 2 then wrongArgs c "hlen"
  else do
    replyCount c (← call (.arHashHlen (arg argv 1)))

def hincrby (c : Nat) (argv : List Bytes) : Code Unit :=
  if argv.length ≠ 4 then wrongArgs c "hincrby"
  else
    match intArg (arg argv 3) with
    | none => replyNotInt c
    | some n => do
      match ← call (.arHashHincrby (arg argv 1) (arg argv 2) n) with
      | .wrongType => replyWrongType c
      | .notInt => replyErr c "ERR hash value is not an integer"
      | .value v =>
        replPropagate argv
        replyInt c v

def hscan (c : Nat) (argv : List Bytes) : Code Unit :=
  if argv.length < 3 then wrongArgs c "hscan"
  else
    match cursorArg (arg argv 2) with
    | none => replyErr c "ERR invalid cursor"
    | some cursor =>
      match scanOpts (argv.drop 3) {} with
      | .error e => replyErr c e
      | .ok o => do
        match ← call (.arHscan (arg argv 1) cursor o.pattern o.count) with
        | .wrongType => replyWrongType c
        | .missing => replyPage c 0 []
        | .found r => replyPage c r.2 r.1

end Dispatch

end AuraRedis
