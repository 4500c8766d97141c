import AuraRedis.Resp.Wire
import AuraRedis.Server.World

/-!
# Replies and arguments

The `reply_` functions, which a handler ends with, and how the handlers read their arguments. Handlers name
a connection by its slot and their arguments by `argv`.
-/

set_option autoImplicit false

namespace AuraRedis

open CString (cstr strtoll)
open Resp (crlf nullLen)

/-! ## Replies -/

namespace Code

variable (c : Nat)

/-- `wbuf_append`. -/
def wbufAppend (data : Bytes) : Code Unit := check (eff (.append c data))

/-- `reply_err`. -/
def replyErr (s : String) : Code Unit := wbufAppend c (45 :: (lit s ++ crlf))

/-- `reply_int`. -/
def replyInt (v : Int) : Code Unit := wbufAppend c (58 :: (Decimal.ofInt v ++ crlf))

/-- `reply_null_bulk`. -/
def replyNullBulk : Code Unit := wbufAppend c (36 :: (nullLen ++ crlf))

/-- `reply_null_array`. -/
def replyNullArray : Code Unit := wbufAppend c (42 :: (nullLen ++ crlf))

/-- `reply_bulk`. -/
def replyBulk (data : Bytes) : Code Unit := wbufAppend c (Resp.bulk data)

/-- A status. -/
def replyStatus (s : String) : Code Unit := wbufAppend c (43 :: (lit s ++ crlf))

/-- `reply_ok`. -/
def replyOk : Code Unit := replyStatus c "OK"

/-- `reply_pong`. -/
def replyPong : Code Unit := replyStatus c "PONG"

def replyWrongType : Code Unit :=
  replyErr c "WRONGTYPE Operation against a key holding the wrong kind of value"

/-- The header of an array, then its elements. -/
def replyArray {α : Type} (n : Int) (as : List α) (f : α → Code Unit) : Code Unit := do
  wbufAppend c (Resp.arrayHdr n)
  Prog.each f as

/-- `resp_append_array_hdr`. -/
def respAppendArrayHdr (argc : Int) : Code Unit := wbufAppend c (Resp.arrayHdr argc)

/-- `resp_append_bulk`. -/
def respAppendBulk (p : Bytes) : Code Unit := do
  wbufAppend c (36 :: (Decimal.ofNat p.length ++ crlf))
  if p ≠ [] then wbufAppend c p
  wbufAppend c crlf

end Code

/-! ## Arguments -/

/-- To lower case. -/
def lower (s : Bytes) : Bytes := s.map fun b => if 65 ≤ b ∧ b ≤ 90 then b + 32 else b

/-- `cmd_eq`. -/
def cmdEq (a : Bytes) (s : String) : Bool := lower a == lower (lit s)

/-- `argv[i]`. -/
def arg (argv : List Bytes) (i : Nat) : Bytes := argv.getD i []

/-- An argument copied into a buffer of `size` bytes, when it fits. -/
def buf (size : Nat) (a : Bytes) : Option Bytes := if a.length ≥ size then none else some a

/-- An argument copied into `nbuf`: neither empty nor too long. -/
def nbuf (a : Bytes) : Option Bytes := if a.length = 0 ∨ a.length ≥ 32 then none else some a

/-- `strtoll`, when the whole string is a number. -/
def wholeNumber (a : Bytes) : Option Int :=
  let r := strtoll a
  if r.2 = 0 ∨ r.2 ≠ (cstr a).length then none else some r.1

/-- A numeric argument. -/
def intArg (a : Bytes) : Option Int := (nbuf a).bind wholeNumber

/-- `parse_double`. -/
def parseDouble [Libc] (a : Bytes) : Option CDouble :=
  if a.length = 0 ∨ a.length ≥ 64 then none
  else if a ∈ [lit "-inf", lit "-Inf", lit "-INF"] then some .negInfinity
  else if a ∈ [lit "inf", lit "Inf", lit "INF", lit "+inf", lit "+Inf", lit "+INF"] then some .infinity
  else
    let r := Libc.strtod (cstr a)
    if r.2 = 0 ∨ r.2 ≠ (cstr a).length then none else some r.1

/-- `!(strcmp(v, "no") == 0 || …)`. -/
def saysOn (v : Bytes) : Bool := !decide (cstr v ∈ [lit "no", lit "0", lit "false"])

end AuraRedis
