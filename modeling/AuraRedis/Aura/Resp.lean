import AuraRedis.Lib.Machine

/-!
# The RESP codec of the Aura server

`respEncode` writes a wire value and `respTryParse` reads one at an index of a buffer (`resp.aura`). The
reader answers `none`, the source's `#f`, when the value is not complete.
-/

set_option autoImplicit false

namespace Aura

/-- What is used of the language's runtime beyond lists and strings. -/
class Runtime where
  /-- `string->number`, of a text that is an integer or is no number. Numbers that are not exact, and what the
  language does with them, are left out. -/
  stringToNumber : Bytes → Option Int

/-- A value that is handed to the writer. -/
inductive Wire
  /-- `("simple" s)`. -/
  | simple (s : Bytes)
  | error (s : Bytes)
  | int (n : Int)
  | bulk (s : Bytes)
  | null
  | array (xs : List Wire)
  /-- A bare string. -/
  | str (s : Bytes)
  /-- A bare number. -/
  | num (n : Int)
  /-- Whatever else. -/
  | other

def respCrlf : Bytes := [13, 10]

/-! ## Writing -/

def respOk : Bytes := lit "+OK\r\n"
def respPong : Bytes := lit "+PONG\r\n"
def respNull : Bytes := lit "$-1\r\n"
def respZero : Bytes := lit ":0\r\n"
def respOne : Bytes := lit ":1\r\n"

def respEncodeSimple (s : Bytes) : Bytes := 43 :: (s ++ respCrlf)

def respEncodeError (s : Bytes) : Bytes := 45 :: (s ++ respCrlf)

def respEncodeInt (n : Int) : Bytes :=
  if n = 0 then respZero else if n = 1 then respOne else 58 :: (Decimal.ofInt n ++ respCrlf)

def respEncodeBulk (s : Bytes) : Bytes := 36 :: (Decimal.ofInt s.length ++ respCrlf ++ (s ++ respCrlf))

mutual

/-- `resp-encode`. -/
def respEncode : Wire → Bytes
  | .str s => respEncodeBulk s
  | .num n => respEncodeInt n
  | .simple s => respEncodeSimple s
  | .error s => respEncodeError s
  | .int n => respEncodeInt n
  | .bulk s => respEncodeBulk s
  | .null => respNull
  | .array xs => 42 :: (Decimal.ofInt xs.length ++ respCrlf ++ respEncodeItems xs)
  | .other => respEncodeError (lit "ERR encode")

/-- The loop of `resp-encode-array`. -/
def respEncodeItems : List Wire → Bytes
  | [] => []
  | x :: xs => respEncode x ++ respEncodeItems xs

end

/-! ## Reading -/

/-- `substring`. -/
def substring (buf : Bytes) (start stop : Nat) : Bytes := (buf.drop start).take (stop - start)

/-- The loop of `resp-find-crlf`, which is at `i`, over what is left of the buffer. -/
def findCrlf : Bytes → Nat → Option Nat
  | b :: b' :: s, i => if b = 13 ∧ b' = 10 then some i else findCrlf (b' :: s) (i + 1)
  | _, _ => none

def respFindCrlf (buf : Bytes) (start : Nat) : Option Nat := findCrlf (buf.drop start) start

section
variable [Runtime]

def respParseLine (buf : Bytes) (i : Nat) (t : UInt8) : Option (Nat × Wire) :=
  match respFindCrlf buf (i + 1) with
  | none => none
  | some cr =>
    let payload := substring buf (i + 1) cr
    if t = 43 then some (cr + 2, .simple payload)
    else if t = 45 then some (cr + 2, .error payload)
    else match Runtime.stringToNumber payload with
      | some n => some (cr + 2, .int n)
      | none => some (cr + 2, .error (lit "ERR int"))

def respParseBulk (buf : Bytes) (i : Nat) : Option (Nat × Wire) :=
  match respFindCrlf buf (i + 1) with
  | none => none
  | some cr =>
    match Runtime.stringToNumber (substring buf (i + 1) cr) with
    | none => some (cr + 2, .error (lit "ERR bulk len"))
    | some len =>
      if len < 0 then some (cr + 2, .null)
      else
        let need := cr + 2 + len.toNat + 2
        if need > buf.length then none
        else some (need, .bulk (substring buf (cr + 2) (cr + 2 + len.toNat)))

/-- The loop of `resp-parse-array`: how many items are left, and those already read, the last one first. -/
def respParseItems (parse : Nat → Option (Nat × Wire)) : Nat → Nat → List Wire → Option (Nat × Wire)
  | 0, pos, items => some (pos, .array items.reverse)
  | k + 1, pos, items =>
    match parse pos with
    | none => none
    | some (pos', x) => respParseItems parse k pos' (x :: items)

/-- `resp-parse-array`, for a reader of its items. -/
def respParseArray (parse : Nat → Option (Nat × Wire)) (buf : Bytes) (i : Nat) : Option (Nat × Wire) :=
  match respFindCrlf buf (i + 1) with
  | none => none
  | some cr =>
    match Runtime.stringToNumber (substring buf (i + 1) cr) with
    | none => some (cr + 2, .error (lit "ERR array len"))
    | some alen =>
      if alen < 0 then some (cr + 2, .null)
      else respParseItems parse alen.toNat (cr + 2) []

/-- `resp-try-parse`, nested no deeper than its first argument. -/
def tryParse : Nat → Bytes → Nat → Option (Nat × Wire)
  | 0, _, _ => none
  | fuel + 1, buf, i =>
    match buf[i]? with
    | none => none
    | some t =>
      if t = 43 ∨ t = 45 ∨ t = 58 then respParseLine buf i t
      else if t = 36 then respParseBulk buf i
      else if t = 42 then respParseArray (tryParse fuel buf) buf i
      else some (i + 1, .error (lit "ERR protocol"))

/-- `resp-try-parse`: an item begins after its array's first byte, so this is deep enough (`tryParse_fuel`). -/
def respTryParse (buf : Bytes) (i : Nat) : Option (Nat × Wire) := tryParse (buf.length + 1) buf i

end

end Aura
