import AuraRedis.Lib.Incremental
import AuraRedis.Lib.Machine

/-!
# RESP: what is written and what is read

The writers `arrayHdr`, `bulk` and `command` produce the bytes `repl_propagate` and `repl_fullsync`
send; `parseBulk` and `parseCommand` are the reader of `process_reads`. A buffer and a position in it
are the list of the bytes from that position on.
-/

set_option autoImplicit false

namespace Resp

/-- `AR_MAX_ARGV`. -/
def maxArgv : Nat := 64

/-- The reader's cap on a bulk, `16L * 1024 * 1024`. -/
def maxBulk : Nat := 16777216

def crlf : Bytes := [13, 10]

/-! ## Writing -/

/-- `resp_append_array_hdr`. -/
def arrayHdr (argc : Int) : Bytes := 42 :: (Decimal.ofInt argc ++ crlf)

/-- `resp_append_bulk`. -/
def bulk (p : Bytes) : Bytes := 36 :: (Decimal.ofNat p.length ++ crlf ++ (p ++ crlf))

/-- A whole argument vector, `argc` being an `int`. -/
def command (argv : List Bytes) : Bytes := arrayHdr (int32 argv.length) ++ argv.flatMap bulk

/-! ## Reading -/

/-- `buf[i] == '\r'`, then `buf[i + 1] == '\n'`. -/
def expectCrlf : Bytes → Parsed UInt8 Unit
  | [] => .incomplete
  | b :: s => if b ≠ 13 then .error else
    match s with
    | [] => .incomplete
    | b :: s => if b ≠ 10 then .error else .ok () s

/-- The digits of a bulk's length: at most ten of them, and none after the cap is passed. -/
def bulkDigits (n digits : Nat) : Bytes → Parsed UInt8 Nat
  | [] => .incomplete
  | b :: s =>
    if Decimal.isDigit b then
      if digits > 9 ∨ n > maxBulk then .error
      else bulkDigits (n * 10 + Decimal.digit b) (digits + 1) s
    else if digits = 0 then .error else .ok n (b :: s)

/-- The payload of a bulk of `n` bytes, and the line end after it. -/
def bulkPayload (n : Nat) (s : Bytes) : Parsed UInt8 (Option Bytes) :=
  if n > maxBulk then .error
  else if s.length < n + 2 then .incomplete
  else if (s.drop n).take 2 ≠ crlf then .error
  else .ok (some (s.take n)) (s.drop (n + 2))

/-- The length line of a bulk, after the `$` and the sign. -/
def bulkLen (s : Bytes) : Parsed UInt8 Nat :=
  (bulkDigits 0 0 s).andThen fun n s => (expectCrlf s).andThen fun _ s => .ok n s

/-- `parse_bulk`; `none` is the null bulk. At the end of the buffer it answers `-1`. -/
def parseBulk : Bytes → Parsed UInt8 (Option Bytes)
  | [] => .error
  | b :: s =>
    if b ≠ 36 then .error
    else if s.head? = some 45 then (bulkLen s.tail).andThen fun _ s => .ok none s
    else (bulkLen s).andThen bulkPayload

/-- The digits of an argument count, accumulated in a `long` and counted in an `int`: an overflow of either is
undefined. -/
def argcDigits (n : Int) (digits : Nat) : Bytes → Parsed UInt8 Int
  | [] => .incomplete
  | b :: s =>
    if Decimal.isDigit b then
      if n * 10 + Decimal.digit b < 2 ^ 63 ∧ digits + 1 < 2 ^ 31 then
        argcDigits (n * 10 + Decimal.digit b) (digits + 1) s
      else .undefined
    else if digits = 0 then .error else .ok n (b :: s)

def argcLine (s : Bytes) : Parsed UInt8 Int :=
  (argcDigits 0 0 s).andThen fun n s => (expectCrlf s).andThen fun _ s => .ok n s

/-- The loop over `argv[0..argc)`. -/
def parseArgv : Nat → Bytes → Parsed UInt8 (List Bytes)
  | 0, s => .ok [] s
  | a + 1, s => (parseBulk s).andThen fun arg s =>
    match arg with
    | none => .error
    | some arg => (parseArgv a s).andThen fun argv s => .ok (arg :: argv) s

/-- `parse_command`. -/
def parseCommand : Bytes → Parsed UInt8 (List Bytes)
  | [] => .incomplete
  | b :: s =>
    if b ≠ 42 then .error
    else (argcLine s).andThen fun n s =>
      if n < 0 ∨ n > maxArgv then .error else parseArgv n.toNat s

/-! ## What is left -/

theorem consumes_expectCrlf : Consumes expectCrlf := by
  intro s a rest h
  match s with
  | [] => cases h
  | [b] => by_cases hb : b = 13 <;> simp [expectCrlf, hb] at h
  | b :: b' :: s =>
    simp only [expectCrlf] at h
    split at h
    · cases h
    · split at h <;> cases h
      exact (List.suffix_cons b' _).trans (List.suffix_cons b _)

theorem consumes_bulkDigits (n digits : Nat) : Consumes (bulkDigits n digits) := by
  intro s
  induction s generalizing n digits with
  | nil => exact fun a rest h => by cases h
  | cons b s ih =>
    intro a rest h
    rw [bulkDigits] at h
    split at h
    · split at h
      · cases h
      · exact (ih _ _ a rest h).trans (List.suffix_cons b s)
    · split at h <;> cases h
      exact List.suffix_refl _

theorem consumes_argcDigits (n : Int) (digits : Nat) : Consumes (argcDigits n digits) := by
  intro s
  induction s generalizing n digits with
  | nil => exact fun a rest h => by cases h
  | cons b s ih =>
    intro a rest h
    rw [argcDigits] at h
    split at h
    · split at h
      · exact (ih _ _ a rest h).trans (List.suffix_cons b s)
      · cases h
    · split at h <;> cases h
      exact List.suffix_refl _

theorem consumes_bulkPayload (n : Nat) : Consumes (bulkPayload n) := by
  intro s a rest h
  unfold bulkPayload at h
  split at h
  · cases h
  split at h
  · cases h
  split at h <;> cases h
  exact List.drop_suffix _ _

/-- A line: what reads its digits, then its end. -/
theorem consumes_line {α : Type} {D : Bytes → Parsed UInt8 α} (hD : Consumes D) :
    Consumes fun s => (D s).andThen fun n s => (expectCrlf s).andThen fun _ s => .ok n s :=
  hD.andThen fun n => consumes_expectCrlf.andThen fun _ => .pure n

theorem consumes_parseBulk : Consumes parseBulk := by
  have hlen : Consumes bulkLen := consumes_line (consumes_bulkDigits 0 0)
  intro s a rest h
  cases s with
  | nil => cases h
  | cons b s =>
    rw [parseBulk] at h
    split at h
    · cases h
    split at h
    · exact ((hlen.andThen fun _ => .pure none) _ a rest h).trans
        ((List.tail_suffix s).trans (List.suffix_cons b s))
    · exact ((hlen.andThen consumes_bulkPayload) s a rest h).trans (List.suffix_cons b s)

theorem consumes_parseArgv (n : Nat) : Consumes (parseArgv n) := by
  induction n with
  | zero => exact .pure []
  | succ n ih =>
    refine consumes_parseBulk.andThen fun arg => ?_
    cases arg with
    | none => exact fun s a rest h => by cases h
    | some arg => exact ih.andThen fun argv => .pure (arg :: argv)

theorem consumes_parseCommand : Consumes parseCommand := by
  intro s a rest h
  cases s with
  | nil => cases h
  | cons b s =>
    rw [parseCommand] at h
    split at h
    · cases h
    refine (((consumes_line (consumes_argcDigits 0 0)).andThen fun n => ?_) s a rest h).trans (List.suffix_cons b s)
    split
    · exact fun s a rest h => by cases h
    · exact consumes_parseArgv n.toNat

/-! ## Buffers -/

/-- What `parse_command` returns for `buf` at `pos`: the bytes consumed, as an `int`, `0` for incomplete input and
`-1` for an error, and the arguments it filled in; `none` is undefined behaviour. -/
def parseAt (buf : Bytes) (pos : Nat) : Option (Int × List Bytes) :=
  match parseCommand (buf.drop pos) with
  | .incomplete => some (0, [])
  | .error => some (-1, [])
  | .undefined => none
  | .ok argv rest => some (int32 (buf.length - pos - rest.length : Nat), argv)

/-- The commands a buffer is cut into from `pos` on, and the position after them. A turn that takes
a command consumes at least one byte. -/
def parseAll : Nat → Bytes → Nat → Option (List (List Bytes) × Nat)
  | 0, _, pos => some ([], pos)
  | fuel + 1, buf, pos =>
    (parseAt buf pos).bind fun r =>
      if r.1 ≤ 0 then some ([], pos)
      else (parseAll fuel buf (pos + r.1.toNat)).map fun t => (r.2 :: t.1, t.2)

/-- What the reader can be sent: one to `maxArgv` arguments, none over the cap. -/
structure WellFormed (argv : List Bytes) : Prop where
  pos : argv ≠ []
  argc : argv.length ≤ maxArgv
  arg : ∀ p ∈ argv, p.length ≤ maxBulk

/-- The prefixes of a command that end where one of its bulks begins. -/
def Cut (argv : List Bytes) (p : Bytes) : Prop :=
  ∃ j < argv.length, p = arrayHdr (int32 argv.length) ++ (argv.take j).flatMap bulk

end Resp
