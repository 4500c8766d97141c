import AuraRedis.Aura.Commands

/-!
# The Aura server

Each client has a fiber that reads what has come, answers the commands that are complete and reads on (`server.aura`);
all fibers share the store. A fiber can give way where it reads and where it sends, so a run of the server is a schedule
of turns, each of one command at most.
-/

set_option autoImplicit false

namespace Aura

/-- `resp-unwrap-bulk`, `none` for `#f`. -/
def respUnwrapBulk : Wire → Option Bytes
  | .str s | .bulk s | .simple s => some s
  | .int n => some (Decimal.ofInt n)
  | .null => none
  | _ => some []

/-- `resp-cmd-args`. -/
def respCmdArgs : Wire → List Bytes
  | .array xs => xs.map fun x => (respUnwrapBulk x).getD []
  | _ => []

/-- A command after which the fiber stops. -/
def isQuit (args : List Bytes) : Bool := args ≠ [] && cmdEq (argAt args 0) "QUIT"

/-- A fiber of `serve-client`. `inbox` is what `tcp-recv` is yet to return, an empty chunk when the client has gone;
`busy` says that it is in `process-buffer`, at `pos`; `sent` is what it has given to `tcp-send`. -/
structure Fiber where
  inbox : List Bytes
  buf : Bytes := []
  pos : Nat := 0
  busy : Bool := false
  sent : List Bytes := []
  alive : Bool := true

namespace Fiber

/-- `process-buffer` returns: what it has not taken is the buffer. -/
def rest (f : Fiber) : Fiber := { f with buf := f.buf.drop f.pos, pos := 0, busy := false }

/-- `tcp-recv`, which waits while there is nothing. -/
def recv (f : Fiber) : Fiber :=
  match f.inbox with
  | [] => f
  | [] :: chunks => { f with inbox := chunks, alive := false }
  | chunk :: chunks => { f with inbox := chunks, buf := f.buf ++ chunk, busy := true }

variable [Runtime] [Host]

/-- A turn of the loop of `process-buffer`. -/
def serve (serverStartMs : Int) (f : Fiber) : StateM Store Fiber :=
  if f.buf.length ≤ f.pos then return f.rest
  else
    match respTryParse f.buf f.pos with
    | none => return f.rest
    | some (next, v) => do
      let args := respCmdArgs v
      let reply ← cmdDispatch serverStartMs args
      let f := { f with sent := f.sent ++ [reply], pos := next }
      return if isQuit args then { f.rest with alive := false } else f

/-- A turn of a fiber. -/
def turn (serverStartMs : Int) (f : Fiber) : StateM Store Fiber :=
  if !f.alive then return f
  else if f.busy then f.serve serverStartMs
  else return f.recv

end Fiber

/-- The fibers of the server, over the store. -/
abbrev Fibers := Nat → Fiber

section
variable [Runtime] [Host]

/-- The turns of a schedule. -/
def runFibers (serverStartMs : Int) : List Nat → Fibers → StateM Store Fibers
  | [], fs => return fs
  | i :: schedule, fs => do
    let f ← (fs i).turn serverStartMs
    runFibers serverStartMs schedule (Function.update fs i f)

end

end Aura
