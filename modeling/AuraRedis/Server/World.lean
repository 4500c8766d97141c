import AuraRedis.Core.Op
import AuraRedis.Lib.Prog
import AuraRedis.Server.Conn

/-!
# The world of the server

The server's code is a `Prog` over the effects `Eff`: calls of the core, changes of a connection or of the
server's settings, and what it asks of the outside. A `World` is the core with the files beside it, and an
`Outside` answers what is asked, each effect by its number in the run.
-/

set_option autoImplicit false

namespace AuraRedis

open CString (CArray)

/-- What the effects read from outside, by their number. -/
structure Outside where
  env : Nat → Env
  /-- `time(NULL)`. -/
  secs : Nat → Nat
  /-- How many bytes a socket takes, and whether it then fails. -/
  write : Nat → Nat × Bool
  /-- Whether what is asked of the system succeeds. -/
  grants : Nat → Bool
  /-- The descriptor of a new socket that is connected. -/
  socket : Nat → Option Nat
  /-- The number of a new process. -/
  fork : Nat → Option Nat
  /-- How a process has ended, when it has. -/
  wait : Nat → Option Bool
  /-- What is on the stack after a buffer. -/
  stack : Nat → Nat → UInt8
  /-- The kernel of a plugin that loads. -/
  plugin : Nat → Option EvictKernel
  /-- `AURA_REDIS_DENY_PLUGIN`. -/
  denyPlugin : Option Bytes

structure World where
  core : ArCore
  /-- How many effects there have been. -/
  calls : Nat := 0
  disk : Bytes → Option Bytes := fun _ => none
  /-- The file a child is writing: where, and what unless that fails. -/
  child : Option (Bytes × Option Bytes) := none

namespace World

def conn (w : World) (i : Nat) : ArConn := w.core.conn i

end World

/-! ## Effects -/

inductive Eff
  | op (o : ArOp)
  /-- A look at the core. -/
  | core
  | now
  | time
  | malloc
  -- connections
  | append (c : Nat) (data : Bytes)
  | flush (c : Nat)
  | close (c : Nat)
  | connAlloc (fd : Int)
  | setTx (c : Nat) (f : ArTx → ArTx)
  | setSubs (c : Nat) (mode : Bool) (subs : List Bytes)
  | noteLastCmd (c : Nat) (cmd : Bytes)
  | setName (c : Nat) (name : Bytes)
  | authenticate (c : Nat)
  | becomeReplica (c : Nat)
  | becomeMasterLink (c : Nat)
  | closeSoon (c : Nat)
  -- the server
  | setSrv (f : ArSrv → ArSrv)
  | setCfg (f : Cfg → Cfg)
  | setStats (f : Stats → Stats)
  -- the system
  | ask
  | connect
  | fork (path : Bytes) (data : Option Bytes)
  | wait
  | stack (n : Nat)
  | plugin
  | denyPlugin
  | readFile (path : Bytes)
  | writeFile (path data : Bytes)

namespace Eff

/-- The answer of an effect. -/
abbrev Ans : Eff → Type
  | op o => o.Ans
  | core => ArCore
  | now | time => Nat
  | malloc | append _ _ | flush _ | ask | writeFile _ _ => Bool
  | connAlloc _ | connect | fork _ _ => Option Nat
  | wait => Option Bool
  | stack _ => Bytes
  | plugin => Option EvictKernel
  | denyPlugin => Option Bytes
  /- `none` when the file cannot be read, and within that when there is none. -/
  | readFile _ => Option (Option Bytes)
  | _ => Unit

/-- `note_last_cmd`. -/
def lastCmd (cmd : Bytes) : CArray 48 :=
  .ofBytes 48 (cmd.map fun b => if 65 ≤ b ∧ b ≤ 90 then b + 32 else b)

variable (O : Outside)

/-- What an effect does. -/
def perform : (e : Eff) → World → World × e.Ans
  | op o, w =>
    let r := o.run (O.env w.calls) w.core
    ({ w with core := r.1, calls := w.calls + 1 }, r.2)
  | core, w => (w, w.core)
  | now, w =>
    let r := w.core.arNowMs (O.env w.calls)
    ({ w with core := r.1, calls := w.calls + 1 }, r.2)
  | time, w => ({ w with calls := w.calls + 1 }, O.secs w.calls)
  | malloc, w =>
    let r := w.core.malloc (O.env w.calls)
    ({ w with core := r.1, calls := w.calls + 1 }, r.2)
  | append c data, w =>
    let r := w.core.wbufAppend (O.env w.calls) c data
    ({ w with core := r.1, calls := w.calls + 1 }, r.2)
  | flush c, w =>
    let r := w.core.flushWrites c (O.write w.calls).1 (O.write w.calls).2
    ({ w with core := r.1, calls := w.calls + 1 }, r.2)
  | close c, w => ({ w with core := w.core.connClose c }, ())
  | connAlloc fd, w =>
    let r := w.core.connAlloc (O.env w.calls) fd
    ({ w with core := r.1, calls := w.calls + 1 }, r.2)
  | setTx c f, w => ({ w with core := w.core.updConn c fun x => { x with tx := f x.tx } }, ())
  | setSubs c mode subs, w =>
    ({ w with core := w.core.updConn c fun x => { x with pubsubMode := mode, subChannels := subs } }, ())
  | noteLastCmd c cmd, w => ({ w with core := w.core.updConn c fun x => { x with lastCmd := lastCmd cmd } }, ())
  | setName c name, w =>
    ({ w with core := w.core.updConn c fun x => { x with name := .ofBytes 64 name } }, ())
  | authenticate c, w => ({ w with core := w.core.updConn c fun x => { x with authenticated := true } }, ())
  | becomeReplica c, w => ({ w with core := w.core.updConn c fun x => { x with isReplica := true } }, ())
  | becomeMasterLink c, w =>
    ({ w with core := w.core.updConn c fun x => { x with isMasterLink := true, authenticated := true } }, ())
  | closeSoon c, w => ({ w with core := w.core.updConn c fun x => { x with shouldClose := true } }, ())
  | setSrv f, w => ({ w with core := { w.core with srv := f w.core.srv } }, ())
  | setCfg f, w => ({ w with core := w.core.setCfg f }, ())
  | setStats f, w => ({ w with core := w.core.count f }, ())
  | ask, w => ({ w with calls := w.calls + 1 }, O.grants w.calls)
  | connect, w => ({ w with calls := w.calls + 1 }, O.socket w.calls)
  | fork path data, w =>
    ({ w with calls := w.calls + 1, child := (O.fork w.calls).elim w.child fun _ => some (path, data) },
      O.fork w.calls)
  | wait, w =>
    match O.wait w.calls with
    | none => ({ w with calls := w.calls + 1 }, none)
    | some ok =>
      match w.child with
      | some (path, some data) =>
        ({ w with calls := w.calls + 1, child := none
                  disk := if ok then Function.update w.disk path (some data) else w.disk }, some ok)
      | _ => ({ w with calls := w.calls + 1, child := none }, some false)
  | stack n, w => ({ w with calls := w.calls + 1 }, (List.range n).map (O.stack w.calls))
  | plugin, w => ({ w with calls := w.calls + 1 }, O.plugin w.calls)
  | denyPlugin, w => (w, O.denyPlugin)
  | readFile path, w =>
    ({ w with calls := w.calls + 1 }, if O.grants w.calls then some (w.disk path) else none)
  | writeFile path data, w =>
    if O.grants w.calls then
      ({ w with calls := w.calls + 1, disk := Function.update w.disk path (some data) }, true)
    else ({ w with calls := w.calls + 1 }, false)

end Eff

/-- Code of the server. -/
abbrev Code (α : Type) : Type := Prog Eff.Ans α

namespace Code

/-- The world after the code has run, and what it returns; `none` is `-1`. -/
def exec {α : Type} (p : Code α) (O : Outside) (w : World) : World × Option α := p.run (Eff.perform O) w

/-- An effect. -/
def eff (e : Eff) : Code e.Ans := Prog.perform e

/-- A call of the core. -/
def call (o : ArOp) : Code o.Ans := Prog.perform (Eff.op o)

/-- `return -1`. -/
def fail {α : Type} : Code α := Prog.fail

/-- `if (… < 0) return -1`. -/
def check (p : Code Bool) : Code Unit := do
  if ← p then pure () else fail

end Code

end AuraRedis
