import AuraRedis.Agent.State
import AuraRedis.Lib.Prog

/-!
# What the agent does to the world

An `Effect` is a call of what the agent is built on: its variables, `std/mutate` and `std/hot-strategy`,
`std/swarm`, the connection, files and the clock. `Outside` says how each call comes out, and `handle`
performs it: a swap or a rebind that succeeds binds `choose-fn`, and `heal!` binds it to what the last safety
snapshot captured. The `trail` is what a run did to the strategy, newest first.
-/

set_option autoImplicit false

namespace Agent

open Aura

/-- Which code a command comes from: the shadow A/B, or any other. -/
inductive Channel
  | live
  | shadow
  deriving DecidableEq

/-- `mutate:rebind` or `hot-strategy:swap!`. -/
inductive Via
  | rebind
  | swap
  deriving DecidableEq

/-- Who heals. -/
inductive Healer
  | canary | fitness | reload | demo
  deriving DecidableEq

inductive Effect
  | get
  | update (f : Globals → Globals)
  /-- `mutate:boundary-safe?`. -/
  | boundarySafe
  /-- `mutate:safety-snapshot`. -/
  | snapshot
  /-- `mutate:rebind` in a `try`, or `hot-strategy:swap!`: whether it reports success. -/
  | install (via : Via) (body : Body) (tag : Bytes)
  /-- `hot-strategy:heal!`, with its caller and the name that it reports of the healed body. -/
  | heal (by' : Healer) (reported : Bytes)
  /-- `set-code` and `eval-current`. -/
  | setCode
  /-- `hot-strategy:register!`. -/
  | register (name : Bytes)
  /-- A call of `choose-fn`, `none` when it raises. -/
  | choose (s : Signals)
  /-- `hot-strategy:version`, `none` when it raises. -/
  | version
  /-- What `audit-native-note` answers. -/
  | nativeNote
  /-- `swarm:init` where it has not been called, `swarm:step!` and `swarm:best`: the best found so far, each
  number rounded and `none` for what is not a number. The whole is `none` when a call raises. -/
  | swarm (kind : Bytes)
  /-- A command and its reply, `none` when the connection is closed. -/
  | redis (by' : Channel) (args : List Bytes)
  | connect
  | close
  /-- `none` when it raises. -/
  | readFile (path : Bytes)
  | writeFile (path : Bytes) (data : Bytes)
  /-- The heartbeat file, rewritten. -/
  | heartbeat
  /-- `monotonic-ms`. -/
  | clock
  | wait (ms : Int)

@[reducible] def Answer : Effect → Type
  | .get => Globals
  | .boundarySafe => Bool
  | .install _ _ _ => Bool
  | .choose _ => Option Bytes
  | .version => Option Int
  | .nativeNote => Bytes
  | .swarm _ => Option (List (Option Int))
  | .redis _ _ => Option Bytes
  | .connect => Bool
  | .readFile _ => Option Bytes
  | .clock => Int
  | _ => Unit

abbrev M := Prog Answer

/-- What the last safety snapshot captured, with what the agent reported then. -/
structure Saved where
  body : Body
  name : Bytes
  thresh : Params
  deriving DecidableEq

/-- One entry of the trail. -/
inductive Event
  /-- The strategy variables changed. -/
  | changed (old new : Strategy)
  | safe (ok : Bool)
  /-- A body was to be installed; `trial` says that a canary trial was open. -/
  | installed (via : Via) (body : Body) (tag : Bytes) (ok trial : Bool)
  /-- `choose-fn` was healed while the strategy variables were `s`. -/
  | healed (by' : Healer) (reported : Bytes) (saved : Saved) (s : Strategy)
  deriving DecidableEq

/-- How the calls come out: each kind of call by its number. -/
structure Outside where
  safe : Nat → Bool
  installs : Nat → Bool
  version : Nat → Option Int
  note : Nat → Bytes
  swarm : Nat → Option (List (Option Int))
  replies : Channel → Nat → Option Bytes
  connects : Nat → Bool
  files : Nat → Bytes → Option Bytes
  clock : Nat → Int

structure World where
  globals : Globals
  body : Body
  saved : Saved
  trail : List Event
  /-- The commands sent, newest first. -/
  sent : List (List Bytes)
  calls : Nat
  shadowCalls : Nat

/-! ## What the agent does to the strategy -/

/-- The strategy, whether the shadow A/B is on, the body bound to `choose-fn`, the last snapshot, and how they
came about. -/
structure View where
  strat : Strategy
  ab : Bool
  body : Body
  saved : Saved
  trail : List Event

namespace View

/-- The strategy variables are set. -/
def put (v : View) (s : Strategy) : View :=
  { v with strat := s, trail := if s = v.strat then v.trail else .changed v.strat s :: v.trail }

def tell (v : View) (ok : Bool) : View := { v with trail := .safe ok :: v.trail }

def snapshot (v : View) : View := { v with saved := ⟨v.body, v.strat.profileName, v.strat.thresh⟩ }

def install (v : View) (via : Via) (body : Body) (tag : Bytes) (ok : Bool) : View :=
  { v with
    body := if ok then body else v.body, trail := .installed via body tag ok v.strat.canary.trial :: v.trail }

def heal (v : View) (by' : Healer) (reported : Bytes) : View :=
  { v with body := v.saved.body, trail := .healed by' reported v.saved v.strat :: v.trail }

end View

def World.view (w : World) : View := ⟨w.globals.strat, w.globals.shadow.ab, w.body, w.saved, w.trail⟩

def World.withView (w : World) (v : View) : World :=
  { w with globals := { w.globals with strat := v.strat }, body := v.body, saved := v.saved, trail := v.trail }

def World.called (w : World) : World := { w with calls := w.calls + 1 }

/-! ## Performing an effect -/

variable (O : Outside)

def handle : (e : Effect) → World → World × Answer e
  | .get, w => (w, w.globals)
  | .update f, w =>
    ({ w with globals := f w.globals, trail := (w.view.put (f w.globals).strat).trail }, ())
  | .boundarySafe, w => ((w.withView (w.view.tell (O.safe w.calls))).called, O.safe w.calls)
  | .snapshot, w => (w.withView w.view.snapshot, ())
  | .install via body tag, w =>
    ((w.withView (w.view.install via body tag (O.installs w.calls))).called, O.installs w.calls)
  | .heal by' reported, w => (w.withView (w.view.heal by' reported), ())
  | .setCode, w => ({ w with body := .empty }, ())
  | .register _, w => (w, ())
  | .choose s, w => (w, w.body.choose s)
  | .version, w => (w.called, O.version w.calls)
  | .nativeNote, w => (w.called, O.note w.calls)
  | .swarm _, w => (w.called, O.swarm w.calls)
  | .redis .live args, w => ({ w with sent := args :: w.sent, calls := w.calls + 1 }, O.replies .live w.calls)
  | .redis .shadow args, w =>
    ({ w with sent := args :: w.sent, shadowCalls := w.shadowCalls + 1 }, O.replies .shadow w.shadowCalls)
  | .connect, w => (w.called, O.connects w.calls)
  | .close, w => (w, ())
  | .readFile path, w => (w.called, O.files w.calls path)
  | .writeFile _ _, w => (w, ())
  | .heartbeat, w => (w, ())
  | .clock, w => (w.called, O.clock w.calls)
  | .wait _, w => (w, ())

/-! ## Programs of these effects -/

def call (e : Effect) : M (Answer e) := .perform e

def get : M Globals := call .get
def update (f : Globals → Globals) : M Unit := call (.update f)
def boundarySafe : M Bool := call .boundarySafe
def snapshot : M Unit := call .snapshot
def install (via : Via) (body : Body) (tag : Bytes) : M Bool := call (.install via body tag)
def heal (by' : Healer) (reported : Bytes) : M Unit := call (.heal by' reported)
def callChoose (s : Signals) : M (Option Bytes) := call (.choose s)
def clock : M Int := call .clock

def setStrat (f : Strategy → Strategy) : M Unit := update fun g => { g with strat := f g.strat }
def setMetrics (f : Metrics → Metrics) : M Unit := update fun g => { g with metrics := f g.metrics }
def setLink (f : Link → Link) : M Unit := update fun g => { g with link := f g.link }
def setJournal (f : Journal → Journal) : M Unit := update fun g => { g with journal := f g.journal }

/-- `redis-call!`. -/
def redisCall (by' : Channel) (args : List Bytes) : M Bytes := do
  match ← call (.redis by' args) with
  | some reply => pure reply
  | none =>
    setLink fun l => { l with connAlive := false }
    pure (lit "ERR closed")

/-- A live command of which the reply is not read. -/
def send (args : List Bytes) : M Unit := do
  let _ ← redisCall .live args

def pinPrefixSet (pfx : Bytes) (n : Nat) : M Unit :=
  Prog.each (fun i => send [lit "PIN", pfx ++ pad4 i]) (List.range n)

def unpinPrefixSet (pfx : Bytes) (n : Nat) : M Unit :=
  Prog.each (fun i => send [lit "UNPIN", pfx ++ pad4 i]) (List.range n)

end Agent
