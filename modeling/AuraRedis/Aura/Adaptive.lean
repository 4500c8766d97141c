import Mathlib.Data.Int.Basic

/-!
# The adaptive supervisor

`adaptiveTick` votes for an eviction kernel by what a window has counted, and swaps when the votes agree
(`adaptive_body.aura`). `inlinedChoice` is the choice that `server_ffi.aura` has in its own tick.
-/

set_option autoImplicit false

namespace Aura

/-- What the metrics of the core read. -/
structure Metrics where
  gets : Int
  sets : Int
  hits : Int
  misses : Int
  deriving DecidableEq

/-- A percentage of a window's look-ups. -/
def pct (part win : Int) : Int := if win > 0 then (100 * part).tdiv win else 0

def adMinOps : Int := 40
def adVotesNeed : Nat := 2
def adCooldownMs : Int := 300
def adWindowMs : Int := 150

/-- `adaptive-choose`: the kernel to ask for, the empty string for none. -/
def adaptiveChoose (dgets dsets dhits dmisses : Int) : String :=
  if dgets + dsets < adMinOps then ""
  else
    let hitPct := pct dhits (dhits + dmisses)
    let missPct := pct dmisses (dhits + dmisses)
    if dsets ≥ dgets ∧ missPct > 30 then "lfu"
    else if dsets > dgets * 2 then "lfu"
    else if dgets > dsets * 3 ∧ hitPct ≥ 50 then "lru"
    else if dgets > dsets * 5 ∧ hitPct ≥ 60 then "lru"
    else ""

/-- The `*ad-…*` variables, but for the functions that the core is asked by. -/
structure Adaptive where
  prev : Metrics := ⟨0, 0, 0, 0⟩
  lastEvalMs : Int := 0
  lastSwapMs : Int := 0
  pending : String := ""
  pendingVotes : Nat := 0
  swaps : Nat := 0
  ready : Bool := false
  deriving DecidableEq

/-- `adaptive-init!`. -/
def adaptiveInit (now : Int) : Adaptive := { lastEvalMs := now, ready := true }

/-- What a tick finds: the clock, the metrics and the name of the kernel. -/
structure Tick where
  now : Int
  metrics : Metrics
  cur : String

/-- The choice of a window that began with `prev`. -/
def Tick.choice (t : Tick) (prev : Metrics) : String :=
  adaptiveChoose (t.metrics.gets - prev.gets) (t.metrics.sets - prev.sets) (t.metrics.hits - prev.hits)
    (t.metrics.misses - prev.misses)

/-- `adaptive-tick!`, with the kernel that the core is told to swap to. -/
def adaptiveTick (s : Adaptive) (t : Tick) : Adaptive × Option String :=
  if s.ready = false then (s, none)
  else if t.now - s.lastEvalMs < adWindowMs then (s, none)
  else
    let choice := t.choice s.prev
    let s := { s with prev := t.metrics, lastEvalMs := t.now }
    if choice = "" ∨ choice = t.cur then ({ s with pending := "", pendingVotes := 0 }, none)
    else
      let votes := if choice = s.pending then s.pendingVotes + 1 else 1
      if votes ≥ adVotesNeed ∧ t.now - s.lastSwapMs ≥ adCooldownMs then
        ({ s with swaps := s.swaps + 1, lastSwapMs := t.now, pending := "", pendingVotes := 0 }, some choice)
      else ({ s with pending := choice, pendingVotes := votes }, none)

/-! ## The inlined tick -/

/-- `*ad-min-ops*` of `server_ffi.aura`. -/
def inlinedMinOps : Int := 80

/-- `*ad-choice*` of `server_ffi.aura`. -/
def inlinedChoice (dgets dsets dhits dmisses : Int) : String :=
  if dgets + dsets ≥ inlinedMinOps then
    let hitPct := pct dhits (dhits + dmisses)
    if dsets > dgets * 2 then "lfu"
    else if dgets > dsets * 5 ∧ hitPct ≥ 60 then "lru"
    else ""
  else ""

end Aura
