import AuraRedis.Agent.Canary

/-!
# The evolve loop

Generations of propose, apply, score, and keep or revert (`maybe-evolve!`). The score of the fibers is only
displayed, and is left out.
-/

set_option autoImplicit false

namespace Agent

open Aura

/-! ## Proposals -/

/-- `evolve-clamp-int`, of a number that is rounded already. -/
def evolveClampInt (x : Option Int) (lo hi : Int) : Int :=
  let n := x.getD lo
  if n < lo then lo else if n > hi then hi else n

/-- The halving that proposals use. -/
def halve (x floor : Int) : Int := if x > floor then if x.tdiv 2 < floor then floor else x.tdiv 2 else x

/-- The trial as far as the numbers of `swarm:best` go, and whether there are enough. -/
def takeBest (p : Params) : List (Option Int) → Params × Bool
  | [] => (p, false)
  | [x] => ({ p with minOps := evolveClampInt x 24 900 }, false)
  | [x, y] => ({ p with minOps := evolveClampInt x 24 900, missPin := evolveClampInt y 12 80 }, false)
  | [x, y, z] =>
    ({ p with minOps := evolveClampInt x 24 900, missPin := evolveClampInt y 12 80, wMiss := evolveClampInt z 1 20 },
      false)
  | [x, y, z, u] =>
    ({ p with
      minOps := evolveClampInt x 24 900, missPin := evolveClampInt y 12 80, wMiss := evolveClampInt z 1 20,
      wWrite := evolveClampInt u 1 5 }, false)
  | x :: y :: z :: u :: v :: _ =>
    (⟨evolveClampInt x 24 900, evolveClampInt y 12 80, evolveClampInt z 1 20, evolveClampInt u 1 5,
      evolveClampInt v 1 20⟩, true)

section
variable [Settings]

/-- `evolve-propose-swarm` on what `swarm:best` found: the trial, and whether it differs from the champion,
`none` when the call raises. -/
def evolveProposeSwarm (champ trial : Params) (best : List (Option Int)) : Params × Option Bool :=
  match takeBest trial best with
  | (p, false) => (p, none)
  | (p, true) =>
    if p = champ then
      let p := { p with
        minOps := halve champ.minOps 24
        wMiss := if Settings.weightEvolve then if champ.wMiss < 20 then champ.wMiss + 2 else champ.wMiss else p.wMiss }
      (p, some (!(decide (p.minOps = champ.minOps) && decide (p.wMiss = champ.wMiss))))
    else (p, some true)

/-- The trial of `evolve-propose-hand`, where it differs from the champion. -/
def evolveProposeHand (champ : Params) : Option Params :=
  let p : Params := {
    minOps := halve champ.minOps 24
    missPin := halve champ.missPin 12
    wMiss := if Settings.weightEvolve ∧ champ.wMiss < 20 then champ.wMiss + 2 else champ.wMiss
    wWrite := if Settings.weightEvolve ∧ champ.wWrite > 1 then champ.wWrite - 1 else champ.wWrite
    wEvict := if Settings.weightEvolve ∧ champ.wEvict < 20 then champ.wEvict + 2 else champ.wEvict }
  if p = champ then none else some p

def setEvolve (f : Evolve → Evolve) : M Unit := setStrat fun s => { s with evolve := f s.evolve }

def proposeByHand : M Bool := do
  match evolveProposeHand (← get).strat.evolve.champ with
  | none => pure false
  | some p =>
    setEvolve fun e => { e with trial := p }
    pure true

/-- The fallback of `evolve-propose-next`. -/
def proposeFallback : M Bool := do
  setEvolve fun e => { e with backend := lit "hand" }
  proposeByHand

def evolveProposeNext : M Bool := do
  let e := (← get).strat.evolve
  if e.backend = lit "hand" then proposeByHand
  else
    match ← call (.swarm e.backend) with
    | none => proposeFallback
    | some best =>
      let (p, moved) := evolveProposeSwarm e.champ e.trial best
      setEvolve fun e => { e with trial := p }
      match moved with
      | some ok => pure ok
      | none => proposeFallback

/-! ## Generations -/

def evolveApplyBody (p : Params) (tag : Bytes) : M Unit := do
  if !(← boundarySafe) then pure ()
  else
    snapshot
    if ← install .rebind (.evolved p) tag then
      setStrat fun s => { s with thresh := p, profileName := nameEvolved }
      if p.minOps ≤ 80 ∧ (← get).link.sock then applyInline true else pure ()
    else pure ()

/-- The next proposal on trial, or the end. -/
def evolveNext : M Unit := do
  if ← evolveProposeNext then
    evolveApplyBody (← get).strat.evolve.trial (lit "evolve-trial")
    setEvolve fun e => { e with mode := .trial }
  else setEvolve fun e => { e with mode := .done }

/-- What follows a window of the trial: the end after the last generation. -/
def evolveAdvance : M Unit := do
  setEvolve fun e => { e with gen := e.gen + 1 }
  if ((← get).strat.evolve.gen : Int) ≥ Settings.evolveMaxGens then setEvolve fun e => { e with mode := .done }
  else evolveNext

variable [Runtime]

/-- A window of the trial scored `fit`: the trial is kept, or the champion comes back. -/
def evolveJudge (fit : Int) : M Unit := do
  let e := (← get).strat.evolve
  if fit ≥ e.champFit then
    setEvolve fun e => { e with champFit := fit, champ := e.trial }
    auditAppend (lit "evolve-keep") (Decimal.ofInt e.trial.minOps) (Decimal.ofInt e.trial.minOps) (lit "evolve_keep")
  else evolveApplyBody e.champ (lit "evolve-revert")

def maybeEvolve : M Unit := do
  if !Settings.evolveOn ∨ (← get).strat.evolve.mode = .done then pure ()
  else
    let ewma := (← get).metrics.hitEwma
    setEvolve fun e => { e with ticks := e.ticks + 1, fitSum := e.fitSum + ewma, fitN := e.fitN + 1 }
    let e := (← get).strat.evolve
    if e.ticks < Settings.evolveWindow then pure ()
    else
      let fit := if e.fitN > 0 then e.fitSum.tdiv e.fitN else 0
      setEvolve fun e => { e with ticks := 0, fitSum := 0, fitN := 0 }
      match e.mode with
      | .baseline =>
        setStrat fun s => { s with evolve := { s.evolve with champFit := fit, champ := s.thresh } }
        evolveNext
      | .trial =>
        evolveJudge fit
        evolveAdvance
      | .done => pure ()

end

end Agent
