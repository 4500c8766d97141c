import AuraRedis.Agent.Journal

/-!
# Swaps, heals and canary trials

The functions of the agent that bind `choose-fn` outside the evolve loop: fitness swaps and heals, the
auto-freeze, the canary trial, the poison defence and the shadow A/B that may open a trial.
-/

set_option autoImplicit false

namespace Agent

open Aura

/-- `EVICT lfu` and `LAYOUT flat` in place, and with `pin` the samples and the pins of the hot set. -/
def applyInline (pin : Bool) : M Unit := do
  send [lit "EVICT", lit "lfu"]
  update fun g => { g with lastEvict := lit "lfu" }
  send [lit "LAYOUT", lit "flat"]
  update fun g => { g with lastLayout := lit "flat" }
  if pin then
    send [lit "EVICT", lit "samples", lit "64"]
    pinPrefixSet (lit "hot") 40
    pinPrefixSet (lit "z") 24

section
variable [Settings] [Runtime]

/-! ## Auto-freeze -/

def enterAutoFreeze (reason : Bytes) : M Unit := do
  if (← get).strat.metaFrozen then pure ()
  else
    setStrat fun s => { s with metaFrozen := true, fitnessBeforeFreeze := s.fitnessOn, fitnessOn := false }
    setMetrics fun m => { m with tickMs := Settings.autoFreezeTickMs, stableTicks := 0 }
    auditAppend (lit "auto_freeze") (lit "active") (lit "frozen") reason
    writeHeartbeat

def exitAutoFreeze (reason : Bytes) : M Unit := do
  if !(← get).strat.metaFrozen then pure ()
  else
    setStrat fun s => { s with metaFrozen := false, fitnessOn := s.fitnessBeforeFreeze }
    setMetrics fun m => { m with tickMs := Settings.tickMsBase, stableTicks := 0 }
    auditAppend (lit "auto_unfreeze") (lit "frozen") (lit "active") reason
    writeHeartbeat

/-- A percentage of the window's look-ups. -/
def windowPct (part win : Int) : Int := if win > 0 then (100 * part).tdiv win else 0

def maybeAutoFreeze (dgets dsets dhits dmisses : Int) : M Unit := do
  if !Settings.autoFreezeEnabled then pure ()
  else
    let win := dhits + dmisses
    let missPct := windowPct dmisses win
    let g ← get
    if g.strat.metaFrozen then
      if win > 8 ∧ missPct ≥ Settings.autoUnfreezeMissPp then exitAutoFreeze (lit "miss_spike")
      else if win > 8 ∧ g.metrics.hitEwma < Settings.autoFreezeEwmaMin - 25 then exitAutoFreeze (lit "ewma_drop")
      else pure ()
    else
      setMetrics fun m => { m with
        stableTicks :=
          if m.hitEwma ≥ Settings.autoFreezeEwmaMin ∧ dgets + dsets ≥ 5 ∧ missPct < 20 then m.stableTicks + 1
          else 0 }
      if (← get).metrics.stableTicks ≥ Settings.autoFreezeStableTicks then enterAutoFreeze (lit "ewma_stable")
      else pure ()

/-! ## The canary trial -/

/-- What heals and commits leave of the trial. -/
def Canary.close (c : Canary) : Canary := { c with trial := false, ticks := 0, fitSum := 0, fitN := 0 }

def canaryHeal : M Unit := do
  let c := (← get).strat.canary
  heal .canary c.fromProfile
  setStrat fun s => { s with
    profileName := c.fromProfile, lastGood := if c.fromProfile ≠ [] then c.fromProfile else s.lastGood }
  auditAppend (lit "canary-heal") c.toProfile c.fromProfile (lit "canary_heal")
  setStrat fun s => { s with canary := s.canary.close }
  setMetrics fun m => { m with ticksSinceFitness := 0, postSwapBad := 0, ticksBad := 0 }

def canaryCommit : M Unit := do
  let c := (← get).strat.canary
  setStrat fun s => { s with lastGood := c.toProfile, profileName := c.toProfile }
  auditAppend (lit "canary-commit") c.fromProfile c.toProfile (lit "canary_commit")
  if ← boundarySafe then snapshot
  setStrat fun s => { s with canary := s.canary.close }
  setMetrics fun m => { m with ticksSinceFitness := 0 }

/-- The signals of the probe that follows a canary's start. -/
def canaryProbe : Signals := ⟨20, 10, 5, 15, 0, 30, 0, 0, 0⟩

def canaryStart (toName : Bytes) : M Unit := do
  if (← get).strat.canary.trial then pure ()
  else if !(← boundarySafe) then pure ()
  else
    snapshot
    let origin := (← get).strat.profileName
    if ← install .rebind (bodyForProfile toName) (lit "canary-" ++ toName) then
      let ewma := (← get).metrics.hitEwma
      setStrat fun s => { s with
        profileName := toName
        canary := ⟨true, 0, origin, toName, ewma, 0, 0, s.canary.injectDone⟩ }
      setMetrics fun m => { m with forceRechoose := true }
      auditAppend (lit "canary-start") origin toName (lit "canary_start")
      match ← callChoose canaryProbe with
      | none => canaryHeal
      | some probe => if probe = [] then canaryHeal else pure ()
    else pure ()

/-- The counters of a tick of the trial. -/
def Canary.count (c : Canary) (dhits dmisses : Int) : Canary :=
  let win := dhits + dmisses
  { c with
    ticks := c.ticks + 1
    fitSum := if win > 0 then c.fitSum + (100 * dhits).tdiv win else c.fitSum
    fitN := if win > 0 then c.fitN + 1 else c.fitN }

/-- How a tick of the trial ends. -/
inductive Verdict
  | heal
  | commit
  | wait
  deriving DecidableEq

/-- The `cond` of `canary-tick!`. -/
def Canary.verdict (c : Canary) (hitEwma : Int) : Verdict :=
  let poisoned := Poisoned c.toProfile
  let avg := if c.fitN > 0 then c.fitSum.tdiv c.fitN else hitEwma
  let drop := if c.baselineEwma > 0 then c.baselineEwma - hitEwma else 0
  if poisoned ∧ c.ticks ≥ 1 then .heal
  else if c.fitN ≥ 2 ∧ drop ≥ Settings.canaryDropPp ∧ (hitEwma < 55 ∨ avg < 50) then .heal
  else if (c.ticks : Int) ≥ Settings.canaryTicksN then
    if poisoned ∨ avg < 45 ∨ (c.baselineEwma > 60 ∧ avg < c.baselineEwma - Settings.canaryDropPp) then .heal
    else .commit
  else .wait

def canaryTick (dhits dmisses : Int) : M Unit := do
  if !(← get).strat.canary.trial then pure ()
  else
    setStrat fun s => { s with canary := s.canary.count dhits dmisses }
    let g ← get
    match g.strat.canary.verdict g.metrics.hitEwma with
    | .heal => canaryHeal
    | .commit => canaryCommit
    | .wait => pure ()

def maybeCanaryInject : M Unit := do
  let g ← get
  if g.strat.canary.injectDone ∨ Settings.canaryInject = [] ∨ g.strat.canary.trial then pure ()
  else if g.metrics.tickCount ≥ canaryWarmTicks then
    setStrat fun s => { s with canary := { s.canary with injectDone := true } }
    canaryStart Settings.canaryInject
  else pure ()

/-! ## Fitness swaps and heals -/

def doFitnessSwapCommit (toName reason : Bytes) : M Unit := do
  if !(← boundarySafe) then pure ()
  else
    snapshot
    let origin := (← get).strat.profileName
    if ← install .rebind (bodyForProfile toName) (lit "fitness-" ++ toName) then
      setStrat fun s => { s with profileName := toName }
      setMetrics fun m => { m with ticksSinceFitness := 0, postSwapBad := 0, forceRechoose := true }
      auditAppend (lit "fitness-swap") origin toName reason
      if toName = nameDefensive ∧ (← get).link.sock then applyInline false
      else if toName = nameAggressive ∧ (← get).link.sock then applyInline true
      else pure ()
    else pure ()

def doFitnessSwap (toName reason : Bytes) : M Unit := do
  if (← get).strat.canary.trial then pure ()
  else if Settings.canaryOn then canaryStart toName
  else doFitnessSwapCommit toName reason

def doFitnessHealInner : M Unit := do
  heal .fitness (← get).strat.lastGood
  setStrat fun s => { s with profileName := s.lastGood }
  setMetrics fun m => { m with ticksSinceFitness := 0, postSwapBad := 0, ticksBad := 0 }

def doFitnessHeal : M Unit := do
  if (← get).strat.canary.trial then canaryHeal else doFitnessHealInner

/-- Whether the thresholds move, and where to. -/
def lowerThresh (p : Params) : Option Params :=
  let newMin := if p.minOps > 18 then p.minOps - 12 else p.minOps
  let newMiss := if p.missPin > 16 then p.missPin - 8 else p.missPin
  if newMin = p.minOps ∧ newMiss = p.missPin then none else some { p with minOps := newMin, missPin := newMiss }

def doFitnessThresholdMutate : M Bool := do
  match lowerThresh (← get).strat.thresh with
  | none => pure false
  | some p =>
    if !(← boundarySafe) then pure false
    else
      snapshot
      setStrat fun s => { s with thresh := p }
      let _ ← install .swap (.threshold p.minOps p.missPin) (lit "fitness-thresholds")
      setMetrics fun m => { m with ticksSinceFitness := 0 }
      setStrat fun s => { s with profileName := nameThresholded }
      pure true

/-! ## Poison defence -/

/-- A storm ends the auto-freeze. -/
def poisonThaw : M Unit := do
  if (← get).strat.metaFrozen then exitAutoFreeze (lit "poison_storm")

/-- The storm is new: the flag first, then the defensive body. -/
def poisonTrip : M Unit := do
  setStrat fun s => { s with poisonActive := true }
  poisonThaw
  auditAppend (lit "poison-defense") (← get).strat.profileName nameDefensive (lit "unique_set_storm")
  if Settings.canaryOn then canaryStart nameDefensive
  else doFitnessSwapCommit nameDefensive (lit "unique_set_storm")

def maybePoisonDefense (dunique nkeys dsets : Int) : M Unit := do
  if !Settings.poisonDefense then pure ()
  else if dunique ≥ Settings.poisonUniqueRate ∨ (dunique ≥ 15 ∧ nkeys > 100 ∧ dsets > 20) then
    if Settings.seedFrozen then pure ()
    else if (← get).strat.poisonActive then pure ()
    else poisonTrip
  else if (← get).strat.poisonActive ∧ dunique < 5 then setStrat fun s => { s with poisonActive := false }
  else pure ()

/-! ## Shadow A/B -/

def setShadow (f : Shadow → Shadow) : M Unit := update fun g => { g with shadow := f g.shadow }

/-- A command of the shadow A/B. -/
def shadowSend (args : List Bytes) : M Unit := do
  let _ ← redisCall .shadow args

def shadowCSetup : M Unit := do
  let g ← get
  if !g.shadow.ab ∨ g.shadow.cReady ∨ !g.link.sock then pure ()
  else
    shadowSend [lit "SHADOW", lit "policy", g.shadow.profile]
    shadowSend [lit "SHADOW", lit "sample-pct", Decimal.ofInt g.shadow.samplePct]
    setShadow fun s => { s with cReady := true }

def shadowWinnerScore (hitEwma : Int) (diverges : Nat) (samples misses : Int) : Int :=
  let missPct := if samples > 0 then (100 * misses).tdiv samples else 0
  100 - hitEwma + missPct.tdiv 2 + 5 * (if diverges > 6 then 6 else diverges)

def shadowAbTick (champChoice : Bytes) : M Unit := do
  let ck := shadowChoiceKernel champChoice
  let ak := shadowChoiceKernel (shadowAltChoice (← get).shadow.profile)
  let fresh ← redisCall .shadow [lit "INFO"]
  let samples := infoNum fresh (lit "shadow_samples")
  if ck ≠ [] ∧ ak ≠ [] ∧ ck ≠ ak then
    setShadow fun s => { s with diverges := s.diverges + 1 }
    shadowSend [lit "SHADOW", lit "diverge"]
    let g ← get
    let score := shadowWinnerScore g.metrics.hitEwma g.shadow.diverges samples (infoNum fresh (lit "shadow_misses"))
    if Settings.shadowAutopromote ∧ !g.strat.canary.trial
        ∧ (samples ≥ Settings.shadowScoreMinSamples ∨ g.shadow.diverges ≥ 1 ∧ g.metrics.hitEwma < 65)
        ∧ score ≥ Settings.shadowScoreGate then
      auditAppend (lit "shadow-autopromote") (lit "champ") g.shadow.profile (lit "shadow_winner_score")
      canaryStart g.shadow.profile
    else pure ()
  else pure ()

end

end Agent
