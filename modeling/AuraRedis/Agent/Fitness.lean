import AuraRedis.Agent.Evolve

/-!
# Fitness-driven mutation and the profile file

`maybe-fitness-mutate!`, in three parts: what it notes of the window, what it concludes, and what it does about
it. `maybe-reload-profile!` follows the profile file.
-/

set_option autoImplicit false

namespace Agent

open Aura

/-! ## Fitness -/

/-- The deltas of a tick. -/
structure Window where
  dgets : Int
  dsets : Int
  dhits : Int
  dmisses : Int
  devicted : Int

def phaseHintOf (w : Window) : Bytes :=
  if w.dsets ≥ w.dgets ∧ w.dmisses > w.dhits then lit "miss_spike"
  else if w.dsets > w.dgets * 2 then lit "write_heavy"
  else if w.dgets > w.dsets * 3 then lit "read_heavy"
  else if w.dmisses > w.dhits * 2 then lit "miss_spike"
  else lit "mixed"

def fitnessTargetProfile (profileName : Bytes) : Bytes :=
  if profileName = nameInverted ∨ profileName = nameBroken ∨ profileName = nameConservative then nameAggressive
  else if profileName = nameNormal then nameAggressive
  else nameNormal

namespace Window

variable (w : Window)

def ops : Int := w.dgets + w.dsets

def win : Int := w.dhits + w.dmisses

def missPct : Int := windowPct w.dmisses w.win

/-- The window is good enough to remember the profile. -/
def good (hitEwma : Int) (profileName : Bytes) : Prop := hitEwma ≥ 70 ∧ w.ops ≥ 20 ∧ ¬Poisoned profileName

instance (hitEwma : Int) (profileName : Bytes) : Decidable (w.good hitEwma profileName) :=
  inferInstanceAs (Decidable (_ ∧ _ ∧ _))

/-- `*ticks-bad*` and, in a good window, `*post-swap-bad*`. -/
def noteBad (good : Bool) (m : Metrics) : Metrics :=
  let m := if good then { m with ticksBad := 0, postSwapBad := 0 } else m
  if w.win > 15 ∧ (m.hitEwma < 55 ∨ w.missPct > 40) then { m with ticksBad := m.ticksBad + 1 }
  else if w.win > 15 ∧ m.hitEwma ≥ 65 then { m with ticksBad := 0 }
  else m

def missSpike : Prop := w.win > 10 ∧ w.missPct > 35 ∧ w.ops > 15

def evictPressure : Prop := w.devicted > 0 ∧ w.missPct > 35 ∧ w.ops > 25

instance : Decidable w.missSpike := inferInstanceAs (Decidable (_ ∧ _ ∧ _))

instance : Decidable w.evictPressure := inferInstanceAs (Decidable (_ ∧ _ ∧ _))

/-- `*prev-ewma*` and `*post-swap-bad*`. -/
def notePost (poisoned : Bool) (m : Metrics) : Metrics :=
  { m with
    prevEwma := m.hitEwma
    postSwapBad :=
      if m.ticksSinceFitness ≥ 6 ∧ m.ticksSinceFitness < 999 ∧ (m.hitEwma < 50 ∨ poisoned) ∧ w.win > 15 then
        m.postSwapBad + 1
      else m.postSwapBad }

end Window

/-- What the fitness tick does. -/
inductive FitnessMove
  | none
  | heal
  | swap (toName reason : Bytes)
  /-- Lower the thresholds, or swap where they are at their floor. -/
  | threshold (toName reason : Bytes)
  deriving DecidableEq

/-- The `cond` of `maybe-fitness-mutate!`. -/
def fitnessMove (w : Window) (m : Metrics) (ewmaDrop : Bool) (profileName : Bytes) : FitnessMove :=
  let poisoned := Poisoned profileName
  let stuck := m.ticksBad ≥ 5 ∧ w.ops > 10
  if m.postSwapBad ≥ 5 ∧ m.ticksSinceFitness ≥ 6 then .heal
  else if poisoned ∧ (w.missSpike ∨ stuck ∨ m.hitEwma < 60 ∨ m.ticksBad ≥ 3) then
    if m.ticksSinceFitness ≥ 1 then .heal else .none
  else if m.ticksSinceFitness ≥ 4 ∧ (ewmaDrop ∧ (w.missSpike ∨ w.evictPressure) ∨ w.missSpike ∨ stuck ∨
      profileName = nameConservative ∧ (w.missSpike ∨ stuck ∨ m.ticksBad ≥ 6)) then
    let toName := fitnessTargetProfile profileName
    let reason :=
      if w.missSpike then lit "miss_spike"
      else if ewmaDrop then lit "ewma_drop"
      else if stuck then lit "stuck"
      else if w.evictPressure then lit "evict_pressure"
      else lit "fitness"
    let plain := profileName = nameNormal ∨ profileName = nameThresholded
    if toName = profileName then .heal
    else if w.missSpike ∨ profileName = nameConservative then .swap nameAggressive reason
    else if m.ttlPressure ∧ plain then .swap nameAggressive (reason ++ lit "-ttl")
    else if plain then .threshold toName reason
    else .swap toName reason
  else .none

section
variable [Settings] [Runtime]

def fitnessAct : FitnessMove → M Unit
  | .none => pure ()
  | .heal => doFitnessHeal
  | .swap toName reason => doFitnessSwap toName reason
  | .threshold toName reason => do
    if ← doFitnessThresholdMutate then pure () else doFitnessSwap toName reason

/-- The variables that say when the profile was good, and how bad things are. -/
def fitnessNote (w : Window) (hitEwma : Int) (name : Bytes) : M Unit := do
  if w.good hitEwma name then setStrat fun s => { s with lastGood := s.profileName } else pure ()
  setMetrics fun m => w.notePost (Poisoned name) (w.noteBad (w.good hitEwma name) { m with phaseHint := phaseHintOf w })

def maybeFitnessMutate (w : Window) : M Unit := do
  setMetrics fun m => { m with ticksSinceFitness := m.ticksSinceFitness + 1 }
  let g ← get
  if !g.strat.fitnessOn then pure ()
  else
    let ewmaDrop := g.metrics.prevEwma > 0 ∧ g.metrics.prevEwma - g.metrics.hitEwma ≥ 15
    fitnessNote w g.metrics.hitEwma g.strat.profileName
    fitnessAct (fitnessMove w (← get).metrics ewmaDrop g.strat.profileName)

/-! ## The profile file -/

/-- The signals of the probe that follows a swap to the broken body. -/
def brokenProbe : Signals := ⟨100, 10, 90, 10, 0, 100, 0, 0, 0⟩

def maybeReloadProfile : M Unit := do
  if Settings.profileFile = [] then pure ()
  else
    match ← call (.readFile Settings.profileFile) with
    | none => .fail
    | some raw =>
      let name := trimWs raw
      if name = [] ∨ name = (← get).strat.profileName then pure ()
      else if ← boundarySafe then
        snapshot
        let r ← install .swap (bodyForProfile name) (lit "profile-" ++ name)
        setStrat fun s => { s with profileName := name }
        if name = nameBroken then
          let probe ← callChoose brokenProbe
          if !r ∨ probe = none then
            heal .reload nameNormal
            setStrat fun s => { s with profileName := nameNormal }
          else pure ()
        else pure ()
      else pure ()

end

end Agent
