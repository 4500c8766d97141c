import AuraRedis.Agent.Body

/-!
# The variables of the agent

`Settings` are the variables that nothing sets once the environment is read, `Globals` the others. Counters
that only the heartbeat and the closing line display are left out.
-/

set_option autoImplicit false

namespace Agent

open Aura

/-- The environment, as `getenv` reads it. -/
abbrev Env := String → Option Bytes

class Settings where
  port : Int
  tickMsBase : Int
  demo : Bool
  profileFile : Bytes
  seedProfile : Bytes
  seedFrozen : Bool
  autoFreezeEnabled : Bool
  autoFreezeStableTicks : Int
  autoFreezeEwmaMin : Int
  autoFreezeTickMs : Int
  autoUnfreezeMissPp : Int
  evolveOn : Bool
  evolveMaxGens : Int
  evolveWindow : Int
  weightEvolve : Bool
  shadowAutopromote : Bool
  shadowScoreGate : Int
  shadowScoreMinSamples : Int
  poisonDefense : Bool
  poisonUniqueRate : Int
  typedPressureOn : Bool
  hotcoldTune : Bool
  hotSoftCapPct : Int
  preferSlru : Bool
  password : Bytes
  heartbeatFile : Bytes
  pinFile : Bytes
  auditFile : Bytes
  canaryOn : Bool
  canaryTicksN : Int
  canaryInject : Bytes
  canaryDropPp : Int
  forceReconnectAfter : Int
  backoffCap : Int

/-- `*canary-warm-ticks*`, which no setting changes. -/
def canaryWarmTicks : Nat := 3

/-- `*canary-…*`. The mode `trial` is a flag, and `idle` that it is not set. -/
structure Canary where
  trial : Bool
  ticks : Nat
  fromProfile : Bytes
  toProfile : Bytes
  baselineEwma : Int
  fitSum : Int
  fitN : Int
  injectDone : Bool
  deriving DecidableEq

inductive EvolveMode
  | baseline
  | trial
  | done
  deriving DecidableEq

/-- `*evolve-…*`, `*champ-…*` and `*trial-…*`. -/
structure Evolve where
  mode : EvolveMode
  gen : Nat
  ticks : Int
  fitSum : Int
  fitN : Int
  champ : Params
  champFit : Int
  trial : Params
  backend : Bytes
  deriving DecidableEq

/-- The variables that decide on `choose-fn`, or say what it is. `thresh` are `*thresh-min-ops*`,
`*thresh-miss-pin*` and the signal weights. -/
structure Strategy where
  profileName : Bytes
  lastGood : Bytes
  fitnessOn : Bool
  fitnessBeforeFreeze : Bool
  metaFrozen : Bool
  poisonActive : Bool
  thresh : Params
  canary : Canary
  evolve : Evolve
  deriving DecidableEq

/-- What the ticks measure. -/
structure Metrics where
  prevGets : Int
  prevSets : Int
  prevHits : Int
  prevMisses : Int
  prevEvicted : Int
  prevExpired : Int
  havePrev : Bool
  prevUniqueSets : Int
  haveUniquePrev : Bool
  hitEwma : Int
  prevEwma : Int
  ticksBad : Int
  ticksSinceFitness : Int
  postSwapBad : Int
  phaseHint : Bytes
  ttlPressure : Bool
  typedPressure : Bool
  lastNkeys : Int
  forceRechoose : Bool
  stableTicks : Int
  tickMs : Int
  tickCount : Nat
  prefixApplies : Bool
  typedPressureApplies : Bool
  hotcoldTuned : Bool
  deriving DecidableEq

/-- The connection. `sock` says that `*sock*` is a number. -/
structure Link where
  sock : Bool
  connAlive : Bool
  everConnected : Bool
  backoffMs : Int
  reconnects : Nat
  forcedReconnectDone : Bool
  running : Bool
  fatal : Bool
  deriving DecidableEq

/-- The pin and the audit ring. -/
structure Journal where
  policyVersion : Int
  profileHash : Bytes
  pinFromVersion : Int
  pinResumed : Bool
  pinLastPayload : Bytes
  auditMid : Int
  auditMidSeq : Nat
  auditVersion : Int
  auditOp : Bytes
  auditReason : Bytes
  deriving DecidableEq

/-- The shadow A/B, its settings with it. -/
structure Shadow where
  ab : Bool
  profile : Bytes
  samplePct : Int
  cReady : Bool
  diverges : Nat
  deriving DecidableEq

structure Demo where
  t0 : Int
  didInvert : Bool
  didHeal : Bool
  deriving DecidableEq

structure Globals where
  strat : Strategy
  metrics : Metrics
  hints : Hints
  link : Link
  journal : Journal
  shadow : Shadow
  demo : Demo
  lastEvict : Bytes
  lastLayout : Bytes
  deriving DecidableEq

/-! ## The environment -/

section
variable [Runtime] (getenv : Env)

/-- The variable, where it is set and not empty. -/
def setting (name : String) : Option Bytes := (getenv name).filter (· ≠ [])

/-- `1`, `true` or `yes`. -/
def flag (name : String) : Bool := (getenv name).any fun e => e = lit "1" || e = lit "true" || e = lit "yes"

/-- `1`, `true`, `yes` or `on`. -/
def flagOn (name : String) : Bool := flag getenv name || (getenv name).any (· = lit "on")

/-- `0`, `false`, `no` or `off`. -/
def flagOff (name : String) : Bool :=
  (getenv name).any fun e => e = lit "0" || e = lit "false" || e = lit "no" || e = lit "off"

def number (name : String) (initial : Int) : Int :=
  ((setting getenv name).bind Runtime.stringToNumber).getD initial

def readPort : Int := number getenv "AURA_REDIS_PORT" 6379

@[reducible] def readEnv : Settings :=
  let tickMsBase := number getenv "AURA_REDIS_POLICY_MS" 200
  let port := readPort getenv
  let heartbeatFile := (setting getenv "AURA_REDIS_POLICY_HEARTBEAT").getD []
  let shadowAutopromote := flagOn getenv "AURA_REDIS_SHADOW_AUTOPROMOTE"
  let canaryInject := (setting getenv "AURA_REDIS_CANARY_INJECT").getD []
  { port
    tickMsBase
    demo := flag getenv "AURA_REDIS_POLICY_DEMO"
    profileFile := (setting getenv "AURA_REDIS_POLICY_PROFILE_FILE").getD []
    seedProfile := (setting getenv "AURA_REDIS_SEED_PROFILE").getD nameNormal
    seedFrozen := flag getenv "AURA_REDIS_FROZEN"
    autoFreezeEnabled := flag getenv "AURA_REDIS_AUTO_FREEZE"
    autoFreezeStableTicks := number getenv "AURA_REDIS_AUTO_FREEZE_STABLE_TICKS" 12
    autoFreezeEwmaMin := number getenv "AURA_REDIS_AUTO_FREEZE_EWMA_MIN" 80
    autoFreezeTickMs := number getenv "AURA_REDIS_AUTO_FREEZE_TICK_MS" (tickMsBase * 5)
    autoUnfreezeMissPp := number getenv "AURA_REDIS_AUTO_UNFREEZE_MISS_PP" 35
    evolveOn := flagOn getenv "AURA_REDIS_EVOLVE"
    evolveMaxGens := number getenv "AURA_REDIS_EVOLVE_MAX_GENS" 6
    evolveWindow := number getenv "AURA_REDIS_EVOLVE_WINDOW" 8
    weightEvolve := !flagOff getenv "AURA_REDIS_WEIGHT_EVOLVE"
    shadowAutopromote
    shadowScoreGate := number getenv "AURA_REDIS_SHADOW_SCORE_GATE" 40
    shadowScoreMinSamples := number getenv "AURA_REDIS_SHADOW_SCORE_MIN_SAMPLES" 5
    poisonDefense := !flagOff getenv "AURA_REDIS_POISON_DEFENSE"
    poisonUniqueRate := number getenv "AURA_REDIS_POISON_UNIQUE_RATE" 40
    typedPressureOn := !flagOff getenv "AURA_REDIS_TYPED_PRESSURE"
    hotcoldTune := flagOn getenv "AURA_REDIS_HOTCOLD_TUNE"
    hotSoftCapPct := number getenv "AURA_REDIS_HOT_SOFT_CAP_PCT" 25
    preferSlru := flagOn getenv "AURA_REDIS_PREFER_SLRU"
    password := ((setting getenv "AURA_REDIS_PASSWORD").or (setting getenv "AURA_REDIS_REQUIREPASS")).getD []
    heartbeatFile
    pinFile := (setting getenv "AURA_REDIS_POLICY_PIN").getD
      (if heartbeatFile ≠ [] then heartbeatFile ++ lit ".pin"
       else lit ".ar-policy-pin-" ++ Decimal.ofInt port ++ lit ".pin")
    auditFile := (setting getenv "AURA_REDIS_POLICY_AUDIT").getD
      (lit ".ar-policy-audit-" ++ Decimal.ofInt port ++ lit ".log")
    canaryOn := shadowAutopromote || flagOn getenv "AURA_REDIS_CANARY" || canaryInject ≠ []
    canaryTicksN := number getenv "AURA_REDIS_CANARY_TICKS" 5
    canaryInject
    canaryDropPp := number getenv "AURA_REDIS_CANARY_DROP_PP" 12
    forceReconnectAfter := number getenv "AURA_REDIS_POLICY_FORCE_RECONNECT_AFTER" 0
    backoffCap := number getenv "AURA_REDIS_POLICY_BACKOFF_CAP_MS" 4000 }

/-- FROZEN clears the flag, FITNESS_MUTATE sets it as it says, and EVOLVE clears it last. -/
def readFitnessOn : Bool :=
  !flagOn getenv "AURA_REDIS_EVOLVE" &&
    if (setting getenv "AURA_REDIS_FITNESS_MUTATE").isSome then !flagOff getenv "AURA_REDIS_FITNESS_MUTATE"
    else !flag getenv "AURA_REDIS_FROZEN"

def readBackend : Bytes :=
  match setting getenv "AURA_REDIS_EVOLVE_BACKEND" with
  | none => lit "hand"
  | some e =>
    if e = lit "swarm" || e = lit "pso" then lit "pso"
    else if e = lit "fss" then lit "fss"
    else if e = lit "grid" then lit "grid"
    else lit "hand"

def readThresh : Params where
  minOps := number getenv "AURA_REDIS_THRESH_MIN_OPS" 40
  missPin := number getenv "AURA_REDIS_THRESH_MISS_PIN" 30
  wMiss := number getenv "AURA_REDIS_W_MISS" 10
  wWrite := number getenv "AURA_REDIS_W_WRITE" 2
  wEvict := number getenv "AURA_REDIS_W_EVICT" 10

def readShadow : Shadow where
  ab := flagOn getenv "AURA_REDIS_SHADOW_AB"
  profile := (setting getenv "AURA_REDIS_SHADOW_PROFILE").getD nameAggressive
  samplePct := number getenv "AURA_REDIS_SHADOW_SAMPLE_PCT" 10
  cReady := false
  diverges := 0

/-- `*thresh-min-ops*` and the others as they are defined. -/
def Params.initial : Params := ⟨40, 30, 10, 2, 10⟩

def Canary.initial : Canary := ⟨false, 0, [], [], 0, 0, 0, false⟩

/-- The variables once the environment is read. -/
def initialStrategy : Strategy where
  profileName := nameNormal
  lastGood := nameNormal
  fitnessOn := readFitnessOn getenv
  fitnessBeforeFreeze := true
  metaFrozen := false
  poisonActive := false
  thresh := readThresh getenv
  canary := .initial
  evolve := ⟨.baseline, 0, 0, 0, 0, .initial, 0, .initial, readBackend getenv⟩

def initialMetrics : Metrics where
  prevGets := 0
  prevSets := 0
  prevHits := 0
  prevMisses := 0
  prevEvicted := 0
  prevExpired := 0
  havePrev := false
  prevUniqueSets := 0
  haveUniquePrev := false
  hitEwma := 0
  prevEwma := 0
  ticksBad := 0
  ticksSinceFitness := 999
  postSwapBad := 0
  phaseHint := lit "unknown"
  ttlPressure := false
  typedPressure := false
  lastNkeys := 0
  forceRechoose := false
  stableTicks := 0
  tickMs := number getenv "AURA_REDIS_POLICY_MS" 200
  tickCount := 0
  prefixApplies := false
  typedPressureApplies := false
  hotcoldTuned := false

def initialGlobals : Globals where
  strat := initialStrategy getenv
  metrics := initialMetrics getenv
  hints := .initial
  link := ⟨false, false, false, 50, 0, false, true, false⟩
  journal := ⟨0, [], 0, false, [], 0, 0, 0, [], []⟩
  shadow := readShadow getenv
  demo := ⟨0, false, false⟩
  lastEvict := []
  lastLayout := []

end

end Agent
