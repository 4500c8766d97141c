import AuraRedis.Agent.Fitness

/-!
# The agent's loop

Seeding, the pin of an earlier process, connecting with its backoff, and the tick (`policy_agent.aura`, from
`seed choose-fn` on). `session` is a run: what the agent is after it has started and made `n` ticks.
-/

set_option autoImplicit false

namespace Agent

open Aura

section
variable [Settings] [Runtime]

/-! ## Applying a choice -/

/-- The pins that a choice with `pin` asks for. -/
def pinChosen : M Unit := do
  let g ← get
  if g.hints.prefixPolicyOn then
    if g.hints.pfx0 ≠ [] ∧ (!g.hints.prefixDeep ∨ bagWantsPin g.hints.bag0) then pinPrefixSet g.hints.pfx0 32
    if g.hints.pfx1 ≠ [] ∧ (!g.hints.prefixDeep ∨ bagWantsPin g.hints.bag1) then pinPrefixSet g.hints.pfx1 32
  else
    pinPrefixSet (lit "hot") 40
    pinPrefixSet (lit "z") 24
    if g.metrics.typedPressure then pinPrefixSet (lit "prot") 24

def applyPins (curLayout : Bytes) : M Unit := do
  send [lit "EVICT", lit "samples", lit "64"]
  if curLayout ≠ lit "flat" then send [lit "LAYOUT", lit "flat"]
  pinChosen

def applyEvict (evName cur : Bytes) : M Unit := do
  if evName ≠ [] ∧ evName ≠ cur then
    send [lit "EVICT", evName]
    update fun g => { g with lastEvict := evName }
    auditAppend (lit "evict") cur evName (← get).metrics.phaseHint

def applyLayout (lyName curLayout : Bytes) : M Unit := do
  if lyName ≠ [] ∧ lyName ≠ curLayout then
    send [lit "LAYOUT", lyName]
    update fun g => { g with lastLayout := lyName }
    if Settings.hotcoldTune ∧ (lyName = lit "hot_cold" ∨ lyName = lit "hot-cold") ∧
        !(← get).metrics.hotcoldTuned then
      send [lit "CONFIG", lit "SET", lit "hot-soft-cap-pct", Decimal.ofInt Settings.hotSoftCapPct]
      setMetrics fun m => { m with hotcoldTuned := true }

/-- On a change to lru, the pins are dropped. -/
def applyUnpin (evName cur : Bytes) : M Unit := do
  if evName = lit "lru" ∧ cur ≠ lit "lru" ∧ !(← get).hints.prefixPolicyOn then
    unpinPrefixSet (lit "hot") 40
    unpinPrefixSet (lit "z") 24

/-- Applies a choice where the server runs `cur` and `curLayout`. -/
def applyChoice (choice cur curLayout : Bytes) : M Unit := do
  if choice = [] then pure ()
  else
    let c := parseChoice choice
    applyEvict c.evName cur
    applyLayout c.lyName curLayout
    applyUnpin c.evName cur
    if c.wantPin then applyPins curLayout

def evictAgain (evName : Bytes) : M Unit := do
  if evName ≠ [] ∧ evName ≠ (← get).lastEvict then
    send [lit "EVICT", evName]
    update fun g => { g with lastEvict := evName }

def layoutAgain (lyName : Bytes) : M Unit := do
  if lyName ≠ [] ∧ lyName ≠ (← get).lastLayout then
    send [lit "LAYOUT", lyName]
    update fun g => { g with lastLayout := lyName }

/-- The apply path of a choice that follows a swap. -/
def applyAgain (c : Choice) : M Unit := do
  evictAgain c.evName
  layoutAgain c.lyName
  if c.wantPin then
    send [lit "EVICT", lit "samples", lit "64"]
    pinPrefixSet (lit "hot") 40
    pinPrefixSet (lit "z") 24

/-- After a swap, `choose-fn` is asked once more and its choice applied. -/
def rechoose : M Unit := do
  if (← get).metrics.forceRechoose then
    setMetrics fun m => { m with forceRechoose := false }
    let nkeys := (← get).metrics.lastNkeys
    let choice ← callChoose ⟨20, 40, 5, 35, 3, if nkeys > 0 then nkeys else 30, 0, 0, 0⟩
    if choice.getD [] = [] then pure () else applyAgain (parseChoice (choice.getD []))

/-! ## What becomes of a choice -/

/-- The override of the policy hints. -/
def prefixChoice (h : Hints) (ttlPressure : Bool) (choice : Bytes) : Bytes :=
  if h.prefixDeep then h.composePrefixChoice Settings.preferSlru
  else if h.prefixHasSession ∧ ttlPressure then lit "ttl_aware|flat|pin"
  else if h.prefixHasZipf then if Settings.preferSlru then lit "slru|flat|pin" else lit "lfu|flat|pin"
  else if h.prefixHasSession then lit "ttl_aware|flat|pin"
  else choice

/-- The rewrite of `*prefer-slru*`. -/
def slruChoice (phaseHint choice : Bytes) : Bytes :=
  if Settings.preferSlru ∧ choice ≠ [] ∧ has choice "lfu" ∧
      (phaseHint = lit "miss_spike" ∨ phaseHint = lit "write_heavy") then
    if has choice "lfu|flat|pin" then lit "slru|flat|pin"
    else if has choice "lfu|flat" then lit "slru|flat"
    else lit "slru"
  else choice

/-- The share of the memory, in percent, that hashes take. -/
def hashShare (info : Bytes) (nk : Int) : Int :=
  let um := infoNum info (lit "used_memory")
  if um > 0 then (100 * infoNum info (lit "mem_hash")).tdiv um
  else if nk > 0 then (100 * infoNum info (lit "keys_hash")).tdiv nk
  else 0

def underTypedPressure (info : Bytes) (nk : Int) : Bool :=
  let ks := infoNum info (lit "keys_string")
  let kh := infoNum info (lit "keys_hash")
  let share := hashShare info nk
  decide ((share ≥ 35 ∨ (kh > 0 ∧ kh ≥ ks) ∨ (infoNum info (lit "bigkey_bytes") > 800 ∧ share ≥ 20)) ∧ ks > 0 ∧ nk > 8)

/-- The first override of the policy hints is audited. -/
def notePrefix (choice : Bytes) : M Unit := do
  let g ← get
  if g.hints.prefixPolicyOn ∧ choice ≠ [] ∧ !g.metrics.prefixApplies then
    auditAppend (lit "prefix_policy") g.hints.policyHints choice
      (lit (if g.hints.prefixDeep then "prefix_deep" else "prefix_policy"))
    setMetrics fun m => { m with prefixApplies := true }

/-- Typed pressure overrides the choice, and is audited the first time. -/
def pressureChoice (info : Bytes) (nk : Int) (choice : Bytes) : M Bytes := do
  if !Settings.typedPressureOn then pure choice
  else
    setMetrics fun m => { m with typedPressure := underTypedPressure info nk }
    if !underTypedPressure info nk then pure choice
    else if (← get).metrics.typedPressureApplies then pure (lit "lfu|flat|pin")
    else
      auditAppend (lit "typed_pressure") (Decimal.ofInt (hashShare info nk)) (lit "lfu|flat|pin") (lit "typed_pressure")
      setMetrics fun m => { m with typedPressureApplies := true }
      pure (lit "lfu|flat|pin")

/-- The choice of `choose-fn` as the policy hints, the preference for slru and typed pressure leave it. -/
def settleChoice (info : Bytes) (nk : Int) (choice : Bytes) : M Bytes := do
  let g ← get
  let choice := if g.hints.prefixPolicyOn then prefixChoice g.hints g.metrics.ttlPressure choice else choice
  notePrefix choice
  pressureChoice info nk (slruChoice g.metrics.phaseHint choice)

/-- What the shadow A/B is told the champion chose. -/
def champChoice (choice lastEvict : Bytes) : Bytes :=
  if choice ≠ [] then choice else if lastEvict ≠ [] then lastEvict else lit "lru"

def shadowAb (choice : Bytes) : M Unit := do
  let g ← get
  if g.shadow.ab then
    shadowCSetup
    shadowAbTick (champChoice choice g.lastEvict)

/-! ## Readings -/

/-- The numbers that a tick reads of an INFO text. -/
structure Reading where
  gets : Int
  sets : Int
  hits : Int
  misses : Int
  evicted : Int
  expired : Int
  nkeys : Int
  keysTtl : Int
  avgTtl : Int
  uniqueSets : Int

def readInfo (info : Bytes) : Reading where
  gets := infoNum info (lit "gets")
  sets := infoNum info (lit "sets")
  hits := infoNum info (lit "hits")
  misses := infoNum info (lit "misses")
  evicted := infoNum info (lit "evicted")
  expired := infoNum info (lit "expired")
  nkeys := infoNum info (lit "keys")
  keysTtl := infoNum info (lit "keys_with_ttl")
  avgTtl := infoNum info (lit "avg_ttl_ms")
  uniqueSets := infoNum info (lit "unique_sets")

def Reading.window (r : Reading) (m : Metrics) : Window :=
  if m.havePrev then
    ⟨r.gets - m.prevGets, r.sets - m.prevSets, r.hits - m.prevHits, r.misses - m.prevMisses,
      r.evicted - m.prevEvicted⟩
  else ⟨0, 0, 0, 0, 0⟩

def Reading.signals (r : Reading) (m : Metrics) : Signals :=
  let w := r.window m
  ⟨w.dgets, w.dsets, w.dhits, w.dmisses, w.devicted, r.nkeys, if m.havePrev then r.expired - m.prevExpired else 0,
    r.avgTtl, r.keysTtl⟩

/-- The readings are remembered, and the EWMA of the hit rate and the TTL pressure follow them. -/
def Reading.note (r : Reading) (m : Metrics) : Metrics :=
  let w := r.window m
  { m with
    prevGets := r.gets
    prevSets := r.sets
    prevHits := r.hits
    prevMisses := r.misses
    prevEvicted := r.evicted
    prevExpired := r.expired
    havePrev := true
    hitEwma := if w.win > 0 then (m.hitEwma * 7 + (100 * w.dhits).tdiv w.win * 3).tdiv 10 else m.hitEwma
    ttlPressure := decide (r.keysTtl > 0 ∧ r.avgTtl < 12000 ∧
      (r.keysTtl > 15 ∨ (if r.nkeys > 0 then (100 * r.keysTtl).tdiv r.nkeys else 0) ≥ 20))
    lastNkeys := r.nkeys }

/-- The part of a tick that follows an INFO reply. -/
def tickInfo (info : Bytes) : M Unit := do
  let r := readInfo info
  let cur := infoGet info (lit "evict")
  let curLayout := infoGet info (lit "layout")
  update fun g => { g with
    hints := g.hints.parsePolicyHints Settings.preferSlru (infoGet info (lit "policy_hints")) }
  let m := (← get).metrics
  let w := r.window m
  let dunique := if m.haveUniquePrev then r.uniqueSets - m.prevUniqueSets else 0
  setMetrics fun m => { r.note m with prevUniqueSets := r.uniqueSets, haveUniquePrev := true }
  maybePoisonDefense dunique r.nkeys w.dsets
  let choice ← callChoose (r.signals m)
  let choice ← settleChoice info r.nkeys (choice.getD [])
  shadowAb choice
  applyChoice choice cur curLayout
  maybeAutoFreeze w.dgets w.dsets w.dhits w.dmisses
  maybeCanaryInject
  let s := (← get).strat
  if s.canary.trial then canaryTick w.dhits w.dmisses
  else if s.metaFrozen then pure ()
  else maybeFitnessMutate w
  rechoose
  maybeEvolve

/-! ## Connecting -/

def closeSock : M Unit := do
  if (← get).link.sock then call .close
  setLink fun l => { l with sock := false, connAlive := false }

def reapplyLastPolicy : M Unit := do
  let info ← redisCall .live [lit "INFO"]
  if errClosed info then setLink fun l => { l with connAlive := false }
  else
    let g ← get
    if g.lastEvict ≠ [] then send [lit "EVICT", g.lastEvict]
    if g.lastLayout ≠ [] then send [lit "LAYOUT", g.lastLayout]
    setMetrics fun m => { m with havePrev := false }
    logPolicyPin

/-- The delay after a failed attempt. -/
def backOff (delay : Int) : Int := if delay * 2 < Settings.backoffCap then delay * 2 else Settings.backoffCap

/-- AUTH where there is a password, and PING: whether the server answers. -/
def greet : M Bool := do
  if Settings.password ≠ [] then
    let reply ← redisCall .live [lit "AUTH", Settings.password]
    if errClosed reply then setLink fun l => { l with connAlive := false }
  if !(← get).link.connAlive then pure false
  else
    let pong ← redisCall .live [lit "PING"]
    pure !(errClosed pong)

/-- What follows the first reply on a connection. -/
def connected : M Unit := do
  if (← get).link.everConnected then
    setLink fun l => { l with reconnects := l.reconnects + 1 }
    reapplyLastPolicy
    logPolicyPin
  else
    setLink fun l => { l with everConnected := true }
    logPolicyPin
    setMetrics fun m => { m with havePrev := false }
  setLink fun l => { l with backoffMs := 50 }
  writeHeartbeat

/-- The loop of `ensure-connected!`, cut off after `fuel` attempts. -/
def connectLoop : Nat → Int → M Unit
  | 0, _ => .fail
  | fuel + 1, delay => do
    let ok ← call .connect
    setLink fun l => { l with sock := ok }
    if !ok then
      call (.wait delay)
      connectLoop fuel (backOff delay)
    else
      setLink fun l => { l with connAlive := true }
      if ← greet then connected
      else
        closeSock
        call (.wait delay)
        connectLoop fuel (backOff delay)

def ensureConnected (fuel : Nat) : M Unit := do
  let l := (← get).link
  if l.connAlive ∧ l.sock then pure ()
  else
    closeSock
    connectLoop fuel l.backoffMs

/-! ## The tick -/

/-- The first phase of the demo. -/
def demoInvert (elapsed : Int) : M Unit := do
  if !(← get).demo.didInvert ∧ elapsed ≥ 3000 then
    if ← boundarySafe then
      snapshot
      let _ ← install .swap .inverted (lit "demo-invert")
      update fun g => { g with demo := { g.demo with didInvert := true } }

/-- The second phase of the demo. Its probe only decides what is displayed. -/
def demoBroken (elapsed : Int) : M Unit := do
  let g ← get
  if g.demo.didInvert ∧ !g.demo.didHeal ∧ elapsed ≥ 6500 then
    snapshot
    let _ ← install .swap .broken (lit "demo-broken")
    let _ ← callChoose brokenProbe
    heal .demo (← get).strat.profileName
    update fun g => { g with demo := { g.demo with didHeal := true } }

def demoTick : M Unit := do
  if !Settings.demo then pure ()
  else
    let now ← clock
    let elapsed := now - (← get).demo.t0
    demoInvert elapsed
    demoBroken elapsed
    if elapsed ≥ 10000 then setLink fun l => { l with running := false }

/-- The drop of the connection that a test asks for. -/
def forceReconnect : M Unit := do
  let g ← get
  if !g.link.forcedReconnectDone ∧ Settings.forceReconnectAfter > 0 ∧
      (g.metrics.tickCount : Int) ≥ Settings.forceReconnectAfter ∧ g.link.connAlive then
    closeSock
    setLink fun l => { l with forcedReconnectDone := true }

/-- The end of that test. -/
def finishReconnectTest : M Unit := do
  let g ← get
  if g.link.forcedReconnectDone ∧ g.link.reconnects ≥ 1 ∧ !Settings.demo ∧
      (g.metrics.tickCount : Int) ≥ Settings.forceReconnectAfter + 2 then
    setLink fun l => { l with running := false, fatal := false }

def tick (fuel : Nat) : M Unit := do
  call (.wait (← get).metrics.tickMs)
  setMetrics fun m => { m with tickCount := m.tickCount + 1 }
  forceReconnect
  ensureConnected fuel
  maybeReloadProfile
  writeHeartbeat
  finishReconnectTest
  let info ← redisCall .live [lit "INFO"]
  if errClosed info then closeSock else tickInfo info
  demoTick

/-! ## Starting -/

/-- `*a1-boot-path*`; the guard that a booted agent leaves there. -/
def bootPath (getenv : Env) : Bytes :=
  lit ".ar-agent-booted-" ++ (setting getenv "AURA_REDIS_PORT").getD (lit "6379") ++ lit ".flag"

def bootGuardFile : Bytes := lit ".ar-agent-booted-" ++ Decimal.ofInt Settings.port ++ lit ".flag"

/-- Whether a re-evaluation of the file is to stop at once. -/
def reentry (getenv : Env) : M Bool := do
  let raw ← tryReadFile (bootPath getenv)
  pure ((lit "booted").isPrefixOf raw)

/-- The seed profile, where it is not the normal one. -/
def seedProfile : M Unit := do
  if Settings.seedProfile = [] ∨ Settings.seedProfile = nameNormal then pure ()
  else
    snapshot
    let _ ← install .swap (bodyForProfile Settings.seedProfile) (lit "seed-" ++ Settings.seedProfile)
    setStrat fun s => { s with
      profileName := Settings.seedProfile
      lastGood := if Poisoned Settings.seedProfile then s.lastGood else Settings.seedProfile }

/-- The thresholds are seeded where EVOLVE is on or they are not the usual ones. -/
def seedThresholds : M Unit := do
  setEvolve fun e => { e with
    trial := { e.trial with wMiss := e.champ.wMiss, wWrite := e.champ.wWrite, wEvict := e.champ.wEvict } }
  let p := (← get).strat.thresh
  if Settings.evolveOn ∨ ¬(p.minOps = 40 ∧ p.missPin = 30) then
    snapshot
    let _ ← install .swap (.evolved p) (lit (if Settings.evolveOn then "evolve-seed" else "thresh-seed-frozen"))
    setStrat fun s => { s with
      profileName := if Settings.evolveOn then nameEvolved else nameThresholded
      evolve := { s.evolve with mode := if Settings.evolveOn then .baseline else .done } }

/-- Seeding: the boot guard, the normal body, the prefix bags, the seed profile and the thresholds. -/
def seed : M Unit := do
  call (.writeFile bootGuardFile (lit "booted\n"))
  call .setCode
  snapshot
  let _ ← boundarySafe
  call (.register (lit "choose-fn"))
  let _ ← install .swap .normal (lit "seed-normal")
  call (.register (lit "pfx-bag-0"))
  call (.register (lit "pfx-bag-1"))
  call (.register (lit "choose-fn"))
  setStrat fun s => { s with lastGood := nameNormal, profileName := nameNormal }
  seedProfile
  setStrat fun s => { s with evolve := { s.evolve with champ := s.thresh } }
  seedThresholds

/-- The part of `resume-from-pin!` that follows a pin which names a profile. -/
def resumeProfile (raw prof : Bytes) : M Unit := do
  let ver := pinGet raw (lit "version")
  let ev := pinGet raw (lit "last_evict")
  let ly := pinGet raw (lit "last_layout")
  setJournal fun j => { j with pinFromVersion := if ver ≠ [] then (Runtime.stringToNumber ver).getD 0 else 0 }
  update fun g => { g with
    lastEvict := if ev ≠ [] then ev else g.lastEvict
    lastLayout := if ly ≠ [] then ly else g.lastLayout }
  if prof ≠ (← get).strat.profileName then
    snapshot
    let _ ← install .swap (bodyForProfile prof) (lit "resume-" ++ prof)
    setStrat fun s => { s with profileName := prof, lastGood := prof }
  setJournal fun j => { j with pinResumed := true }
  let version ← tryVersion 0
  notePolicy version
  let j := (← get).journal
  auditAppend (lit "policy_pin") (Decimal.ofInt j.pinFromVersion) (Decimal.ofInt j.policyVersion) (lit "resume")
  writePolicyPin

def resumeFromPin : M Unit := do
  if Settings.pinFile = [] then logPolicyPin
  else
    let raw ← tryReadFile Settings.pinFile
    let prof := pinGet raw (lit "profile")
    if prof = [] then
      logPolicyPin
      writePolicyPin
    else resumeProfile raw prof

/-- From the end of the seeding to the first tick. -/
def start (fuel : Nat) : M Unit := do
  resumeFromPin
  let _ ← clock
  ensureConnected fuel
  if Settings.demo then
    let now ← clock
    update fun g => { g with demo := { g.demo with t0 := now } }

end

/-! ## Runs -/

section
variable [Runtime] (getenv : Env) (O : Outside)

/-- The agent has read its environment and nothing else. -/
def World.initial : World where
  globals := initialGlobals getenv
  body := .empty
  saved := ⟨.empty, nameNormal, readThresh getenv⟩
  trail := []
  sent := []
  calls := 0
  shadowCalls := 0

/-- What a program of the agent leads to, `none` when it raises. -/
def perform {α : Type} (p : M α) (w : World) : Option (α × World) :=
  (p.run (handle O) w).2.map fun a => (a, (p.run (handle O) w).1)

/-- The agent when its seeding is done. A process that finds the boot guard does nothing. -/
def seeded : Option World :=
  match perform O (reentry getenv) (World.initial getenv) with
  | some (false, w) => (perform O (@seed (readEnv getenv)) w).map (·.2)
  | _ => none

/-- The agent after its start and `n` ticks, each attempt to connect cut off after `fuel` times; `none` when it
has stopped. -/
def session (fuel : Nat) : Nat → Option World
  | 0 => (seeded getenv O).bind fun w => (perform O (@start (readEnv getenv) _ fuel) w).map (·.2)
  | n + 1 => (session fuel n).bind fun w =>
    if w.globals.link.running then (perform O (@tick (readEnv getenv) _ fuel) w).map (·.2) else none

end

end Agent
