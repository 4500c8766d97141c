import AuraRedis.Agent.Text

/-!
# The bodies of `choose-fn`

A `Body` is a function that the agent may bind to `choose-fn`: those of `policy/choose_*.aura`, and those
that `build-threshold-body` and `build-evolve-body` write out. `Body.choose` runs it; `none` is a call that
raises. `quotient` rounds towards zero, hence `Int.tdiv`.
-/

set_option autoImplicit false

namespace Agent

/-- Thresholds and signal weights. -/
structure Params where
  minOps : Int
  missPin : Int
  wMiss : Int
  wWrite : Int
  wEvict : Int
  deriving DecidableEq

inductive Body
  /-- What `set-code` seeds: the empty choice. -/
  | empty
  | normal
  | aggressive
  | conservative
  | inverted
  | broken
  | nosoft
  | defensive
  /-- `build-threshold-body`. -/
  | threshold (minOps missPin : Int)
  /-- `build-evolve-body`. -/
  | evolved (p : Params)
  deriving DecidableEq

/-- The arguments of `choose-fn`. -/
structure Signals where
  dgets : Int
  dsets : Int
  dhits : Int
  dmisses : Int
  devicted : Int
  nkeys : Int
  dexpired : Int
  avgTtl : Int
  keysTtl : Int

namespace Signals

variable (s : Signals)

def ops : Int := s.dgets + s.dsets

def hitPct : Int := if s.dhits + s.dmisses > 0 then (100 * s.dhits).tdiv (s.dhits + s.dmisses) else 0

def missPct : Int := if s.dhits + s.dmisses > 0 then (100 * s.dmisses).tdiv (s.dhits + s.dmisses) else 0

def ttlShare : Int := if s.nkeys > 0 then (100 * s.keysTtl).tdiv s.nkeys else 0

def erate : Int := if s.ops > 0 then (100 * s.devicted).tdiv s.ops else 0

/-- Keys with deadlines that are close. -/
def shortTtl (ms : Int) : Bool := decide (s.keysTtl > 0) && decide (s.avgTtl < ms)

end Signals

/-! ## The bodies -/

def chooseAggressive (s : Signals) : Bytes :=
  if s.ops < 12 then []
  else if s.erate ≥ 18 then if s.shortTtl 12000 then lit "ttl_aware|flat|soft" else lit "lru|flat|soft"
  else if s.shortTtl 12000 ∧ (s.ttlShare ≥ 15 ∨ s.keysTtl > 10) then lit "ttl_aware|flat"
  else if s.dsets ≥ s.dgets ∧ s.missPct > 15 ∨ s.missPct > 18 ∧ s.nkeys > 0 then
    if s.missPct > 20 ∨ s.devicted > 1 then lit "lfu|flat|pin" else lit "lfu|flat"
  else if s.dsets > s.dgets * 1 then lit "lfu|flat"
  else if s.dgets > s.dsets * 2 ∧ s.hitPct ≥ 45 then lit "lru|flat"
  else if s.dgets > s.dsets ∧ s.hitPct < 50 ∧ s.missPct > 20 then lit "lru|flat"
  else []

def chooseConservative (s : Signals) : Bytes :=
  if s.ops < 120 then []
  else if s.erate ≥ 25 then if s.shortTtl 8000 then lit "ttl_aware|flat|soft" else lit "lru|flat|soft"
  else if s.keysTtl > 30 ∧ s.avgTtl < 5000 ∧ s.devicted > 0 then lit "ttl_aware|flat"
  else if s.dsets > s.dgets * 3 ∧ s.missPct > 55 then lit "lfu|hot_cold"
  else if s.dsets > s.dgets * 3 then lit "lfu"
  else if s.dgets > s.dsets * 8 ∧ s.hitPct ≥ 75 then lit "lru"
  else if s.devicted > 20 ∧ s.nkeys > 100 then lit "lfu|hot_cold"
  else []

def chooseDefensive (s : Signals) : Bytes := if s.ops < 20 then [] else lit "lfu|flat|soft"

def chooseInverted (s : Signals) : Bytes :=
  if s.ops < 40 then []
  else if s.dsets > s.dgets * 2 then lit "lru|flat"
  else if s.dgets > s.dsets * 5 ∧ s.hitPct ≥ 60 then lit "lfu|hot_cold"
  else []

/-- What `choose_normal`, `choose_nosoft` and `build-threshold-body` have in common, below their soft goal. -/
def chooseSignals (s : Signals) (missPin missEvict : Int) : Bytes :=
  if s.shortTtl 12000 ∧ (s.ttlShare ≥ 20 ∨ s.keysTtl > 15) then lit "ttl_aware|flat"
  else if s.dsets ≥ s.dgets ∧ s.missPct > missPin ∧ s.nkeys > 0 then lit "lfu|flat|pin"
  else if s.dsets > s.dgets * 2 then lit "lfu|flat"
  else if s.devicted > 0 ∧ s.missPct > missEvict then lit "lfu|flat|pin"
  else if s.dgets > s.dsets * 3 ∧ s.hitPct ≥ 50 then lit "lru|flat"
  else if s.dgets > s.dsets * 2 ∧ s.hitPct < 55 ∧ s.missPct > 15 then lit "lru|flat"
  else if s.dgets > s.dsets * 5 ∧ s.hitPct ≥ 60 then lit "lru|flat"
  else []

def chooseNormal (s : Signals) : Bytes :=
  if s.ops < 40 then []
  else if s.erate ≥ 20 then if s.shortTtl 12000 then lit "ttl_aware|flat|soft" else lit "lru|flat|soft"
  else chooseSignals s 30 40

def chooseNosoft (s : Signals) : Bytes := if s.ops < 40 then [] else chooseSignals s 30 40

def chooseThreshold (minOps missPin : Int) (s : Signals) : Bytes :=
  if s.ops < minOps then []
  else if s.erate ≥ 20 then if s.shortTtl 12000 then lit "ttl_aware|flat" else lit "lru|flat"
  else chooseSignals s missPin (missPin + 10)

def chooseEvolved (p : Params) (s : Signals) : Bytes :=
  if s.ops < p.minOps then []
  else if s.dsets ≥ s.dgets ∧ s.missPct * p.wMiss > p.missPin * 10 ∧ s.nkeys > 0 then lit "lfu|flat|pin"
  else if s.dsets > s.dgets * p.wWrite then lit "lfu|flat"
  else if s.devicted > 0 ∧ s.missPct * p.wEvict > (p.missPin + 10) * 10 then lit "lfu|flat|pin"
  else []

/-- A call of `choose-fn`. The broken body takes four arguments and names what is not bound. -/
def Body.choose : Body → Signals → Option Bytes
  | .empty, _ => some []
  | .normal, s => some (chooseNormal s)
  | .aggressive, s => some (chooseAggressive s)
  | .conservative, s => some (chooseConservative s)
  | .inverted, s => some (chooseInverted s)
  | .broken, _ => none
  | .nosoft, s => some (chooseNosoft s)
  | .defensive, s => some (chooseDefensive s)
  | .threshold minOps missPin, s => some (chooseThreshold minOps missPin s)
  | .evolved p, s => some (chooseEvolved p s)

/-! ## Profiles -/

/-- The names of the profiles that the code compares with. -/
def nameNormal : Bytes := lit "normal"
def nameAggressive : Bytes := lit "aggressive"
def nameConservative : Bytes := lit "conservative"
def nameInverted : Bytes := lit "inverted"
def nameBroken : Bytes := lit "broken"
def nameDefensive : Bytes := lit "defensive"
def nameThresholded : Bytes := lit "thresholded"
def nameEvolved : Bytes := lit "evolved"

def bodyForProfile (name : Bytes) : Body :=
  if name = nameAggressive then .aggressive
  else if name = nameConservative then .conservative
  else if name = nameInverted then .inverted
  else if name = nameBroken then .broken
  else if name = lit "nosoft" then .nosoft
  else if name = nameDefensive then .defensive
  else .normal

/-- The profiles that the agent treats as poison. -/
def Poisoned (name : Bytes) : Prop := name = nameInverted ∨ name = nameBroken

instance (name : Bytes) : Decidable (Poisoned name) := inferInstanceAs (Decidable (_ ∨ _))

/-- What the challenger of the shadow A/B would choose, `shadow-alt-choice`. -/
def shadowAltChoice (profile : Bytes) : Bytes :=
  if profile = nameAggressive then lit "lfu|flat|pin"
  else if profile = nameInverted then lit "lru|flat"
  else if profile = nameConservative then lit "lru|flat"
  else if profile = lit "nosoft" then lit "lfu|flat"
  else if profile = lit "slru" then lit "slru|flat|pin"
  else lit "lru|flat"

end Agent
