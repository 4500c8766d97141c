import AuraRedis.Agent.Effects

/-!
# The pin, the audit ring and the heartbeat

The durable policy pin, the audit lines with their explanation that the server is sent, and the heartbeat. What
the heartbeat file says is left out.
-/

set_option autoImplicit false

namespace Agent

open Aura

/-- `hot-strategy:version` outside a `try`. -/
def strategyVersion : M Int := do
  match ← call .version with
  | some v => pure v
  | none => .fail

/-- `hot-strategy:version` in a `try`, and `old` where it raises. -/
def tryVersion (old : Int) : M Int := do
  let v ← call .version
  pure (v.getD old)

/-- `read-file` in a `try`, and the empty text where it raises. -/
def tryReadFile (path : Bytes) : M Bytes := do
  let raw ← call (.readFile path)
  pure (raw.getD [])

/-- `compute-profile-hash`. -/
def computeProfileHash (g : Globals) : Bytes :=
  Decimal.ofNat (100000 * g.strat.profileName.length + 1000 * g.lastEvict.length + 10 * g.lastLayout.length
    + g.hints.bag0.length + g.hints.bag1.length)

def notePolicy (version : Int) : M Unit :=
  update fun g => { g with journal := { g.journal with policyVersion := version, profileHash := computeProfileHash g } }

def pinPayload (g : Globals) : Bytes :=
  lit "profile=" ++ g.strat.profileName ++ lit "\n" ++
  lit "version=" ++ Decimal.ofInt g.journal.policyVersion ++ lit "\n" ++
  lit "profile_hash=" ++ g.journal.profileHash ++ lit "\n" ++
  lit "last_evict=" ++ g.lastEvict ++ lit "\n" ++
  lit "last_layout=" ++ g.lastLayout ++ lit "\n" ++
  lit "from_version=" ++ Decimal.ofInt g.journal.pinFromVersion ++ lit "\n" ++
  lit "resumed=" ++ lit (if g.journal.pinResumed then "1" else "0") ++ lit "\n"

section
variable [Settings]

def writePolicyPin : M Unit := do
  if Settings.pinFile = [] then pure ()
  else
    let version ← tryVersion (← get).journal.policyVersion
    notePolicy version
    let g ← get
    if pinPayload g = g.journal.pinLastPayload then pure ()
    else
      setJournal fun j => { j with pinLastPayload := pinPayload g }
      call (.writeFile Settings.pinFile (pinPayload g))

def logPolicyPin : M Unit := do
  let version ← strategyVersion
  notePolicy version
  writePolicyPin

def writeHeartbeat : M Unit := do
  if Settings.heartbeatFile = [] then pure ()
  else
    let version ← strategyVersion
    setJournal fun j => { j with policyVersion := version }
    call .heartbeat
    writePolicyPin

/-! ## The audit ring -/

/-- The text, or a dash for none. -/
def orDash (s : Bytes) : Bytes := if s = [] then lit "-" else s

/-- The mutation id that a native note names, 0 for none. -/
def nativeMid [Runtime] (native : Bytes) : Int :=
  if (lit "mid=").isPrefixOf native && native.length > 4 then (Runtime.stringToNumber (native.drop 4)).getD 0 else 0

/-- A line `ts= op= from= to= reason= version= mid= evict= layout=`. -/
def auditLine (ts : Int) (op fromName toName reason : Bytes) (g : Globals) : Bytes :=
  lit "ts=" ++ Decimal.ofInt ts ++ lit " op=" ++ op ++ lit " from=" ++ fromName ++ lit " to=" ++ toName ++
  lit " reason=" ++ reason ++ lit " version=" ++ Decimal.ofInt g.journal.auditVersion ++
  lit " mid=" ++ Decimal.ofInt g.journal.auditMid ++ lit " evict=" ++ orDash g.lastEvict ++
  lit " layout=" ++ orDash g.lastLayout ++ lit "\n"

/-- The file with one more line: once it is longer than 8192 bytes, the last 6144 of them. -/
def auditMerge (prev line : Bytes) : Bytes :=
  let merged := prev ++ line
  if merged.length > 8192 then merged.drop (merged.length - 6144) else merged

def auditPushExplain : M Unit := do
  let g ← get
  if !g.link.sock then pure ()
  else send [lit "POLICY", lit "EXPLAIN", Decimal.ofInt g.journal.auditMid, g.journal.auditReason, g.journal.auditOp,
    orDash g.lastEvict, orDash g.lastLayout]

variable [Runtime]

def auditAppend (op fromName toName reason : Bytes) : M Unit := do
  let ts ← clock
  let version ← tryVersion (← get).journal.auditVersion
  let native ← call .nativeNote
  setJournal fun j => { j with
    auditOp := op
    auditReason := reason
    auditVersion := version
    auditMidSeq := j.auditMidSeq + 1
    auditMid := if nativeMid native > 0 then nativeMid native else (j.auditMidSeq + 1 : Nat) }
  let g ← get
  if Settings.auditFile ≠ [] then
    let prev ← tryReadFile Settings.auditFile
    call (.writeFile Settings.auditFile (auditMerge prev (auditLine ts op fromName toName reason g)))
  auditPushExplain
  writeHeartbeat

end

end Agent
