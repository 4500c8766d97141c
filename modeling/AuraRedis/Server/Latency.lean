import AuraRedis.Server.Config

/-!
# The time a command took

What `process_reads` notes of each command after it: its latency, and the command itself in the slow log when it
took long enough.
-/

set_option autoImplicit false

namespace AuraRedis

open Code

/-- `AR_SLOWLOG_ARGV`. -/
def slowlogArgv : Nat := 8

/-- `AR_SLOWLOG_ARG_LEN`. -/
def slowlogArgLen : Nat := 48

/-- The entry of a command. -/
def slowEntry (id : Nat) (now : Int) (us : Nat) (argv : List Bytes) : ArSlowEntry :=
  { id, unixTs := now, durationUs := us, args := (argv.take slowlogArgv).map (·.take (slowlogArgLen - 1)) }

/-- The entry in the ring. -/
def ArSrv.slowlogPush (s : ArSrv) (maxl now : Int) (us : Nat) (argv : List Bytes) : ArSrv :=
  { s with
    slowlog := s.slowlog.set s.slowlogHead.toNat (slowEntry s.slowlogNextId now us argv)
    slowlogNextId := (s.slowlogNextId + 1) % 2 ^ 64
    slowlogHead := (s.slowlogHead + 1) % maxl
    slowlogLen := if s.slowlogLen < maxl then s.slowlogLen + 1 else s.slowlogLen }

/-- `slowlog_push`. -/
def slowlogPush (us : Nat) (argv : List Bytes) : Code Unit := do
  let core ← eff .core
  let maxl := core.cfg.slowlogMaxLen
  if maxl ≤ 0 then return ()
  let maxl := if maxl > slowlogMax then slowlogMax else maxl
  let now ← eff .time
  eff (.setSrv fun s => s.slowlogPush maxl now us argv)

/-- The counters of `note_cmd_latency`. -/
def ArSrv.noteLatency (s : ArSrv) (us : Nat) : ArSrv :=
  let s := { s with
    cmdLatencySumUs := (s.cmdLatencySumUs + us) % 2 ^ 64
    cmdLatencySamples := (s.cmdLatencySamples + 1) % 2 ^ 64 }
  if us < 1000 then { s with cmdLt1ms := (s.cmdLt1ms + 1) % 2 ^ 64 }
  else if us < 10000 then { s with cmdLt10ms := (s.cmdLt10ms + 1) % 2 ^ 64 }
  else if us < 100000 then { s with cmdLt100ms := (s.cmdLt100ms + 1) % 2 ^ 64 }
  else { s with cmdGe100ms := (s.cmdGe100ms + 1) % 2 ^ 64 }

/-- `note_cmd_latency`, of a command that took `us` microseconds. `SLOWLOG` itself is not put in the log. -/
def noteCmdLatency (us : Nat) (argv : List Bytes) : Code Unit := do
  eff (.setSrv fun s => s.noteLatency us)
  let core ← eff .core
  if core.cfg.slowlogSlowerThanUs ≥ 0 ∧ (us : Int) ≥ core.cfg.slowlogSlowerThanUs then do
    eff (.setSrv fun s => { s with slowlogCount := (s.slowlogCount + 1) % 2 ^ 64 })
    if argv.length > 0 ∧ cmdEq (arg argv 0) "slowlog" = false then slowlogPush us argv

end AuraRedis
