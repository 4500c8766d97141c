import AuraRedis.Server.Strings

/-!
# CONFIG

`CONFIG GET`, `SET` and `REWRITE`. An argument is cut to the size of the buffer it is copied to and read as
a C string.
-/

set_option autoImplicit false

namespace AuraRedis

open Code
open CString (CArray cstr atoi strtoull isSpace fgets)

/-- An argument as the C string in a buffer of `size` bytes. -/
def cut (size : Nat) (a : Bytes) : Bytes := cstr (a.take (size - 1))

/-- `AR_SLOWLOG_MAX`. -/
def slowlogMax : Int := 128

namespace ArCore

variable (c : ArCore)

/-- `ar_core_evict_samples`. -/
def arCoreEvictSamples : Int := if c.cfg.evictSamples > 0 then c.cfg.evictSamples else 16

/-- `ar_core_hot_soft_cap_pct`. -/
def arCoreHotSoftCapPct : Int := if c.cfg.hotSoftCapPct > 0 then c.cfg.hotSoftCapPct else 25

/-- `ar_core_rdb_dir`. -/
def arCoreRdbDir : Bytes := if c.cfg.rdbDir.val = [] then lit "." else c.cfg.rdbDir.val

/-- `ar_core_rdb_filename`. -/
def arCoreRdbFilename : Bytes :=
  if c.cfg.rdbFilename.val = [] then lit "dump.aura-rdb" else c.cfg.rdbFilename.val

/-- `bind_addr`, or what stands for it. -/
def binding : Bytes := if c.cfg.bindAddr.val = [] then lit "127.0.0.1" else c.cfg.bindAddr.val

end ArCore

def yesNo (b : Bool) : Bytes := if b then lit "yes" else lit "no"

/-! ## The file -/

/-- What `ar_config_rewrite` writes. -/
def configText (c : ArCore) : Bytes :=
  let line (name : String) (v : Bytes) := lit name ++ lit " " ++ v ++ [10]
  lit "# aura-redis.conf " ++ [226, 128, 148] ++ lit " written by CONFIG SET / CONFIG REWRITE\n" ++
  lit "# Path override: --config / AURA_REDIS_CONFIG\n" ++
  line "maxmemory" (Decimal.ofNat c.cfg.maxmemory) ++
  line "requirepass" c.cfg.requirepass ++
  line "protected-mode" (yesNo c.cfg.protectedMode) ++
  line "evict-samples" (Decimal.ofInt c.arCoreEvictSamples) ++
  line "maxclients" (Decimal.ofInt c.cfg.maxclients) ++
  line "timeout" (Decimal.ofInt c.cfg.timeoutSec) ++
  line "tcp-backlog" (Decimal.ofInt c.cfg.tcpBacklog) ++
  line "slowlog-log-slower-than" (Decimal.ofInt c.cfg.slowlogSlowerThanUs) ++
  line "slowlog-max-len" (Decimal.ofInt c.cfg.slowlogMaxLen) ++
  line "dir" c.arCoreRdbDir ++
  line "dbfilename" c.arCoreRdbFilename ++
  line "bind" c.binding ++
  line "shadow-policy" c.cfg.shadowPolicy.val ++
  line "shadow-sample-pct" (Decimal.ofInt c.cfg.shadowSamplePct) ++
  line "hot-soft-cap-pct" (Decimal.ofInt c.arCoreHotSoftCapPct) ++
  line "hot-soft-cap-min" (Decimal.ofInt c.cfg.hotSoftCapMin) ++
  line "hot-promote-on-get" (yesNo c.cfg.hotPromoteOnGet)

/-- `ar_config_rewrite`: the text goes to a file aside, which is renamed when it is whole. -/
def arConfigRewrite : Code Bool := do
  let core ← eff .core
  if core.cfg.configPath.val = [] then return false
  if !(← eff .ask) then return false
  if !(← eff .ask) then return false
  eff (.writeFile core.cfg.configPath.val (configText core))

/-- A line of the file without its end. -/
def stripEol (s : Bytes) : Bytes := (s.reverse.dropWhile fun b => b == 10 || b == 13).reverse

/-- Key and value of a line; `none` when it is blank or a comment. -/
def configLine (line : Bytes) : Option (Bytes × Bytes) :=
  let p := (stripEol (cstr line)).dropWhile isSpace
  if p = [] ∨ p.head? = some 35 then none
  else some (p.takeWhile (!isSpace ·), (p.dropWhile (!isSpace ·)).dropWhile isSpace)

/-- `config_set_ok`: a rewrite that fails is no error. -/
def configSetOk (c : Nat) : Code Unit := do
  let core ← eff .core
  if core.cfg.configPath.val ≠ [] then
    let _ ← arConfigRewrite
    pure ()
  replyOk c

namespace Dispatch

/-! ## CONFIG GET -/

/-- `pairs`, and how many elements they are. -/
structure Pairs where
  bytes : Bytes := []
  nitems : Nat := 0

/-- A piece, when there is room for it. -/
def Pairs.put (p : Pairs) (piece : Bytes) (items : Nat) : Pairs :=
  if p.bytes.length + piece.length < 2048 then ⟨p.bytes ++ piece, p.nitems + items⟩ else p

/-- The value as `AR_CFG_ADD` writes it: the header has the whole length, `tmp` only 255 bytes. -/
def cfgBulk (v : Bytes) : Bytes :=
  36 :: (Decimal.ofNat v.length ++ (Resp.crlf ++ (v.take 255 ++ Resp.crlf)))

/-- `AR_CFG_ADD`. -/
def arCfgAdd (pat : Bytes) (p : Pairs) (name : Bytes) (v : Bytes) : Pairs :=
  if pat ≠ lit "*" ∧ pat ≠ name then p
  else
    let p := p.put (Resp.bulk name) 0
    -- `snprintf` fails on a value whose length is no `int`
    if v.length ≥ 2 ^ 31 then p else p.put (cfgBulk v) 2

/-- What is configured. A number is written to a buffer of its own first. -/
def cfgValues (c : ArCore) : List (Bytes × Bytes) :=
  let vbuf (size : Nat) (v : Bytes) := v.take (size - 1)
  [(lit "maxmemory", vbuf 64 (Decimal.ofNat c.cfg.maxmemory)),
   (lit "requirepass", c.cfg.requirepass),
   (lit "protected-mode", yesNo c.cfg.protectedMode),
   (lit "evict-samples", vbuf 32 (Decimal.ofInt c.arCoreEvictSamples)),
   (lit "bind", c.binding),
   (lit "maxclients", vbuf 32 (Decimal.ofInt c.cfg.maxclients)),
   (lit "timeout", vbuf 32 (Decimal.ofInt c.cfg.timeoutSec)),
   (lit "tcp-backlog", vbuf 32 (Decimal.ofInt c.cfg.tcpBacklog)),
   (lit "slowlog-log-slower-than", vbuf 32 (Decimal.ofInt c.cfg.slowlogSlowerThanUs)),
   (lit "slowlog-max-len", vbuf 32 (Decimal.ofInt c.cfg.slowlogMaxLen)),
   (lit "dir", c.arCoreRdbDir),
   (lit "dbfilename", c.arCoreRdbFilename),
   (lit "shadow-policy", c.cfg.shadowPolicy.val),
   (lit "shadow-sample-pct", vbuf 32 (Decimal.ofInt c.cfg.shadowSamplePct)),
   (lit "hot-soft-cap-pct", vbuf 32 (Decimal.ofInt c.arCoreHotSoftCapPct)),
   (lit "hot-soft-cap-min", vbuf 32 (Decimal.ofInt c.cfg.hotSoftCapMin)),
   (lit "hot-promote-on-get", yesNo c.cfg.hotPromoteOnGet),
   (lit "config-file", c.cfg.configPath.val)]

/-- The pairs that match. -/
def cfgPairs (pat : Bytes) (vs : List (Bytes × Bytes)) : Pairs :=
  vs.foldl (fun p nv => arCfgAdd pat p nv.1 nv.2) {}

def configGet (c : Nat) (argv : List Bytes) : Code Unit :=
  if argv.length ≠ 3 then wrongArgs c "config|get"
  else do
    let core ← eff .core
    let p := cfgPairs (cut 64 (arg argv 2)) (cfgValues core)
    wbufAppend c (Resp.arrayHdr p.nitems)
    if p.bytes ≠ [] then wbufAppend c p.bytes

/-! ## CONFIG SET -/

/-- An option that must pass a check. -/
def setOption (c : Nat) (name : String) (ok : Bool) (set : Code Unit) : Code Unit :=
  if ok then do
    set
    configSetOk c
  else replyErr c ("ERR config set " ++ name)

/-- `ar_core_set_requirepass`. -/
def setRequirepass (val : Bytes) : Code Bool := do
  eff (.setCfg fun g => { g with requirepass := [] })
  if val = [] then return true
  if !(← eff .malloc) then return false
  eff (.setCfg fun g => { g with requirepass := val })
  return true

/-- `slowlog-max-len`: the log forgets what is over. -/
def setSlowlogMaxLen (n : Int) : Code Unit := do
  let n : Int := if n < 0 then 0 else if n > slowlogMax then slowlogMax else n
  eff (.setCfg fun g => { g with slowlogMaxLen := n })
  eff (.setSrv fun s => { s with slowlogLen := if s.slowlogLen > n then n else s.slowlogLen })

/-- `ar_core_set_shadow_policy`; whether the name fits. -/
def setShadowPolicy (name : Bytes) : Code Bool :=
  if name.length ≥ 32 then return false
  else do
    eff (.setCfg fun g => { g with shadowPolicy := .ofBytes 32 name })
    return true

/-- `ar_core_set_shadow_sample_pct`. -/
def setShadowSamplePct (pct : Int) : Code Unit :=
  eff (.setCfg fun g => { g with shadowSamplePct := if pct < 0 then 0 else if pct > 100 then 100 else pct })

/-- What `CONFIG SET` and the file have in common: an option is set if it passes its check. -/
def setWhen (ok : Bool) (set : Code Unit) : Code Bool :=
  if ok then do
    set
    return true
  else return false

/-- `apply_kv`. A key that it does not know it passes over; beside what `CONFIG SET` takes for no, `off` is no. -/
def applyKv (key val : Bytes) : Code Bool :=
  let on := !decide (val ∈ [lit "no", lit "0", lit "false", lit "off"])
  let setCfg (f : Cfg → Cfg) : Code Unit := eff (.setCfg f)
  if cmdEq key "maxmemory" then setWhen true (call (.arCoreSetMaxmemory (strtoull val).1))
  else if cmdEq key "requirepass" then setRequirepass val
  else if cmdEq key "protected-mode" then setWhen true (setCfg fun g => { g with protectedMode := on })
  else if cmdEq key "evict-samples" || cmdEq key "samples" then
    setWhen true (call (.arCoreSetEvictSamples (atoi val)))
  else if cmdEq key "maxclients" then
    setWhen (decide (1 ≤ atoi val ∧ atoi val ≤ maxConn)) (setCfg fun g => { g with maxclients := atoi val })
  else if cmdEq key "timeout" then
    setWhen (decide (0 ≤ atoi val)) (setCfg fun g => { g with timeoutSec := atoi val })
  else if cmdEq key "tcp-backlog" then
    setWhen (decide (1 ≤ atoi val)) (setCfg fun g => { g with tcpBacklog := atoi val })
  else if cmdEq key "slowlog-log-slower-than" then
    setWhen (decide (0 ≤ atoi val)) (setCfg fun g => { g with slowlogSlowerThanUs := atoi val })
  else if cmdEq key "slowlog-max-len" then
    setWhen true (setCfg fun g => { g with
      slowlogMaxLen := if atoi val < 0 then 0 else if atoi val > slowlogMax then slowlogMax else atoi val })
  else if cmdEq key "dir" then
    setWhen (decide (val ≠ [] ∧ val.length < 256)) (setCfg fun g => { g with rdbDir := .ofBytes 256 val })
  else if cmdEq key "dbfilename" then
    setWhen (decide (val ≠ [] ∧ 47 ∉ val ∧ 92 ∉ val ∧ val.length < 128))
      (setCfg fun g => { g with rdbFilename := .ofBytes 128 val })
  else if cmdEq key "bind" then
    setWhen (decide (val ≠ [] ∧ val.length < 64)) (setCfg fun g => { g with bindAddr := .ofBytes 64 val })
  else if cmdEq key "shadow-policy" then setShadowPolicy val
  else if cmdEq key "shadow-sample-pct" then setWhen true (setShadowSamplePct (atoi val))
  else if cmdEq key "hot-soft-cap-pct" then setWhen true (call (.arCoreSetHotSoftCapPct (atoi val)))
  else if cmdEq key "hot-soft-cap-min" then setWhen true (call (.arCoreSetHotSoftCapMin (atoi val)))
  else if cmdEq key "hot-promote-on-get" then setWhen true (call (.arCoreSetHotPromoteOnGet on))
  else return true

/-- The lines of the file, as far as they are good. -/
def applyLines : List Bytes → Code Bool
  | [] => return true
  | line :: rest =>
    match configLine line with
    | none => applyLines rest
    | some (key, val) => do
      if ← applyKv key val then applyLines rest else return false

/-- `ar_config_load`: no file is an empty one. -/
def arConfigLoad : Code Bool := do
  let core ← eff .core
  if core.cfg.configPath.val = [] then return true
  match ← eff (.readFile core.cfg.configPath.val) with
  | none => return false
  | some none => return true
  | some (some data) => applyLines (fgets 512 data [])

/-- The branches of `CONFIG SET`, for a value in `val`. -/
def configSetTo (c : Nat) (key val : Bytes) : Code Unit :=
  if cmdEq key "maxmemory" then
    setOption c "maxmemory" true (call (.arCoreSetMaxmemory (strtoull val).1))
  else if cmdEq key "requirepass" then do
    if ← setRequirepass val then configSetOk c else replyErr c "ERR config set requirepass"
  else if cmdEq key "protected-mode" then
    setOption c "protected-mode" true (eff (.setCfg fun g => { g with protectedMode := saysOn val }))
  else if cmdEq key "evict-samples" || cmdEq key "samples" then
    setOption c "evict-samples" true (call (.arCoreSetEvictSamples (atoi val)))
  else if cmdEq key "maxclients" then
    setOption c "maxclients" (decide (1 ≤ atoi val ∧ atoi val ≤ maxConn))
      (eff (.setCfg fun g => { g with maxclients := atoi val }))
  else if cmdEq key "timeout" then
    setOption c "timeout" (decide (0 ≤ atoi val)) (eff (.setCfg fun g => { g with timeoutSec := atoi val }))
  else if cmdEq key "tcp-backlog" then
    setOption c "tcp-backlog" (decide (1 ≤ atoi val)) (eff (.setCfg fun g => { g with tcpBacklog := atoi val }))
  else if cmdEq key "slowlog-log-slower-than" then
    setOption c "slowlog-log-slower-than" (decide (0 ≤ atoi val))
      (eff (.setCfg fun g => { g with slowlogSlowerThanUs := atoi val }))
  else if cmdEq key "slowlog-max-len" then
    setOption c "slowlog-max-len" true (setSlowlogMaxLen (atoi val))
  else if cmdEq key "dir" then
    setOption c "dir" (decide (val ≠ [] ∧ val.length < 256))
      (eff (.setCfg fun g => { g with rdbDir := .ofBytes 256 val }))
  else if cmdEq key "dbfilename" then
    setOption c "dbfilename" (decide (val ≠ [] ∧ 47 ∉ val ∧ 92 ∉ val ∧ val.length < 128))
      (eff (.setCfg fun g => { g with rdbFilename := .ofBytes 128 val }))
  else if cmdEq key "shadow-policy" then do
    if ← setShadowPolicy val then configSetOk c else replyErr c "ERR config set shadow-policy"
  else if cmdEq key "shadow-sample-pct" then
    setOption c "shadow-sample-pct" true (setShadowSamplePct (atoi val))
  else if cmdEq key "hot-soft-cap-pct" then
    setOption c "hot-soft-cap-pct" true (call (.arCoreSetHotSoftCapPct (atoi val)))
  else if cmdEq key "hot-soft-cap-min" then
    setOption c "hot-soft-cap-min" true (call (.arCoreSetHotSoftCapMin (atoi val)))
  else if cmdEq key "hot-promote-on-get" then
    setOption c "hot-promote-on-get" true (call (.arCoreSetHotPromoteOnGet (saysOn val)))
  else replyErr c "ERR Unknown option or number of arguments for CONFIG SET"

def configSet (c : Nat) (argv : List Bytes) : Code Unit :=
  if argv.length ≠ 4 then wrongArgs c "config|set" else configSetTo c (arg argv 2) (cut 256 (arg argv 3))

def configRewrite (c : Nat) (argv : List Bytes) : Code Unit :=
  if argv.length ≠ 2 then wrongArgs c "config|rewrite"
  else do
    let core ← eff .core
    if core.cfg.configPath.val = [] then
      replyErr c ("ERR CONFIG REWRITE disabled (empty config-file; " ++
        "set --config / AURA_REDIS_CONFIG)")
    else if ← arConfigRewrite then replyOk c
    else replyErr c "ERR CONFIG REWRITE failed"

def config (c : Nat) (argv : List Bytes) : Code Unit :=
  if argv.length < 2 then wrongArgs c "config"
  else if cmdEq (arg argv 1) "get" then configGet c argv
  else if cmdEq (arg argv 1) "set" then configSet c argv
  else if cmdEq (arg argv 1) "rewrite" then configRewrite c argv
  else replyErr c "ERR CONFIG subcommand must be GET, SET or REWRITE"

end Dispatch

end AuraRedis
