import AuraRedis.Server.Config

/-!
# The control plane

The commands that show and set what the policy agents watch: `INFO`, `EVICT`, `SHADOW`, `HOTCOLD`, `POLICY`,
`PIN`, `LAYOUT`, `PLUGIN` and `SLOWLOG`.
-/

set_option autoImplicit false

namespace AuraRedis

open Code
open CString (CArray cstr atoi)

/-! ## Texts -/

/-- A text printed to a buffer of `size` bytes and sent with the length it would have: what does not fit is
read from behind the buffer. -/
def replyText (c size : Nat) (text : Bytes) : Code Unit :=
  if text.length < size then replyBulk c text
  else do
    let past ← eff (.stack (text.length - size))
    replyBulk c (text.take (size - 1) ++ 0 :: past)

/-- The fields of a text on one line. -/
def fieldLine (fs : List (String × Bytes)) : Bytes :=
  ((fs.map fun f => lit f.1 ++ lit ":" ++ f.2).intersperse (lit " ")).flatten ++ [10]

/-- An argument copied into a buffer of `size` bytes, when it fits and is not empty. -/
def nonempty (size : Nat) (a : Bytes) : Option Bytes := if a.length = 0 then none else buf size a

/-- `ops->name`. -/
def EvictKernel.name : EvictKernel → String
  | .noop => "noop"
  | .lru => "lru"
  | .lfu => "lfu"
  | .ttlAware => "ttl_aware"
  | .slru => "slru"
  | .tinylfu => "tinylfu"
  | .random => "random"
  | .rr => "rr"

/-- The names of `ar_core_set_evict_by_name`. -/
def evictByName (name : Bytes) : Option EvictKernel :=
  if name = lit "noop" then some .noop
  else if name = lit "lru" then some .lru
  else if name = lit "lfu" then some .lfu
  else if name = lit "ttl_aware" ∨ name = lit "ttl" then some .ttlAware
  else if name = lit "slru" then some .slru
  else if name = lit "tinylfu" ∨ name = lit "w_tinylfu" ∨ name = lit "tiny_lfu" then some .tinylfu
  else none

/-- `parse_layout_name`. -/
def parseLayoutName (name : Bytes) : Option ArLayoutKind :=
  if name = lit "flat" ∨ name = lit "flat_hash" then some .flat
  else if name = lit "hot_cold" ∨ name = lit "hot-cold" then some .hotCold
  else none

namespace ArCore

variable (c : ArCore)

/-- `ar_core_layout_name`. -/
def arCoreLayoutName : Bytes := if c.dict.layout = .hotCold then lit "hot_cold" else lit "flat"

/-- `ar_core_hot_keys`. -/
def arCoreHotKeys : Nat := if c.dict.layout = .hotCold then c.dict.hotNkeys else c.dict.nkeys

/-- `ar_core_cold_keys`. -/
def arCoreColdKeys : Nat := if c.dict.layout = .hotCold then c.dict.coldNkeys else 0

/-- `ar_core_policy_hints`, into a buffer of `buflen` bytes. -/
def arCorePolicyHints (buflen : Nat) : Bytes :=
  go c.srv.policyHints []
where
  go : List (CArray 16 × CArray 32) → Bytes → Bytes
    | [], used => used
    | h :: hs, used =>
      let piece := (if used = [] then [] else lit ";") ++ h.1.val ++ lit "=" ++ h.2.val
      if used.length + piece.length + 1 > buflen then used else go hs (used ++ piece)

end ArCore

namespace Dispatch

/-! ## INFO -/

/-- The lines of `INFO`, a section's title without a value. -/
def infoLines (c : ArCore) (now : Nat) : List (String × Option Bytes) :=
  let n (v : Nat) : Option Bytes := some (Decimal.ofNat v)
  let d (v : Int) : Option Bytes := some (Decimal.ofInt v)
  let b (v : Bool) : Option Bytes := some (yesNo v)
  let m := c.mem
  let s := c.stats
  let v := c.srv
  [("# Server", none),
   ("aura_redis_version", some (lit "0.1")),
   ("tcp_port", d v.tcpPort),
   ("tls_port", d v.tlsPort),
   ("tls_enabled", b v.tlsListens),
   ("binding", some c.binding),
   ("protected_mode", b c.cfg.protectedMode),
   ("requirepass", b (!c.cfg.requirepass.isEmpty)),
   ("role", some (if v.replReadonly then lit "slave" else lit "master")),
   ("master_host", some v.masterHost.val),
   ("master_port", d v.masterPort),
   ("connected_slaves", n (c.conns.countP fun x => x.inUse && x.isReplica)),
   ("# Clients", none),
   ("connected_clients", n c.connectedClients),
   ("maxclients", d c.cfg.maxclients),
   ("timeout", d c.cfg.timeoutSec),
   ("tcp_backlog", d c.cfg.tcpBacklog),
   ("# Memory", none),
   ("used_memory", n m.usedMemory),
   ("maxmemory", n c.cfg.maxmemory),
   ("# Stats", none),
   ("ops", n s.ops),
   ("cmd_lt_1ms", n v.cmdLt1ms),
   ("cmd_lt_10ms", n v.cmdLt10ms),
   ("cmd_lt_100ms", n v.cmdLt100ms),
   ("cmd_ge_100ms", n v.cmdGe100ms),
   ("cmd_avg_us", n (v.cmdLatencySumUs / v.cmdLatencySamples)),
   ("slowlog_count", n v.slowlogCount),
   ("slowlog_log_slower_than", d c.cfg.slowlogSlowerThanUs),
   ("gets", n s.gets),
   ("sets", n s.sets),
   ("hits", n s.hits),
   ("misses", n s.misses),
   ("evicted", n s.evicted),
   ("expired", n s.expired),
   ("# Keyspace", none),
   ("keys", n c.dict.nkeys),
   ("keys_with_ttl", n m.keysWithTtl),
   ("avg_ttl_ms", n (c.arCoreAvgTtlMs now)),
   ("# Persistence", none),
   ("loading", n (if v.rdbLoading then 1 else 0)),
   ("aof_enabled", n 0),
   ("rdb_bgsave_in_progress", n (if v.rdbBgsavePid > 0 then 1 else 0)),
   ("rdb_last_save_time", n v.rdbLastSaveTime),
   ("rdb_last_bgsave_status", some (if v.rdbLastBgsaveOk then lit "ok" else lit "err")),
   ("dir", some c.arCoreRdbDir),
   ("dbfilename", some c.arCoreRdbFilename),
   ("aura_rdb", n 2),
   ("# Aura", none),
   ("evict", some (lit c.cfg.evict.name)),
   ("layout", some c.arCoreLayoutName),
   ("samples", d c.arCoreEvictSamples),
   ("pinned", n m.pinnedKeys),
   ("plugin", n (if v.evictPlugin then 1 else 0)),
   ("plugin_reloads", n s.pluginReloads),
   ("layout_gen", n s.layoutGen),
   ("hot_keys", n c.arCoreHotKeys),
   ("cold_keys", n c.arCoreColdKeys),
   ("policy_hints", some (c.arCorePolicyHints 160)),
   ("keys_string", n (m.typeNkeys .string)),
   ("keys_hash", n (m.typeNkeys .hash)),
   ("keys_list", n (m.typeNkeys .list)),
   ("keys_zset", n (m.typeNkeys .zset)),
   ("mem_string", n (m.typeBytes .string)),
   ("mem_hash", n (m.typeBytes .hash)),
   ("mem_list", n (m.typeBytes .list)),
   ("mem_zset", n (m.typeBytes .zset)),
   ("bigkey_bytes", n s.bigkeyBytes),
   ("bigkey_type", some (lit (arTypeName s.bigkeyType))),
   ("hot_soft_cap_pct", d c.arCoreHotSoftCapPct),
   ("hot_soft_cap_min", d c.cfg.hotSoftCapMin),
   ("hot_promote_on_get", b c.cfg.hotPromoteOnGet),
   ("hot_soft_cap", n c.hotSoftCap),
   ("shadow_policy", some c.cfg.shadowPolicy.val),
   ("shadow_sample_pct", d c.cfg.shadowSamplePct),
   ("shadow_samples", n s.shadowSamples),
   ("shadow_hits", n s.shadowHits),
   ("shadow_misses", n s.shadowMisses),
   ("shadow_diverges", n s.shadowDiverges),
   ("explain_mid", some v.explain.mid.val),
   ("explain_reason", some v.explain.reason.val),
   ("explain_op", some v.explain.op.val),
   ("explain_evict", some v.explain.evict.val),
   ("explain_layout", some v.explain.layout.val),
   ("explain", some v.explain.join.val),
   ("unique_sets", n s.uniqueSets)]

def infoText (ls : List (String × Option Bytes)) : Bytes :=
  ls.flatMap fun l => lit l.1 ++ (l.2.elim [] fun v => lit ":" ++ v) ++ [10]

def info (c : Nat) (_ : List Bytes) : Code Unit := do
  let core ← eff .core
  -- the clock is read for `avg_ttl_ms` only, and only when a key has a deadline
  let now ← if core.mem.keysWithTtl = 0 then pure 0 else eff .now
  replyText c 5120 (infoText (infoLines core now))

/-! ## Knobs -/

def badEvict : String := "ERR bad evict (want noop|lru|lfu|ttl_aware|slru|tinylfu)"

def evict (c : Nat) (argv : List Bytes) : Code Unit :=
  if argv.length = 1 then do
    let core ← eff .core
    replyBulk c (lit core.cfg.evict.name)
  else if argv.length = 2 then
    match (nonempty 64 (arg argv 1)).bind fun a => evictByName (cstr a) with
    | none => replyErr c badEvict
    | some kernel => do
      call (.arCoreSetEvict kernel)
      replyOk c
  else if argv.length = 3 ∧ cmdEq (arg argv 1) "samples" then
    match nbuf (arg argv 2) with
    | none => replyErr c "ERR bad samples"
    | some v => do
      call (.arCoreSetEvictSamples (atoi v))
      replyOk c
  else wrongArgs c "evict"

def shadow (c : Nat) (argv : List Bytes) : Code Unit :=
  if argv.length = 1 then do
    let core ← eff .core
    replyText c 512 (fieldLine
      [("policy", core.cfg.shadowPolicy.val),
       ("sample_pct", Decimal.ofInt core.cfg.shadowSamplePct),
       ("samples", Decimal.ofNat core.stats.shadowSamples),
       ("hits", Decimal.ofNat core.stats.shadowHits),
       ("misses", Decimal.ofNat core.stats.shadowMisses),
       ("diverges", Decimal.ofNat core.stats.shadowDiverges)])
  else if argv.length = 2 ∧ cmdEq (arg argv 1) "reset" then do
    eff (.setStats fun s =>
      { s with shadowSamples := 0, shadowHits := 0, shadowMisses := 0, shadowDiverges := 0 })
    replyOk c
  else if argv.length = 2 ∧ cmdEq (arg argv 1) "diverge" then do
    eff (.setStats fun s => { s with shadowDiverges := s.shadowDiverges + 1 })
    replyOk c
  else if argv.length = 3 ∧ cmdEq (arg argv 1) "policy" then
    match buf 64 (arg argv 2) with
    | none => replyErr c "ERR bad shadow policy"
    | some name => do
      if ← setShadowPolicy (cstr name) then replyOk c else replyErr c "ERR bad shadow policy"
  else if argv.length = 3 ∧ (cmdEq (arg argv 1) "sample-pct" || cmdEq (arg argv 1) "sample_pct") then
    match nbuf (arg argv 2) with
    | none => replyErr c "ERR bad sample-pct"
    | some v => do
      setShadowSamplePct (atoi v)
      replyOk c
  else wrongArgs c "shadow"

def hotcold (c : Nat) (argv : List Bytes) : Code Unit :=
  if argv.length = 1 then do
    let core ← eff .core
    replyText c 320 (fieldLine
      [("soft_cap_pct", Decimal.ofInt core.arCoreHotSoftCapPct),
       ("soft_cap_min", Decimal.ofInt core.cfg.hotSoftCapMin),
       ("promote_on_get", yesNo core.cfg.hotPromoteOnGet),
       ("soft_cap", Decimal.ofNat core.hotSoftCap),
       ("hot_keys", Decimal.ofNat core.arCoreHotKeys),
       ("cold_keys", Decimal.ofNat core.arCoreColdKeys),
       ("demotions", Decimal.ofNat core.stats.demotions),
       ("promotions", Decimal.ofNat core.stats.promotions)])
  else if argv.length = 3 ∧ (cmdEq (arg argv 1) "soft-cap-pct" || cmdEq (arg argv 1) "soft_cap_pct") then
    match nbuf (arg argv 2) with
    | none => replyErr c "ERR bad soft-cap-pct"
    | some v => do
      call (.arCoreSetHotSoftCapPct (atoi v))
      replyOk c
  else if argv.length = 3 ∧ (cmdEq (arg argv 1) "soft-cap-min" || cmdEq (arg argv 1) "soft_cap_min") then
    match nbuf (arg argv 2) with
    | none => replyErr c "ERR bad soft-cap-min"
    | some v => do
      call (.arCoreSetHotSoftCapMin (atoi v))
      replyOk c
  else if argv.length = 3 ∧ (cmdEq (arg argv 1) "promote-on-get" || cmdEq (arg argv 1) "promote_on_get") then
    match buf 16 (arg argv 2) with
    | none => replyErr c "ERR bad promote-on-get"
    | some v => do
      call (.arCoreSetHotPromoteOnGet (saysOn v))
      replyOk c
  else wrongArgs c "hotcold"

/-! ## POLICY -/

/-- `ar_core_set_explain`. -/
def setExplain (mid reason op evict layout : Bytes) : ArExplain :=
  let mid : CArray 32 := .ofBytes 32 mid
  let reason : CArray 64 := .ofBytes 64 reason
  let op : CArray 32 := .ofBytes 32 op
  let evict : CArray 16 := .ofBytes 16 evict
  let layout : CArray 16 := .ofBytes 16 layout
  let or (v s : Bytes) := if v = [] then s else v
  { mid := mid, reason := reason, op := op, evict := evict, layout := layout
    join := .ofBytes 192 (lit "mid=" ++ or mid.val (lit "0") ++ lit "|" ++ or op.val (lit "-") ++ lit ":" ++
      or reason.val (lit "-") ++ lit "|evict=" ++ or evict.val (lit "-") ++ lit "|layout=" ++
      or layout.val (lit "-")) }

/-- `ar_core_policy_set`, when there is room. -/
def policySet (prefix_ profile : Bytes) (hints : List (CArray 16 × CArray 32)) :
    Option (List (CArray 16 × CArray 32)) :=
  if prefix_ = [] ∨ profile = [] then none
  else match hints.findIdx? fun h => h.1.val = prefix_ with
    | some i => some (hints.modify i fun h => (h.1, .ofBytes 32 profile))
    | none => if hints.length ≥ 4 then none else some (hints ++ [(.ofBytes 16 prefix_, .ofBytes 32 profile)])

def policyExplain (c : Nat) (argv : List Bytes) : Code Unit :=
  if argv.length = 2 then do
    let core ← eff .core
    replyBulk c core.srv.explain.join.val
  else if argv.length ≥ 7 then do
    let explain := setExplain (cut 32 (arg argv 2)) (cut 64 (arg argv 3)) (cut 32 (arg argv 4))
      (cut 16 (arg argv 5)) (cut 16 (arg argv 6))
    eff (.setSrv fun s => { s with explain := explain })
    replyOk c
  else wrongArgs c "policy explain"

def policy (c : Nat) (argv : List Bytes) : Code Unit :=
  if argv.length ≥ 2 ∧ cmdEq (arg argv 1) "explain" then policyExplain c argv
  else if argv.length = 1 then do
    let core ← eff .core
    replyBulk c (core.arCorePolicyHints 160)
  else if argv.length = 3 then do
    let core ← eff .core
    match policySet (cut 16 (arg argv 1)) (cut 32 (arg argv 2)) core.srv.policyHints with
    | none => replyErr c "ERR policy"
    | some hints =>
      eff (.setSrv fun s => { s with policyHints := hints })
      replyOk c
  else wrongArgs c "policy"

/-! ## PIN -/

/-- `ar_core_list_pinned`: at most `room` keys, each as far as its first NUL; a key that cannot be copied is
passed over. -/
def listPinned : List ArEntry → Nat → Code (List Bytes)
  | [], _ => pure []
  | e :: es, room =>
    if room = 0 then pure []
    else if !e.pinned then listPinned es room
    else do
      if ← eff .malloc then
        let keys ← listPinned es (room - 1)
        pure (cstr e.key :: keys)
      else listPinned es room

/-- The entries that `ar_core_list_pinned` goes through. -/
def pinnable (d : Dict) : List ArEntry := d.hot.flatten ++ if d.layout = .hotCold then d.cold.flatten else []

def pin (c : Nat) (argv : List Bytes) : Code Unit :=
  if argv.length = 1 then do
    let core ← eff .core
    let keys ← listPinned (pinnable core.dict) 256
    replyArray c keys.length keys (replyBulk c)
  else if argv.length = 2 then do
    if ← call (.arCorePin (arg argv 1)) then replyOk c else replyErr c "ERR pin failed (missing key?)"
  else wrongArgs c "pin"

def unpin (c : Nat) (argv : List Bytes) : Code Unit :=
  if argv.length ≠ 2 then wrongArgs c "unpin"
  else do
    let ok ← call (.arCoreUnpin (arg argv 1))
    replyInt c (if ok then 1 else 0)

/-! ## Layout and plugins -/

def badLayout : String := "ERR bad layout (want flat|hot_cold)"

def layout (c : Nat) (argv : List Bytes) : Code Unit :=
  if argv.length = 1 then do
    let core ← eff .core
    replyText c 128 (core.arCoreLayoutName ++
      lit " gen=" ++ Decimal.ofNat core.stats.layoutGen ++
      lit " hot=" ++ Decimal.ofNat core.arCoreHotKeys ++
      lit " cold=" ++ Decimal.ofNat core.arCoreColdKeys ++
      lit " promo=" ++ Decimal.ofNat core.stats.promotions ++
      lit " demo=" ++ Decimal.ofNat core.stats.demotions)
  else if argv.length = 2 then
    match (nonempty 64 (arg argv 1)).bind fun a => parseLayoutName (cstr a) with
    | none => replyErr c badLayout
    | some want => do
      if ← call (.arCoreSetLayout want) then replyOk c else replyErr c badLayout
  else wrongArgs c "layout"

/-- `AURA_REDIS_DENY_PLUGIN` says so. -/
def deniesPlugin (deny : Option Bytes) : Bool :=
  deny.elim false fun v => decide (cstr v ∉ [[], lit "0", lit "false", lit "off", lit "FALSE", lit "OFF"])

def plugin (c : Nat) (argv : List Bytes) : Code Unit :=
  if argv.length = 1 then do
    let core ← eff .core
    replyText c 192 (lit core.cfg.evict.name ++ lit " plugin=" ++ Decimal.ofNat (if core.srv.evictPlugin then 1 else 0)
      ++ lit " reloads=" ++ Decimal.ofNat core.stats.pluginReloads)
  else if argv.length = 2 then
    match nonempty 1024 (arg argv 1) with
    | none => replyErr c "ERR bad plugin path"
    | some _ => do
      let deny ← eff .denyPlugin
      if deniesPlugin deny then
        replyErr c "ERR PLUGIN denied (AURA_REDIS_DENY_PLUGIN; Aura-native path)"
      else
        match ← eff .plugin with
        | none => replyErr c "ERR plugin load failed"
        | some kernel =>
          call (.arCoreLoadEvictPlugin kernel)
          replyOk c
  else wrongArgs c "plugin"

/-! ## SLOWLOG -/

/-- How many entries `SLOWLOG GET` wants. -/
def slowlogWant (len : Int) (argv : List Bytes) : Except String Int :=
  if argv.length = 3 then
    match nbuf (arg argv 2) with
    | none => .error "ERR value is not an integer or out of range"
    | some v =>
      let r := CString.strtoll v
      if r.2 ≠ (cstr v).length ∨ r.1 < 0 then .error "ERR value is not an integer or out of range"
      else .ok (if r.1 < len then r.1 else len)
  else if argv.length ≠ 2 then .error "ERR wrong number of arguments for 'slowlog'"
  else .ok len

/-- The `i`-th newest entry of the ring. -/
def slowlogNth (c : ArCore) (i : Nat) : ArSlowEntry :=
  let maxl := c.cfg.slowlogMaxLen
  let maxl := if maxl ≤ 0 ∨ maxl > slowlogMax then slowlogMax else maxl
  c.srv.slowlog.getD ((c.srv.slowlogHead - 1 - i) % maxl).toNat {}

def replySlowEntry (c : Nat) (e : ArSlowEntry) : Code Unit := do
  wbufAppend c (Resp.arrayHdr 4)
  replyInt c (int64 e.id)
  replyInt c e.unixTs
  replyInt c (int64 e.durationUs)
  replyArray c e.args.length e.args (replyBulk c)

def slowlog (c : Nat) (argv : List Bytes) : Code Unit :=
  if argv.length < 2 then wrongArgs c "slowlog"
  else if cmdEq (arg argv 1) "len" then
    if argv.length ≠ 2 then wrongArgs c "slowlog"
    else do
      let core ← eff .core
      replyInt c core.srv.slowlogLen
  else if cmdEq (arg argv 1) "reset" then
    if argv.length ≠ 2 then wrongArgs c "slowlog"
    else do
      eff (.setSrv fun s => { s with slowlogLen := 0, slowlogHead := 0 })
      replyOk c
  else if cmdEq (arg argv 1) "get" then do
    let core ← eff .core
    match slowlogWant core.srv.slowlogLen argv with
    | .error e => replyErr c e
    | .ok want => replyArray c want (List.range want.toNat) fun i => replySlowEntry c (slowlogNth core i)
  else replyErr c "ERR unknown subcommand for 'slowlog'"

end Dispatch

end AuraRedis
