import AuraRedis.Core.Proof.Fewer
import AuraRedis.Server.Proof.Knobs
import AuraRedis.Server.Proof.Locked

/-!
# The configuration and its file

`ar_config_rewrite` writes one line for each knob and `ar_config_load` sets each knob from its line. A text
comes back from its line when it is `Plain`, and every other text is changed (`config_reloads_iff`).
-/

set_option autoImplicit false

namespace AuraRedis

open Code Prog Dispatch
open CString (CArray cstr isSpace fgets atoi strtoull)

/-! ## What a knob is set to -/

/-- The knob that a call of the core sets. -/
def ArOp.tune : ArOp → Option (Cfg → Cfg)
  | arCoreSetMaxmemory bytes => some fun g => { g with maxmemory := bytes }
  | arCoreSetEvictSamples n => some fun g => { g with evictSamples := if n < 1 then 1 else if n > 256 then 256 else n }
  | arCoreSetHotSoftCapPct n => some fun g => { g with hotSoftCapPct := if n < 1 then 1 else if n > 100 then 100 else n }
  | arCoreSetHotSoftCapMin n =>
    some fun g => { g with hotSoftCapMin := if n < 0 then 0 else if n > 1000000 then 1000000 else n }
  | arCoreSetHotPromoteOnGet on => some fun g => { g with hotPromoteOnGet := on }
  | _ => none

section
variable (E : Env)

theorem cfg_oldestHot (n : Nat) (core : ArCore) (o : ArCore.Oldest) :
    (ArCore.oldestHot E n core o).1.cfg = core.cfg := by
  induction n generalizing core o with
  | zero => rfl
  | succ n ih =>
    unfold ArCore.oldestHot
    split
    · exact ih ..
    · rfl

theorem cfg_demoteOneHotToCold (core : ArCore) : (core.demoteOneHotToCold E).1.cfg = core.cfg := by
  unfold ArCore.demoteOneHotToCold
  split
  · rfl
  · dsimp only
    split <;> exact cfg_oldestHot ..

theorem cfg_maybeDemoteHot (core : ArCore) : (core.maybeDemoteHot E).cfg = core.cfg := by
  have hloop : ∀ (n : Nat) (core : ArCore), (core.demoteLoop E n).cfg = core.cfg := by
    intro n
    induction n with
    | zero => exact fun _ => rfl
    | succ n ih =>
      intro core
      unfold ArCore.demoteLoop
      split
      · dsimp only
        split
        · exact (ih _).trans (cfg_demoteOneHotToCold E core)
        · exact cfg_demoteOneHotToCold E core
      · rfl
  unfold ArCore.maybeDemoteHot
  split
  · exact hloop 64 core
  · rfl

/-- Whatever else it does, the call sets its knob and no other. -/
theorem cfg_tune {o : ArOp} {f : Cfg → Cfg} (h : o.tune = some f) (core : ArCore) : (o.run E core).1.cfg = f core.cfg := by
  cases o with
  | arCoreSetMaxmemory bytes =>
    cases h
    exact (Fewer.evictLoop E _ _).cfg
  | arCoreSetHotSoftCapPct n | arCoreSetHotSoftCapMin n =>
    cases h
    exact cfg_maybeDemoteHot E _
  | arCoreSetEvictSamples n | arCoreSetHotPromoteOnGet on =>
    cases h
    rfl
  | _ => cases h

end

/-- Of the configuration the effect changes no more than leaves it as `I` says. -/
def Eff.Keeps (I : Cfg → Prop) : Eff → Prop
  | op o => ∃ f, o.tune = some f ∧ ∀ g, I g → I (f g)
  | setCfg f => ∀ g, I g → I (f g)
  | _ => True

section
variable {I : Cfg → Prop} {O : Outside} {w : World}

theorem Eff.Keeps.perform {e : Eff} (he : e.Keeps I) (h : I w.core.cfg) : I (e.perform O w).1.core.cfg := by
  cases e with
  | op o =>
    obtain ⟨f, hf, hI⟩ := he
    show I (o.run (O.env w.calls) w.core).1.cfg
    rw [cfg_tune _ hf]
    exact hI _ h
  | setCfg f => exact he _ h
  | setSrv f | setStats f => exact h
  | _ =>
    rw [(Eff.perform_beside O w rfl).cfg]
    exact h

end

/-- The code changes no more of it. -/
abbrev Code.Keeps {α : Type} (I : Cfg → Prop) (p : Code α) : Prop := p.Only (Eff.Keeps I)

section
variable {I : Cfg → Prop} {c : Nat}

theorem keeps_append (data : Bytes) : (wbufAppend c data).Keeps I := by
  unfold wbufAppend check
  exact .bind (.perform trivial) fun ok => .ite trivial trivial

theorem keeps_configSetOk : (configSetOk c).Keeps I := by
  unfold configSetOk arConfigRewrite
  refine .bind (.perform trivial) fun core => .ite (.bind (.bind (.perform trivial) fun core => ?_) fun _ => ?_) ?_
  · refine .ite trivial (.bind (.perform trivial) fun _ => .ite trivial (.bind (.perform trivial) fun _ => ?_))
    exact .ite trivial (.perform trivial)
  · exact keeps_append _
  · exact keeps_append _

theorem keeps_setOption (name : String) {ok : Bool} {set : Code Unit} (hs : ok = true → set.Keeps I) :
    (setOption c name ok set).Keeps I := by
  unfold setOption
  split
  · exact (hs ‹_›).bind fun _ => keeps_configSetOk
  · exact keeps_append _

theorem keeps_setCfg {f : Cfg → Cfg} (hf : ∀ g, I g → I (f g)) : (eff (.setCfg f)).Keeps I := .perform hf

theorem keeps_call {o : ArOp} {f : Cfg → Cfg} (ho : o.tune = some f) (hf : ∀ g, I g → I (f g)) :
    (call o).Keeps I := .perform ⟨f, ho, hf⟩

/-- What is kept with no password and with this one. -/
theorem keeps_setRequirepass {val : Bytes} (h₀ : ∀ g, I g → I { g with requirepass := [] })
    (hv : ∀ g, I g → I { g with requirepass := val }) : (setRequirepass val).Keeps I := by
  unfold setRequirepass
  refine .bind (keeps_setCfg h₀) fun _ => .ite trivial (.bind (.perform trivial) fun ok => .ite trivial ?_)
  exact .bind (keeps_setCfg hv) fun _ => trivial

theorem keeps_setShadowPolicy {name : Bytes}
    (h : name.length < 32 → ∀ g, I g → I { g with shadowPolicy := .ofBytes 32 name }) :
    (setShadowPolicy name).Keeps I := by
  unfold setShadowPolicy
  split
  · trivial
  · exact .bind (keeps_setCfg (h (by omega))) fun _ => trivial

end

/-! ## Lines -/

/-- A text that a line gives back: it has no line feed, and neither white space before it nor a carriage return
after it. -/
def Plain (v : Bytes) : Prop := 10 ∉ v ∧ (∀ b, v.head? = some b → isSpace b = false) ∧ v.getLast? ≠ some 13

/-- A name that a line gives back. -/
def IsName (n : Bytes) : Prop := n ≠ [] ∧ (∀ b ∈ n, isSpace b = false ∧ b ≠ 0) ∧ n.head? ≠ some 35 ∧ n.length < 64

/-- What names are made of. -/
def ofNameBytes (n : Bytes) : Bool :=
  !n.isEmpty && decide (n.length < 64) && n.all fun b => !isSpace b && b != 0 && b != 35

theorem ofNameBytes_iff {n : Bytes} : ofNameBytes n = true ↔
    n ≠ [] ∧ n.length < 64 ∧ ∀ b ∈ n, isSpace b = false ∧ b ≠ 0 ∧ b ≠ 35 := by
  simp only [ofNameBytes, Bool.and_eq_true, Bool.not_eq_true', List.isEmpty_eq_false_iff, decide_eq_true_eq,
    List.all_eq_true, bne_iff_ne, and_assoc]

theorem isName_of_ofNameBytes {n : Bytes} (h : ofNameBytes n = true) : IsName n := by
  obtain ⟨hne, hlen, hbytes⟩ := ofNameBytes_iff.1 h
  exact ⟨hne, fun b hb => ⟨(hbytes b hb).1, (hbytes b hb).2.1⟩,
    fun h => (hbytes 35 (List.mem_of_head? h)).2.2 rfl, hlen⟩

/-- A value that a line has room for. -/
def Fits255 (v : Bytes) : Prop := 0 ∉ v ∧ v.length < 256

/-- A line of the file. -/
def fileLine (p : String × Bytes) : Bytes := lit p.1 ++ lit " " ++ p.2 ++ [10]

section
variable {n v : Bytes}

theorem stripEol_plain (hn : n ≠ []) (hv : Plain v) :
    stripEol (n ++ lit " " ++ v ++ [10]) = n ++ lit " " ++ v := by
  unfold stripEol
  rw [List.reverse_append, List.reverse_singleton, List.singleton_append,
    List.dropWhile_cons_of_pos (by decide)]
  have hlast : ∀ b, (n ++ lit " " ++ v).getLast? = some b → (b == 10 || b == 13) = false := by
    intro b hb
    rw [List.getLast?_append] at hb
    cases hv' : v.getLast? with
    | none =>
      rw [hv', Option.none_or, List.getLast?_append, show (lit " ").getLast? = some 32 from rfl, Option.some_or] at hb
      cases hb
      decide
    | some d =>
      rw [hv', Option.some_or] at hb
      cases hb
      have h10 : b ≠ 10 := fun h => hv.1 (h ▸ List.mem_of_getLast? hv')
      have h13 : b ≠ 13 := fun h => hv.2.2 (h ▸ hv')
      simp [h10, h13]
  cases hr : (n ++ lit " " ++ v).reverse with
  | nil => simp [hn] at hr
  | cons b r =>
    rw [List.dropWhile_cons_of_neg]
    · rw [← hr, List.reverse_reverse]
    · have := hlast b (by rw [← List.head?_reverse, hr]; rfl)
      simpa using this

/-- **A line is read as it was written.** -/
theorem configLine_plain (hn : IsName n) (hv : Plain v) (h0 : 0 ∉ v) :
    configLine (n ++ lit " " ++ v ++ [10]) = some (n, v) := by
  obtain ⟨hne, hname, hhash, -⟩ := hn
  obtain ⟨b, n', rfl⟩ := List.exists_cons_of_ne_nil hne
  have hcstr : cstr (b :: n' ++ lit " " ++ v ++ [10]) = b :: n' ++ lit " " ++ v ++ [10] := by
    refine CString.cstr_of_noNul fun h => ?_
    simp only [List.mem_append, List.mem_singleton] at h
    obtain ((h | h) | h) | h := h
    · exact (hname 0 h).2 rfl
    · exact absurd h (by decide)
    · exact h0 h
    · exact absurd h (by decide)
  have hsep : ∀ d ∈ b :: n', (!isSpace d) = true := fun d hd => by simp [(hname d hd).1]
  have hhead : isSpace b = false := (hname b (.head _)).1
  unfold configLine
  simp only [hcstr, stripEol_plain hne hv]
  rw [show (b :: n' ++ lit " " ++ v) = b :: (n' ++ lit " " ++ v) from rfl, List.dropWhile_cons_of_neg (by simp [hhead]),
    if_neg (by simpa using hhash), show b :: (n' ++ lit " " ++ v) = (b :: n') ++ (32 :: v) by simp [lit],
    List.takeWhile_append_of_pos hsep, List.dropWhile_append_of_pos hsep]
  have hsp : (!isSpace 32) = false := by decide
  have hdrop : (32 :: v).dropWhile isSpace = v := by
    rw [List.dropWhile_cons_of_pos (by decide)]
    cases v with
    | nil => rfl
    | cons d v => exact List.dropWhile_cons_of_neg (by simp [hv.2.1 d rfl])
  rw [List.takeWhile_cons_of_neg (by simp [hsp]), List.dropWhile_cons_of_neg (by simp [hsp]), hdrop, List.append_nil]

/-- The lines are read one after the other. -/
theorem fgets_fileLines {ls : List (String × Bytes)} (hn : ∀ p ∈ ls, IsName (lit p.1))
    (hv : ∀ p ∈ ls, 10 ∉ p.2 ∧ Fits255 p.2) : fgets 512 (ls.flatMap fileLine) [] = ls.map fileLine := by
  induction ls with
  | nil => rfl
  | cons p ls ih =>
    obtain ⟨hne, hname, -, hlen⟩ := hn p (.head _)
    obtain ⟨h10, h0, hlen'⟩ := hv p (.head _)
    have hno : 10 ∉ lit p.1 ++ lit " " ++ p.2 := by
      simp only [List.mem_append, not_or]
      refine ⟨⟨fun h => ?_, by decide⟩, h10⟩
      exact absurd (hname 10 h).1 (by decide)
    have hsize : ([] : Bytes).length + (lit p.1 ++ lit " " ++ p.2).length + 1 < 512 := by
      have : (lit " ").length = 1 := rfl
      simp only [List.length_append, List.length_nil]
      omega
    rw [List.flatMap_cons, List.map_cons, ← ih (fun q hq => hn q (.tail _ hq)) fun q hq => hv q (.tail _ hq)]
    unfold fileLine
    rw [List.append_assoc, List.singleton_append, CString.fgets_line hno [] _ hsize]
    rfl

end

/-! ## What CONFIG SET can come to -/

/-- The knobs are in their ranges, and the file is `path`. -/
structure Cfg.InRange (path : CArray 512) (g : Cfg) : Prop where
  maxmemory : g.maxmemory < 2 ^ 64
  requirepass : Fits255 g.requirepass
  evictSamples : 1 ≤ g.evictSamples ∧ g.evictSamples ≤ 256
  maxclients : 1 ≤ g.maxclients ∧ g.maxclients ≤ maxConn
  timeoutSec : 0 ≤ g.timeoutSec ∧ g.timeoutSec < 2 ^ 31
  tcpBacklog : 1 ≤ g.tcpBacklog ∧ g.tcpBacklog < 2 ^ 31
  slowlogSlowerThanUs : 0 ≤ g.slowlogSlowerThanUs ∧ g.slowlogSlowerThanUs < 2 ^ 31
  slowlogMaxLen : 0 ≤ g.slowlogMaxLen ∧ g.slowlogMaxLen ≤ slowlogMax
  rdbDir : g.rdbDir.val ≠ []
  rdbFilename : g.rdbFilename.val ≠ [] ∧ 47 ∉ g.rdbFilename.val ∧ 92 ∉ g.rdbFilename.val
  shadowSamplePct : 0 ≤ g.shadowSamplePct ∧ g.shadowSamplePct ≤ 100
  hotSoftCapPct : 1 ≤ g.hotSoftCapPct ∧ g.hotSoftCapPct ≤ 100
  hotSoftCapMin : 0 ≤ g.hotSoftCapMin ∧ g.hotSoftCapMin ≤ 1000000
  bindAddr : g.bindAddr = .ofBytes 64 (lit "127.0.0.1")
  configPath : g.configPath = path

section
variable {path : CArray 512} {c : Nat} {argv : List Bytes}

theorem inRange_default : Cfg.InRange (.empty 512) {} := by
  refine ⟨?_, ⟨?_, ?_⟩, ?_, ?_, ?_, ?_, ?_, ?_, ?_, ?_, ?_, ?_, ?_, rfl, rfl⟩ <;> decide

/-- What is configured when the server starts. -/
theorem inRange_start (path : CArray 512) : Cfg.InRange path { configPath := path } :=
  { inRange_default with configPath := rfl }

theorem atoi_range (v : Bytes) : -2 ^ 31 ≤ atoi v ∧ atoi v < 2 ^ 31 := by
  unfold atoi int32
  constructor
  · exact (by decide : (-2 ^ 31 : Int) = -((2 ^ 32 : Nat) / 2 : Int)) ▸ Int.le_bmod (by decide)
  · exact Int.bmod_lt (by decide)

theorem strtoull_lt (v : Bytes) : (strtoull v).1 < 2 ^ 64 := by
  unfold strtoull uint64
  dsimp only
  split
  · omega
  · split <;> omega

/-- The value that `CONFIG SET` takes from its argument. -/
theorem fits_cut (a : Bytes) : Fits255 (cut 256 a) := by
  refine ⟨CString.cstr_noNul _, ?_⟩
  have h₁ : (cstr (a.take 255)).length ≤ (a.take 255).length := (List.takeWhile_sublist _).length_le
  have h₂ : (a.take 255).length ≤ 255 := List.length_take_le ..
  show (cstr (a.take 255)).length < 256
  omega

theorem ofBytes_ne_nil {size : Nat} {v : Bytes} (hs : 1 < size) (h0 : 0 ∉ v) (hv : v ≠ []) :
    (CArray.ofBytes size v (by omega)).val ≠ [] := by
  show (cstr v).take (size - 1) ≠ []
  rw [CString.cstr_of_noNul h0]
  simp only [ne_eq, List.take_eq_nil_iff, hv, or_false]
  omega

theorem mem_ofBytes {size : Nat} {v : Bytes} {b : UInt8} (hs : 0 < size)
    (h : b ∈ (CArray.ofBytes size v hs).val) : b ∈ v :=
  (List.takeWhile_sublist _).subset (List.mem_of_mem_take h)

theorem keeps_configSetTo {key val : Bytes} (hv : Fits255 val) :
    (configSetTo c key val).Keeps (Cfg.InRange path) := by
  have hatoi := atoi_range val
  unfold configSetTo
  refine .ite ?_ (.ite ?_ (.ite ?_ (.ite ?_ (.ite ?_ (.ite ?_ (.ite ?_ (.ite ?_ (.ite ?_ (.ite ?_ (.ite ?_ (.ite ?_
    (.ite ?_ (.ite ?_ (.ite ?_ (.ite ?_ (keeps_append _))))))))))))))))
  · exact keeps_setOption _ fun _ => keeps_call rfl fun g h => { h with maxmemory := strtoull_lt val }
  · refine .bind (keeps_setRequirepass (fun g h => { h with requirepass := ⟨by simp, by simp⟩ }) fun g h =>
      { h with requirepass := hv }) fun ok => .ite keeps_configSetOk (keeps_append _)
  · exact keeps_setOption _ fun _ => keeps_setCfg fun g h => { h with }
  · exact keeps_setOption _ fun _ => keeps_call rfl fun g h => { h with evictSamples := by dsimp only; omega }
  · exact keeps_setOption _ fun ok => keeps_setCfg fun g h => { h with maxclients := of_decide_eq_true ok }
  · exact keeps_setOption _ fun ok => keeps_setCfg fun g h =>
      { h with timeoutSec := ⟨of_decide_eq_true ok, hatoi.2⟩ }
  · exact keeps_setOption _ fun ok => keeps_setCfg fun g h =>
      { h with tcpBacklog := ⟨of_decide_eq_true ok, hatoi.2⟩ }
  · exact keeps_setOption _ fun ok => keeps_setCfg fun g h =>
      { h with slowlogSlowerThanUs := ⟨of_decide_eq_true ok, hatoi.2⟩ }
  · refine keeps_setOption _ fun _ => ?_
    unfold setSlowlogMaxLen slowlogMax
    exact .bind (keeps_setCfg fun g h => { h with slowlogMaxLen := by dsimp only [slowlogMax]; omega }) fun _ =>
      .perform trivial
  · exact keeps_setOption _ fun ok => keeps_setCfg fun g h =>
      { h with rdbDir := ofBytes_ne_nil (by decide) hv.1 (of_decide_eq_true ok).1 }
  · refine keeps_setOption _ fun ok => keeps_setCfg fun g h => ?_
    obtain ⟨hne, hslash, hback, -⟩ := of_decide_eq_true ok
    exact { h with rdbFilename := ⟨ofBytes_ne_nil (by decide) hv.1 hne, fun hm => hslash (mem_ofBytes (by decide) hm),
      fun hm => hback (mem_ofBytes (by decide) hm)⟩ }
  · exact .bind (keeps_setShadowPolicy fun _ g h => { h with }) fun ok => .ite keeps_configSetOk (keeps_append _)
  · refine keeps_setOption _ fun _ => ?_
    unfold setShadowSamplePct
    exact keeps_setCfg fun g h => { h with shadowSamplePct := by dsimp only; omega }
  · exact keeps_setOption _ fun _ => keeps_call rfl fun g h => { h with hotSoftCapPct := by dsimp only; omega }
  · exact keeps_setOption _ fun _ => keeps_call rfl fun g h => { h with hotSoftCapMin := by dsimp only; omega }
  · exact keeps_setOption _ fun _ => keeps_call rfl fun g h => { h with }

theorem lookup_config [Libc] (nested : Nat → List Bytes → Code Unit) :
    lookup (txCommands nested) (lit "config") = none ∧ lookup commands (lit "config") = some Dispatch.config :=
  ⟨lookup_txCommands (by decide) nested, lookup_commands (i := 40) (by decide)⟩

/-- `CONFIG SET`. -/
def isConfigSet (argv : List Bytes) : Bool := cmdEq (arg argv 0) "config" && cmdEq (arg argv 1) "set"

theorem keeps_queue (I : Cfg → Prop) : (queue c argv).Keeps I := by
  unfold queue
  refine .bind (.perform trivial) fun core => .ite (keeps_append _) (.ite (keeps_append _) ?_)
  have hcopy : ∀ args, (copyArgs args).Keeps I := by
    intro args
    induction args with
    | nil => trivial
    | cons a rest ih =>
      unfold copyArgs
      exact .bind (.perform trivial) fun ok => .ite ih trivial
  exact .bind (hcopy argv) fun ok => .ite (.bind (.perform trivial) fun _ => keeps_append _) (keeps_append _)

/-- **`CONFIG SET` leaves the knobs in their ranges**, whatever it is given. -/
theorem keeps_dispatch [Libc] (hset : isConfigSet argv = true) : (dispatch c argv).Keeps (Cfg.InRange path) := by
  obtain ⟨hconfig, hsub⟩ := Bool.and_eq_true_iff.1 hset
  obtain ⟨htx, hcmd⟩ := lookup_config dispatchQueued
  have hget : cmdEq (arg argv 1) "get" = false := (cmdEq_congr hsub "get").trans (by decide)
  unfold dispatch dispatchBy
  refine .ite (keeps_append _) (.bind (.perform trivial) fun _ => .bind (.perform trivial) fun core => ?_)
  split
  · exact keeps_append _
  · rw [lookup_congr _ hconfig, htx]
    refine .ite (keeps_queue _) ?_
    rw [runCommand_of_lookup hconfig hcmd]
    unfold Dispatch.config configSet
    rw [hget, if_neg Bool.false_ne_true, if_pos hsub]
    exact .ite (keeps_append _) (.ite (keeps_append _) (keeps_configSetTo (fits_cut _)))

/-- What is configured is what `CONFIG SET` has made of the configuration at the start. -/
inductive World.Configured [Libc] (path : CArray 512) : World → Prop
  | start (w : World) : w.core.cfg = { configPath := path } → Configured path w
  | set {w : World} (O : Outside) (c : Nat) (argv : List Bytes) : isConfigSet argv = true → Configured path w →
      Configured path ((dispatch c argv).exec O w).1
  /-- Whatever else happens. -/
  | elsewhere {w : World} (w' : World) : w'.core.cfg = w.core.cfg → Configured path w → Configured path w'

theorem World.Configured.inRange [Libc] {w : World} (h : w.Configured path) : w.core.cfg.InRange path := by
  induction h with
  | start w hw =>
    rw [hw]
    exact inRange_start path
  | set O c argv hset _ ih =>
    exact exec_invariant (I := fun w => w.core.cfg.InRange path) (keeps_dispatch hset) (fun _ _ he h => he.perform h) ih
  | elsewhere w' hw _ ih =>
    rw [hw]
    exact ih

end

/-! ## The file that is written -/

/-- A line for each knob. -/
def knobLines (c : ArCore) : List (String × Bytes) :=
  [("maxmemory", Decimal.ofNat c.cfg.maxmemory),
   ("requirepass", c.cfg.requirepass),
   ("protected-mode", yesNo c.cfg.protectedMode),
   ("evict-samples", Decimal.ofInt c.arCoreEvictSamples),
   ("maxclients", Decimal.ofInt c.cfg.maxclients),
   ("timeout", Decimal.ofInt c.cfg.timeoutSec),
   ("tcp-backlog", Decimal.ofInt c.cfg.tcpBacklog),
   ("slowlog-log-slower-than", Decimal.ofInt c.cfg.slowlogSlowerThanUs),
   ("slowlog-max-len", Decimal.ofInt c.cfg.slowlogMaxLen),
   ("dir", c.arCoreRdbDir),
   ("dbfilename", c.arCoreRdbFilename),
   ("bind", c.binding),
   ("shadow-policy", c.cfg.shadowPolicy.val),
   ("shadow-sample-pct", Decimal.ofInt c.cfg.shadowSamplePct),
   ("hot-soft-cap-pct", Decimal.ofInt c.arCoreHotSoftCapPct),
   ("hot-soft-cap-min", Decimal.ofInt c.cfg.hotSoftCapMin),
   ("hot-promote-on-get", yesNo c.cfg.hotPromoteOnGet)]

/-- The comments before them. -/
def comments : List Bytes :=
  [lit "# aura-redis.conf " ++ [226, 128, 148] ++ lit " written by CONFIG SET / CONFIG REWRITE",
   lit "# Path override: --config / AURA_REDIS_CONFIG"]

theorem configText_eq (c : ArCore) :
    configText c = comments.flatMap (· ++ [10]) ++ (knobLines c).flatMap fileLine := by
  have h₁ : lit " written by CONFIG SET / CONFIG REWRITE\n" = lit " written by CONFIG SET / CONFIG REWRITE" ++ [10] := by
    decide
  have h₂ : lit "# Path override: --config / AURA_REDIS_CONFIG\n" =
      lit "# Path override: --config / AURA_REDIS_CONFIG" ++ [10] := by decide
  unfold configText knobLines comments fileLine
  simp only [h₁, h₂, List.flatMap_cons, List.flatMap_nil, List.append_assoc, List.append_nil]

/-- The texts that a line gives back. -/
structure Cfg.Plain (g : Cfg) : Prop where
  requirepass : AuraRedis.Plain g.requirepass
  rdbDir : AuraRedis.Plain g.rdbDir.val
  rdbFilename : AuraRedis.Plain g.rdbFilename.val
  shadowPolicy : AuraRedis.Plain g.shadowPolicy.val

section
variable {path : CArray 512} {core : ArCore}

theorem arCoreEvictSamples_eq (h : core.cfg.InRange path) : core.arCoreEvictSamples = core.cfg.evictSamples :=
  if_pos (Int.lt_of_lt_of_le (by decide) h.evictSamples.1)

theorem arCoreHotSoftCapPct_eq (h : core.cfg.InRange path) : core.arCoreHotSoftCapPct = core.cfg.hotSoftCapPct :=
  if_pos (Int.lt_of_lt_of_le (by decide) h.hotSoftCapPct.1)

theorem arCoreRdbDir_eq (h : core.cfg.InRange path) : core.arCoreRdbDir = core.cfg.rdbDir.val := if_neg h.rdbDir

theorem arCoreRdbFilename_eq (h : core.cfg.InRange path) : core.arCoreRdbFilename = core.cfg.rdbFilename.val :=
  if_neg h.rdbFilename.1

theorem binding_eq (h : core.cfg.InRange path) : core.binding = lit "127.0.0.1" := by
  unfold ArCore.binding
  rw [h.bindAddr]
  decide

/-- Digits are no trouble. -/
theorem plain_ofNat {n : Nat} (h : n < 2 ^ 64) : Plain (Decimal.ofNat n) ∧ Fits255 (Decimal.ofNat n) := by
  have hd : ∀ {b}, b ∈ Decimal.ofNat n → _ := fun hb => CString.isSpace_digit (Decimal.isDigit_ofNat hb)
  have hlen : (Decimal.ofNat n).length ≤ 20 := Decimal.length_ofNat_le (by decide) (by omega)
  refine ⟨⟨fun h => ?_, fun b hb => (hd (List.mem_of_head? hb)).1, fun h => ?_⟩, fun h => (hd h).2.2.2 rfl, by omega⟩
  · exact absurd (hd h).1 (by decide)
  · exact absurd (hd (List.mem_of_getLast? h)).1 (by decide)

theorem plain_ofInt {n : Int} (h0 : 0 ≤ n) (h : n < 2 ^ 31) :
    Plain (Decimal.ofInt n) ∧ Fits255 (Decimal.ofInt n) := by
  obtain ⟨m, rfl⟩ := Int.eq_ofNat_of_zero_le h0
  rw [Decimal.ofInt_natCast]
  exact plain_ofNat (by omega)

theorem plain_yesNo (b : Bool) : Plain (yesNo b) ∧ Fits255 (yesNo b) := by
  cases b
  · exact ⟨⟨by decide, fun d hd => by cases hd; decide, by decide⟩, by decide, by decide⟩
  · exact ⟨⟨by decide, fun d hd => by cases hd; decide, by decide⟩, by decide, by decide⟩

theorem fits_carray {n : Nat} (a : CArray n) (hn : n ≤ 256) : Fits255 a.val := ⟨a.noNul, by have := a.fits; omega⟩

/-- The names of the lines. -/
def lineNames : List String :=
  ["maxmemory", "requirepass", "protected-mode", "evict-samples", "maxclients", "timeout", "tcp-backlog",
   "slowlog-log-slower-than", "slowlog-max-len", "dir", "dbfilename", "bind", "shadow-policy", "shadow-sample-pct",
   "hot-soft-cap-pct", "hot-soft-cap-min", "hot-promote-on-get"]

theorem ofNameBytes_lineNames : (lineNames.all fun s => ofNameBytes (lit s)) = true := by decide +kernel

theorem isName_knobLines {p : String × Bytes} (hp : p ∈ knobLines core) : IsName (lit p.1) := by
  have hnames : (knobLines core).map (·.1) = lineNames := rfl
  have hm : p.1 ∈ lineNames := hnames ▸ List.mem_map_of_mem hp
  exact isName_of_ofNameBytes (List.all_eq_true.1 ofNameBytes_lineNames _ hm)

/-- **Every line of the file is read as it was written.** -/
theorem knobLines_plain (h : core.cfg.InRange path) (hp : core.cfg.Plain) :
    ∀ p ∈ knobLines core, IsName (lit p.1) ∧ Plain p.2 ∧ Fits255 p.2 := by
  suffices hvals : ∀ p ∈ knobLines core, Plain p.2 ∧ Fits255 p.2 from
    fun p hm => ⟨isName_knobLines hm, hvals p hm⟩
  unfold knobLines
  rw [arCoreEvictSamples_eq h, arCoreHotSoftCapPct_eq h, arCoreRdbDir_eq h, arCoreRdbFilename_eq h, binding_eq h]
  have hmax : (maxConn : Int) = 1024 := rfl
  have hslow : slowlogMax = 128 := rfl
  obtain ⟨h1, h2, h3, h4, h5, h6, h7, h8, -, -, h11, h12, h13, -, -⟩ := h
  simp only [List.forall_mem_cons]
  refine ⟨plain_ofNat h1, ⟨hp.requirepass, h2⟩, plain_yesNo _, plain_ofInt (by omega) (by omega),
    plain_ofInt (by omega) (by omega), plain_ofInt (by omega) (by omega), plain_ofInt (by omega) (by omega),
    plain_ofInt (by omega) (by omega), plain_ofInt (by omega) (by omega), ⟨hp.rdbDir, fits_carray _ (by decide)⟩,
    ⟨hp.rdbFilename, fits_carray _ (by decide)⟩,
    ⟨⟨by decide, fun b hb => ?_, by decide⟩, by decide, by decide⟩,
    ⟨hp.shadowPolicy, fits_carray _ (by decide)⟩, plain_ofInt (by omega) (by omega),
    plain_ofInt (by omega) (by omega), plain_ofInt (by omega) (by omega), plain_yesNo _, List.forall_mem_nil _⟩
  have : b = 49 := by
    have hh : (lit "127.0.0.1").head? = some 49 := by decide
    rw [hh] at hb
    exact (Option.some.inj hb).symm
  rw [this]
  decide

end

/-! ## The file that is read -/

/-- The code succeeds, and makes `f` of the configuration. -/
def Code.Loads (O : Outside) (p : Code Bool) (f : Cfg → Cfg) : Prop :=
  ∀ w, (p.exec O w).2 = some true ∧ (p.exec O w).1.core.cfg = f w.core.cfg

section
variable {O : Outside} {f f' : Cfg → Cfg}

theorem loads_setCfg {ok : Bool} (hok : ok = true) (f : Cfg → Cfg) : (setWhen ok (eff (.setCfg f))).Loads O f := by
  rw [hok]
  exact fun w => ⟨rfl, rfl⟩

theorem loads_call {o : ArOp} {p : Code Unit} (ho : o.tune = some f)
    (hp : ∀ w, p.exec O w = (((eff (.op o)).exec O w).1, some ())) (hf : ∀ g, f g = f' g) :
    (setWhen true p).Loads O f' := by
  intro w
  have hrun : (setWhen true p).exec O w = (((eff (.op o)).exec O w).1, some true) :=
    (run_bind_of_some (Eff.perform O) (f := fun _ => Prog.ret true) (congrArg Prod.snd (hp w))).trans
      (congrArg (fun r : World × Option Unit => (r.1, some true)) (hp w))
  rw [hrun]
  exact ⟨rfl, (cfg_tune _ ho w.core).trans (hf _)⟩

theorem loads_setRequirepass (ha : O.AllocOk) (val : Bytes) :
    (setRequirepass val).Loads O fun g => { g with requirepass := val } := by
  intro w
  unfold setRequirepass
  rw [exec_step]
  by_cases hv : val = []
  · rw [if_pos hv, hv]
    exact ⟨rfl, rfl⟩
  · rw [if_neg hv, exec_step]
    have hm : ((Eff.malloc).perform O ((Eff.setCfg fun g => { g with requirepass := [] }).perform O w).1).2 = true :=
      ha _ _
    rw [hm]
    exact ⟨rfl, rfl⟩

theorem loads_setShadowPolicy (a : CArray 32) :
    (setShadowPolicy a.val).Loads O fun g => { g with shadowPolicy := a } := by
  have hlen : ¬a.val.length ≥ 32 := Nat.not_le.2 a.fits
  unfold setShadowPolicy
  rw [if_neg hlen, CArray.ofBytes_val]
  exact fun w => ⟨rfl, rfl⟩

theorem loads_applyLines {line key val : Bytes} {rest : List Bytes} (hl : configLine line = some (key, val))
    (hkv : (applyKv key val).Loads O f) (hrest : (applyLines rest).Loads O f') :
    (applyLines (line :: rest)).Loads O fun g => f' (f g) := by
  intro w
  have hrun : (applyLines (line :: rest)).exec O w =
      (applyKv key val >>= fun ok => if ok = true then applyLines rest else return false).exec O w := by
    rw [applyLines, hl]
  obtain ⟨hok, hcfg⟩ := hkv w
  have hbind := run_bind_of_some (Eff.perform O) (f := fun ok => if ok = true then applyLines rest else return false) hok
  rw [hrun]
  show ((applyKv key val >>= _).run (Eff.perform O) w).2 = some true ∧
    ((applyKv key val >>= _).run (Eff.perform O) w).1.core.cfg = f' (f w.core.cfg)
  rw [hbind, if_pos rfl, ← hcfg]
  exact hrest _

theorem loads_fileLines {ls : List (String × Bytes)} {fs : List (Cfg → Cfg)}
    (hread : ∀ p ∈ ls, configLine (fileLine p) = some (lit p.1, p.2))
    (h : List.Forall₂ (fun p f => (applyKv (lit p.1) p.2).Loads O f) ls fs) :
    (applyLines (ls.map fileLine)).Loads O fun g => fs.foldl (fun g f => f g) g := by
  induction h with
  | nil => exact fun w => ⟨rfl, rfl⟩
  | @cons p f ls fs hp _ ih =>
    have hrest := ih fun q hq => hread q (.tail _ hq)
    have hboth := loads_applyLines (hread p (.head _)) hp hrest
    simp only [List.map_cons, List.foldl_cons]
    exact hboth

/-- What each line sets. -/
def knobSets (g : Cfg) : List (Cfg → Cfg) :=
  [fun g' => { g' with maxmemory := g.maxmemory },
   fun g' => { g' with requirepass := g.requirepass },
   fun g' => { g' with protectedMode := g.protectedMode },
   fun g' => { g' with evictSamples := g.evictSamples },
   fun g' => { g' with maxclients := g.maxclients },
   fun g' => { g' with timeoutSec := g.timeoutSec },
   fun g' => { g' with tcpBacklog := g.tcpBacklog },
   fun g' => { g' with slowlogSlowerThanUs := g.slowlogSlowerThanUs },
   fun g' => { g' with slowlogMaxLen := g.slowlogMaxLen },
   fun g' => { g' with rdbDir := g.rdbDir },
   fun g' => { g' with rdbFilename := g.rdbFilename },
   fun g' => { g' with bindAddr := g.bindAddr },
   fun g' => { g' with shadowPolicy := g.shadowPolicy },
   fun g' => { g' with shadowSamplePct := g.shadowSamplePct },
   fun g' => { g' with hotSoftCapPct := g.hotSoftCapPct },
   fun g' => { g' with hotSoftCapMin := g.hotSoftCapMin },
   fun g' => { g' with hotPromoteOnGet := g.hotPromoteOnGet }]

theorem fileOn_yesNo (b : Bool) : Knob.fileOn (yesNo b) = b := by
  cases b <;> decide

theorem loads_line (k : Knob) {s : String} (hs : s ∈ k.names) {v : Bytes} {f : Cfg → Cfg} (h : (k.load v).Loads O f) :
    (applyKv (lit s) v).Loads O f := by
  rw [Knob.applyKv_name hs]
  exact h

/-- **Each line sets its knob to what it was.** -/
theorem loads_knobLines {path : CArray 512} {core : ArCore} (h : core.cfg.InRange path) (ha : O.AllocOk) :
    List.Forall₂ (fun p f => (applyKv (lit p.1) p.2).Loads O f) (knobLines core) (knobSets core.cfg) := by
  have hmax : (maxConn : Int) = 1024 := rfl
  have hslow : slowlogMax = 128 := rfl
  have hatoi : ∀ {n : Int}, 0 ≤ n → n < 2 ^ 31 → atoi (Decimal.ofInt n) = n := CString.atoi_ofInt
  unfold knobLines knobSets
  rw [arCoreEvictSamples_eq h, arCoreHotSoftCapPct_eq h, arCoreRdbDir_eq h, arCoreRdbFilename_eq h, binding_eq h]
  obtain ⟨h1, h2, h3, h4, h5, h6, h7, h8, h9, h10, h11, h12, h13, h14, -⟩ := h
  refine .cons (loads_line .maxmemory (.head _) ?_) (.cons (loads_line .requirepass (.head _) ?_) (.cons
    (loads_line .protectedMode (.head _) ?_) (.cons (loads_line .evictSamples (.head _) ?_) (.cons
    (loads_line .maxclients (.head _) ?_) (.cons (loads_line .timeout (.head _) ?_) (.cons
    (loads_line .tcpBacklog (.head _) ?_) (.cons (loads_line .slowlogLogSlowerThan (.head _) ?_) (.cons
    (loads_line .slowlogMaxLen (.head _) ?_) (.cons (loads_line .dir (.head _) ?_) (.cons
    (loads_line .dbfilename (.head _) ?_) (.cons (loads_line .bind (.head _) ?_) (.cons
    (loads_line .shadowPolicy (.head _) ?_) (.cons (loads_line .shadowSamplePct (.head _) ?_) (.cons
    (loads_line .hotSoftCapPct (.head _) ?_) (.cons (loads_line .hotSoftCapMin (.head _) ?_) (.cons
    (loads_line .hotPromoteOnGet (.head _) ?_) .nil))))))))))))))))
  all_goals
    unfold Knob.load
    dsimp only
  · rw [CString.strtoull_ofNat h1]
    exact loads_call (o := .arCoreSetMaxmemory _) rfl (fun _ => rfl) fun _ => rfl
  · exact loads_setRequirepass ha _
  · rw [fileOn_yesNo]
    exact loads_setCfg rfl _
  · rw [hatoi (by omega) (by omega)]
    refine loads_call (o := .arCoreSetEvictSamples _) rfl (fun _ => rfl) fun g => ?_
    rw [if_neg (by omega), if_neg (by omega)]
  · rw [hatoi (by omega) (by omega)]
    exact loads_setCfg (decide_eq_true h4) _
  · rw [hatoi (by omega) (by omega)]
    exact loads_setCfg (decide_eq_true h5.1) _
  · rw [hatoi (by omega) (by omega)]
    exact loads_setCfg (decide_eq_true h6.1) _
  · rw [hatoi (by omega) (by omega)]
    exact loads_setCfg (decide_eq_true h7.1) _
  · rw [hatoi (by omega) (by omega), if_neg (by omega), if_neg (by omega)]
    exact loads_setCfg rfl _
  · rw [CArray.ofBytes_val]
    exact loads_setCfg (decide_eq_true ⟨h9, core.cfg.rdbDir.fits⟩) _
  · rw [CArray.ofBytes_val]
    exact loads_setCfg (decide_eq_true ⟨h10.1, h10.2.1, h10.2.2, core.cfg.rdbFilename.fits⟩) _
  · rw [h14]
    exact loads_setCfg (by decide) _
  · exact loads_setShadowPolicy _
  · rw [hatoi (by omega) (by omega)]
    unfold setShadowSamplePct
    rw [if_neg (by omega), if_neg (by omega)]
    exact loads_setCfg rfl _
  · rw [hatoi (by omega) (by omega)]
    refine loads_call (o := .arCoreSetHotSoftCapPct _) rfl (fun _ => rfl) fun g => ?_
    rw [if_neg (by omega), if_neg (by omega)]
  · rw [hatoi (by omega) (by omega)]
    refine loads_call (o := .arCoreSetHotSoftCapMin _) rfl (fun _ => rfl) fun g => ?_
    rw [if_neg (by omega), if_neg (by omega)]
  · rw [fileOn_yesNo]
    exact loads_call (o := .arCoreSetHotPromoteOnGet _) rfl (fun _ => rfl) fun _ => rfl

end

/-! ## What a file can set -/

section
variable {v : Bytes}

theorem stripEol_isPrefix (s : Bytes) : stripEol s <+: s := by
  unfold stripEol
  rw [← List.reverse_suffix, List.reverse_reverse]
  exact List.dropWhile_suffix _

theorem getLast?_stripEol {s : Bytes} {b : UInt8} (h : (stripEol s).getLast? = some b) : b ≠ 10 ∧ b ≠ 13 := by
  unfold stripEol at h
  rw [List.getLast?_reverse] at h
  have := List.head?_dropWhile_not (fun b : UInt8 => b == 10 || b == 13) s.reverse
  rw [h] at this
  simpa using this

/-- A line feed in what has been stripped would be its last byte. -/
theorem lf_notMem_stripEol {data line : Bytes} (h : line ∈ fgets 512 data []) : 10 ∉ stripEol (cstr line) := by
  intro hm
  have hpre : stripEol (cstr line) <+: line := (stripEol_isPrefix _).trans (List.takeWhile_prefix _)
  obtain ⟨l, hl, rfl | rfl⟩ := CString.mem_fgets List.not_mem_nil h
  · exact hl (hpre.subset hm)
  · rcases List.prefix_concat_iff.1 hpre with heq | hpre
    · refine (getLast?_stripEol (s := cstr (l ++ [10])) (b := 10) ?_).1 rfl
      rw [heq]
      simp
    · exact hl (hpre.subset hm)

/-- **The value of a line is plain.** -/
theorem plain_configLine {data line key : Bytes} (h : line ∈ fgets 512 data [])
    (hkv : configLine line = some (key, v)) : Plain v ∧ 0 ∉ v := by
  unfold configLine at hkv
  dsimp only at hkv
  split at hkv
  · cases hkv
  · obtain ⟨-, rfl⟩ := Prod.mk.inj (Option.some.inj hkv)
    generalize hr : ((stripEol (cstr line)).dropWhile isSpace).dropWhile (!isSpace ·) = r
    have hsuf : r.dropWhile isSpace <:+ stripEol (cstr line) := by
      rw [← hr]
      exact (List.dropWhile_suffix _).trans ((List.dropWhile_suffix _).trans (List.dropWhile_suffix _))
    refine ⟨⟨fun hm => lf_notMem_stripEol h (hsuf.subset hm), fun b hb => ?_, fun hb => ?_⟩, fun hm => ?_⟩
    · have := List.head?_dropWhile_not isSpace r
      rw [hb] at this
      simpa using this
    · obtain ⟨pre, hpre⟩ := hsuf
      refine (getLast?_stripEol (s := cstr line) (b := 13) ?_).2 rfl
      rw [← hpre, List.getLast?_append, hb]
      rfl
    · exact CString.cstr_noNul line ((stripEol_isPrefix _).subset (hsuf.subset hm))

theorem val_ofBytes {n : Nat} (hn : 0 < n) (h0 : 0 ∉ v) (hl : v.length < n) : (CArray.ofBytes n v hn).val = v := by
  show (cstr v).take (n - 1) = v
  rw [CString.cstr_of_noNul h0, List.take_of_length_le (by omega)]

theorem keeps_setWhen {I : Cfg → Prop} {ok : Bool} {set : Code Unit} (hs : ok = true → set.Keeps I) :
    (setWhen ok set).Keeps I := by
  unfold setWhen
  split
  · exact (hs ‹_›).bind fun _ => trivial
  · trivial

theorem keeps_applyKv (key : Bytes) (hv : Plain v) (h0 : 0 ∉ v) : (applyKv key v).Keeps Cfg.Plain := by
  unfold applyKv
  dsimp only
  refine .ite ?_ (.ite ?_ (.ite ?_ (.ite ?_ (.ite ?_ (.ite ?_ (.ite ?_ (.ite ?_ (.ite ?_ (.ite ?_ (.ite ?_ (.ite ?_
    (.ite ?_ (.ite ?_ (.ite ?_ (.ite ?_ (.ite ?_ trivial))))))))))))))))
  case refine_2 =>
    exact keeps_setRequirepass (fun g h => { h with requirepass := ⟨by simp, by simp, by simp⟩ }) fun g h =>
      { h with requirepass := hv }
  case refine_10 =>
    refine keeps_setWhen fun ok => keeps_setCfg fun g h => { h with rdbDir := ?_ }
    rw [val_ofBytes (by decide) h0 (of_decide_eq_true ok).2]
    exact hv
  case refine_11 =>
    refine keeps_setWhen fun ok => keeps_setCfg fun g h => { h with rdbFilename := ?_ }
    rw [val_ofBytes (by decide) h0 (of_decide_eq_true ok).2.2.2]
    exact hv
  case refine_13 =>
    refine keeps_setShadowPolicy fun hl g h => { h with shadowPolicy := ?_ }
    rw [val_ofBytes (by decide) h0 hl]
    exact hv
  case refine_1 | refine_4 | refine_15 | refine_16 | refine_17 =>
    exact keeps_setWhen fun _ => keeps_call rfl fun g h => { h with }
  all_goals exact keeps_setWhen fun _ => keeps_setCfg fun g h => { h with }

theorem keeps_applyLines {data : Bytes} {lines : List Bytes} (h : ∀ line ∈ lines, line ∈ fgets 512 data []) :
    (applyLines lines).Keeps Cfg.Plain := by
  induction lines with
  | nil => trivial
  | cons line rest ih =>
    have hrest := ih fun l hl => h l (.tail _ hl)
    unfold applyLines
    split
    · exact hrest
    · rename_i key val hkv
      obtain ⟨hv, h0⟩ := plain_configLine (h line (.head _)) hkv
      exact (keeps_applyKv key hv h0).bind fun ok => .ite hrest trivial

/-- **Whatever the file, the texts that come from it are plain.** -/
theorem keeps_arConfigLoad : arConfigLoad.Keeps Cfg.Plain := by
  unfold arConfigLoad
  refine .bind (.perform trivial) fun core => .ite trivial (.bind (.perform trivial) fun file => ?_)
  match file with
  | none | some none => trivial
  | some (some data) => exact keeps_applyLines fun _ h => h

end

/-! ## There and back -/

/-- A server that starts with these files. -/
def World.fresh (path : CArray 512) (disk : Bytes → Option Bytes) : World :=
  { core := { ArCore.arCoreCreate with cfg := { configPath := path } }, disk := disk }

/-- What is configured after the file has been written and a new server has loaded it; `none` when one of the
two fails. -/
def reload (O O' : Outside) (w : World) : Option Cfg :=
  let saved := arConfigRewrite.exec O w
  let loaded := arConfigLoad.exec O' (.fresh w.core.cfg.configPath saved.1.disk)
  if saved.2 = some true ∧ loaded.2 = some true then some loaded.1.core.cfg else none

/-- The knobs that last: all but the kernel, the address, which is no option of `CONFIG SET`, and the file. -/
def Cfg.durable (g : Cfg) : Cfg := { g with evict := .noop, bindAddr := .empty 64, configPath := .empty 512 }

section
variable {path : CArray 512} {O O' : Outside} {w : World}

/-- What is asked of the system is granted. -/
theorem exec_ask {α : Type} (hO : ∀ n, O.grants n = true) (k : Bool → Code α) :
    (eff .ask >>= k).exec O w = (k true).exec O { w with calls := w.calls + 1 } := by
  rw [exec_step]
  show (k (O.grants w.calls)).exec O _ = _
  rw [hO]
  rfl

theorem perform_writeFile (hO : ∀ n, O.grants n = true) (file data : Bytes) :
    (Eff.writeFile file data).perform O w =
      ({ w with calls := w.calls + 1, disk := Function.update w.disk file (some data) }, true) := by
  simp only [Eff.perform, hO, if_true]

theorem exec_arConfigRewrite (hp : w.core.cfg.configPath.val ≠ []) (hO : ∀ n, O.grants n = true) :
    (arConfigRewrite.exec O w).2 = some true ∧
      (arConfigRewrite.exec O w).1.disk w.core.cfg.configPath.val = some (configText w.core) := by
  have hrun : arConfigRewrite.exec O w = (eff (.writeFile w.core.cfg.configPath.val (configText w.core))).exec O
      { w with calls := w.calls + 1 + 1 } := by
    unfold arConfigRewrite
    rw [exec_step]
    show (if w.core.cfg.configPath.val = [] then _ else _ : Code Bool).exec O w = _
    rw [if_neg hp, exec_ask hO]
    show (eff .ask >>= _).exec O _ = _
    rw [exec_ask hO]
    rfl
  have hwrite : ∀ (file data : Bytes) (w : World), (eff (.writeFile file data)).exec O w =
      ({ w with calls := w.calls + 1, disk := Function.update w.disk file (some data) }, some true) :=
    fun file data w => by
      unfold eff Code.exec
      rw [run_perform, perform_writeFile hO]
  rw [hrun, hwrite]
  exact ⟨rfl, Function.update_self ..⟩

/-- The comments are passed over. -/
theorem applyLines_configText {core : ArCore} (h : core.cfg.InRange path) (hp : core.cfg.Plain) :
    applyLines (fgets 512 (configText core) []) = applyLines ((knobLines core).map fileLine) := by
  have hlines := knobLines_plain h hp
  have hread : fgets 512 (configText core) [] = comments.map (· ++ [10]) ++ (knobLines core).map fileLine := by
    have hfile := fgets_fileLines (fun p hp => (hlines p hp).1) fun p hp =>
      ⟨(hlines p hp).2.1.1, (hlines p hp).2.2⟩
    have hcomments : ∀ l ∈ comments, 10 ∉ l ∧ ([] : Bytes).length + l.length + 1 < 512 := by
      unfold comments
      simp only [List.forall_mem_cons]
      exact ⟨by decide, by decide, List.forall_mem_nil _⟩
    rw [configText_eq, ← hfile]
    generalize comments = ls at hcomments
    induction ls with
    | nil => rfl
    | cons l ls ih =>
      obtain ⟨h10, hlen⟩ := hcomments l (.head _)
      rw [List.flatMap_cons, List.map_cons, List.cons_append, ← ih fun l hl => hcomments l (.tail _ hl),
        List.append_assoc, List.append_assoc, List.singleton_append, CString.fgets_line h10 [] _ hlen]
      rfl
  rw [hread]
  unfold comments
  simp only [List.map_cons, List.map_nil, List.cons_append, List.nil_append]
  have hnone : ∀ line ∈ comments, configLine (line ++ [10]) = none := by
    unfold comments
    simp only [List.forall_mem_cons]
    exact ⟨by decide, by decide, List.forall_mem_nil _⟩
  unfold comments at hnone
  rw [applyLines, hnone _ (.head _)]
  show applyLines (_ :: _) = _
  rw [applyLines, hnone _ (.tail _ (.head _))]

theorem exec_arConfigLoad {data : Bytes} (hp : w.core.cfg.configPath.val ≠ []) (hO : ∀ n, O.grants n = true)
    (hd : w.disk w.core.cfg.configPath.val = some data) :
    arConfigLoad.exec O w = (applyLines (fgets 512 data [])).exec O { w with calls := w.calls + 1 } := by
  unfold arConfigLoad
  rw [exec_step]
  show (if w.core.cfg.configPath.val = [] then _ else _ : Code Bool).exec O w = _
  rw [if_neg hp, exec_step]
  have hread : (Eff.readFile (Eff.core.perform O w).2.cfg.configPath.val).perform O w =
      ({ w with calls := w.calls + 1 }, some (some data)) := by
    show (Eff.readFile w.core.cfg.configPath.val).perform O w = _
    simp only [Eff.perform, hO, if_true, hd]
  show Code.exec _ O ((Eff.readFile (Eff.core.perform O w).2.cfg.configPath.val).perform O w).1 = _
  rw [hread]

/-- **Plain texts survive.** -/
theorem reload_of_plain (hpath : path.val ≠ []) (h : w.core.cfg.InRange path) (hp : w.core.cfg.Plain)
    (hO : ∀ n, O.grants n = true) (hO' : ∀ n, O'.grants n = true) (ha : O'.AllocOk) :
    (reload O O' w).map Cfg.durable = some w.core.cfg.durable := by
  have hcp : w.core.cfg.configPath = path := h.configPath
  have hcp' : w.core.cfg.configPath.val ≠ [] := hcp ▸ hpath
  obtain ⟨hsaved, hdisk⟩ := exec_arConfigRewrite hcp' hO
  unfold reload
  dsimp only
  generalize hs : arConfigRewrite.exec O w = saved at hsaved hdisk
  have hload := exec_arConfigLoad (w := World.fresh w.core.cfg.configPath saved.1.disk) (O := O') hcp' hO' hdisk
  rw [hload, applyLines_configText h hp]
  have hread : ∀ p ∈ knobLines w.core, configLine (fileLine p) = some (lit p.1, p.2) := fun p hm => by
    obtain ⟨hn, hv, hf⟩ := knobLines_plain h hp p hm
    exact configLine_plain hn hv hf.1
  have hloads := loads_fileLines hread (loads_knobLines h ha)
    { World.fresh w.core.cfg.configPath saved.1.disk with calls := (World.fresh w.core.cfg.configPath saved.1.disk).calls + 1 }
  generalize (applyLines ((knobLines w.core).map fileLine)).exec O' _ = loaded at hloads ⊢
  obtain ⟨hok, hcfg⟩ := hloads
  rw [if_pos ⟨hsaved, hok⟩, Option.map_some, hcfg]
  rfl

/-- **What survives is plain.** -/
theorem plain_of_reload (h : (reload O O' w).map Cfg.durable = some w.core.cfg.durable) : w.core.cfg.Plain := by
  obtain ⟨g, hg, hdur⟩ := Option.map_eq_some_iff.1 h
  have hplain : g.Plain := by
    unfold reload at hg
    dsimp only at hg
    split at hg
    · cases hg
      refine exec_invariant (I := fun w => w.core.cfg.Plain) keeps_arConfigLoad (fun _ _ he h => he.perform h) ?_
      have hdefault : ∀ v ∈ [[], lit ".", lit "dump.aura-rdb"], Plain v := by
        intro v hv
        simp only [List.mem_cons, List.not_mem_nil, or_false] at hv
        obtain rfl | rfl | rfl := hv
        · exact ⟨by decide, fun b hb => (by cases hb), by decide⟩
        · exact ⟨by decide, fun b hb => (by cases hb; decide), by decide⟩
        · exact ⟨by decide, fun b hb => (by cases hb; decide), by decide⟩
      exact ⟨hdefault _ (.head _), hdefault _ (.tail _ (.head _)), hdefault _ (.tail _ (.tail _ (.head _))),
        hdefault _ (.head _)⟩
    · cases hg
  have hpass : g.requirepass = w.core.cfg.requirepass := by
    have := congrArg Cfg.requirepass hdur
    exact this
  have hdir : g.rdbDir = w.core.cfg.rdbDir := by
    have := congrArg Cfg.rdbDir hdur
    exact this
  have hname : g.rdbFilename = w.core.cfg.rdbFilename := by
    have := congrArg Cfg.rdbFilename hdur
    exact this
  have hshadow : g.shadowPolicy = w.core.cfg.shadowPolicy := by
    have := congrArg Cfg.shadowPolicy hdur
    exact this
  exact ⟨hpass ▸ hplain.requirepass, hdir ▸ hplain.rdbDir, hname ▸ hplain.rdbFilename, hshadow ▸ hplain.shadowPolicy⟩

/-- **The configuration survives exactly when its texts are plain.** -/
theorem config_reloads_iff [Libc] (hpath : path.val ≠ []) (hw : w.Configured path) (hO : ∀ n, O.grants n = true)
    (hO' : ∀ n, O'.grants n = true) (ha : O'.AllocOk) :
    (reload O O' w).map Cfg.durable = some w.core.cfg.durable ↔ w.core.cfg.Plain :=
  ⟨plain_of_reload, fun hp => reload_of_plain hpath hw.inRange hp hO hO' ha⟩

/-- A file to keep the configuration in. -/
def sampleFile : CArray 512 := .ofBytes 512 (lit "aura-redis.conf")

/-- A new server after `CONFIG SET requirepass`. -/
def withPassword [Libc] (pass : Bytes) : World :=
  ((dispatch 0 [lit "CONFIG", lit "SET", lit "requirepass", pass]).exec (.steady 0)
    (.fresh sampleFile fun _ => none)).1

theorem configured_withPassword [Libc] (pass : Bytes) : (withPassword pass).Configured sampleFile := by
  refine .set (.steady 0) 0 _ ?_ (.start _ rfl)
  show (cmdEq (lit "CONFIG") "config" && cmdEq (lit "SET") "set") = true
  decide

theorem config_reloads_iff_sample :
    let _ : Libc := smallLibc
    (reload (.steady 1) (.steady 2) (withPassword (lit "secret"))).map Cfg.durable =
      some (withPassword (lit "secret")).core.cfg.durable ↔ (withPassword (lit "secret")).core.cfg.Plain := by
  intro _
  have hpath : sampleFile.val ≠ [] := by decide
  exact config_reloads_iff hpath (configured_withPassword _) (fun _ => rfl) (fun _ => rfl) fun _ _ => rfl

/-- A password that begins with a space comes back without it. -/
theorem config_spaced_password :
    let _ : Libc := smallLibc
    (withPassword (lit " x")).Configured sampleFile ∧ (withPassword (lit " x")).core.cfg.requirepass = lit " x" ∧
      (reload (.steady 1) (.steady 2) (withPassword (lit " x"))).map Cfg.requirepass = some (lit "x") ∧
      (reload (.steady 1) (.steady 2) (withPassword (lit " x"))).map Cfg.durable ≠
        some (withPassword (lit " x")).core.cfg.durable := by
  intro _
  have hpass : (withPassword (lit " x")).core.cfg.requirepass = lit " x" := by decide
  have hback : (reload (.steady 1) (.steady 2) (withPassword (lit " x"))).map Cfg.requirepass = some (lit "x") := by
    decide
  refine ⟨configured_withPassword _, hpass, hback, fun h => ?_⟩
  obtain ⟨g, hg, hdur⟩ := Option.map_eq_some_iff.1 h
  rw [hg] at hback
  have hsame : g.requirepass = (withPassword (lit " x")).core.cfg.requirepass := by
    have := congrArg Cfg.requirepass hdur
    exact this
  rw [Option.map_some, hsame, hpass] at hback
  exact absurd hback (by decide)

end

end AuraRedis
