import AuraRedis.Server.Proof.ConfigFile
import AuraRedis.Server.Proof.Knobs

/-!
# What a file tells the knobs

The rules by which a knob takes a value (`Knob.takes`), and what the loader makes of the pieces that it reads
(`exec_applyLines`): it stops at the first that is refused, and of a knob that several pieces name the last one
counts (`settle_eq_iff`).
-/

set_option autoImplicit false

namespace AuraRedis

open Code Prog Dispatch
open CString (CArray fgets atoi strtoull)

namespace Knob

/-! ## What a knob makes of a value -/

/-- What the knobs that are numbers make of one: it is clamped, or refused. -/
def number : Knob → Int → Option Int
  | evictSamples, n => some (if n < 1 then 1 else if n > 256 then 256 else n)
  | maxclients, n => if 1 ≤ n ∧ n ≤ maxConn then some n else none
  | timeout, n | slowlogLogSlowerThan, n => if 0 ≤ n then some n else none
  | tcpBacklog, n => if 1 ≤ n then some n else none
  | slowlogMaxLen, n => some (if n < 0 then 0 else if n > slowlogMax then slowlogMax else n)
  | shadowSamplePct, n => some (if n < 0 then 0 else if n > 100 then 100 else n)
  | hotSoftCapPct, n => some (if n < 1 then 1 else if n > 100 then 100 else n)
  | hotSoftCapMin, n => some (if n < 0 then 0 else if n > 1000000 then 1000000 else n)
  | _, _ => none

/-- The configuration with such a number. -/
def store (k : Knob) (n : Int) (g : Cfg) : Cfg :=
  match k with
  | evictSamples => { g with evictSamples := n }
  | maxclients => { g with maxclients := n }
  | timeout => { g with timeoutSec := n }
  | slowlogLogSlowerThan => { g with slowlogSlowerThanUs := n }
  | tcpBacklog => { g with tcpBacklog := n }
  | slowlogMaxLen => { g with slowlogMaxLen := n }
  | shadowSamplePct => { g with shadowSamplePct := n }
  | hotSoftCapPct => { g with hotSoftCapPct := n }
  | hotSoftCapMin => { g with hotSoftCapMin := n }
  | _ => g

/-- What a knob makes of a value, and `none` when it refuses. -/
def takes (on : Bytes → Bool) (k : Knob) (v : Bytes) : Option (Cfg → Cfg) :=
  match k with
  | maxmemory => some fun g => { g with maxmemory := (strtoull v).1 }
  | requirepass => some fun g => { g with requirepass := v }
  | protectedMode => some fun g => { g with protectedMode := on v }
  | hotPromoteOnGet => some fun g => { g with hotPromoteOnGet := on v }
  | dir => if v ≠ [] ∧ v.length < 256 then some fun g => { g with rdbDir := .ofBytes 256 v } else none
  | dbfilename =>
    if v ≠ [] ∧ 47 ∉ v ∧ 92 ∉ v ∧ v.length < 128 then some fun g => { g with rdbFilename := .ofBytes 128 v } else none
  | bind => if v ≠ [] ∧ v.length < 64 then some fun g => { g with bindAddr := .ofBytes 64 v } else none
  | shadowPolicy => if v.length < 32 then some fun g => { g with shadowPolicy := .ofBytes 32 v } else none
  | k => (k.number (atoi v)).map k.store

end Knob

/-- The code takes a value, or refuses it and leaves the configuration. -/
def Code.Takes (O : Outside) (p : Code Bool) (r : Option (Cfg → Cfg)) : Prop :=
  ∀ w, (p.exec O w).2 = some r.isSome ∧ (p.exec O w).1.core.cfg = (r.map (· w.core.cfg)).getD w.core.cfg

section
variable {O : Outside} {f : Cfg → Cfg}

theorem takes_setCfg (ok : Prop) [Decidable ok] (f : Cfg → Cfg) :
    (setWhen (decide ok) (eff (.setCfg f))).Takes O (if ok then some f else none) := by
  by_cases h : ok
  · rw [decide_eq_true h, if_pos h]
    exact fun w => ⟨rfl, rfl⟩
  · rw [decide_eq_false h, if_neg h]
    exact fun w => ⟨rfl, rfl⟩

theorem takes_of_loads {p : Code Bool} (h : p.Loads O f) : p.Takes O (some f) := h

theorem takes_call {o : ArOp} {p : Code Unit} (ho : o.tune = some f)
    (hp : ∀ w, p.exec O w = (((eff (.op o)).exec O w).1, some ())) : (setWhen true p).Takes O (some f) :=
  takes_of_loads (loads_call ho hp fun _ => rfl)

theorem takes_setShadowPolicy (v : Bytes) :
    (setShadowPolicy v).Takes O (if v.length < 32 then some fun g => { g with shadowPolicy := .ofBytes 32 v }
      else none) := by
  unfold setShadowPolicy
  by_cases h : v.length < 32
  · rw [if_neg (by omega), if_pos h]
    exact fun w => ⟨rfl, rfl⟩
  · rw [if_pos (by omega), if_neg h]
    exact fun w => ⟨rfl, rfl⟩

theorem takes_number {p : Code Bool} {ok : Prop} [Decidable ok] {n : Int} {store : Int → Cfg → Cfg}
    (h : p.Takes O (if ok then some (store n) else none)) : p.Takes O ((if ok then some n else none).map store) := by
  by_cases hok : ok
  · rw [if_pos hok] at h ⊢
    exact h
  · rw [if_neg hok] at h ⊢
    exact h

/-- **The file takes a value by the rules.** -/
theorem takes_load (ha : O.AllocOk) (k : Knob) (v : Bytes) : (k.load v).Takes O (k.takes Knob.fileOn v) := by
  cases k
  case maxmemory => exact takes_call (o := .arCoreSetMaxmemory _) rfl fun _ => rfl
  case requirepass => exact takes_of_loads (loads_setRequirepass ha v)
  case protectedMode => exact takes_of_loads (loads_setCfg rfl _)
  case evictSamples => exact takes_call (o := .arCoreSetEvictSamples _) rfl fun _ => rfl
  case hotSoftCapPct => exact takes_call (o := .arCoreSetHotSoftCapPct _) rfl fun _ => rfl
  case hotSoftCapMin => exact takes_call (o := .arCoreSetHotSoftCapMin _) rfl fun _ => rfl
  case hotPromoteOnGet => exact takes_call (o := .arCoreSetHotPromoteOnGet _) rfl fun _ => rfl
  case slowlogMaxLen => exact takes_of_loads (loads_setCfg rfl _)
  case shadowSamplePct => exact takes_of_loads (loads_setCfg rfl _)
  case shadowPolicy => exact takes_setShadowPolicy v
  case dir | dbfilename | bind => exact takes_setCfg _ _
  case maxclients =>
    unfold Knob.load Knob.takes Knob.number
    exact takes_number (takes_setCfg _ (Knob.store .maxclients (atoi v)))
  case timeout => exact takes_number (takes_setCfg (0 ≤ atoi v) (Knob.store .timeout (atoi v)))
  case tcpBacklog => exact takes_number (takes_setCfg (1 ≤ atoi v) (Knob.store .tcpBacklog (atoi v)))
  case slowlogLogSlowerThan =>
    exact takes_number (takes_setCfg (0 ≤ atoi v) (Knob.store .slowlogLogSlowerThan (atoi v)))

/-- The words for no are only of the two switches. -/
theorem takes_switch (on on' : Bytes → Bool) (v : Bytes) :
    ∀ k ∉ [Knob.protectedMode, Knob.hotPromoteOnGet], k.takes on v = k.takes on' v := by
  intro k hk
  cases k <;> first | rfl | exact absurd (by decide) hk

theorem set_eq_load (v : Bytes) :
    ∀ k ∉ [Knob.protectedMode, Knob.hotPromoteOnGet, Knob.slowlogMaxLen], k.set v = k.load v := by
  intro k hk
  cases k <;> first | rfl | exact absurd (by decide) hk

/-- **`CONFIG SET` does, too.** -/
theorem takes_set (ha : O.AllocOk) (k : Knob) (v : Bytes) : (k.set v).Takes O (k.takes saysOn v) := by
  by_cases hk : k ∈ [Knob.protectedMode, Knob.hotPromoteOnGet, Knob.slowlogMaxLen]
  · simp only [List.mem_cons, List.not_mem_nil, or_false] at hk
    obtain rfl | rfl | rfl := hk
    · exact takes_of_loads (loads_setCfg rfl _)
    · exact takes_call (o := .arCoreSetHotPromoteOnGet _) rfl fun _ => rfl
    · exact fun w => ⟨rfl, rfl⟩
  · have hswitch : k ∉ [Knob.protectedMode, Knob.hotPromoteOnGet] := by
      simp only [List.mem_cons, List.not_mem_nil, or_false, not_or] at hk ⊢
      exact ⟨hk.1, hk.2.1⟩
    rw [set_eq_load v k hk, takes_switch saysOn Knob.fileOn v k hswitch]
    exact takes_load ha k v

end

/-! ## The parts of a configuration -/

/-- The part that a knob sets. -/
def Knob.part (k : Knob) (g : Cfg) : Cfg :=
  match k with
  | .maxmemory => { maxmemory := g.maxmemory }
  | .requirepass => { requirepass := g.requirepass }
  | .protectedMode => { protectedMode := g.protectedMode }
  | .evictSamples => { evictSamples := g.evictSamples }
  | .maxclients => { maxclients := g.maxclients }
  | .timeout => { timeoutSec := g.timeoutSec }
  | .tcpBacklog => { tcpBacklog := g.tcpBacklog }
  | .slowlogLogSlowerThan => { slowlogSlowerThanUs := g.slowlogSlowerThanUs }
  | .slowlogMaxLen => { slowlogMaxLen := g.slowlogMaxLen }
  | .dir => { rdbDir := g.rdbDir }
  | .dbfilename => { rdbFilename := g.rdbFilename }
  | .bind => { bindAddr := g.bindAddr }
  | .shadowPolicy => { shadowPolicy := g.shadowPolicy }
  | .shadowSamplePct => { shadowSamplePct := g.shadowSamplePct }
  | .hotSoftCapPct => { hotSoftCapPct := g.hotSoftCapPct }
  | .hotSoftCapMin => { hotSoftCapMin := g.hotSoftCapMin }
  | .hotPromoteOnGet => { hotPromoteOnGet := g.hotPromoteOnGet }

/-- What no knob sets. -/
def Cfg.rest (g : Cfg) : Cfg := { evict := g.evict, configPath := g.configPath }

theorem Cfg.ext_parts {g g' : Cfg} (h : ∀ k : Knob, k.part g = k.part g') (hrest : g.rest = g'.rest) : g = g' := by
  obtain ⟨⟩ := g
  obtain ⟨⟩ := g'
  rw [Cfg.mk.injEq]
  exact ⟨congrArg Cfg.evict hrest, congrArg Cfg.evictSamples (h .evictSamples), congrArg Cfg.maxmemory (h .maxmemory),
    congrArg Cfg.hotSoftCapPct (h .hotSoftCapPct), congrArg Cfg.hotSoftCapMin (h .hotSoftCapMin),
    congrArg Cfg.hotPromoteOnGet (h .hotPromoteOnGet), congrArg Cfg.shadowPolicy (h .shadowPolicy),
    congrArg Cfg.shadowSamplePct (h .shadowSamplePct), congrArg Cfg.protectedMode (h .protectedMode),
    congrArg Cfg.requirepass (h .requirepass), congrArg Cfg.maxclients (h .maxclients),
    congrArg Cfg.timeoutSec (h .timeout), congrArg Cfg.tcpBacklog (h .tcpBacklog),
    congrArg Cfg.slowlogSlowerThanUs (h .slowlogLogSlowerThan), congrArg Cfg.slowlogMaxLen (h .slowlogMaxLen),
    congrArg Cfg.rdbDir (h .dir), congrArg Cfg.rdbFilename (h .dbfilename), congrArg Cfg.configPath hrest,
    congrArg Cfg.bindAddr (h .bind)⟩

/-- A change is one of a knob: what it makes of the knob's part does not depend on the configuration, and it leaves
the other parts. -/
structure Knob.Sets (k : Knob) (f : Cfg → Cfg) : Prop where
  own : ∀ g g', k.part (f g) = k.part (f g')
  other : ∀ g, ∀ j ≠ k, j.part (f g) = j.part g
  rest : ∀ g, (f g).rest = g.rest

theorem sets_store (k : Knob) {m n : Int} (hm : k.number m = some n) : k.Sets (k.store n) := by
  cases k <;> first
    | cases hm
      done
    | refine ⟨fun _ _ => rfl, fun g j hj => ?_, fun _ => rfl⟩
      cases j <;> first | rfl | exact absurd rfl hj

theorem sets_number {k : Knob} {v : Bytes} {f : Cfg → Cfg} (h : (k.number (atoi v)).map k.store = some f) :
    k.Sets f := by
  obtain ⟨n, hn, rfl⟩ := Option.map_eq_some_iff.1 h
  exact sets_store k hn

/-- A field that is overwritten is a part of its own. -/
theorem sets_takes {on : Bytes → Bool} {k : Knob} {v : Bytes} {f : Cfg → Cfg} (h : k.takes on v = some f) :
    k.Sets f := by
  cases k
  case maxmemory | requirepass | protectedMode | hotPromoteOnGet =>
    cases h
    refine ⟨fun _ _ => rfl, fun g j hj => ?_, fun _ => rfl⟩
    cases j <;> first | rfl | exact absurd rfl hj
  case dir | dbfilename | bind | shadowPolicy =>
    obtain ⟨-, h⟩ := Option.ite_none_right_eq_some.1 h
    cases h
    refine ⟨fun _ _ => rfl, fun g j hj => ?_, fun _ => rfl⟩
    cases j <;> first | rfl | exact absurd rfl hj
  all_goals exact sets_number h

/-! ## A file in pieces -/

/-- What a knob makes of the configuration when it is told a value: what it refuses changes nothing. -/
def Knob.make (on : Bytes → Bool) (k : Knob) (v : Bytes) (g : Cfg) : Cfg := ((k.takes on v).map (· g)).getD g

/-- The knob that a key of the file names. -/
def Knob.ofKey (key : Bytes) : Option Knob := Knob.all.find? (Knob.isNamed key)

/-- What a piece of the file tells, and which knob. -/
def tells (line : Bytes) : Option (Knob × Bytes) :=
  (configLine line).bind fun p => (Knob.ofKey p.1).map fun k => (k, p.2)

/-- What the pieces tell that the loader reads of a text, 511 bytes at a time. -/
def told (text : Bytes) : List (Knob × Bytes) := (fgets 512 text []).filterMap tells

/-- The knob takes what it is told. -/
def taken (p : Knob × Bytes) : Bool := (p.1.takes Knob.fileOn p.2).isSome

/-- What is told before the first that is refused, made of the configuration one after the other. -/
def settle (T : List (Knob × Bytes)) (g : Cfg) : Cfg :=
  (T.takeWhile taken).foldl (fun g p => p.1.make Knob.fileOn p.2 g) g

/-- The last that a list tells a knob. -/
def lastTold (T : List (Knob × Bytes)) (k : Knob) : Option Bytes := (T.reverse.find? (·.1 = k)).map (·.2)

/-- The configuration in which the knob has been told that, when it has been told anything. -/
def Knob.atLast (k : Knob) (T : List (Knob × Bytes)) (g : Cfg) : Cfg :=
  (lastTold T k).elim g fun v => k.make Knob.fileOn v g

section
variable {O : Outside} {on : Bytes → Bool} {k : Knob} {v : Bytes} {T : List (Knob × Bytes)} {g : Cfg}

theorem Knob.make_of_taken {p : Knob × Bytes} (h : taken p = true) :
    ∃ f, p.1.takes Knob.fileOn p.2 = some f ∧ p.1.make Knob.fileOn p.2 = f := by
  obtain ⟨f, hf⟩ := Option.isSome_iff_exists.1 h
  refine ⟨f, hf, funext fun g => ?_⟩
  rw [Knob.make, hf]
  rfl

theorem Knob.part_make_of_ne {j : Knob} (hj : j ≠ k) : j.part (k.make on v g) = j.part g := by
  unfold Knob.make
  cases h : k.takes on v with
  | none => rfl
  | some f => exact (sets_takes h).other g j hj

theorem Knob.rest_make : (k.make on v g).rest = g.rest := by
  unfold Knob.make
  cases h : k.takes on v with
  | none => rfl
  | some f => exact (sets_takes h).rest g

theorem Knob.part_atLast_of_ne {j : Knob} (hj : j ≠ k) : j.part (k.atLast T g) = j.part g := by
  unfold Knob.atLast
  cases lastTold T k with
  | none => rfl
  | some v => exact Knob.part_make_of_ne hj

theorem Knob.rest_atLast : (k.atLast T g).rest = g.rest := by
  unfold Knob.atLast
  cases lastTold T k with
  | none => rfl
  | some v => exact Knob.rest_make

theorem lastTold_append (p : Knob × Bytes) :
    lastTold (T ++ [p]) k = if p.1 = k then some p.2 else lastTold T k := by
  unfold lastTold
  rw [List.reverse_append, List.reverse_singleton, List.singleton_append, List.find?_cons]
  by_cases h : p.1 = k
  · rw [if_pos h, decide_eq_true h]
    rfl
  · rw [if_neg h, decide_eq_false h]

/-- Of several values that a knob takes the last one counts. -/
theorem part_foldl (hT : ∀ p ∈ T, taken p = true) :
    k.part (T.foldl (fun g p => p.1.make Knob.fileOn p.2 g) g) = k.part (k.atLast T g) := by
  induction T using List.reverseRecOn with
  | nil => rfl
  | append_singleton T p ih =>
    have hrest := ih fun q hq => hT q (List.mem_append_left _ hq)
    obtain ⟨f, hf, hmake⟩ := Knob.make_of_taken (hT p (List.mem_append_right _ (.head _)))
    rw [List.foldl_append, List.foldl_cons, List.foldl_nil, Knob.atLast, lastTold_append]
    by_cases hk : p.1 = k
    · obtain rfl := hk
      rw [if_pos rfl, Option.elim_some, hmake]
      exact (sets_takes hf).own _ _
    · rw [if_neg hk, Knob.part_make_of_ne (Ne.symm hk), hrest]
      rfl

theorem rest_foldl (T : List (Knob × Bytes)) (g : Cfg) :
    (T.foldl (fun g p => p.1.make Knob.fileOn p.2 g) g).rest = g.rest := by
  induction T generalizing g with
  | nil => rfl
  | cons p T ih => exact (ih _).trans Knob.rest_make

/-- **What a file comes to**: the configuration is as one knob made it exactly when the last value each knob takes
makes that of it, and the other knobs leave what there was. -/
theorem settle_eq_iff : settle T g = k.make on v g ↔
    ∀ j : Knob, j.atLast (T.takeWhile taken) g = if j = k then k.make on v g else g := by
  have hpart : ∀ j : Knob, j.part (settle T g) = j.part (j.atLast (T.takeWhile taken) g) := fun j =>
    part_foldl fun p hp => List.mem_takeWhile_imp hp
  constructor
  · intro h j
    rw [h] at hpart
    refine Cfg.ext_parts (fun i => ?_) ?_
    · by_cases hi : i = j
      · obtain rfl := hi
        rw [← hpart]
        split
        · rfl
        · next hne => exact Knob.part_make_of_ne hne
      · rw [Knob.part_atLast_of_ne hi]
        split
        · next hjk => exact (Knob.part_make_of_ne fun h => hi (h.trans hjk.symm)).symm
        · rfl
    · rw [Knob.rest_atLast]
      split
      · exact Knob.rest_make.symm
      · rfl
  · intro h
    refine Cfg.ext_parts (fun j => ?_) ((rest_foldl _ _).trans Knob.rest_make.symm)
    rw [hpart, h]
    split
    · next hjk => rw [hjk]
    · next hne => exact (Knob.part_make_of_ne hne).symm

/-! ## The loader -/

theorem Knob.firstOf_find {α κ : Type} (p : κ → Bool) (f : κ → α) (d : α) (ks : List κ) :
    firstOf d (ks.map fun k => (p k, f k)) = ((ks.find? p).map f).getD d := by
  induction ks with
  | nil => rfl
  | cons k ks ih =>
    rw [List.map_cons, firstOf, List.find?_cons]
    cases p k with
    | true => rfl
    | false => exact ih

/-- **A key that names no knob** is passed over. -/
theorem applyKv_ofKey (key val : Bytes) : applyKv key val = ((Knob.ofKey key).map (·.load val)).getD (return true) := by
  rw [Knob.applyKv_firstOf, Knob.firstOf_find]
  rfl

/-- **The loader** answers whether all was taken, and settles what was told before. -/
theorem exec_applyLines (ha : O.AllocOk) (lines : List Bytes) (w : World) :
    ((applyLines lines).exec O w).2 = some ((lines.filterMap tells).all taken) ∧
      ((applyLines lines).exec O w).1.core.cfg = settle (lines.filterMap tells) w.core.cfg := by
  induction lines generalizing w with
  | nil => exact ⟨rfl, rfl⟩
  | cons line lines ih =>
    rw [applyLines, List.filterMap_cons, tells]
    cases configLine line with
    | none => exact ih w
    | some p =>
      obtain ⟨key, v⟩ := p
      rw [Option.bind_some]
      dsimp only
      rw [applyKv_ofKey]
      cases Knob.ofKey key with
      | none => exact ih w
      | some k =>
        obtain ⟨hans, hcfg⟩ := takes_load ha k v w
        generalize hrun : (k.load v).exec O w = x at hans hcfg
        obtain ⟨w₁, r⟩ := x
        obtain rfl : r = some (k.takes Knob.fileOn v).isSome := hans
        show ((k.load v >>= fun ok => if ok = true then applyLines lines else return false).exec O w).2 = _ ∧
          ((k.load v >>= fun ok => if ok = true then applyLines lines else return false).exec O w).1.core.cfg = _
        rw [exec_seq hrun]
        simp only [Option.map_some, List.all_cons, settle, List.takeWhile_cons]
        cases htaken : taken (k, v) with
        | true =>
          have hsome : (k.takes Knob.fileOn v).isSome = true := htaken
          obtain ⟨hans', hcfg'⟩ := ih w₁
          rw [hsome, if_pos rfl, Bool.true_and]
          refine ⟨hans', hcfg'.trans ?_⟩
          dsimp only at hcfg
          rw [hcfg]
          rfl
        | false =>
          have hnone : (k.takes Knob.fileOn v).isSome = false := htaken
          rw [hnone]
          refine ⟨rfl, hcfg.trans ?_⟩
          rw [Option.isSome_eq_false_iff, Option.isNone_iff_eq_none] at hnone
          rw [hnone]
          rfl

end

end AuraRedis
