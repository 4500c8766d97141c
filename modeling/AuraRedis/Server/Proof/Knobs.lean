import AuraRedis.Server.Config
import AuraRedis.Server.Proof.Fits

/-!
# The knobs

The knobs by their names: what `apply_kv` does of the value of one (`Knob.load`), and what `CONFIG SET` does
before it replies (`Knob.set`).
-/

set_option autoImplicit false

namespace AuraRedis

open Code Dispatch
open CString (CArray atoi strtoull)

inductive Knob
  | maxmemory | requirepass | protectedMode | evictSamples | maxclients | timeout | tcpBacklog
  | slowlogLogSlowerThan | slowlogMaxLen | dir | dbfilename | bind | shadowPolicy | shadowSamplePct
  | hotSoftCapPct | hotSoftCapMin | hotPromoteOnGet
  deriving DecidableEq

namespace Knob

/-- The names a knob goes by, the first one in errors. -/
def names : Knob → List String
  | maxmemory => ["maxmemory"]
  | requirepass => ["requirepass"]
  | protectedMode => ["protected-mode"]
  | evictSamples => ["evict-samples", "samples"]
  | maxclients => ["maxclients"]
  | timeout => ["timeout"]
  | tcpBacklog => ["tcp-backlog"]
  | slowlogLogSlowerThan => ["slowlog-log-slower-than"]
  | slowlogMaxLen => ["slowlog-max-len"]
  | dir => ["dir"]
  | dbfilename => ["dbfilename"]
  | bind => ["bind"]
  | shadowPolicy => ["shadow-policy"]
  | shadowSamplePct => ["shadow-sample-pct"]
  | hotSoftCapPct => ["hot-soft-cap-pct"]
  | hotSoftCapMin => ["hot-soft-cap-min"]
  | hotPromoteOnGet => ["hot-promote-on-get"]

/-- What refuses a value says so. -/
def refusal (k : Knob) : String := "ERR config set " ++ k.names.headD ""

/-- What the file takes for yes. -/
def fileOn (val : Bytes) : Bool := !decide (val ∈ [lit "no", lit "0", lit "false", lit "off"])

/-- A knob set by the file. -/
def load (k : Knob) (val : Bytes) : Code Bool :=
  match k with
  | maxmemory => setWhen true (call (.arCoreSetMaxmemory (strtoull val).1))
  | requirepass => setRequirepass val
  | protectedMode => setWhen true (eff (.setCfg fun g => { g with protectedMode := fileOn val }))
  | evictSamples => setWhen true (call (.arCoreSetEvictSamples (atoi val)))
  | maxclients =>
    setWhen (decide (1 ≤ atoi val ∧ atoi val ≤ maxConn)) (eff (.setCfg fun g => { g with maxclients := atoi val }))
  | timeout => setWhen (decide (0 ≤ atoi val)) (eff (.setCfg fun g => { g with timeoutSec := atoi val }))
  | tcpBacklog => setWhen (decide (1 ≤ atoi val)) (eff (.setCfg fun g => { g with tcpBacklog := atoi val }))
  | slowlogLogSlowerThan =>
    setWhen (decide (0 ≤ atoi val)) (eff (.setCfg fun g => { g with slowlogSlowerThanUs := atoi val }))
  | slowlogMaxLen => setWhen true (eff (.setCfg fun g => { g with
      slowlogMaxLen := if atoi val < 0 then 0 else if atoi val > slowlogMax then slowlogMax else atoi val }))
  | dir => setWhen (decide (val ≠ [] ∧ val.length < 256)) (eff (.setCfg fun g => { g with rdbDir := .ofBytes 256 val }))
  | dbfilename =>
    setWhen (decide (val ≠ [] ∧ 47 ∉ val ∧ 92 ∉ val ∧ val.length < 128))
      (eff (.setCfg fun g => { g with rdbFilename := .ofBytes 128 val }))
  | bind => setWhen (decide (val ≠ [] ∧ val.length < 64)) (eff (.setCfg fun g => { g with bindAddr := .ofBytes 64 val }))
  | shadowPolicy => setShadowPolicy val
  | shadowSamplePct => setWhen true (setShadowSamplePct (atoi val))
  | hotSoftCapPct => setWhen true (call (.arCoreSetHotSoftCapPct (atoi val)))
  | hotSoftCapMin => setWhen true (call (.arCoreSetHotSoftCapMin (atoi val)))
  | hotPromoteOnGet => setWhen true (call (.arCoreSetHotPromoteOnGet (fileOn val)))

/-- A knob set by `CONFIG SET`: it knows fewer words for no, and cuts the slow log. -/
def set (k : Knob) (val : Bytes) : Code Bool :=
  match k with
  | protectedMode => setWhen true (eff (.setCfg fun g => { g with protectedMode := saysOn val }))
  | slowlogMaxLen => setWhen true (setSlowlogMaxLen (atoi val))
  | hotPromoteOnGet => setWhen true (call (.arCoreSetHotPromoteOnGet (saysOn val)))
  | k => k.load val

/-! ## By their names -/

/-- All knobs, in the order of `apply_kv`. -/
def all : List Knob :=
  [maxmemory, requirepass, protectedMode, evictSamples, maxclients, timeout, tcpBacklog, slowlogLogSlowerThan,
    slowlogMaxLen, dir, dbfilename, bind, shadowPolicy, shadowSamplePct, hotSoftCapPct, hotSoftCapMin, hotPromoteOnGet]

theorem mem_all (k : Knob) : k ∈ all := by cases k <;> decide

/-- Whether a key is a name of the knob. -/
def isNamed (key : Bytes) (k : Knob) : Bool := k.names.any (cmdEq key)

/-- No two knobs have a name in common. -/
theorem cmdEq_names : ∀ k ∈ all, ∀ s ∈ k.names, ∀ k' ∈ all, isNamed (lit s) k' = true → k' = k := by decide +kernel

/-- The first branch whose condition holds. -/
def firstOf {α : Type} (d : α) : List (Bool × α) → α
  | [] => d
  | b :: bs => if b.1 = true then b.2 else firstOf d bs

theorem firstOf_map {α κ : Type} (p : κ → Bool) (f : κ → α) (d : α) {ks : List κ} {k : κ} (hk : k ∈ ks)
    (honly : ∀ k' ∈ ks, p k' = true → k' = k) (hp : p k = true) : firstOf d (ks.map fun k => (p k, f k)) = f k := by
  induction ks with
  | nil => cases hk
  | cons k' ks ih =>
    rw [List.map_cons, firstOf]
    by_cases hp' : p k' = true
    · rw [if_pos hp', honly k' (.head _) hp']
    · rw [if_neg hp']
      refine ih ?_ fun x hx => honly x (.tail _ hx)
      rcases List.mem_cons.1 hk with rfl | hk
      · exact absurd hp hp'
      · exact hk

variable {k : Knob} {s : String} {key : Bytes}

theorem isNamed_of_name (hs : s ∈ k.names) (hkey : cmdEq key s = true) :
    isNamed key k = true ∧ ∀ k', isNamed key k' = true → k' = k := by
  have hsame : ∀ k', isNamed key k' = isNamed (lit s) k' := fun k' => by
    unfold isNamed
    rw [funext (cmdEq_congr hkey)]
  refine ⟨List.any_eq_true.2 ⟨s, hs, hkey⟩, fun k' hk' => ?_⟩
  rw [hsame] at hk'
  exact cmdEq_names k (mem_all k) s hs k' (mem_all k') hk'

theorem applyKv_firstOf (key val : Bytes) :
    applyKv key val = firstOf (return true) (all.map fun k => (isNamed key k, k.load val)) := by
  simp only [all, List.map_cons, List.map_nil, isNamed, names, List.any_cons, List.any_nil, Bool.or_false]
  rfl

/-- **A line of the file** sets the knob of its key. -/
theorem applyKv_eq (hs : s ∈ k.names) (hkey : cmdEq key s = true) (val : Bytes) : applyKv key val = k.load val := by
  obtain ⟨hp, honly⟩ := isNamed_of_name hs hkey
  rw [applyKv_firstOf]
  exact firstOf_map (isNamed key) (fun k => k.load val) _ (mem_all k) (fun k' _ => honly k') hp

theorem applyKv_name (hs : s ∈ k.names) (val : Bytes) : applyKv (lit s) val = k.load val :=
  applyKv_eq hs (beq_self_eq_true _) val

theorem setOption_eq (c : Nat) (name : String) (ok : Bool) (p : Code Unit) :
    setOption c name ok p = (setWhen ok p >>= fun ok => if ok = true then configSetOk c
      else replyErr c ("ERR config set " ++ name)) := by
  cases ok with
  | false => rfl
  | true =>
    show (p >>= fun _ => configSetOk c) = (p >>= fun _ => Prog.ret true) >>= _
    rw [bind_assoc]
    rfl

/-- `CONFIG SET` of a knob. -/
def setting (c : Nat) (val : Bytes) (k : Knob) : Code Unit :=
  k.set val >>= fun ok => if ok = true then configSetOk c else replyErr c k.refusal

theorem configSetTo_firstOf (c : Nat) (key val : Bytes) :
    configSetTo c key val = firstOf (replyErr c "ERR Unknown option or number of arguments for CONFIG SET")
      ((all.erase bind).map fun k => (isNamed key k, setting c val k)) := by
  have hall : all.erase bind = [maxmemory, requirepass, protectedMode, evictSamples, maxclients, timeout, tcpBacklog,
    slowlogLogSlowerThan, slowlogMaxLen, dir, dbfilename, shadowPolicy, shadowSamplePct, hotSoftCapPct, hotSoftCapMin,
    hotPromoteOnGet] := by decide
  rw [hall]
  unfold configSetTo
  simp only [setOption_eq, List.map_cons, List.map_nil, isNamed, names, List.any_cons, List.any_nil, Bool.or_false]
  rfl

/-- **`CONFIG SET`** sets the knob of its key, when it has one, and says whether it did. -/
theorem configSetTo_eq (hs : s ∈ k.names) (hkey : cmdEq key s = true) (hbind : k ≠ .bind) (c : Nat) (val : Bytes) :
    configSetTo c key val = setting c val k := by
  obtain ⟨hp, honly⟩ := isNamed_of_name hs hkey
  rw [configSetTo_firstOf]
  exact firstOf_map (isNamed key) (setting c val) _ ((List.mem_erase_of_ne hbind).2 (mem_all k))
    (fun k' _ => honly k') hp

end Knob

end AuraRedis
