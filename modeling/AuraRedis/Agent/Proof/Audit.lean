import AuraRedis.Agent.Loop
import AuraRedis.Agent.Proof.Poison
import AuraRedis.Lib.LineLog

/-!
# The audit file

`audit-append!` on a disk of which every file can be read and written. A call puts its record behind the file and
cuts what is too long at an offset (`auditText_auditAppend`), so the file is whole records as long as every cut comes at
the end of one (`audit_whole`).
-/

set_option autoImplicit false

namespace Agent

open Aura LineLog

/-! ## The disk -/

abbrev Disk := Bytes → Option Bytes

section
variable [Settings] (O : Outside) (beat : World → Bytes)

/-- What an effect does beside a disk. What the heartbeat says is `beat`. -/
def onDisk : (e : Effect) → World × Disk → (World × Disk) × Answer e
  | .readFile path, s => ((s.1.called, s.2), s.2 path)
  | .writeFile path data, s => ((s.1, Function.update s.2 path (some data)), ())
  | .heartbeat, s => ((s.1, Function.update s.2 Settings.heartbeatFile (some (beat s.1))), ())
  | e, s => (((handle O e s.1).1, s.2), (handle O e s.1).2)

/-- The text of the audit file. -/
def auditText (s : World × Disk) : Bytes := (s.2 Settings.auditFile).getD []

variable [Runtime]

/-- The variables when a call in this world writes its record. -/
def noted (w : World) (op reason : Bytes) : Globals :=
  let j := w.globals.journal
  let native := O.note (w.calls + 2)
  { w.globals with journal := { j with
    auditOp := op
    auditReason := reason
    auditVersion := (O.version (w.calls + 1)).getD j.auditVersion
    auditMidSeq := j.auditMidSeq + 1
    auditMid := if nativeMid native > 0 then nativeMid native else (j.auditMidSeq + 1 : Nat) } }

/-- The record that a call in this world appends. -/
def record (w : World) (op fromName toName reason : Bytes) : Bytes :=
  auditLine (O.clock w.calls) op fromName toName reason (noted O w op reason)

/-- Calls of `audit-append!`, each with the text of the file before it and its record. What happens in between
leaves the file. -/
inductive Audits : World × Disk → List (Bytes × Bytes) → World × Disk → Prop
  | nil (s : World × Disk) : Audits s [] s
  | append {s s' : World × Disk} {steps : List (Bytes × Bytes)} (op fromName toName reason : Bytes) :
      Audits s steps s' →
      Audits s (steps ++ [(auditText s', record O s'.1 op fromName toName reason)])
        ((auditAppend op fromName toName reason).run (onDisk O beat) s').1
  | elsewhere {s s' s'' : World × Disk} {steps : List (Bytes × Bytes)} : Audits s steps s' →
      s''.2 Settings.auditFile = s'.2 Settings.auditFile → Audits s steps s''

end

/-! ## One call -/

theorem notMem_ofInt (n : Int) : 10 ∉ Decimal.ofInt n := by
  have hnat (n : Nat) : 10 ∉ Decimal.ofNat n := fun hm => absurd (Decimal.isDigit_ofNat hm) (by decide)
  unfold Decimal.ofInt
  split
  · simp [hnat]
  · exact hnat _

/-- A record of fields without an end of line. -/
theorem isLine_record [Runtime] (O : Outside) (w : World) {op fromName toName reason : Bytes}
    (h : 10 ∉ op ++ fromName ++ toName ++ reason ++ w.globals.lastEvict ++ w.globals.lastLayout) :
    IsLine 10 (record O w op fromName toName reason) := by
  simp only [List.mem_append, not_or] at h
  obtain ⟨⟨⟨⟨⟨hop, hfrom⟩, hto⟩, hreason⟩, hevict⟩, hlayout⟩ := h
  have hdash {s : Bytes} (hs : 10 ∉ s) : 10 ∉ orDash s := by
    unfold orDash
    split
    · decide
    · exact hs
  have hend : lit "\n" = [10] := by decide
  have hkeys : ∀ key ∈ ["ts=", " op=", " from=", " to=", " reason=", " version=", " mid=", " evict=", " layout="],
      10 ∉ lit key := by decide
  simp only [List.forall_mem_cons] at hkeys
  unfold record auditLine
  rw [hend]
  refine ⟨_, rfl, ?_⟩
  simp [noted, hkeys, notMem_ofInt, hop, hfrom, hto, hreason, hdash hevict, hdash hlayout]

section
variable [Settings] {O : Outside} {beat : World → Bytes} {s s' : World × Disk}

/-- An effect on another file than the audit file. -/
def Effect.Beside : Effect → Prop
  | .writeFile path _ => path ≠ Settings.auditFile
  | .heartbeat => Settings.heartbeatFile ≠ Settings.auditFile
  | _ => True

theorem auditText_onDisk {e : Effect} (he : e.Beside) : auditText (onDisk O beat e s).1 = auditText s := by
  cases e with
  | writeFile path data => exact congrArg (Option.getD · []) (Function.update_of_ne (Ne.symm he) _ _)
  | heartbeat => exact congrArg (Option.getD · []) (Function.update_of_ne (Ne.symm he) _ _)
  | redis by' args => cases by' <;> rfl
  | _ => rfl

theorem beside_update (f : Globals → Globals) : (update f).Only Effect.Beside := .perform trivial

theorem beside_send (args : List Bytes) : (send args).Only Effect.Beside := by
  refine .bind (.bind (.perform trivial) fun reply => ?_) fun _ => trivial
  cases reply with
  | none => exact .bind (beside_update _) fun _ => trivial
  | some reply => trivial

theorem beside_auditPushExplain : auditPushExplain.Only Effect.Beside := by
  unfold auditPushExplain
  exact .bind (.perform trivial) fun _ => .ite trivial (beside_send _)

theorem beside_writePolicyPin (hpin : Settings.pinFile ≠ Settings.auditFile) : writePolicyPin.Only Effect.Beside := by
  unfold writePolicyPin tryVersion notePolicy
  refine .ite trivial (.bind (.perform trivial) fun _ => .bind (.bind (.perform trivial) fun _ => trivial) fun _ => ?_)
  refine .bind (beside_update _) fun _ => .bind (.perform trivial) fun g => ?_
  generalize pinPayload g = payload
  exact .ite trivial (.bind (beside_update _) fun _ => .perform hpin)

theorem beside_writeHeartbeat (hpin : Settings.pinFile ≠ Settings.auditFile)
    (hbeat : Settings.heartbeatFile ≠ Settings.auditFile) : writeHeartbeat.Only Effect.Beside := by
  unfold writeHeartbeat strategyVersion
  refine .ite trivial (.bind (.bind (.perform trivial) fun v => ?_) fun _ => ?_)
  · cases v <;> trivial
  · exact .bind (beside_update _) fun _ => .bind (.perform hbeat) fun _ => beside_writePolicyPin hpin

variable [Runtime]

/-- **A call puts its record behind the file**, and cuts what is too long. -/
theorem auditText_auditAppend (hfile : Settings.auditFile ≠ []) (hpin : Settings.pinFile ≠ Settings.auditFile)
    (hbeat : Settings.heartbeatFile ≠ Settings.auditFile) (op fromName toName reason : Bytes) :
    auditText ((auditAppend op fromName toName reason).run (onDisk O beat) s).1 =
      trim 8192 6144 (auditText s ++ record O s.1 op fromName toName reason) := by
  have hrest : (auditPushExplain >>= fun _ => writeHeartbeat).Only Effect.Beside :=
    .bind beside_auditPushExplain fun _ => beside_writeHeartbeat hpin hbeat
  have hkeep (s' : World × Disk) :
      auditText ((auditPushExplain >>= fun _ => writeHeartbeat).run (onDisk O beat) s').1 = auditText s' :=
    hrest.run_invariant (I := fun s'' => auditText s'' = auditText s') (fun e _ he h => (auditText_onDisk he).trans h) rfl
  have hwritten (s' : World × Disk) (data : Bytes) :
      auditText (onDisk O beat (.writeFile Settings.auditFile data) s').1 = data := by
    show (Function.update s'.2 Settings.auditFile (some data) Settings.auditFile).getD [] = data
    rw [Function.update_self]
    rfl
  unfold auditAppend
  simp only [clock, call, get, tryVersion, tryReadFile, setJournal, update, Prog.perform_bind, Prog.step_bind, Prog.ret_bind,
    Prog.pure_eq, Prog.run_step, ne_eq, hfile, not_false_eq_true, if_true]
  rw [hkeep, hwritten]
  rfl

/-! ## Runs of calls -/

/-- **The audit file is whole records**, the last ones appended so far, in a run of calls from an absent file, as long
as each record is a line and the cut that makes room for it comes at the end of one. -/
theorem audit_whole {steps : List (Bytes × Bytes)} (hfile : Settings.auditFile ≠ [])
    (hpin : Settings.pinFile ≠ Settings.auditFile) (hbeat : Settings.heartbeatFile ≠ Settings.auditFile)
    (habsent : s.2 Settings.auditFile = none) (hrun : Audits O beat s steps s')
    (hsteps : ∀ x ∈ steps, IsLine 10 x.2 ∧ CutsAtEnd 10 8192 6144 (x.1 ++ x.2)) :
    Whole 10 (steps.map (·.2)) (auditText s') := by
  induction hrun with
  | nil =>
    unfold auditText
    rw [habsent]
    exact whole_nil 10
  | append op fromName toName reason _ ih =>
    have hwhole := ih fun x hx => hsteps x (List.mem_append_left _ hx)
    obtain ⟨hline, hcut⟩ := hsteps _ (List.mem_append_right _ (List.mem_singleton.2 rfl))
    rw [auditText_auditAppend hfile hpin hbeat, List.map_append]
    exact (whole_trim_iff hwhole hline (by decide) (by decide)).2 hcut
  | elsewhere _ hsame ih =>
    unfold auditText at ih ⊢
    rw [hsame]
    exact ih hsteps

end

/-! ## Restarts -/

/-- A strategy at one version, and a clock of milliseconds. -/
def versionOutside (v : Int) : Outside :=
  { calmOutside with
    version := fun _ => some v
    clock := fun n => (1000000000 + 50 * n : Nat) }

/-- The agent when it starts for the `n`th time with no variable of the environment set, beside a disk. -/
def started (n : Nat) (d : Disk) : World × Disk :=
  ({ @World.initial decimalRuntime fun _ => none with calls := 100 * n }, d)

/-- What each start appends that finds a pin of the same version. -/
def pinRecord (v : Int) (n : Nat) : Bytes :=
  @record (versionOutside v) decimalRuntime (started n fun _ => none).1 (lit "policy_pin") (Decimal.ofInt v)
    (Decimal.ofInt v) (lit "resume")

/-- The files of an agent with no variable of the environment set. -/
theorem files_unset :
    let _ : Settings := @readEnv decimalRuntime fun _ => none
    Settings.auditFile ≠ [] ∧ Settings.pinFile ≠ Settings.auditFile ∧ Settings.heartbeatFile ≠ Settings.auditFile := by
  decide

theorem length_pinRecord (v : Int) {n : Nat} (hn : n ≤ 100) :
    (pinRecord v n).length = 84 + 3 * (Decimal.ofInt v).length := by
  have hts : (Decimal.ofInt ((versionOutside v).clock (started n fun _ => none).1.calls)).length = 10 :=
    Decimal.length_ofNat (by decide) (by show 10 ^ 9 ≤ 1000000000 + 50 * (100 * n); omega)
      (by show 1000000000 + 50 * (100 * n) < 10 ^ 10; omega)
  have hrest : (lit "ts=").length + (lit " op=").length + (lit "policy_pin").length + (lit " from=").length +
      (lit " to=").length + (lit " reason=").length + (lit "resume").length + (lit " version=").length +
      (lit " mid=").length + (Decimal.ofInt 1).length + (lit " evict=").length + (orDash []).length +
      (lit " layout=").length + (orDash []).length + (lit "\n").length = 74 := by decide
  unfold pinRecord record auditLine
  simp only [List.length_append]
  show _ + (Decimal.ofInt v).length + _ + (Decimal.ofInt 1).length + _ + (orDash []).length + _ +
    (orDash []).length + _ = _
  omega

theorem isLine_pinRecord (v : Int) (n : Nat) : IsLine 10 (pinRecord v n) := by
  refine @isLine_record decimalRuntime _ _ _ _ _ _ ?_
  have hop : 10 ∉ lit "policy_pin" := by decide
  have hreason : 10 ∉ lit "resume" := by decide
  simp only [List.mem_append, hop, hreason, notMem_ofInt, or_self, false_or, not_or]
  exact ⟨List.not_mem_nil, List.not_mem_nil⟩

/-- What the first `k` starts append. -/
def pinRecords (v : Int) (k : Nat) : List Bytes := (List.range k).map (pinRecord v)

theorem pinRecords_succ (v : Int) (k : Nat) : pinRecords v (k + 1) = pinRecords v k ++ [pinRecord v k] := by
  rw [pinRecords, List.range_succ, List.map_append]
  rfl

theorem length_of_mem_pinRecords {v : Int} {k : Nat} (hk : k ≤ 100) {l : Bytes} (hl : l ∈ pinRecords v k) :
    l.length = 84 + 3 * (Decimal.ofInt v).length := by
  obtain ⟨n, hn, rfl⟩ := List.mem_map.1 hl
  exact length_pinRecord v (by have := List.mem_range.1 hn; omega)

theorem length_flatten_pinRecords {v : Int} {k : Nat} (hk : k ≤ 100) :
    (pinRecords v k).flatten.length = (84 + 3 * (Decimal.ofInt v).length) * k := by
  rw [length_flatten_of_length fun l hl => length_of_mem_pinRecords hk hl, pinRecords, List.length_map,
    List.length_range]

theorem isLine_of_mem_pinRecords {v : Int} {k : Nat} {l : Bytes} (hl : l ∈ pinRecords v k) : IsLine 10 l := by
  obtain ⟨n, -, rfl⟩ := List.mem_map.1 hl
  exact isLine_pinRecord v n

/-- One more start that finds a pin. -/
theorem restart {v : Int} {n : Nat} {d : Disk} {steps : List (Bytes × Bytes)} :
    let _ : Runtime := decimalRuntime
    let _ : Settings := readEnv fun _ => none
    Audits (versionOutside v) (fun _ => []) (started 0 fun _ => none) steps (started n d) →
    ∃ d', Audits (versionOutside v) (fun _ => []) (started 0 fun _ => none)
        (steps ++ [(auditText (started n d), pinRecord v n)]) (started (n + 1) d') ∧
      auditText (started (n + 1) d') = trim 8192 6144 (auditText (started n d) ++ pinRecord v n) := by
  intro _ _ hrun
  obtain ⟨hfile, hpin, hbeat⟩ := files_unset
  have happend : auditText ((auditAppend (lit "policy_pin") (Decimal.ofInt v) (Decimal.ofInt v) (lit "resume")).run
      (onDisk (versionOutside v) fun _ => []) (started n d)).1 =
        trim 8192 6144 (auditText (started n d) ++ pinRecord v n) :=
    auditText_auditAppend hfile hpin hbeat ..
  have hnext := hrun.append (lit "policy_pin") (Decimal.ofInt v) (Decimal.ofInt v) (lit "resume")
  exact ⟨_, .elsewhere hnext rfl, happend⟩

/-- Starts one after the other: as long as the file has room, it is what they have appended. -/
theorem restarts {v : Int} {k : Nat} (hk : (84 + 3 * (Decimal.ofInt v).length) * k ≤ 8192) (hk' : k ≤ 100) :
    let _ : Runtime := decimalRuntime
    let _ : Settings := readEnv fun _ => none
    ∃ d steps, Audits (versionOutside v) (fun _ => []) (started 0 fun _ => none) steps (started k d) ∧
      steps.map (·.2) = pinRecords v k ∧ auditText (started k d) = (pinRecords v k).flatten ∧
      ∀ x ∈ steps, (x.1 ++ x.2).length ≤ 8192 := by
  intro _ _
  induction k with
  | zero => exact ⟨_, [], .nil _, rfl, rfl, fun _ h => absurd h List.not_mem_nil⟩
  | succ k ih =>
    obtain ⟨d, steps, hrun, hrecs, htext, hlen⟩ := ih (by rw [Nat.mul_succ] at hk; omega) (by omega)
    obtain ⟨d', hrun', htext'⟩ := restart hrun
    have hall : auditText (started k d) ++ pinRecord v k = (pinRecords v (k + 1)).flatten := by
      rw [htext, pinRecords_succ, List.flatten_concat]
    have hfits : (auditText (started k d) ++ pinRecord v k).length ≤ 8192 := by
      rwa [hall, length_flatten_pinRecords hk']
    refine ⟨d', _, hrun', ?_, ?_, fun x hx => ?_⟩
    · rw [List.map_append, hrecs, pinRecords_succ]
      rfl
    · rw [htext', trim, if_neg (Nat.not_lt.2 hfits), hall]
    · rcases List.mem_append.1 hx with hx | hx
      · exact hlen x hx
      · exact List.mem_singleton.1 hx ▸ hfits

/-- **86 starts of 96 bytes**: the last of them makes the text longer than 8192 bytes, and the 64 records that are kept
are whole. -/
theorem audit_whole_trimmed :
    let _ : Runtime := decimalRuntime
    let _ : Settings := readEnv fun _ => none
    ∃ d steps, Audits (versionOutside 1000) (fun _ => []) (started 0 fun _ => none) steps (started 86 d) ∧
      (∃ x ∈ steps, 8192 < (x.1 ++ x.2).length) ∧ (auditText (started 86 d)).length = 6144 ∧
      Whole 10 (steps.map (·.2)) (auditText (started 86 d)) := by
  intro _ _
  obtain ⟨hfile, hpin, hbeat⟩ := files_unset
  have hn : 84 + 3 * (Decimal.ofInt 1000).length = 96 := by decide
  obtain ⟨d, steps, hrun, hrecs, htext, hfits⟩ := restarts (v := 1000) (k := 85) (by rw [hn]; decide) (by decide)
  obtain ⟨d', hrun', htext'⟩ := restart hrun
  have hall : auditText (started 85 d) ++ pinRecord 1000 85 = (pinRecords 1000 86).flatten := by
    rw [htext, pinRecords_succ 1000 85, List.flatten_concat]
  have hlong : (auditText (started 85 d) ++ pinRecord 1000 85).length = 8256 := by
    rw [hall, length_flatten_pinRecords (by decide), hn]
  refine ⟨d', _, hrun', ⟨_, List.mem_append_right _ (List.mem_singleton.2 rfl), by rw [hlong]; decide⟩, ?_,
    audit_whole hfile hpin hbeat rfl hrun' fun x hx => ?_⟩
  · rw [htext', trim, if_pos (by rw [hlong]; decide), List.length_drop, hlong]
  · rcases List.mem_append.1 hx with hx | hx
    · exact ⟨isLine_of_mem_pinRecords (hrecs ▸ List.mem_map_of_mem hx),
        fun h => absurd (hfits x hx) (Nat.not_le.2 h)⟩
    · -- 6144 bytes are 64 records
      obtain rfl := List.mem_singleton.1 hx
      refine ⟨isLine_pinRecord 1000 85, hall ▸ cutsAtEnd_of_dvd (n := 96) (fun l hl => isLine_of_mem_pinRecords hl)
        (fun l hl => ?_) (by decide) (by decide)⟩
      rw [length_of_mem_pinRecords (by decide) hl, hn]

/-- After 95 starts of 87 bytes the file begins within a record. -/
theorem audit_fragment :
    let _ : Runtime := decimalRuntime
    let _ : Settings := readEnv fun _ => none
    ∃ d steps, Audits (versionOutside 1) (fun _ => []) (started 0 fun _ => none) steps (started 95 d) ∧
      steps.length = 95 ∧ ¬Whole 10 (steps.map (·.2)) (auditText (started 95 d)) := by
  intro _ _
  have hn : 84 + 3 * (Decimal.ofInt 1).length = 87 := by decide
  obtain ⟨d, steps, hrun, hrecs, htext, -⟩ := restarts (v := 1) (k := 94) (by rw [hn]; decide) (by decide)
  obtain ⟨d', hrun', htext'⟩ := restart hrun
  have hall : auditText (started 94 d) ++ pinRecord 1 94 = (pinRecords 1 95).flatten := by
    rw [htext, pinRecords_succ 1 94, List.flatten_concat]
  have hrecs' : (steps ++ [(auditText (started 94 d), pinRecord 1 94)]).map (·.2) = pinRecords 1 95 := by
    rw [List.map_append, hrecs, pinRecords_succ 1 94]
    rfl
  refine ⟨d', _, hrun', ?_, fun h => ?_⟩
  · have := congrArg List.length hrecs'
    rwa [List.length_map, pinRecords, List.length_map, List.length_range] at this
  · rw [hrecs'] at h
    have hdvd := h.dvd_length fun l hl => (length_of_mem_pinRecords (by decide) hl).trans hn
    rw [htext', hall, trim, length_flatten_pinRecords (by decide), hn, if_pos (by decide), List.length_drop,
      length_flatten_pinRecords (by decide), hn] at hdvd
    exact absurd hdvd (by decide)

end Agent
