import AuraRedis.Agent.Proof.Ticks

/-!
# Runs of the agent

A run is seeded, may resume from the pin, and then goes by steps (`seeded_view`, `session_view`), so that an
invariant of the strategy is one of all three (`session_invariant`).
-/

set_option autoImplicit false

namespace Agent

open Aura Relation

/-! ## What has happened stays -/

theorem View.put_trail (v : View) (s : Strategy) : v.trail <:+ (v.put s).trail := by
  by_cases h : s = v.strat
  · simp [View.put, h]
  · simp [View.put, h]

theorem View.tell_trail (v : View) (ok : Bool) : v.trail <:+ (v.tell ok).trail := List.suffix_cons _ _

theorem View.install_trail (v : View) (via : Via) (body : Body) (tag : Bytes) (ok : Bool) :
    v.trail <:+ (v.install via body tag ok).trail := List.suffix_cons _ _

theorem View.heal_trail (v : View) (by' : Healer) (reported : Bytes) : v.trail <:+ (v.heal by' reported).trail :=
  List.suffix_cons _ _

theorem View.attempt_trail (v : View) (via : Via) (body : Body) (tag : Bytes) (ok : Bool) :
    v.trail <:+ (v.attempt via body tag ok).trail := (v.tell_trail true).trans (List.suffix_cons _ _)

theorem attempt_trail {v v' : View} {toName : Bytes} (h : Attempt v toName v') : v.trail <:+ v'.trail := by
  cases h with
  | refused => exact v.tell_trail _
  | failed tag => exact v.attempt_trail _ _ _ _
  | swapped tag => exact (v.attempt_trail _ _ _ _).trans (View.put_trail _ _)
  | opened tag ewma _ => exact (v.attempt_trail _ _ _ _).trans (View.put_trail _ _)

section
variable [Settings]

/-- What the seeding does to the strategy. -/
inductive SeedStep : View → View → Prop
  | setCode {v : View} : SeedStep v { v with body := .empty }
  | snapshot {v : View} : SeedStep v v.snapshot
  | tell {v : View} (ok : Bool) : SeedStep v (v.tell ok)
  | normal {v : View} (ok : Bool) :
    SeedStep v ((v.install .swap .normal (lit "seed-normal") ok).put
      { v.strat with lastGood := nameNormal, profileName := nameNormal })
  | profile {v : View} (ok : Bool) :
    SeedStep v ((v.snapshot.install .swap (bodyForProfile Settings.seedProfile)
      (lit "seed-" ++ Settings.seedProfile) ok).put
        { v.strat with
          profileName := Settings.seedProfile
          lastGood := if Poisoned Settings.seedProfile then v.strat.lastGood else Settings.seedProfile })
  | note {v : View} {s' : Strategy} (same : v.strat.Same s') : SeedStep v (v.put s')
  | thresholds {v : View} (ok : Bool) (tag : Bytes) :
    SeedStep v ((v.snapshot.install .swap (.evolved v.strat.thresh) tag ok).put
      { v.strat with
        profileName := if Settings.evolveOn then nameEvolved else nameThresholded
        evolve := { v.strat.evolve with mode := if Settings.evolveOn then .baseline else .done } })

/-- What the pin of an earlier process does to it, as it is found. -/
inductive Resume (pin : Option Bytes) (v : View) : View → Prop
  | kept : Resume pin v v
  | swapped {raw : Bytes} (found : pin = some raw) (some : pinGet raw (lit "profile") ≠ [])
    (other : pinGet raw (lit "profile") ≠ v.strat.profileName) (ok : Bool) :
    Resume pin v ((v.snapshot.install .swap (bodyForProfile (pinGet raw (lit "profile")))
      (lit "resume-" ++ pinGet raw (lit "profile")) ok).put
        { v.strat with profileName := pinGet raw (lit "profile"), lastGood := pinGet raw (lit "profile") })

variable {F : Files} {v : View}

theorem seedStep_trail {v' : View} (h : SeedStep v v') : v.trail <:+ v'.trail := by
  cases h with
  | setCode | snapshot => exact List.suffix_rfl
  | tell ok => exact v.tell_trail ok
  | normal | profile | thresholds => exact (View.install_trail _ _ _ _ _).trans (View.put_trail _ _)
  | note => exact v.put_trail _

omit [Settings] in
theorem resume_trail {pin : Option Bytes} {v' : View} (h : Resume pin v v') : v.trail <:+ v'.trail := by
  cases h with
  | kept => exact List.suffix_rfl
  | swapped => exact (View.install_trail v.snapshot _ _ _ _).trans (View.put_trail _ _)

theorem step_trail {v' : View} (h : Step F v v') : v.trail <:+ v'.trail := by
  cases h with
  | note | good | clear | freeze | unfreeze => exact v.put_trail _
  | refused => exact v.tell_trail _
  | tried c on h => exact attempt_trail h
  | healTrial => exact ((v.heal_trail _ _).trans (View.put_trail _ _)).trans (View.put_trail _ _)
  | commitTrial _ _ safe =>
    have htell : v.trail <:+ ((v.put v.strat.commitTrial).tell safe).trail :=
      (v.put_trail _).trans (View.tell_trail _ _)
    cases safe <;> exact htell.trans (View.put_trail _ _)
  | threshold =>
    refine .trans (.trans ?_ (View.install_trail _ _ _ _ _)) (View.put_trail _ _)
    exact (v.tell_trail true).trans (View.put_trail (v.tell true).snapshot _)
  | heal | healBroken => exact (v.heal_trail _ _).trans (View.put_trail _ _)
  | reload | evolve => exact (v.attempt_trail _ _ _ _).trans (View.put_trail _ _)
  | trip _ _ _ frozen h =>
    have hput := View.put_trail v { v.strat with poisonActive := true }
    have hfrozen : v.trail <:+ _ := frozen.elim (fun h => h ▸ hput) fun h => h ▸ hput.trans (View.put_trail _ _)
    cases h with
    | busy => exact hfrozen
    | tried h => exact hfrozen.trans (attempt_trail h)
  | evolveFailed | demoInvert => exact v.attempt_trail _ _ _ _
  | demoBroken => exact (View.install_trail v.snapshot _ _ _ _).trans (View.heal_trail _ _ _)

/-! ## Seeding -/

theorem seedProfile_does : seedProfile.Leads (moves F) SeedStep v := by
  refine .ite (fun _ => .ret ()) fun _ => Follow.snapshot (Follow.install fun ok => ?_)
  exact Follow.setStrat_last (.single (.profile ok))

theorem setEvolve_seeds (f : Evolve → Evolve) : (setEvolve f).Leads (moves F) SeedStep v :=
  Follow.setStrat_last (.single (.note ⟨rfl, rfl, rfl, rfl⟩))

theorem seedThresholds_does : seedThresholds.Leads (moves F) SeedStep v := by
  refine .andThen (setEvolve_seeds _) fun _ v₁ _ => Follow.get fun g hg => .ite (fun _ => ?_) fun _ => .ret .refl
  rw [hg.1]
  exact Follow.snapshot (Follow.install fun ok => Follow.setStrat_last (.single (.thresholds ok _)))

theorem seed_does : seed.Leads (moves F) SeedStep v := by
  refine .quiet (quiet_call trivial) fun _ => ?_
  rintro _ _ rfl
  refine Prog.Leads.after .setCode (Follow.snapshot (Prog.Leads.after .snapshot (Follow.boundarySafe fun ok => ?_)))
  refine Prog.Leads.after (.tell ok) (.quiet (quiet_call trivial) fun _ => Follow.install fun ok => ?_)
  refine .quiet (quiet_call trivial) fun _ => .quiet (quiet_call trivial) fun _ => .quiet (quiet_call trivial) fun _ => ?_
  refine Follow.setStrat (Prog.Leads.after (.normal ok) (.andThen seedProfile_does fun _ v₁ _ => ?_))
  refine Follow.setStrat (Prog.Leads.after (.note ⟨rfl, rfl, rfl, rfl⟩) seedThresholds_does)

/-! ## Resuming -/

section
variable [Runtime]

theorem resumeProfile_wp {raw : Bytes} (some : pinGet raw (lit "profile") ≠ []) :
    (resumeProfile raw (pinGet raw (lit "profile"))).Wp (moves F) (fun _ v' => Resume (.some raw) v v') v := by
  have hlast : Quiet F (do
      setJournal fun j => { j with pinResumed := true }
      let version ← tryVersion 0
      notePolicy version
      let j := (← get).journal
      auditAppend (lit "policy_pin") (Decimal.ofInt j.pinFromVersion) (Decimal.ofInt j.policyVersion) (lit "resume")
      writePolicyPin) := by
    refine .bind (quiet_setJournal _) fun _ => .bind (quiet_tryVersion _) fun _ => .bind (quiet_notePolicy _) fun _ => ?_
    exact .bind quiet_getProg fun _ => .bind (quiet_auditAppend _ _ _ _) fun _ => quiet_writePolicyPin
  refine .quiet (quiet_setJournal _) fun _ => .quiet (quiet_set fun _ => ⟨rfl, rfl⟩) fun _ => ?_
  refine Follow.get fun g hg => .ite (fun h => ?_) fun _ => .of_quiet hlast fun _ => .kept
  rw [hg.1] at h
  refine Follow.snapshot (Follow.install fun ok => Follow.setStrat (.of_quiet hlast fun _ => ?_))
  exact .swapped rfl some h ok

/-- The rest of `resumeFromPin`, when the pin has been found. -/
def resumeFound (pin : Option Bytes) : M Unit :=
  let raw := pin.getD []
  if pinGet raw (lit "profile") = [] then do
    logPolicyPin
    writePolicyPin
  else resumeProfile raw (pinGet raw (lit "profile"))

theorem resumeFound_wp (pin : Option Bytes) : (resumeFound pin).Wp (moves F) (fun _ v' => Resume pin v v') v := by
  refine .ite (fun _ => ?_) fun h => ?_
  · exact .of_quiet (.bind quiet_logPolicyPin fun _ => quiet_writePolicyPin) fun _ => .kept
  · cases pin with
    | none => exact absurd rfl h
    | some raw => exact resumeProfile_wp h

/-- The rest of `start`. -/
def startResumed (fuel : Nat) : M Unit := do
  let _ ← clock
  ensureConnected fuel
  if Settings.demo then
    let now ← clock
    update fun g => { g with demo := { g.demo with t0 := now } }

theorem start_eq (fuel : Nat) : start fuel =
    (if Settings.pinFile = [] then logPolicyPin else call (.readFile Settings.pinFile) >>= resumeFound) >>= fun _ =>
      startResumed fuel := rfl

omit [Runtime] in
theorem quiet_startResumed (fuel : Nat) : Quiet F (startResumed fuel) := by
  refine .bind (quiet_call trivial) fun _ => .bind (quiet_ensureConnected fuel) fun _ => .ite ?_ (quiet_pure _)
  exact .bind (quiet_call trivial) fun _ => quiet_set fun _ => ⟨rfl, rfl⟩

end

end

/-! ## Runs -/

/-- The run of a program, by what it does to the view. -/
theorem perform_view {O : Outside} {α : Type} {p : M α} {Q : α → View → Prop} {w w' : World} {a : α}
    (hp : p.Wp (moves O.reads) Q w.view) (h : perform O p w = some (a, w')) : Q a w'.view := by
  rw [perform, Option.map_eq_some_iff] at h
  obtain ⟨b, hb, he⟩ := h
  obtain ⟨rfl, rfl⟩ := Prod.mk.inj he
  exact hp.run (moves_abstracts O) hb

theorem perform_leads {O : Outside} {α : Type} {p : M α} {R : View → View → Prop} {w w' : World} {a : α}
    (hp : p.Leads (moves O.reads) R w.view) (h : perform O p w = some (a, w')) : ReflTransGen R w.view w'.view :=
  perform_view (Q := fun _ => ReflTransGen R w.view) hp h

section
variable [Runtime] {getenv : Env} {O : Outside}

/-- **The start** resumes from the pin as it is then. -/
theorem start_resumes [Settings] {fuel : Nat} {w w' : World} {a : Unit} (h : perform O (start fuel) w = some (a, w')) :
    Resume (O.files w.calls Settings.pinFile) w.view w'.view := by
  have hrest {v v' : View} {pin : Option Bytes} (hr : Resume pin v v') :
      (startResumed fuel).Wp (moves O.reads) (fun _ v'' => Resume pin v v'') v' :=
    .of_quiet (quiet_startResumed fuel) fun _ => hr
  rw [start_eq] at h
  by_cases hfile : Settings.pinFile = []
  · rw [if_pos hfile] at h
    refine perform_view (Q := fun _ => Resume (O.files w.calls Settings.pinFile) w.view) ?_ h
    exact .quiet quiet_logPolicyPin fun _ => hrest .kept
  · rw [if_neg hfile] at h
    -- the read is the first call
    have hread : perform O (resumeFound (O.files w.calls Settings.pinFile) >>= fun _ => startResumed fuel) w.called =
        some (a, w') := h
    refine perform_view (Q := fun _ => Resume (O.files w.calls Settings.pinFile) w.view) ?_ hread
    exact .seq (resumeFound_wp _) fun _ _ hr => hrest hr

/-- **The view when seeding is done.** -/
theorem seeded_view {w : World} (h : seeded getenv O = some w) :
    ReflTransGen (@SeedStep (readEnv getenv)) (World.initial getenv).view w.view := by
  rw [seeded] at h
  split at h
  next w₁ h₁ =>
    obtain ⟨⟨u, w'⟩, hw', rfl⟩ := Option.map_eq_some_iff.1 h
    have hboot : w₁.view = (World.initial getenv).view :=
      perform_view (Q := fun _ v => v = (World.initial getenv).view)
        (.of_quiet (.bind (quiet_tryReadFile _) fun _ => quiet_pure _) fun _ => rfl) h₁
    let _ := readEnv getenv
    rw [← hboot]
    exact perform_leads seed_does hw'
  next => cases h

/-- **The view of a run**: what its seeding, the pin and its ticks make of it. -/
theorem session_view {fuel n : Nat} {w : World} (h : session getenv O fuel n = some w) :
    ∃ w₀ v₁, seeded getenv O = some w₀ ∧ Resume (O.files w₀.calls (readEnv getenv).pinFile) w₀.view v₁ ∧
      ReflTransGen (@Step (readEnv getenv) O.reads) v₁ w.view := by
  let _ := readEnv getenv
  induction n generalizing w with
  | zero =>
    obtain ⟨w₀, hw₀, h⟩ := Option.bind_eq_some_iff.1 h
    obtain ⟨⟨u, w'⟩, hw', rfl⟩ := Option.map_eq_some_iff.1 h
    exact ⟨w₀, _, hw₀, start_resumes hw', .refl⟩
  | succ n ih =>
    obtain ⟨w', hw', h⟩ := Option.bind_eq_some_iff.1 h
    obtain ⟨w₀, v₁, hw₀, hr, hs⟩ := ih hw'
    split at h
    · obtain ⟨⟨u, w''⟩, hw'', rfl⟩ := Option.map_eq_some_iff.1 h
      exact ⟨w₀, v₁, hw₀, hr, hs.trans (perform_leads (tick_does fuel) hw'')⟩
    · cases h

/-- **What every part of a run keeps**, as long as what has happened is as `C` says. -/
theorem session_invariant {C : List Event → Prop} (hC : ∀ {t t'}, t <:+ t' → C t' → C t) {I : View → Prop}
    (hinit : I (World.initial getenv).view)
    (hseed : ∀ {v v'}, @SeedStep (readEnv getenv) v v' → C v'.trail → I v → I v')
    (hresume : ∀ {w₀ v'}, seeded getenv O = some w₀ → Resume (O.files w₀.calls (readEnv getenv).pinFile) w₀.view v' →
      C v'.trail → I w₀.view → I v')
    (hstep : ∀ {v v'}, @Step (readEnv getenv) O.reads v v' → C v'.trail → I v → I v')
    {fuel n : Nat} {w : World} (h : session getenv O fuel n = some w) (hw : C w.trail) : I w.view := by
  let _ := readEnv getenv
  obtain ⟨w₀, v₁, hw₀, hr, hs⟩ := session_view h
  have hgrow {v v' : View} (h : ReflTransGen (Step O.reads) v v') : v.trail <:+ v'.trail :=
    h.head_induction_on List.suffix_rfl fun h _ ih => (step_trail h).trans ih
  have hrun {v : View} (hs : ReflTransGen (Step O.reads) v₁ v) (h₁ : I v₁) (hv : C v.trail) : I v := by
    induction hs with
    | refl => exact h₁
    | tail _ h ih => exact hstep h hv (ih (hC (step_trail h) hv))
  have hboot {v : View} (h : ReflTransGen SeedStep (World.initial getenv).view v) (hv : C v.trail) : I v := by
    induction h with
    | refl => exact hinit
    | tail _ h ih => exact hseed h hv (ih (hC (seedStep_trail h) hv))
  have h₁ : C v₁.trail := hC (hgrow hs) hw
  exact hrun hs (hresume hw₀ hr h₁ (hboot (seeded_view hw₀) (hC (resume_trail hr) h₁))) hw

end

end Agent
