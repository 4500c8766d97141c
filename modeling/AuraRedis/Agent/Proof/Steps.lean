import AuraRedis.Agent.Proof.Moves

/-!
# What the agent does to its strategy

`Step v v'` is one thing that the agent does to its strategy once it is seeded, with what it takes for the agent
to do it. Every function of a tick leads by steps from the view it finds to the view it leaves.
-/

set_option autoImplicit false

namespace Agent

open Aura Relation

namespace Strategy

variable (s : Strategy)

/-- A trial of the profile is open. -/
def openTrial (toName : Bytes) (ewma : Int) : Strategy :=
  { s with profileName := toName, canary := ⟨true, 0, s.profileName, toName, ewma, 0, 0, s.canary.injectDone⟩ }

/-- The name and the last good profile are those of before the trial. -/
def healTrial : Strategy :=
  { s with
    profileName := s.canary.fromProfile
    lastGood := if s.canary.fromProfile ≠ [] then s.canary.fromProfile else s.lastGood }

def commitTrial : Strategy := { s with lastGood := s.canary.toProfile, profileName := s.canary.toProfile }

def closeTrial : Strategy := { s with canary := s.canary.close }

def freeze : Strategy := { s with metaFrozen := true, fitnessBeforeFreeze := s.fitnessOn, fitnessOn := false }

def unfreeze : Strategy := { s with metaFrozen := false, fitnessOn := s.fitnessBeforeFreeze }

/-- Only counters of the trial and the evolve loop may differ. -/
structure Same (s' : Strategy) : Prop where
  rest : { s' with canary := s.canary, evolve := s.evolve } = s
  trial : s'.canary.trial = s.canary.trial
  fromProfile : s'.canary.fromProfile = s.canary.fromProfile
  toProfile : s'.canary.toProfile = s.canary.toProfile

namespace Same

variable {s s' : Strategy} (h : s.Same s')

include h

theorem profileName : s'.profileName = s.profileName := (congrArg Strategy.profileName h.rest :)

theorem lastGood : s'.lastGood = s.lastGood := (congrArg Strategy.lastGood h.rest :)

theorem fitnessOn : s'.fitnessOn = s.fitnessOn := (congrArg Strategy.fitnessOn h.rest :)

theorem fitnessBeforeFreeze : s'.fitnessBeforeFreeze = s.fitnessBeforeFreeze :=
  (congrArg Strategy.fitnessBeforeFreeze h.rest :)

theorem metaFrozen : s'.metaFrozen = s.metaFrozen := (congrArg Strategy.metaFrozen h.rest :)

theorem poisonActive : s'.poisonActive = s.poisonActive := (congrArg Strategy.poisonActive h.rest :)

theorem thresh : s'.thresh = s.thresh := (congrArg Strategy.thresh h.rest :)

end Same

end Strategy

namespace View

/-- A body is to be installed at a safe boundary, after a snapshot. -/
def attempt (v : View) (via : Via) (body : Body) (tag : Bytes) (ok : Bool) : View :=
  ((v.tell true).snapshot).install via body tag ok

@[simp] theorem attempt_strat (v : View) (via : Via) (body : Body) (tag : Bytes) (ok : Bool) :
    (v.attempt via body tag ok).strat = v.strat := rfl

@[simp] theorem tell_strat (v : View) (ok : Bool) : (v.tell ok).strat = v.strat := rfl

@[simp] theorem snapshot_strat (v : View) : v.snapshot.strat = v.strat := rfl

@[simp] theorem install_strat (v : View) (via : Via) (body : Body) (tag : Bytes) (ok : Bool) :
    (v.install via body tag ok).strat = v.strat := rfl

@[simp] theorem heal_strat (v : View) (by' : Healer) (reported : Bytes) : (v.heal by' reported).strat = v.strat := rfl

/-- The trial is healed. -/
def healTrial (v : View) : View :=
  ((v.heal .canary v.strat.canary.fromProfile).put v.strat.healTrial).put v.strat.healTrial.closeTrial

/-- The trial is committed; `safe` says whether its body becomes the one to heal to. -/
def commitTrial (v : View) (safe : Bool) : View :=
  let v' := (v.put v.strat.commitTrial).tell safe
  (if safe then v'.snapshot else v').put v.strat.commitTrial.closeTrial

end View

/-- What a function that puts a profile in place may come to. -/
inductive Attempt (v : View) (toName : Bytes) : View → Prop
  | refused : Attempt v toName (v.tell false)
  | failed (tag : Bytes) : Attempt v toName (v.attempt .rebind (bodyForProfile toName) tag false)
  | swapped (tag : Bytes) :
    Attempt v toName ((v.attempt .rebind (bodyForProfile toName) tag true).put { v.strat with profileName := toName })
  | opened (tag : Bytes) (ewma : Int) (idle : v.strat.canary.trial = false) :
    Attempt v toName ((v.attempt .rebind (bodyForProfile toName) tag true).put (v.strat.openTrial toName ewma))

section
variable [Settings] (F : Files)

/-- What makes the agent put a profile in place. -/
inductive Cause
  | fitness
  | storm
  | inject
  | shadow

/-- The cause may arise. -/
def Cause.On (v : View) : Cause → Prop
  | .fitness => v.strat.fitnessOn = true
  | .storm => Settings.poisonDefense = true ∧ Settings.seedFrozen = false
  | .inject => Settings.canaryInject ≠ []
  | .shadow => v.ab = true ∧ Settings.shadowAutopromote = true

/-- What follows a poison storm that is noticed. -/
inductive Defence (v : View) : View → Prop
  | busy (canary : Settings.canaryOn = true) (trial : v.strat.canary.trial = true) : Defence v v
  | tried {v' : View} (h : Attempt v nameDefensive v') : Defence v v'

inductive Step : View → View → Prop
  | note {v : View} {s' : Strategy} (same : v.strat.Same s') : Step v (v.put s')
  | good {v : View} (fitness : v.strat.fitnessOn = true) (clean : ¬Poisoned v.strat.profileName) :
    Step v (v.put { v.strat with lastGood := v.strat.profileName })
  | refused {v : View} : Step v (v.tell false)
  | tried {v : View} (c : Cause) (on : c.On v) {toName : Bytes} {v' : View} (h : Attempt v toName v') : Step v v'
  | healTrial {v : View} (trial : v.strat.canary.trial = true) : Step v v.healTrial
  | commitTrial {v : View} (trial : v.strat.canary.trial = true) (clean : ¬Poisoned v.strat.canary.toProfile) (safe : Bool) :
    Step v (v.commitTrial safe)
  | threshold {v : View} (fitness : v.strat.fitnessOn = true) {p : Params} (lower : lowerThresh v.strat.thresh = some p)
    (ok : Bool) :
    Step v (((((v.tell true).snapshot).put { v.strat with thresh := p }).install .swap
      (.threshold p.minOps p.missPin) (lit "fitness-thresholds") ok).put
        { v.strat with thresh := p, profileName := nameThresholded })
  | heal {v : View} (fitness : v.strat.fitnessOn = true) :
    Step v ((v.heal .fitness v.strat.lastGood).put { v.strat with profileName := v.strat.lastGood })
  | reload {v : View} {raw : Bytes} (file : Settings.profileFile ≠ []) (reads : F Settings.profileFile raw)
    (some : trimWs raw ≠ []) (other : trimWs raw ≠ v.strat.profileName) (ok : Bool) :
    Step v ((v.attempt .swap (bodyForProfile (trimWs raw)) (lit "profile-" ++ trimWs raw) ok).put
      { v.strat with profileName := trimWs raw })
  | healBroken {v : View} (file : Settings.profileFile ≠ []) (broken : v.strat.profileName = nameBroken) :
    Step v ((v.heal .reload nameNormal).put { v.strat with profileName := nameNormal })
  | trip {v : View} (defence : Settings.poisonDefense = true) (thaw : Settings.seedFrozen = false)
    (calm : v.strat.poisonActive = false) {v₂ v' : View}
    (frozen : v₂ = (v.put { v.strat with poisonActive := true }) ∨
      v₂ = (v.put { v.strat with poisonActive := true }).put { v.strat with poisonActive := true }.unfreeze)
    (h : Defence v₂ v') : Step v v'
  | clear {v : View} : Step v (v.put { v.strat with poisonActive := false })
  | freeze {v : View} : Step v (v.put v.strat.freeze)
  | unfreeze {v : View} (frozen : v.strat.metaFrozen = true) : Step v (v.put v.strat.unfreeze)
  | evolveFailed {v : View} (on : Settings.evolveOn = true) (p : Params) (tag : Bytes) :
    Step v (v.attempt .rebind (.evolved p) tag false)
  | evolve {v : View} (on : Settings.evolveOn = true) (p : Params) (tag : Bytes) :
    Step v ((v.attempt .rebind (.evolved p) tag true).put { v.strat with thresh := p, profileName := nameEvolved })
  | demoInvert {v : View} (demo : Settings.demo = true) (ok : Bool) :
    Step v (v.attempt .swap .inverted (lit "demo-invert") ok)
  | demoBroken {v : View} (demo : Settings.demo = true) (ok : Bool) :
    Step v ((v.snapshot.install .swap .broken (lit "demo-broken") ok).heal .demo v.strat.profileName)

/-- The program leads from the view by steps. -/
abbrev Does {α : Type} (p : M α) (v : View) : Prop := p.Leads (moves F) (Step F) v

variable {F} {v : View}

/-! ## Thresholds -/

/-- The thresholds move, or nothing has happened to the strategy variables. -/
theorem doFitnessThresholdMutate_wp (fitness : v.strat.fitnessOn = true) :
    doFitnessThresholdMutate.Wp (moves F) (fun moved v' =>
      ReflTransGen (Step F) v v' ∧ (moved = false → v'.strat = v.strat)) v := by
  refine Follow.get fun g hg => ?_
  rw [hg.1]
  split
  · exact .ret ⟨.refl, fun _ => rfl⟩
  next p hp =>
    refine Follow.boundarySafe fun ok => ?_
    cases ok with
    | false => exact .ret ⟨.single .refused, fun _ => rfl⟩
    | true =>
      refine Follow.snapshot (Follow.setStrat (Follow.install fun ok => .quiet (quiet_setMetrics _) fun _ => ?_))
      exact Follow.setStrat (.ret ⟨.single (.threshold fitness hp ok), fun h => nomatch h⟩)

/-! ## Trials -/

/-- A poisonous trial is healed, so what is committed is not. -/
theorem Canary.verdict_clean {c : Canary} {hitEwma : Int} (ht : 0 < c.ticks) (h : c.verdict hitEwma = .commit) :
    ¬Poisoned c.toProfile := by
  intro hp
  rw [Canary.verdict, if_pos ⟨hp, ht⟩] at h
  cases h

section
variable [Runtime]

theorem canaryHeal_wp : canaryHeal.Wp (moves F) (fun _ v' => v' = v.healTrial) v := by
  refine Follow.get fun g hg => Follow.heal (Follow.setStrat (.quiet (quiet_auditAppend _ _ _ _) fun _ => ?_))
  refine Follow.setStrat (.of_quiet (quiet_setMetrics _) fun _ => ?_)
  rw [hg.1]
  rfl

theorem canaryHeal_does (trial : v.strat.canary.trial = true) : Does F canaryHeal v :=
  canaryHeal_wp.mono fun _ _ h => h ▸ .single (.healTrial trial)

theorem canaryCommit_does (trial : v.strat.canary.trial = true) (clean : ¬Poisoned v.strat.canary.toProfile) :
    Does F canaryCommit v := by
  refine Follow.get fun g hg => Follow.setStrat (.quiet (quiet_auditAppend _ _ _ _) fun _ => ?_)
  refine Follow.boundarySafe fun safe => ?_
  have hstep := Step.commitTrial (F := F) trial clean safe
  rw [hg.1]
  cases safe with
  | true => exact Follow.snapshot (Follow.setStrat (.of_quiet (quiet_setMetrics _) fun _ => .single hstep))
  | false => exact Follow.setStrat (.of_quiet (quiet_setMetrics _) fun _ => .single hstep)

/-- A trial is open already, or there is an attempt, and what the probe makes of it. -/
theorem canaryStart_wp (toName : Bytes) : (canaryStart toName).Wp (moves F) (fun _ v' =>
    v.strat.canary.trial = true ∧ v' = v ∨ ∃ v₁, Attempt v toName v₁ ∧ ReflTransGen (Step F) v₁ v') v := by
  refine Follow.get fun g hg => .ite (fun ht => .ret (.inl ⟨hg.1 ▸ ht, rfl⟩)) fun ht => ?_
  have hidle : v.strat.canary.trial = false := by simpa [hg.1] using ht
  refine Follow.boundarySafe fun ok => ?_
  cases ok with
  | false => exact .ret (.inr ⟨_, .refused, .refl⟩)
  | true =>
    refine Follow.snapshot (Follow.get fun g₁ hg₁ => Follow.install fun ok => ?_)
    cases ok with
    | false => exact .ret (.inr ⟨_, .failed _, .refl⟩)
    | true =>
      refine Follow.get fun g₂ _ => Follow.setStrat (.quiet (quiet_setMetrics _) fun _ => ?_)
      refine .quiet (quiet_auditAppend _ _ _ _) fun _ => Follow.callChoose ?_
      rw [hg₁.1]
      have hopen : Attempt v toName _ := .opened (lit "canary-" ++ toName) g₂.metrics.hitEwma hidle
      have hheal : canaryHeal.Wp (moves F) (fun _ v' => v.strat.canary.trial = true ∧ v' = v ∨
          ∃ v₁, Attempt v toName v₁ ∧ ReflTransGen (Step F) v₁ v')
          ((v.attempt .rebind (bodyForProfile toName) (lit "canary-" ++ toName) true).put
            (v.strat.openTrial toName g₂.metrics.hitEwma)) :=
        (canaryHeal_does rfl).mono fun _ _ h => .inr ⟨_, hopen, h⟩
      split
      · exact hheal
      · exact .ite (fun _ => hheal) fun _ => .ret (.inr ⟨_, hopen, .refl⟩)

theorem canaryStart_does (c : Cause) (on : c.On v) (toName : Bytes) : Does F (canaryStart toName) v := by
  refine (canaryStart_wp toName).mono fun _ v' h => ?_
  rcases h with ⟨_, rfl⟩ | ⟨v₁, hv₁, h⟩
  · exact .refl
  · exact h.head (.tried c on hv₁)

theorem maybeCanaryInject_does : Does F maybeCanaryInject v := by
  refine Follow.get fun g hg => .ite (fun _ => .ret .refl) fun h => .ite (fun _ => ?_) fun _ => .ret .refl
  have hstep : Step F v (v.put { v.strat with canary := { v.strat.canary with injectDone := true } }) :=
    .note ⟨rfl, rfl, rfl, rfl⟩
  exact Follow.setStrat (Prog.Leads.after hstep (canaryStart_does .inject (fun hi => h (.inr (.inl hi))) _))

theorem canaryTick_does (dhits dmisses : Int) : Does F (canaryTick dhits dmisses) v := by
  refine Follow.get fun g hg => .ite (fun _ => .ret .refl) fun h => ?_
  have ht : v.strat.canary.trial = true := by simpa [hg.1] using h
  have hstep : Step F v (v.put { v.strat with canary := v.strat.canary.count dhits dmisses }) :=
    .note ⟨rfl, rfl, rfl, rfl⟩
  refine Follow.setStrat (Follow.get fun g₁ hg₁ => ?_)
  rw [hg₁.1]
  cases hv : Canary.verdict _ _ with
  | heal => exact Prog.Leads.after hstep (canaryHeal_does ht)
  | commit => exact Prog.Leads.after hstep (canaryCommit_does ht (Canary.verdict_clean (Nat.succ_pos _) hv))
  | wait => exact .ret (.single hstep)

/-! ## Swaps and heals -/

theorem doFitnessSwapCommit_wp (toName reason : Bytes) :
    (doFitnessSwapCommit toName reason).Wp (moves F) (fun _ v' => Attempt v toName v') v := by
  refine Follow.boundarySafe fun ok => ?_
  cases ok with
  | false => exact .ret .refused
  | true =>
    refine Follow.snapshot (Follow.get fun g hg => Follow.install fun ok => ?_)
    cases ok with
    | false => exact .ret (.failed _)
    | true =>
      refine Follow.setStrat (.quiet (quiet_setMetrics _) fun _ => .quiet (quiet_auditAppend _ _ _ _) fun _ => ?_)
      refine Follow.get fun g₁ _ => .of_quiet (.ite (quiet_applyInline _) ?_) fun _ => .swapped _
      exact .bind quiet_getProg fun _ => .ite (quiet_applyInline _) (quiet_pure ())

theorem doFitnessSwap_does (fitness : v.strat.fitnessOn = true) (toName reason : Bytes) :
    Does F (doFitnessSwap toName reason) v := by
  refine Follow.get fun g hg => .ite (fun _ => .ret .refl) fun _ => .ite (fun _ => ?_) fun _ => ?_
  · exact canaryStart_does .fitness fitness toName
  · exact (doFitnessSwapCommit_wp toName reason).mono fun _ _ h => .single (.tried .fitness fitness h)

theorem doFitnessHeal_does (fitness : v.strat.fitnessOn = true) : Does F doFitnessHeal v := by
  refine Follow.get fun g hg => .ite (fun ht => canaryHeal_does (hg.1 ▸ ht)) fun _ => ?_
  refine Follow.get fun g₁ hg₁ => Follow.heal (Follow.setStrat (.of_quiet (quiet_setMetrics _) fun _ => ?_))
  rw [hg₁.1]
  exact .single (.heal fitness)

/-! ## Freezing -/

theorem enterAutoFreeze_does (reason : Bytes) : Does F (enterAutoFreeze reason) v := by
  refine Follow.get fun g _ => .ite (fun _ => .ret .refl) fun _ => Follow.setStrat ?_
  refine .quiet (quiet_setMetrics _) fun _ => .quiet (quiet_auditAppend _ _ _ _) fun _ => ?_
  exact .of_quiet quiet_writeHeartbeat fun _ => .single .freeze

theorem exitAutoFreeze_wp (frozen : v.strat.metaFrozen = true) (reason : Bytes) :
    (exitAutoFreeze reason).Wp (moves F) (fun _ v' => v' = v.put v.strat.unfreeze) v := by
  refine Follow.get fun g hg => .ite (fun h => ?_) fun _ => Follow.setStrat ?_
  · simp [hg.1, frozen] at h
  · refine .quiet (quiet_setMetrics _) fun _ => .quiet (quiet_auditAppend _ _ _ _) fun _ => ?_
    exact .of_quiet quiet_writeHeartbeat fun _ => rfl

theorem maybeAutoFreeze_does (dgets dsets dhits dmisses : Int) :
    Does F (maybeAutoFreeze dgets dsets dhits dmisses) v := by
  refine .ite (fun _ => .ret ()) fun _ => Follow.get fun g hg => .ite (fun h => ?_) fun _ => ?_
  · have hexit (reason : Bytes) : Does F (exitAutoFreeze reason) v :=
      (exitAutoFreeze_wp (hg.1 ▸ h) reason).mono fun _ _ h' => h' ▸ .single (.unfreeze (hg.1 ▸ h))
    exact .ite (fun _ => hexit _) fun _ => .ite (fun _ => hexit _) fun _ => .ret .refl
  · refine .quiet (quiet_setMetrics _) fun _ => Follow.get fun g₁ _ => ?_
    exact .ite (fun _ => enterAutoFreeze_does _) fun _ => .ret .refl

end

end

end Agent
