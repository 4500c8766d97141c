import AuraRedis.Agent.Proof.Steps

/-!
# A tick leads by steps

The remaining functions of a tick, and the tick. After an attempt of the poison defence the probe may heal, so
that a trip is a step of its own and further steps follow it.
-/

set_option autoImplicit false

namespace Agent

open Aura Relation

variable {F : Files} {v : View}

theorem quiet_shadowCSetup : Quiet F shadowCSetup := by
  refine .bind quiet_getProg fun g => .ite (quiet_pure ()) ?_
  refine .bind (quiet_shadowSend _) fun _ => .bind (quiet_shadowSend _) fun _ => ?_
  exact quiet_setShadow fun _ => rfl

theorem quiet_closeSock : Quiet F closeSock := by
  refine .bind quiet_getProg fun g => ?_
  exact .ite (.bind (quiet_call trivial) fun _ => quiet_setLink _) (quiet_setLink _)

theorem quiet_evictAgain (evName : Bytes) : Quiet F (evictAgain evName) :=
  .bind quiet_getProg fun _ => quiet_when (.bind (quiet_send _) fun _ => quiet_set fun _ => ⟨rfl, rfl⟩)

theorem quiet_layoutAgain (lyName : Bytes) : Quiet F (layoutAgain lyName) :=
  .bind quiet_getProg fun _ => quiet_when (.bind (quiet_send _) fun _ => quiet_set fun _ => ⟨rfl, rfl⟩)

theorem quiet_applyAgain (c : Choice) : Quiet F (applyAgain c) := by
  refine .bind (quiet_evictAgain _) fun _ => .bind (quiet_layoutAgain _) fun _ => quiet_when ?_
  exact .bind (quiet_send _) fun _ => .bind (quiet_pinPrefixSet _ _) fun _ => quiet_pinPrefixSet _ _

theorem quiet_rechoose : Quiet F rechoose := by
  refine .bind quiet_getProg fun g => quiet_when (.bind (quiet_setMetrics _) fun _ => .bind quiet_getProg fun g₁ => ?_)
  exact .bind (quiet_callChoose _) fun choice => .ite (quiet_pure ()) (quiet_applyAgain _)

theorem quiet_pinChosen : Quiet F pinChosen := by
  refine .bind quiet_getProg fun g => .ite (.ite (.bind (quiet_pinPrefixSet _ _) fun _ => ?_) ?_) ?_
  · exact quiet_when (quiet_pinPrefixSet _ _)
  · exact quiet_when (quiet_pinPrefixSet _ _)
  · refine .bind (quiet_pinPrefixSet _ _) fun _ => .bind (quiet_pinPrefixSet _ _) fun _ => ?_
    exact quiet_when (quiet_pinPrefixSet _ _)

theorem quiet_applyPins (curLayout : Bytes) : Quiet F (applyPins curLayout) :=
  .bind (quiet_send _) fun _ => .ite (.bind (quiet_send _) fun _ => quiet_pinChosen) quiet_pinChosen

theorem quiet_applyUnpin (evName cur : Bytes) : Quiet F (applyUnpin evName cur) := by
  refine .bind quiet_getProg fun g => quiet_when (.bind (quiet_unpinPrefixSet _ _) fun _ => ?_)
  exact quiet_unpinPrefixSet _ _

variable [Settings]

/-! ## Evolving and the demo -/

/-- What only the evolve loop's own variables are set by. -/
theorem setEvolve_does (f : Evolve → Evolve) : Does F (setEvolve f) v :=
  Follow.setStrat_last (.single (.note ⟨rfl, rfl, rfl, rfl⟩))

theorem proposeByHand_does : Does F proposeByHand v := by
  refine Follow.get fun g _ => ?_
  split
  · exact .ret .refl
  · exact Prog.Leads.andThen (setEvolve_does _) fun _ _ _ => .ret _

theorem proposeFallback_does : Does F proposeFallback v :=
  .andThen (setEvolve_does _) fun _ _ _ => proposeByHand_does

theorem evolveProposeNext_does : Does F evolveProposeNext v := by
  refine Follow.get fun g _ => .ite (fun _ => proposeByHand_does) fun _ => ?_
  refine .quiet (quiet_call trivial) fun best => ?_
  split
  · exact proposeFallback_does
  · refine Prog.Leads.andThen (setEvolve_does _) fun _ _ _ => ?_
    split
    · exact .ret _
    · exact proposeFallback_does

theorem evolveApplyBody_does (on : Settings.evolveOn = true) (p : Params) (tag : Bytes) :
    Does F (evolveApplyBody p tag) v := by
  refine Follow.boundarySafe fun ok => ?_
  cases ok with
  | false => exact .ret (.single .refused)
  | true =>
    refine Follow.snapshot (Follow.install fun ok => ?_)
    cases ok with
    | false => exact .ret (.single (.evolveFailed on p tag))
    | true =>
      refine Follow.setStrat (Follow.get fun g _ => .of_quiet ?_ fun _ => .single (.evolve on p tag))
      exact .ite (quiet_applyInline _) (quiet_pure ())

theorem evolveNext_does (on : Settings.evolveOn = true) : Does F evolveNext v := by
  refine .andThen evolveProposeNext_does fun moved v₁ _ => .ite (fun _ => ?_) fun _ => setEvolve_does _
  refine Follow.get fun g _ => ?_
  exact Prog.Leads.andThen (evolveApplyBody_does on _ _) fun _ _ _ => setEvolve_does _

theorem evolveAdvance_does (on : Settings.evolveOn = true) : Does F evolveAdvance v := by
  refine .andThen (setEvolve_does _) fun _ _ _ => Follow.get fun g _ => ?_
  exact .ite (fun _ => setEvolve_does _) fun _ => evolveNext_does on

theorem maybeReloadProfile_does : Does F maybeReloadProfile v := by
  refine .ite (fun _ => .ret ()) fun file => Follow.readFile fun a ha => ?_
  cases a with
  | none => exact trivial
  | some raw =>
    refine Follow.get fun g hg => .ite (fun _ => .ret .refl) fun h => Follow.boundarySafe fun ok => ?_
    cases ok with
    | false => exact .ret (.single .refused)
    | true =>
      refine Follow.snapshot (Follow.install fun ok => Follow.setStrat ?_)
      simp only [not_or, hg.1] at h
      have hstep := Step.reload file (ha raw rfl) h.1 h.2 ok
      refine .ite (fun hb => Follow.callChoose (.ite (fun _ => ?_) fun _ => .ret (.single hstep)))
        fun _ => .ret (.single hstep)
      exact Follow.heal (Follow.setStrat_last (.head hstep (.single (.healBroken file hb))))

theorem demoInvert_does (demo : Settings.demo = true) (elapsed : Int) : Does F (demoInvert elapsed) v := by
  refine Follow.get fun g _ => .ite (fun _ => Follow.boundarySafe fun ok => ?_) fun _ => .ret .refl
  cases ok with
  | false => exact .ret (.single .refused)
  | true =>
    refine Follow.snapshot (Follow.install fun ok => ?_)
    exact .of_quiet (quiet_set fun _ => ⟨rfl, rfl⟩) fun _ => .single (.demoInvert demo ok)

theorem demoBroken_does (demo : Settings.demo = true) (elapsed : Int) : Does F (demoBroken elapsed) v := by
  refine Follow.get fun g _ => .ite (fun _ => Follow.snapshot (Follow.install fun ok => ?_)) fun _ => .ret .refl
  refine Follow.callChoose (Follow.get fun g₁ hg₁ => Follow.heal ?_)
  rw [hg₁.1]
  exact .of_quiet (quiet_set fun _ => ⟨rfl, rfl⟩) fun _ => .single (.demoBroken demo ok)

theorem demoTick_does : Does F demoTick v := by
  refine .ite (fun _ => .ret ()) fun h => .quiet (quiet_call trivial) fun now => Follow.get fun g _ => ?_
  have demo : Settings.demo = true := by simpa using h
  refine Prog.Leads.andThen (demoInvert_does demo _) fun _ _ _ => ?_
  refine Prog.Leads.andThen (demoBroken_does demo _) fun _ _ _ => ?_
  exact .of_quiet (quiet_when (quiet_setLink _))

theorem quiet_applyLayout (lyName curLayout : Bytes) : Quiet F (applyLayout lyName curLayout) := by
  refine quiet_when (.bind (quiet_send _) fun _ => .bind (quiet_set fun _ => ⟨rfl, rfl⟩) fun _ => ?_)
  exact .bind quiet_getProg fun _ => quiet_when (.bind (quiet_send _) fun _ => quiet_setMetrics _)

/-! ## Connecting -/

theorem quiet_forceReconnect : Quiet F forceReconnect :=
  .bind quiet_getProg fun _ => quiet_when (.bind quiet_closeSock fun _ => quiet_setLink _)

theorem quiet_finishReconnectTest : Quiet F finishReconnectTest :=
  .bind quiet_getProg fun _ => quiet_when (quiet_setLink _)

theorem quiet_reapplyLastPolicy : Quiet F reapplyLastPolicy := by
  have hlast : Quiet F (do setMetrics fun m => { m with havePrev := false }; logPolicyPin) :=
    .bind (quiet_setMetrics _) fun _ => quiet_logPolicyPin
  refine .bind (quiet_redisCall _ _) fun info => .ite (quiet_setLink _) (.bind quiet_getProg fun g => ?_)
  refine .ite (.bind (quiet_send _) fun _ => .ite ?_ hlast) (.ite ?_ hlast)
  · exact .bind (quiet_send _) fun _ => hlast
  · exact .bind (quiet_send _) fun _ => hlast

theorem quiet_greet : Quiet F greet := by
  have hping : Quiet F (do
      if !(← get).link.connAlive then pure false
      else
        let pong ← redisCall .live [lit "PING"]
        pure !(errClosed pong)) :=
    .bind quiet_getProg fun _ => .ite (quiet_pure _) (.bind (quiet_redisCall _ _) fun _ => quiet_pure _)
  refine .ite (.bind (quiet_redisCall _ _) fun _ => .ite ?_ hping) hping
  exact .bind (quiet_setLink _) fun _ => hping

theorem quiet_connected : Quiet F connected := by
  have hlast : Quiet F (do setLink fun l => { l with backoffMs := 50 }; writeHeartbeat) :=
    .bind (quiet_setLink _) fun _ => quiet_writeHeartbeat
  refine .bind quiet_getProg fun g => .ite (.bind (quiet_setLink _) fun _ => ?_) (.bind (quiet_setLink _) fun _ => ?_)
  · exact .bind quiet_reapplyLastPolicy fun _ => .bind quiet_logPolicyPin fun _ => hlast
  · exact .bind quiet_logPolicyPin fun _ => .bind (quiet_setMetrics _) fun _ => hlast

theorem quiet_connectLoop (fuel : Nat) (delay : Int) : Quiet F (connectLoop fuel delay) := by
  induction fuel generalizing delay with
  | zero => exact quiet_fail
  | succ fuel ih =>
    refine .bind (quiet_call trivial) fun ok => .bind (quiet_setLink _) fun _ => .ite ?_ ?_
    · exact .bind (quiet_call trivial) fun _ => ih _
    · refine .bind (quiet_setLink _) fun _ => .bind quiet_greet fun up => .ite quiet_connected ?_
      exact .bind quiet_closeSock fun _ => .bind (quiet_call trivial) fun _ => ih _

theorem quiet_ensureConnected (fuel : Nat) : Quiet F (ensureConnected fuel) :=
  .bind quiet_getProg fun _ => .ite (quiet_pure ()) (.bind quiet_closeSock fun _ => quiet_connectLoop fuel _)

/-! ## Judging -/

variable [Runtime]

theorem evolveJudge_does (on : Settings.evolveOn = true) (fit : Int) : Does F (evolveJudge fit) v := by
  refine Follow.get fun g _ => .ite (fun _ => ?_) fun _ => evolveApplyBody_does on _ _
  exact Prog.Leads.andThen (setEvolve_does _) fun _ _ _ => .of_quiet (quiet_auditAppend _ _ _ _)

theorem maybeEvolve_does : Does F maybeEvolve v := by
  refine Follow.get fun g _ => .ite (fun _ => .ret .refl) fun h => ?_
  have on : Settings.evolveOn = true := by
    simp only [not_or, Bool.not_eq_true', Bool.not_eq_false] at h
    exact h.1
  refine Follow.get fun g _ => Prog.Leads.andThen (setEvolve_does _) fun _ _ _ => ?_
  refine Follow.get fun g _ => .ite (fun _ => .ret .refl) fun _ => ?_
  refine Prog.Leads.andThen (setEvolve_does _) fun _ v₁ _ => ?_
  split
  · refine Prog.Leads.andThen ?_ fun _ _ _ => evolveNext_does on
    exact Follow.setStrat_last (.single (.note ⟨rfl, rfl, rfl, rfl⟩))
  · exact .andThen (evolveJudge_does on _) fun _ _ _ => evolveAdvance_does on
  · exact .ret ()

/-! ## Defending -/

theorem poisonThaw_wp : poisonThaw.Wp (moves F) (fun _ v' => v' = v ∨ v' = v.put v.strat.unfreeze) v := by
  refine Follow.get fun g hg => .ite (fun hf => ?_) fun _ => .ret (.inl rfl)
  exact (exitAutoFreeze_wp (hg.1 ▸ hf) _).mono fun _ _ => .inr

theorem poisonTrip_does (defence : Settings.poisonDefense = true) (thaw : Settings.seedFrozen = false)
    (calm : v.strat.poisonActive = false) : Does F poisonTrip v := by
  refine Follow.setStrat (Prog.Wp.seq poisonThaw_wp fun _ v₂ frozen => Follow.get fun g₁ _ => ?_)
  refine .quiet (quiet_auditAppend _ _ _ _) fun _ => .ite (fun hc => ?_) fun hc => ?_
  · refine (canaryStart_wp nameDefensive).mono fun _ v' h => ?_
    rcases h with ⟨ht, rfl⟩ | ⟨v₃, h₃, h⟩
    · exact .single (.trip defence thaw calm frozen (.busy hc ht))
    · exact h.head (.trip defence thaw calm frozen (.tried h₃))
  · refine (doFitnessSwapCommit_wp nameDefensive _).mono fun _ v' h => ?_
    exact .single (.trip defence thaw calm frozen (.tried h))

theorem maybePoisonDefense_does (dunique nkeys dsets : Int) : Does F (maybePoisonDefense dunique nkeys dsets) v := by
  refine .ite (fun _ => .ret ()) fun hd => .ite (fun _ => .ite (fun _ => .ret ()) fun hs => ?_) fun _ => ?_
  · refine Follow.get fun g hg => .ite (fun _ => .ret .refl) fun ha => ?_
    exact poisonTrip_does (by simpa using hd) (by simpa using hs) (by simpa [hg.1] using ha)
  · exact Follow.get fun g _ => .ite (fun _ => Follow.setStrat_last (.single .clear)) fun _ => .ret .refl

/-! ## Shadowing -/

theorem shadowAbTick_does (ab : v.ab = true) (champ : Bytes) : Does F (shadowAbTick champ) v := by
  refine Follow.get fun g _ => .quiet (quiet_redisCall _ _) fun fresh => .ite (fun _ => ?_) fun _ => .ret .refl
  refine .quiet (quiet_setShadow fun _ => rfl) fun _ => .quiet (quiet_shadowSend _) fun _ => ?_
  refine Follow.get fun g₁ _ => .ite (fun h => ?_) fun _ => .ret .refl
  exact .quiet (quiet_auditAppend _ _ _ _) fun _ => canaryStart_does .shadow ⟨ab, h.1⟩ _

theorem shadowAb_does (choice : Bytes) : Does F (shadowAb choice) v := by
  refine Follow.get fun g hg => .ite (fun h => ?_) fun _ => .ret .refl
  exact .quiet quiet_shadowCSetup fun _ => shadowAbTick_does (hg.2 ▸ h) _

/-! ## Fitness -/

theorem fitnessAct_does (fitness : v.strat.fitnessOn = true) (move : FitnessMove) : Does F (fitnessAct move) v := by
  cases move with
  | none => exact .ret ()
  | heal => exact doFitnessHeal_does fitness
  | swap toName reason => exact doFitnessSwap_does fitness _ _
  | threshold toName reason =>
    refine Prog.Wp.seq (doFitnessThresholdMutate_wp fitness) fun moved v' h => .ite (fun _ => .ret h.1) fun hm => ?_
    refine (doFitnessSwap_does ?_ _ _).mono fun _ _ => h.1.trans
    rw [h.2 (by simpa using hm)]
    exact fitness

theorem maybeFitnessMutate_does (w : Window) : Does F (maybeFitnessMutate w) v := by
  refine .quiet (quiet_setMetrics _) fun _ => Follow.get fun g hg => .ite (fun _ => .ret .refl) fun h => ?_
  have fitness : v.strat.fitnessOn = true := by simpa [hg.1] using h
  refine .seq (Q := fun _ v' => ReflTransGen (Step F) v v' ∧ v'.strat.fitnessOn = true) ?_ ?_
  · refine .ite (fun hgood => Follow.setStrat ?_) fun _ => .of_quiet (quiet_setMetrics _) fun _ => ⟨.refl, fitness⟩
    have clean : ¬Poisoned v.strat.profileName := hg.1 ▸ hgood.2.2
    exact .of_quiet (quiet_setMetrics _) fun _ => ⟨.single (.good fitness clean), fitness⟩
  · rintro _ v' ⟨hsteps, fitness'⟩
    exact Follow.get fun g₁ _ => (fitnessAct_does fitness' _).mono fun _ _ => hsteps.trans

/-! ## The rest of a tick -/

theorem quiet_applyEvict (evName cur : Bytes) : Quiet F (applyEvict evName cur) := by
  refine quiet_when (.bind (quiet_send _) fun _ => .bind (quiet_set fun _ => ⟨rfl, rfl⟩) fun _ => ?_)
  exact .bind quiet_getProg fun _ => quiet_auditAppend _ _ _ _

theorem quiet_applyChoice (choice cur curLayout : Bytes) : Quiet F (applyChoice choice cur curLayout) := by
  refine .ite (quiet_pure ()) (.bind (quiet_applyEvict _ _) fun _ => .bind (quiet_applyLayout _ _) fun _ => ?_)
  exact .bind (quiet_applyUnpin _ _) fun _ => quiet_when (quiet_applyPins _)

theorem quiet_notePrefix (choice : Bytes) : Quiet F (notePrefix choice) :=
  .bind quiet_getProg fun _ => quiet_when (.bind (quiet_auditAppend _ _ _ _) fun _ => quiet_setMetrics _)

theorem quiet_pressureChoice (info : Bytes) (nk : Int) (choice : Bytes) : Quiet F (pressureChoice info nk choice) := by
  refine .ite (quiet_pure _) (.bind (quiet_setMetrics _) fun _ => .ite (quiet_pure _) ?_)
  refine .bind quiet_getProg fun g => .ite (quiet_pure _) (.bind (quiet_auditAppend _ _ _ _) fun _ => ?_)
  exact .bind (quiet_setMetrics _) fun _ => quiet_pure _

theorem quiet_settleChoice (info : Bytes) (nk : Int) (choice : Bytes) : Quiet F (settleChoice info nk choice) :=
  .bind quiet_getProg fun _ => .bind (quiet_notePrefix _) fun _ => quiet_pressureChoice _ _ _

theorem tickInfo_does (info : Bytes) : Does F (tickInfo info) v := by
  refine .quiet (quiet_set fun _ => ⟨rfl, rfl⟩) fun _ => Follow.get fun g _ => .quiet (quiet_setMetrics _) fun _ => ?_
  refine Prog.Leads.andThen (maybePoisonDefense_does _ _ _) fun _ _ _ => .quiet (quiet_callChoose _) fun _ => ?_
  refine .quiet (quiet_settleChoice _ _ _) fun choice => Prog.Leads.andThen (shadowAb_does _) fun _ _ _ => ?_
  refine .quiet (quiet_applyChoice _ _ _) fun _ => Prog.Leads.andThen (maybeAutoFreeze_does _ _ _ _) fun _ _ _ => ?_
  refine Prog.Leads.andThen maybeCanaryInject_does fun _ v₁ _ => Follow.get fun g₁ _ => ?_
  have hrest {v : View} : Does F (do rechoose; maybeEvolve) v := .quiet quiet_rechoose fun _ => maybeEvolve_does
  refine .ite (fun _ => ?_) fun _ => .ite (fun _ => hrest) fun _ => ?_
  · exact Prog.Leads.andThen (canaryTick_does _ _) fun _ _ _ => hrest
  · exact Prog.Leads.andThen (maybeFitnessMutate_does _) fun _ _ _ => hrest

/-- **A tick leads by steps.** -/
theorem tick_does (fuel : Nat) : Does F (tick fuel) v := by
  refine Follow.get fun g _ => .quiet (quiet_call trivial) fun _ => .quiet (quiet_setMetrics _) fun _ => ?_
  refine .quiet quiet_forceReconnect fun _ => .quiet (quiet_ensureConnected fuel) fun _ => ?_
  refine Prog.Leads.andThen maybeReloadProfile_does fun _ _ _ => .quiet quiet_writeHeartbeat fun _ => ?_
  refine .quiet quiet_finishReconnectTest fun _ => .quiet (quiet_redisCall _ _) fun info => .ite (fun _ => ?_) fun _ => ?_
  · exact .quiet quiet_closeSock fun _ => demoTick_does
  · exact Prog.Leads.andThen (tickInfo_does info) fun _ _ _ => demoTick_does

end Agent
