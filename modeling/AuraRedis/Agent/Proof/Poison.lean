import AuraRedis.Agent.Proof.Runs
import AuraRedis.Aura.Proof.Resp

/-!
# Poison

The last good profile, which heals go back to, and the defence against poison storms. A trial that was opened
under a poisonous profile makes that profile the last good one when it heals, and so does a pin that names it
(`lastGood_clean`). A storm sets its flag before the defence is attempted, and the flag keeps it from being
attempted again (`defence_engages`).
-/

set_option autoImplicit false

namespace Agent

open Aura Relation

theorem View.mem_put {v : View} {s : Strategy} {e : Event} (h : e ∈ (v.put s).trail) :
    e = .changed v.strat s ∨ e ∈ v.trail := by
  by_cases hs : s = v.strat
  · exact .inr (by simpa [View.put, hs] using h)
  · simpa [View.put, hs] using h

/-! ## The last good profile -/

/-- If a trial is healed, then to a profile that is not poisonous. -/
def Event.HealsClean : Event → Prop
  | .healed .canary reported _ _ => ¬Poisoned reported
  | _ => True

instance (e : Event) : Decidable e.HealsClean := by
  unfold Event.HealsClean
  split <;> infer_instance

def HealsClean (trail : List Event) : Prop := ∀ e ∈ trail, e.HealsClean

/-- The last good profile is not poisonous, and never has been. -/
structure Clean (v : View) : Prop where
  now : ¬Poisoned v.strat.lastGood
  always : ∀ old new, .changed old new ∈ v.trail → ¬Poisoned new.lastGood

namespace Clean

variable {v : View} (h : Clean v)

include h

theorem put {s : Strategy} (hs : ¬Poisoned s.lastGood) : Clean (v.put s) where
  now := hs
  always old new he := by
    rcases View.mem_put he with he | he
    · cases he
      exact hs
    · exact h.always old new he

theorem tell (ok : Bool) : Clean (v.tell ok) :=
  ⟨h.now, fun old new he => h.always old new (by simpa [View.tell] using he)⟩

theorem snapshot : Clean v.snapshot := ⟨h.now, h.always⟩

theorem install (via : Via) (body : Body) (tag : Bytes) (ok : Bool) : Clean (v.install via body tag ok) :=
  ⟨h.now, fun old new he => h.always old new (by simpa [View.install] using he)⟩

theorem heal (by' : Healer) (reported : Bytes) : Clean (v.heal by' reported) :=
  ⟨h.now, fun old new he => h.always old new (by simpa [View.heal] using he)⟩

theorem attempt (via : Via) (body : Body) (tag : Bytes) (ok : Bool) : Clean (v.attempt via body tag ok) :=
  (h.tell true).snapshot.install via body tag ok

theorem tried {v' : View} {toName : Bytes} (ha : Attempt v toName v') : Clean v' := by
  cases ha with
  | refused => exact h.tell false
  | failed tag => exact h.attempt _ _ _ _
  | swapped tag => exact (h.attempt _ _ _ _).put h.now
  | opened tag ewma _ => exact (h.attempt _ _ _ _).put h.now

end Clean

theorem not_poisoned_normal : ¬Poisoned nameNormal := by decide

section
variable [Settings] {F : Files} {v v' : View}

theorem clean_seedStep (hs : SeedStep v v') (h : Clean v) : Clean v' := by
  cases hs with
  | setCode => exact ⟨h.now, h.always⟩
  | snapshot => exact h.snapshot
  | tell ok => exact h.tell ok
  | normal ok => exact (h.install _ _ _ _).put not_poisoned_normal
  | profile ok =>
    refine (h.snapshot.install _ _ _ _).put ?_
    by_cases hp : Poisoned Settings.seedProfile
    · simpa [hp] using h.now
    · simp [hp]
  | note same => exact h.put (same.lastGood ▸ h.now)
  | thresholds ok tag => exact (h.snapshot.install _ _ _ _).put h.now

theorem clean_step (hs : Step F v v') (hh : HealsClean v'.trail) (h : Clean v) : Clean v' := by
  cases hs with
  | note same => exact h.put (same.lastGood ▸ h.now)
  | good _ clean => exact h.put clean
  | refused => exact h.tell false
  | tried c on ha => exact h.tried ha
  | healTrial trial =>
    have hmem : .healed .canary v.strat.canary.fromProfile v.saved v.strat ∈ v.healTrial.trail :=
      ((View.put_trail _ _).trans (View.put_trail _ _)).subset (List.mem_cons_self ..)
    have hgood : ¬Poisoned v.strat.healTrial.lastGood := by
      have hclean : ¬Poisoned v.strat.canary.fromProfile := hh _ hmem
      by_cases hne : v.strat.canary.fromProfile = []
      · simpa [Strategy.healTrial, hne] using h.now
      · simpa [Strategy.healTrial, hne] using hclean
    exact ((h.heal _ _).put hgood).put hgood
  | commitTrial trial clean safe =>
    have hput : Clean ((v.put v.strat.commitTrial).tell safe) := (h.put clean).tell safe
    cases safe with
    | true => exact hput.snapshot.put clean
    | false => exact hput.put clean
  | threshold => exact (((h.tell true).snapshot.put (by exact h.now)).install _ _ _ _).put h.now
  | heal => exact (h.heal _ _).put h.now
  | reload => exact (h.attempt _ _ _ _).put h.now
  | healBroken => exact (h.heal _ _).put h.now
  | trip _ _ _ frozen hd =>
    have hput : Clean (v.put { v.strat with poisonActive := true }) := h.put h.now
    have h₂ : Clean _ := frozen.elim (fun e => e ▸ hput) fun e => e ▸ hput.put h.now
    cases hd with
    | busy => exact h₂
    | tried ha => exact h₂.tried ha
  | clear | freeze | unfreeze => exact h.put h.now
  | evolveFailed => exact h.attempt _ _ _ _
  | evolve => exact (h.attempt _ _ _ _).put h.now
  | demoInvert => exact h.attempt _ _ _ _
  | demoBroken => exact (h.snapshot.install _ _ _ _).heal _ _

end

/-- The pin that is found at the start, if it names a poisonous profile, names the one that the agent is seeded
with. -/
def PinClean [Runtime] (getenv : Env) (O : Outside) : Prop :=
  ∀ w₀ raw, seeded getenv O = some w₀ → O.files w₀.calls (readEnv getenv).pinFile = some raw →
    Poisoned (pinGet raw (lit "profile")) → pinGet raw (lit "profile") = w₀.globals.strat.profileName

/-- **The agent never heals onto poison**, in a run whose trials heal to profiles that are not poisonous and whose
pin does not bring one back. -/
theorem lastGood_clean [Runtime] {getenv : Env} {O : Outside} (hpin : PinClean getenv O) {fuel n : Nat} {w : World}
    (hw : session getenv O fuel n = some w) (hheal : HealsClean w.trail) :
    ¬Poisoned w.globals.strat.lastGood ∧ ∀ old new, .changed old new ∈ w.trail → ¬Poisoned new.lastGood := by
  let _ := readEnv getenv
  have hinit : Clean (World.initial getenv).view :=
    ⟨not_poisoned_normal, fun _ _ he => absurd he List.not_mem_nil⟩
  have hstart {w₀ : World} {v' : View} (hw₀ : seeded getenv O = some w₀)
      (hr : Resume (O.files w₀.calls Settings.pinFile) w₀.view v') (h : Clean w₀.view) : Clean v' := by
    cases hr with
    | kept => exact h
    | swapped found some other ok =>
      exact (h.snapshot.install _ _ _ _).put fun hp => other (hpin w₀ _ hw₀ found hp)
  have h : Clean w.view :=
    session_invariant (C := HealsClean) (fun hs hh e he => hh e (hs.subset he)) hinit
      (fun hs _ => clean_seedStep hs) (fun hw₀ hr _ => hstart hw₀ hr) (fun hs => clean_step hs) hw hheal
  exact ⟨h.now, h.always⟩

/-- Nothing goes wrong, no file can be read, and the server has nothing to say. -/
def calmOutside : Outside where
  safe _ := true
  installs _ := true
  version _ := some 1
  note _ := []
  swarm _ := none
  replies _ _ := some (lit "OK")
  connects _ := true
  files _ _ := none
  clock _ := 0

/-- A trial of the broken body is injected, and heals to the normal profile. -/
theorem lastGood_clean_injected :
    let _ : Runtime := decimalRuntime
    let getenv : Env := fun name => if name = "AURA_REDIS_CANARY_INJECT" then some (lit "broken") else none
    ∃ w, session getenv calmOutside 1 3 = some w ∧ (w.trail.any fun e => e matches .healed .canary _ _ _) = true ∧
      ¬Poisoned w.globals.strat.lastGood ∧ ∀ old new, .changed old new ∈ w.trail → ¬Poisoned new.lastGood := by
  intro _ getenv
  have hrun : (session getenv calmOutside 1 3).any (fun w =>
      (w.trail.any fun e => e matches .healed .canary _ _ _) && w.trail.all fun e => decide e.HealsClean) = true := by
    decide +kernel
  obtain ⟨w, hw, hany⟩ := (Option.any_eq_true _ _).1 hrun
  rw [Bool.and_eq_true, List.all_eq_true] at hany
  refine ⟨w, hw, hany.1, lastGood_clean ?_ hw fun e he => of_decide_eq_true (hany.2 e he)⟩
  rintro w₀ raw _ hread
  cases hread

/-- An earlier process ended while it ran the inverted body. -/
def pinnedOutside : Outside :=
  { calmOutside with
    files := fun _ path =>
      if path = lit ".ar-policy-pin-6379.pin" then some (lit "profile=inverted\n") else none }

/-- A pin that names the inverted body makes it the last good profile. -/
theorem lastGood_poisoned :
    ¬∀ (_ : Runtime) (getenv : Env) (O : Outside) (fuel n : Nat) (w : World), session getenv O fuel n = some w →
      ¬Poisoned w.globals.strat.lastGood := by
  intro h
  have hrun : (@session decimalRuntime (fun _ => none) pinnedOutside 1 0).any
      (fun w => decide (Poisoned w.globals.strat.lastGood)) = true := by
    decide +kernel
  obtain ⟨w, hw, hp⟩ := (Option.any_eq_true _ _).1 hrun
  exact h _ _ _ _ _ w hw (of_decide_eq_true hp)

/-! ## The defence against storms -/

/-- A storm is noticed. -/
def Event.Trip : Event → Prop
  | .changed old new => old.poisonActive = false ∧ new.poisonActive = true
  | _ => False

instance (e : Event) : Decidable e.Trip := by
  cases e <;> unfold Event.Trip <;> infer_instance

/-- Since the last storm was noticed, the defensive body has been installed, by a swap or to open a trial. -/
def Engaged (trail : List Event) : Prop :=
  ∃ e ∈ trail.takeWhile (¬Event.Trip ·), ∃ via tag trial, e = .installed via .defensive tag true trial

/-- The first answer of `mutate:boundary-safe?` in what follows, the newest first. -/
def firstSafe (later : List Event) : Option Bool :=
  later.reverse.findSome? fun | .safe ok => some ok | _ => none

/-- The outcome of the first attempt to install a body. -/
def firstInstall (later : List Event) : Option Bool :=
  later.reverse.findSome? fun | .installed _ _ _ ok _ => some ok | _ => none

/-- A storm is noticed while a trial is open, or what follows refuses the defence. -/
def Event.Hindered (canaryOn : Bool) (later : List Event) : Event → Prop
  | .changed old new => (Event.changed old new).Trip ∧
      (canaryOn = true ∧ old.canary.trial = true ∨ firstSafe later = some false ∨ firstInstall later = some false)
  | _ => False

instance (canaryOn : Bool) (later : List Event) (e : Event) : Decidable (e.Hindered canaryOn later) := by
  cases e <;> unfold Event.Hindered <;> infer_instance

/-- No storm is noticed at a moment at which the defence is refused. -/
def Unhindered (canaryOn : Bool) (trail : List Event) : Prop :=
  ∀ later e earlier, trail = later ++ e :: earlier → ¬e.Hindered canaryOn later

theorem Unhindered.of_suffix {canaryOn : Bool} {t t' : List Event} (hs : t <:+ t') (h : Unhindered canaryOn t') :
    Unhindered canaryOn t := by
  obtain ⟨l, rfl⟩ := hs
  have hmore {α : Type} {f : Event → Option α} {later : List Event} {a : α}
      (ha : later.reverse.findSome? f = some a) : (l ++ later).reverse.findSome? f = some a := by
    rw [List.reverse_append, List.findSome?_append, ha]
    rfl
  intro later e earlier ht hh
  refine h (l ++ later) e earlier (by rw [ht, List.append_assoc]) ?_
  cases e with
  | changed old new => exact ⟨hh.1, hh.2.imp_right fun h' => h'.imp hmore hmore⟩
  | safe | installed | healed => exact hh

/-- Nothing that has happened is a storm that is noticed. -/
structure Calm (v v' : View) : Prop where
  active : v'.strat.poisonActive = true → v.strat.poisonActive = true
  more : ∃ l, v'.trail = l ++ v.trail ∧ ∀ e ∈ l, ¬e.Trip

namespace Calm

variable {v v' v'' : View}

theorem refl (v : View) : Calm v v := ⟨id, [], rfl, fun _ he => absurd he List.not_mem_nil⟩

theorem trans (h : Calm v v') (h' : Calm v' v'') : Calm v v'' := by
  obtain ⟨l, hl, hn⟩ := h.more
  obtain ⟨l', hl', hn'⟩ := h'.more
  refine ⟨fun ha => h.active (h'.active ha), l' ++ l, by rw [hl', hl, List.append_assoc], fun e he => ?_⟩
  exact (List.mem_append.1 he).elim (hn' e) (hn e)

theorem put {s : Strategy} (hs : s.poisonActive = true → v.strat.poisonActive = true) : Calm v (v.put s) := by
  by_cases h : s = v.strat
  · subst h
    rw [View.put_self]
    exact refl v
  · refine ⟨hs, [.changed v.strat s], by simp [View.put, h], fun e he ht => ?_⟩
    rw [List.mem_singleton.1 he] at ht
    have hold := hs ht.2
    rw [ht.1] at hold
    cases hold

theorem tell (v : View) (ok : Bool) : Calm v (v.tell ok) := ⟨id, [.safe ok], rfl, by simp [Event.Trip]⟩

theorem snapshot (v : View) : Calm v v.snapshot := ⟨id, [], rfl, fun _ he => absurd he List.not_mem_nil⟩

theorem install (v : View) (via : Via) (body : Body) (tag : Bytes) (ok : Bool) :
    Calm v (v.install via body tag ok) :=
  ⟨id, [.installed via body tag ok v.strat.canary.trial], rfl, by simp [Event.Trip]⟩

theorem heal (v : View) (by' : Healer) (reported : Bytes) : Calm v (v.heal by' reported) :=
  ⟨id, [.healed by' reported v.saved v.strat], rfl, by simp [Event.Trip]⟩

theorem attempt (v : View) (via : Via) (body : Body) (tag : Bytes) (ok : Bool) :
    Calm v (v.attempt via body tag ok) :=
  ((tell v true).trans (snapshot _)).trans (install _ _ _ _ _)

theorem tried {toName : Bytes} (ha : Attempt v toName v') : Calm v v' := by
  cases ha with
  | refused => exact tell v false
  | failed tag => exact attempt _ _ _ _ _
  | swapped tag => exact (attempt _ _ _ _ _).trans (put id)
  | opened tag ewma _ => exact (attempt _ _ _ _ _).trans (put id)

theorem keeps (h : Calm v v') (he : Engaged v.trail) : Engaged v'.trail := by
  obtain ⟨l, hl, hn⟩ := h.more
  obtain ⟨e, hmem, hi⟩ := he
  refine ⟨e, ?_, hi⟩
  rw [hl, List.takeWhile_append_of_pos fun e he => by simpa using hn e he]
  exact List.mem_append_right _ hmem

end Calm

theorem engaged_attempt (v : View) (via : Via) (tag : Bytes) :
    Engaged (v.attempt via (bodyForProfile nameDefensive) tag true).trail := by
  have hbody : bodyForProfile nameDefensive = .defensive := by decide
  refine ⟨.installed via .defensive tag true v.strat.canary.trial, ?_, via, tag, _, rfl⟩
  rw [hbody, View.attempt, View.install, List.takeWhile_cons_of_pos (by simp [Event.Trip])]
  exact List.mem_cons_self ..

theorem firstSafe_refused {l : List Event} (hl : ∀ e ∈ l, ∃ old new, e = .changed old new) :
    firstSafe (.safe false :: l) = some false := by
  have hnone : l.reverse.findSome? (fun | .safe ok => some ok | _ => none) = none :=
    List.findSome?_eq_none_iff.2 fun e he => by
      obtain ⟨old, new, rfl⟩ := hl e (List.mem_reverse.1 he)
      rfl
  simp [firstSafe, hnone]

theorem firstInstall_failed {l : List Event} (hl : ∀ e ∈ l, ∃ old new, e = .changed old new) (via : Via) (body : Body)
    (tag : Bytes) (trial : Bool) :
    firstInstall (.installed via body tag false trial :: .safe true :: l) = some false := by
  have hnone : l.reverse.findSome? (fun | .installed _ _ _ ok _ => some ok | _ => none) = none :=
    List.findSome?_eq_none_iff.2 fun e he => by
      obtain ⟨old, new, rfl⟩ := hl e (List.mem_reverse.1 he)
      rfl
  simp [firstInstall, hnone]

theorem View.put_more (v : View) (s : Strategy) :
    ∃ l, (v.put s).trail = l ++ v.trail ∧ ∀ e ∈ l, e = .changed v.strat s := by
  by_cases h : s = v.strat
  · exact ⟨[], by simp [View.put, h], fun _ he => absurd he List.not_mem_nil⟩
  · exact ⟨[.changed v.strat s], by simp [View.put, h], fun e he => List.mem_singleton.1 he⟩

section
variable [Settings] {F : Files} {v v' : View}

theorem calm_seedStep (hs : SeedStep v v') : Calm v v' := by
  cases hs with
  | setCode => exact ⟨id, [], rfl, fun _ he => absurd he List.not_mem_nil⟩
  | snapshot => exact .snapshot v
  | tell ok => exact .tell v ok
  | normal ok => exact (Calm.install _ _ _ _ _).trans (.put id)
  | profile ok | thresholds ok tag => exact ((Calm.snapshot v).trans (.install _ _ _ _ _)).trans (.put id)
  | note same => exact .put fun h => same.poisonActive ▸ h

/-- A storm that is noticed is answered, where nothing hinders the defence. -/
theorem engaged_trip (calm : v.strat.poisonActive = false) {v₂ : View}
    (frozen : v₂ = (v.put { v.strat with poisonActive := true }) ∨
      v₂ = (v.put { v.strat with poisonActive := true }).put { v.strat with poisonActive := true }.unfreeze)
    (hd : Defence v₂ v') (hh : Unhindered Settings.canaryOn v'.trail) : Engaged v'.trail := by
  have htrip : (Event.changed v.strat { v.strat with poisonActive := true }).Trip := ⟨calm, rfl⟩
  have hput : (v.put { v.strat with poisonActive := true }).trail =
      .changed v.strat { v.strat with poisonActive := true } :: v.trail := by
    refine if_neg fun h => ?_
    rw [← h] at calm
    cases calm
  -- Leaving the auto-freeze only adds a change of the variables.
  obtain ⟨l, hl, hchanged, htrial⟩ : ∃ l,
      v₂.trail = l ++ .changed v.strat { v.strat with poisonActive := true } :: v.trail ∧
      (∀ e ∈ l, (∃ old new, e = .changed old new) ∧ ¬e.Trip) ∧
      v₂.strat.canary.trial = v.strat.canary.trial := by
    rcases frozen with rfl | rfl
    · exact ⟨[], hput, fun _ he => absurd he List.not_mem_nil, rfl⟩
    · obtain ⟨l, hl, he⟩ := View.put_more (v.put { v.strat with poisonActive := true })
        { v.strat with poisonActive := true }.unfreeze
      refine ⟨l, by rw [hl, hput], fun e h => ?_, rfl⟩
      rw [he e h]
      exact ⟨⟨_, _, rfl⟩, fun ht => nomatch ht.1⟩
  have hold (later : List Event) (htail : v'.trail =
      later ++ .changed v.strat { v.strat with poisonActive := true } :: v.trail)
      (h : Settings.canaryOn = true ∧ v.strat.canary.trial = true ∨ firstSafe later = some false ∨
        firstInstall later = some false) : False :=
    hh later _ _ htail ⟨htrip, h⟩
  cases hd with
  | busy canary trial => exact (hold l hl (.inl ⟨canary, htrial ▸ trial⟩)).elim
  | tried h =>
    cases h with
    | refused =>
      have hsafe := firstSafe_refused fun e he => (hchanged e he).1
      exact (hold (.safe false :: l) (by simp [View.tell, hl]) (.inr (.inl hsafe))).elim
    | failed tag =>
      have hinst := firstInstall_failed (fun e he => (hchanged e he).1) .rebind (bodyForProfile nameDefensive) tag
        v₂.strat.canary.trial
      refine (hold _ ?_ (.inr (.inr hinst))).elim
      simp [View.attempt, View.install, View.snapshot, View.tell, hl]
    | swapped tag => exact (Calm.put (by exact id)).keeps (engaged_attempt v₂ _ tag)
    | opened tag ewma _ => exact (Calm.put (by exact id)).keeps (engaged_attempt v₂ _ tag)

/-- A step other than a noticed storm is calm, and a noticed storm is answered. -/
theorem engaged_step (hs : Step F v v') (hh : Unhindered Settings.canaryOn v'.trail)
    (h : v.strat.poisonActive = true → Engaged v.trail) : v'.strat.poisonActive = true → Engaged v'.trail := by
  have hcalm (hc : Calm v v') : v'.strat.poisonActive = true → Engaged v'.trail := fun ha => hc.keeps (h (hc.active ha))
  cases hs with
  | note same => exact hcalm (.put fun h => same.poisonActive ▸ h)
  | good | freeze | unfreeze => exact hcalm (.put (by exact id))
  | clear => exact hcalm (.put fun h => nomatch h)
  | refused => exact hcalm (.tell v false)
  | tried c on ha => exact hcalm (.tried ha)
  | healTrial => exact hcalm (((Calm.heal v _ _).trans (.put (by exact id))).trans (.put (by exact id)))
  | commitTrial _ _ safe =>
    have htell : Calm v ((v.put v.strat.commitTrial).tell safe) := (Calm.put (by exact id)).trans (.tell _ _)
    cases safe with
    | true => exact hcalm ((htell.trans (.snapshot _)).trans (.put (by exact id)))
    | false => exact hcalm (htell.trans (.put (by exact id)))
  | threshold =>
    have hsafe : Calm v (v.tell true).snapshot := (Calm.tell v true).trans (.snapshot _)
    refine hcalm (.trans (.trans (hsafe.trans (.put ?_)) (.install _ _ _ _ _)) (.put ?_))
    · exact id
    · exact id
  | heal | healBroken => exact hcalm ((Calm.heal v _ _).trans (.put (by exact id)))
  | reload | evolve => exact hcalm ((Calm.attempt v _ _ _ _).trans (.put (by exact id)))
  | trip _ _ calm frozen hd => exact fun _ => engaged_trip calm frozen hd hh
  | evolveFailed | demoInvert => exact hcalm (.attempt v _ _ _ _)
  | demoBroken => exact hcalm (((Calm.snapshot v).trans (.install _ _ _ _ _)).trans (.heal _ _ _))

end

/-- **The defence engages**: while a storm is on, the defensive body has been installed since it was noticed, in a
run in which no storm is noticed while the defence is refused. -/
theorem defence_engages [Runtime] {getenv : Env} {O : Outside} {fuel n : Nat} {w : World}
    (hw : session getenv O fuel n = some w) (hh : Unhindered (readEnv getenv).canaryOn w.trail)
    (active : w.globals.strat.poisonActive = true) : Engaged w.trail := by
  let _ := readEnv getenv
  have hstart {w₀ : World} {v' : View} {pin : Option Bytes} (hr : Resume pin w₀.view v') : Calm w₀.view v' := by
    cases hr with
    | kept => exact .refl _
    | swapped => exact ((Calm.snapshot _).trans (.install _ _ _ _ _)).trans (.put (by exact id))
  have hcalm {v v' : View} (hc : Calm v v') (h : v.strat.poisonActive = true → Engaged v.trail) :
      v'.strat.poisonActive = true → Engaged v'.trail := fun ha => hc.keeps (h (hc.active ha))
  exact session_invariant (C := Unhindered Settings.canaryOn) (I := fun v => v.strat.poisonActive = true → Engaged v.trail)
    (fun hs => Unhindered.of_suffix hs) (fun h => nomatch h) (fun hs _ => hcalm (calm_seedStep hs))
    (fun _ hr _ => hcalm (hstart hr)) (fun hs => engaged_step hs) hw hh active

/-- The server counts a hundred unique SETs from one call to the next. -/
def stormOutside (safe : Bool) : Outside :=
  { calmOutside with
    safe := fun _ => safe
    replies := fun _ n => some (lit "unique_sets:" ++ Decimal.ofNat (100 * n)) }

/-- A storm is noticed at the second tick, and the defensive body installed. -/
theorem defence_engages_storm :
    let _ : Runtime := decimalRuntime
    ∃ w, session (fun _ => none) (stormOutside true) 1 2 = some w ∧ w.globals.strat.poisonActive = true ∧
      Engaged w.trail := by
  intro _
  have hrun : (session (fun _ => none) (stormOutside true) 1 2).any (fun w =>
      w.globals.strat.poisonActive && !(@readEnv decimalRuntime fun _ => none).canaryOn &&
        w.trail.all fun e => e matches .changed _ _ | .safe true | .installed _ _ _ true _) = true := by
    decide +kernel
  obtain ⟨w, hw, hany⟩ := (Option.any_eq_true _ _).1 hrun
  simp only [Bool.and_eq_true, List.all_eq_true, Bool.not_eq_true'] at hany
  obtain ⟨⟨active, hoff⟩, hall⟩ := hany
  refine ⟨w, hw, active, defence_engages hw (fun later e earlier ht hh => ?_) active⟩
  have hnone {α : Type} {f : Event → Option α} {a : α} (hf : later.reverse.findSome? f = some a) :
      ∃ e ∈ w.trail, f e = some a := by
    obtain ⟨e, he, hfe⟩ := List.exists_of_findSome?_eq_some hf
    exact ⟨e, ht ▸ List.mem_append_left _ (List.mem_reverse.1 he), hfe⟩
  cases e with
  | changed old new =>
    rcases hh.2 with hbusy | hsafe | hinst
    · rw [hoff] at hbusy
      cases hbusy.1
    · obtain ⟨e, he, hfe⟩ := hnone hsafe
      have := hall e he
      cases e <;> simp_all
    · obtain ⟨e, he, hfe⟩ := hnone hinst
      have := hall e he
      cases e <;> simp_all
  | safe | installed | healed => exact hh

/-- A storm that is noticed at an unsafe boundary is never answered. -/
theorem storm_unanswered :
    ¬∀ (_ : Runtime) (getenv : Env) (O : Outside) (fuel n : Nat) (w : World), session getenv O fuel n = some w →
      w.globals.strat.poisonActive = true → Engaged w.trail := by
  intro h
  have hrun : (@session decimalRuntime (fun _ => none) (stormOutside false) 1 3).any (fun w =>
      w.globals.strat.poisonActive && w.trail.all fun e => !(e matches .installed _ .defensive _ _ _)) = true := by
    decide +kernel
  obtain ⟨w, hw, hany⟩ := (Option.any_eq_true _ _).1 hrun
  simp only [Bool.and_eq_true, List.all_eq_true] at hany
  obtain ⟨e, he, via, tag, trial, rfl⟩ := h _ _ _ _ _ w hw hany.1
  exact absurd (hany.2 _ ((List.takeWhile_sublist _).subset he)) (by simp)

end Agent
