import AuraRedis.Agent.Loop
import AuraRedis.Lib.Views

/-!
# The strategy in view

What each effect of the agent does to its `View`, and the rules to follow a program by. Whatever the outside
answers is left open, but that a file says what `F` allows; a call of `choose-fn` answers what the bound body
computes.
-/

set_option autoImplicit false

namespace Agent

open Aura

/-- What a file may say, by its path. -/
abbrev Files := Bytes → Bytes → Prop

def Outside.reads (O : Outside) : Files := fun path raw => ∃ n, O.files n path = some raw

/-- The variables are as the view has them. -/
def View.Of (v : View) (g : Globals) : Prop := g.strat = v.strat ∧ g.shadow.ab = v.ab

def moves (F : Files) : Moves Answer View
  | .get, v, g, v' => v.Of g ∧ v' = v
  | .update f, v, _, v' => ∃ g, v.Of g ∧ v' = { v.put (f g).strat with ab := (f g).shadow.ab }
  | .boundarySafe, v, ok, v' => v' = v.tell ok
  | .snapshot, v, _, v' => v' = v.snapshot
  | .install via body tag, v, ok, v' => v' = v.install via body tag ok
  | .heal by' reported, v, _, v' => v' = v.heal by' reported
  | .setCode, v, _, v' => v' = { v with body := .empty }
  | .choose s, v, a, v' => a = v.body.choose s ∧ v' = v
  | .readFile path, v, a, v' => (∀ raw, a = some raw → F path raw) ∧ v' = v
  | _, v, _, v' => v' = v

theorem moves_abstracts (O : Outside) : (moves O.reads).Abstracts (handle O) World.view := by
  intro e w
  cases e with
  | update f => exact ⟨w.globals, ⟨rfl, rfl⟩, rfl⟩
  | redis by' args => cases by' <;> rfl
  | get => exact ⟨⟨rfl, rfl⟩, rfl⟩
  | choose s => exact ⟨rfl, rfl⟩
  | readFile path => exact ⟨fun raw h => ⟨w.calls, h⟩, rfl⟩
  | _ => rfl

variable {F : Files}

@[simp] theorem View.put_strat (v : View) (s : Strategy) : (v.put s).strat = s := rfl

@[simp] theorem View.put_self (v : View) : v.put v.strat = v := by simp [View.put]

/-! ## Effects that leave the view alone -/

theorem quiet_get : (moves F).Quiet Effect.get := fun _ _ _ h => h.2

/-- The variables that are in view stay as they are. -/
def Aside (f : Globals → Globals) : Prop := ∀ g, (f g).strat = g.strat ∧ (f g).shadow.ab = g.shadow.ab

theorem quiet_update {f : Globals → Globals} (hf : Aside f) : (moves F).Quiet (.update f) := by
  rintro v _ v' ⟨g, hg, rfl⟩
  rw [(hf g).1, (hf g).2, hg.1, hg.2, View.put_self]

theorem quiet_choose (s : Signals) : (moves F).Quiet (.choose s) := fun _ _ _ h => h.2

/-- The effects that are neither on the variables nor on `choose-fn`. -/
def Effect.Outer : Effect → Prop
  | .get | .update _ | .boundarySafe | .snapshot | .install _ _ _ | .heal _ _ | .setCode | .choose _ => False
  | _ => True

theorem quiet_outer {e : Effect} (h : e.Outer) : (moves F).Quiet e := by
  intro v a v' hm
  cases e with
  | get | update | boundarySafe | snapshot | install | heal | setCode | choose => exact h.elim
  | readFile path => exact hm.2
  | _ => exact hm

/-- The program leaves the view alone. -/
abbrev Quiet (F : Files) {α : Type} (p : M α) : Prop := p.Only (moves F).Quiet

section
variable {α : Type}

theorem quiet_pure (a : α) : Quiet F (pure a) := trivial

theorem quiet_fail : Quiet F (.fail : M α) := trivial

theorem quiet_getProg : Quiet F get := .perform quiet_get

theorem quiet_callChoose (s : Signals) : Quiet F (callChoose s) := .perform (quiet_choose s)

theorem quiet_call {e : Effect} (h : e.Outer) : Quiet F (call e) := .perform (quiet_outer h)

theorem quiet_set {f : Globals → Globals} (hf : Aside f) : Quiet F (update f) :=
  .perform (quiet_update hf)

theorem quiet_setMetrics (f : Metrics → Metrics) : Quiet F (setMetrics f) := quiet_set fun _ => ⟨rfl, rfl⟩

theorem quiet_setLink (f : Link → Link) : Quiet F (setLink f) := quiet_set fun _ => ⟨rfl, rfl⟩

theorem quiet_setJournal (f : Journal → Journal) : Quiet F (setJournal f) := quiet_set fun _ => ⟨rfl, rfl⟩

theorem quiet_setShadow {f : Shadow → Shadow} (hf : ∀ s, (f s).ab = s.ab) : Quiet F (setShadow f) :=
  quiet_set fun g => ⟨rfl, hf g.shadow⟩

theorem quiet_when {b : Prop} [Decidable b] {p : M Unit} (hp : Quiet F p) : Quiet F (if b then p else pure ()) :=
  hp.ite (quiet_pure ())

theorem quiet_redisCall (by' : Channel) (args : List Bytes) : Quiet F (redisCall by' args) := by
  refine .bind (quiet_call trivial) fun reply => ?_
  cases reply with
  | none => exact .bind (quiet_setLink _) fun _ => quiet_pure _
  | some reply => exact quiet_pure _

theorem quiet_send (args : List Bytes) : Quiet F (send args) :=
  .bind (quiet_redisCall _ args) fun _ => quiet_pure _

theorem quiet_shadowSend (args : List Bytes) : Quiet F (shadowSend args) :=
  .bind (quiet_redisCall _ args) fun _ => quiet_pure _

theorem quiet_pinPrefixSet (pfx : Bytes) (n : Nat) : Quiet F (pinPrefixSet pfx n) := .each (fun _ => quiet_send _) _

theorem quiet_unpinPrefixSet (pfx : Bytes) (n : Nat) : Quiet F (unpinPrefixSet pfx n) :=
  .each (fun _ => quiet_send _) _

theorem quiet_strategyVersion : Quiet F strategyVersion := by
  refine .bind (quiet_call trivial) fun v => ?_
  cases v with
  | none => exact quiet_fail
  | some v => exact quiet_pure v

theorem quiet_tryVersion (old : Int) : Quiet F (tryVersion old) := .bind (quiet_call trivial) fun _ => quiet_pure _

theorem quiet_tryReadFile (path : Bytes) : Quiet F (tryReadFile path) :=
  .bind (quiet_call trivial) fun _ => quiet_pure _

theorem quiet_notePolicy (version : Int) : Quiet F (notePolicy version) := quiet_set fun _ => ⟨rfl, rfl⟩

theorem quiet_applyInline (pin : Bool) : Quiet F (applyInline pin) := by
  refine .bind (quiet_send _) fun _ => .bind (quiet_set fun _ => ⟨rfl, rfl⟩) fun _ => ?_
  refine .bind (quiet_send _) fun _ => .bind (quiet_set fun _ => ⟨rfl, rfl⟩) fun _ => quiet_when ?_
  exact .bind (quiet_send _) fun _ => .bind (quiet_pinPrefixSet _ _) fun _ => quiet_pinPrefixSet _ _

end

theorem quiet_auditPushExplain : Quiet F auditPushExplain :=
  .bind quiet_getProg fun _ => .ite (quiet_pure ()) (quiet_send _)

section
variable [Settings]

theorem quiet_writePolicyPin : Quiet F writePolicyPin := by
  refine .ite (quiet_pure ()) (.bind quiet_getProg fun g => .bind (quiet_tryVersion _) fun _ => ?_)
  refine .bind (quiet_notePolicy _) fun _ => .bind quiet_getProg fun g => ?_
  generalize pinPayload g = payload
  exact .ite (quiet_pure ()) (.bind (quiet_setJournal _) fun _ => quiet_call trivial)

theorem quiet_logPolicyPin : Quiet F logPolicyPin :=
  .bind quiet_strategyVersion fun _ => .bind (quiet_notePolicy _) fun _ => quiet_writePolicyPin

theorem quiet_writeHeartbeat : Quiet F writeHeartbeat := by
  refine .ite (quiet_pure ()) (.bind quiet_strategyVersion fun _ => .bind (quiet_setJournal _) fun _ => ?_)
  exact .bind (quiet_call trivial) fun _ => quiet_writePolicyPin


variable [Runtime]

theorem quiet_auditAppend (op fromName toName reason : Bytes) : Quiet F (auditAppend op fromName toName reason) := by
  have hlast : Quiet F (do auditPushExplain; writeHeartbeat) :=
    .bind quiet_auditPushExplain fun _ => quiet_writeHeartbeat
  refine .bind (quiet_call trivial) fun ts => .bind quiet_getProg fun g => .bind (quiet_tryVersion _) fun _ => ?_
  refine .bind (quiet_call trivial) fun note => .bind (quiet_setJournal _) fun _ => .bind quiet_getProg fun g => ?_
  refine .ite ?_ hlast
  exact .bind (quiet_tryReadFile _) fun prev => .bind (quiet_call trivial) fun _ => hlast

end

/-! ## Following a program -/

theorem setStrat_view {v : View} {g : Globals} (hg : v.Of g) (f : Strategy → Strategy) :
    { v.put (f g.strat) with ab := g.shadow.ab } = v.put (f v.strat) := by
  rw [hg.1, hg.2]
  rfl

namespace Follow

variable {α β : Type} {f : Globals → M α} {k : Bool → M α} {p : M α} {Q : α → View → Prop} {v : View}

theorem get (h : ∀ g, v.Of g → (f g).Wp (moves F) Q v) : (get >>= f).Wp (moves F) Q v := by
  rintro g v' ⟨hg, rfl⟩
  exact h g hg

theorem setStrat {f : Strategy → Strategy} {k : Unit → M α} (h : (k ()).Wp (moves F) Q (v.put (f v.strat))) :
    (setStrat f >>= k).Wp (moves F) Q v := by
  rintro u v' ⟨g, hg, rfl⟩
  rw [setStrat_view hg]
  exact h

theorem setStrat_last {f : Strategy → Strategy} {Q : Unit → View → Prop} (h : Q () (v.put (f v.strat))) :
    (Agent.setStrat f).Wp (moves F) Q v := by
  rintro u v' ⟨g, hg, rfl⟩
  rw [setStrat_view hg]
  exact h

theorem boundarySafe (h : ∀ ok, (k ok).Wp (moves F) Q (v.tell ok)) : (boundarySafe >>= k).Wp (moves F) Q v := by
  rintro ok v' rfl
  exact h ok

theorem snapshot {k : Unit → M α} (h : (k ()).Wp (moves F) Q v.snapshot) : (snapshot >>= k).Wp (moves F) Q v := by
  rintro u v' rfl
  exact h

theorem install {via : Via} {body : Body} {tag : Bytes} (h : ∀ ok, (k ok).Wp (moves F) Q (v.install via body tag ok)) :
    (install via body tag >>= k).Wp (moves F) Q v := by
  rintro ok v' rfl
  exact h ok

theorem heal {by' : Healer} {reported : Bytes} {k : Unit → M α}
    (h : (k ()).Wp (moves F) Q (v.heal by' reported)) : (heal by' reported >>= k).Wp (moves F) Q v := by
  rintro u v' rfl
  exact h

theorem readFile {path : Bytes} {k : Option Bytes → M α}
    (h : ∀ a, (∀ raw, a = some raw → F path raw) → (k a).Wp (moves F) Q v) :
    (call (.readFile path) >>= k).Wp (moves F) Q v := by
  rintro a v' ⟨ha, rfl⟩
  exact h a ha

theorem callChoose {s : Signals} {k : Option Bytes → M α} (h : (k (v.body.choose s)).Wp (moves F) Q v) :
    (callChoose s >>= k).Wp (moves F) Q v := by
  rintro a v' ⟨rfl, rfl⟩
  exact h

end Follow

end Agent
