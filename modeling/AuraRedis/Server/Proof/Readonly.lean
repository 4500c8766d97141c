import AuraRedis.Server.Proof.Fits
import AuraRedis.Server.Proof.Frame

/-!
# A read-only replica

While the node is a replica, a command from a connection that is not the link to the master only reads
(`obeys_dispatch`), be it dispatched directly or from a queue, so the key space stays what it was but for
what is due (`readonly_keeps`).
-/

set_option autoImplicit false

namespace AuraRedis

open Code Prog Dispatch

/-! ## What a guest may ask for -/

/-- No command of a queue is `REPLICAOF`. -/
def NoReplicaof (q : List (List Bytes)) : Prop := ∀ argv ∈ q, isReplicaof argv = false

/-- What there is to see of a replica, on a connection that is not the link to its master. -/
structure ArCore.Guest (c : Nat) (core : ArCore) : Prop where
  readonly : core.srv.replReadonly = true
  link : (core.conn c).isMasterLink = false
  queue : NoReplicaof (core.conn c).tx.multiQ

/-- What a command on such a connection asks for and is answered. -/
def guest (c : Nat) : Contract Eff.Ans Unit where
  may
    | .op o => o.isRead = true
    | .setTx _ f => ∀ tx : ArTx, NoReplicaof tx.multiQ → NoReplicaof (f tx).multiQ
    | .setSrv f => ∀ s, (f s).replReadonly = s.replReadonly
    | .becomeMasterLink _ => False
    | _ => True
  answers
    | .core, a => a.Guest c
    | _, _ => True
  writes _ _ := []

section
variable {c : Nat} {argv : List Bytes}

theorem may_of_fits {e : Eff} (h : e.Fits false c) : (guest c).may e := by
  cases e with
  | op o => exact h.2 rfl
  | setSrv f => exact h rfl
  | setTx i f | becomeMasterLink i => exact h.elim
  | _ => trivial

theorem Code.Fits.obeys {α : Type} {p : Code α} (h : p.Fits false c) : p.Obeys (guest c) :=
  .of_only h fun _ => may_of_fits

theorem obeys_reply (data : Bytes) : (wbufAppend c data).Obeys (guest c) := (fits_wbufAppend data).obeys

theorem obeys_setTx {f : ArTx → ArTx} (hf : ∀ tx : ArTx, NoReplicaof tx.multiQ → NoReplicaof (f tx).multiQ) :
    (eff (.setTx c f)).Obeys (guest c) := ⟨hf, fun _ _ => trivial⟩

/-- A command that is not refused does not write. -/
theorem asksToWrite_of_refusal {core : ArCore} (hg : core.Guest c)
    (hr : refusal core (core.conn c) argv = none) : asksToWrite argv = false := by
  unfold refusal at hr
  simp only [hg.readonly, hg.link] at hr
  unfold asksToWrite
  grind

theorem noReplicaof_nil : NoReplicaof [] := fun _ h => absurd h List.not_mem_nil

/-! ## MULTI -/

theorem obeys_watchKeys (keys : List Bytes) : (watchKeys c keys).Obeys (guest c) := by
  induction keys with
  | nil => exact obeys_reply _
  | cons key rest ih =>
    unfold watchKeys
    refine .step trivial fun core _ => .ite (fun _ => ih) fun _ => .ite (fun _ => obeys_reply _) fun _ => ?_
    refine .step trivial fun ok _ => .ite (fun _ => .bind (obeys_setTx fun tx h => h) fun _ => ih) fun _ => ?_
    exact obeys_reply _

theorem obeys_queue (hr : isReplicaof argv = false) : (queue c argv).Obeys (guest c) := by
  unfold queue
  refine .step trivial fun core _ => .ite (fun _ => obeys_reply _) fun _ => .ite (fun _ => obeys_reply _) fun _ => ?_
  have hcopy : ∀ args, (copyArgs args).Obeys (guest c) := by
    intro args
    induction args with
    | nil => trivial
    | cons a rest ih =>
      unfold copyArgs
      exact .step trivial fun ok _ => .ite (fun _ => ih) fun _ => trivial
  refine .bind (hcopy argv) fun ok => .ite (fun _ => .bind (obeys_setTx fun tx h => ?_) fun _ => obeys_reply _)
    fun _ => obeys_reply _
  intro a ha
  rcases List.mem_append.1 ha with ha | ha
  · exact h a ha
  · rw [List.mem_singleton.1 ha]
    exact hr

theorem obeys_exec {nested : Nat → List Bytes → Code Unit}
    (hn : ∀ argv, isReplicaof argv = false → (nested c argv).Obeys (guest c)) :
    (Dispatch.exec nested c argv).Obeys (guest c) := by
  unfold Dispatch.exec
  refine .ite (fun _ => obeys_reply _) fun _ => .step trivial fun core hg => ?_
  dsimp only
  refine .ite (fun _ => obeys_reply _) fun _ => .ite (fun _ => ?_) fun _ => ?_
  · exact .bind (obeys_setTx fun _ _ => noReplicaof_nil) fun _ => obeys_reply _
  · refine .bind (obeys_setTx fun tx h => h) fun _ => .bind (.attempt ?_) fun ran => ?_
    · exact .bind (obeys_reply _) fun _ => .each fun a ha => hn a (hg.queue a ha)
    · exact .bind (obeys_setTx fun _ _ => noReplicaof_nil) fun _ => .ite (fun _ => trivial) fun _ => trivial

theorem obeys_txCommands {nested : Nat → List Bytes → Code Unit}
    (hn : ∀ argv, isReplicaof argv = false → (nested c argv).Obeys (guest c)) :
    ∀ b ∈ txCommands nested, (b.2 c argv).Obeys (guest c) := by
  unfold txCommands
  simp only [List.forall_mem_cons]
  refine ⟨?_, ?_, ?_, ?_, obeys_exec hn, List.forall_mem_nil _⟩
  · refine .ite (fun _ => obeys_reply _) fun _ => .step trivial fun core _ => ?_
    exact .ite (fun _ => obeys_reply _) fun _ => obeys_watchKeys _
  · exact .ite (fun _ => obeys_reply _) fun _ => .bind (obeys_setTx fun tx h => h) fun _ => obeys_reply _
  · refine .ite (fun _ => obeys_reply _) fun _ => .step trivial fun core _ => .ite (fun _ => obeys_reply _) fun _ => ?_
    exact .bind (obeys_setTx fun _ _ => noReplicaof_nil) fun _ => obeys_reply _
  · refine .ite (fun _ => obeys_reply _) fun _ => .step trivial fun core _ => .ite (fun _ => obeys_reply _) fun _ => ?_
    exact .bind (obeys_setTx fun _ _ => noReplicaof_nil) fun _ => obeys_reply _

/-! ## dispatch -/

theorem obeys_dispatchBy [Libc] {nested : Nat → List Bytes → Code Unit}
    (hn : ∀ argv, isReplicaof argv = false → (nested c argv).Obeys (guest c)) (hr : isReplicaof argv = false) :
    (dispatchBy nested c argv).Obeys (guest c) := by
  unfold dispatchBy
  refine .ite (fun _ => obeys_reply _) fun _ => .step trivial fun _ _ => .step trivial fun core hg => ?_
  split
  · exact obeys_reply _
  · rename_i href
    split
    · rename_i h hl
      obtain ⟨b, hb, rfl, -⟩ := mem_of_lookup hl
      exact obeys_txCommands hn b hb
    · refine .ite (fun _ => obeys_queue hr) fun _ => ?_
      unfold runCommand
      split
      · rename_i h hl
        obtain ⟨b, hb, rfl, hc⟩ := mem_of_lookup hl
        rcases behaves_commands b hb with ⟨-, hrep⟩ | hf
        · exact absurd (hrep argv hc) (by simp [hr])
        · have hfits := hf c argv hc
          rw [asksToWrite_of_refusal hg href] at hfits
          exact hfits.obeys
      · exact obeys_reply _

/-- **A command of a guest only reads.** -/
theorem obeys_dispatch [Libc] (hr : isReplicaof argv = false) : (dispatch c argv).Obeys (guest c) :=
  obeys_dispatchBy (fun _ hr => obeys_dispatchBy (fun _ _ => trivial) hr) hr

/-! ## What is kept -/

/-- A replica whose key space is what it was, but for what is due at `t`. -/
structure World.Kept (t : Nat) (core₀ : ArCore) (w : World) : Prop where
  wf : w.core.WF
  readonly : w.core.srv.replReadonly = true
  queue : ∀ i, NoReplicaof (w.conn i).tx.multiQ
  keys : core₀.OnlyExpires t w.core

variable {O : Outside} {t : Nat} {core₀ : ArCore} {w w' : World} {e : Eff}

/-- What a guest does makes no connection a link, and queues no `REPLICAOF`. -/
theorem conn_guest (hop : ∀ o, e ≠ .op o) (he : (guest c).may e) (i : Nat)
    (hq : NoReplicaof (w.conn i).tx.multiQ) : NoReplicaof ((e.perform O w).1.conn i).tx.multiQ ∧
      ((w.conn i).isMasterLink = false → ((e.perform O w).1.conn i).isMasterLink = false) := by
  have hupd : ∀ j (f : ArConn → ArConn), (∀ x, NoReplicaof x.tx.multiQ → NoReplicaof (f x).tx.multiQ) →
      (∀ x, (f x).isMasterLink = x.isMasterLink) → NoReplicaof ((w.core.updConn j f).conn i).tx.multiQ ∧
        ((w.conn i).isMasterLink = false → ((w.core.updConn j f).conn i).isMasterLink = false) := by
    intro j f hf hl
    rcases conn_updConn_cases w.core j i f with h | ⟨-, h⟩
    · rw [h]
      exact ⟨hq, id⟩
    · rw [h]
      exact ⟨hf _ hq, fun h => (hl _).trans h⟩
  rcases Eff.conn_perform O w hop i with hs | hs | hs
  · exact ⟨hs.multiQ ▸ hq, fun h => hs.isMasterLink.trans h⟩
  · cases e with
    | setTx j f => exact hupd j _ (fun x => he x.tx) fun _ => rfl
    | setSubs j mode subs | authenticate j | becomeReplica j => exact hupd j _ (fun _ h => h) fun _ => rfl
    | becomeMasterLink j => exact he.elim
    | _ => cases hs
  · exact ⟨hs.tx ▸ noReplicaof_nil, fun _ => hs.isMasterLink⟩

/-- An effect of a guest, or of the event loop. -/
theorem kept_perform (hclock : ∀ n, (O.env n).Until t) (he : (guest c).may e) (h : w.Kept t core₀) :
    (e.perform O w).1.Kept t core₀ ∧
      ∀ i, (w.conn i).isMasterLink = false → ((e.perform O w).1.conn i).isMasterLink = false := by
  by_cases hop : ∃ o, e = .op o
  · obtain ⟨o, rfl⟩ := hop
    obtain ⟨g, hx⟩ := o.expires_of_read (B := .plain) (hclock w.calls) h.wf he
    have hsame : ∀ i, (w.conn i).Same ((Eff.perform O (.op o) w).1.conn i) := fun i =>
      (touched_conn hx.conns i).same
    refine ⟨⟨hx.wf ⟨h.wf.dict, h.wf.objs⟩, (congrArg ArSrv.replReadonly hx.srv).trans h.readonly, fun i => ?_,
      h.keys.trans hx.due⟩, fun i hi => (hsame i).isMasterLink.trans hi⟩
    rw [(hsame i).multiQ]
    exact h.queue i
  · have hop' : ∀ o, e ≠ .op o := fun o ho => hop ⟨o, ho⟩
    have hd := Eff.perform_dict O w hop'
    have hc := fun i => conn_guest (O := O) hop' he i (h.queue i)
    refine ⟨⟨wf_of_dict hd h.wf, ?_, fun i => (hc i).1, h.keys.trans fun k => .inl ?_⟩, fun i => (hc i).2⟩
    · cases e with
      | setSrv f => exact (he _).trans h.readonly
      | setCfg f | setStats f => exact h.readonly
      | op o => exact absurd rfl (hop' o)
      | _ => exact (congrArg ArSrv.replReadonly (Eff.perform_beside O w rfl).srv).trans h.readonly
    · rw [ArCore.itemsAt, ArCore.items, hd]
      rfl

/-- **A command of a guest** takes from the key space no more than what is due. -/
theorem kept_dispatch [Libc] (hclock : ∀ n, (O.env n).Until t) (hl : (w.conn c).isMasterLink = false)
    (hr : isReplicaof argv = false) (h : w.Kept t core₀) : ((dispatch c argv).exec O w).1.Kept t core₀ := by
  have hrun := (obeys_dispatch (c := c) hr).run_invariant (h := Eff.perform O)
    (I := fun w : World => w.Kept t core₀ ∧ (w.conn c).isMasterLink = false) (s := w) (fun e w hw he => ?_) ⟨h, hl⟩
  · exact hrun.1
  · obtain ⟨hk, hlink⟩ := kept_perform hclock he hw.1
    refine ⟨⟨hk, hlink c hw.2⟩, ?_⟩
    cases e with
    | core => exact ⟨hw.1.readonly, hw.2, hw.1.queue c⟩
    | _ => trivial

/-- Commands of guests, one after the other, while connections come and go. -/
inductive Guests [Libc] (O : Outside) : World → World → Prop
  | nil (w : World) : Guests O w w
  | command {w w' : World} (c : Nat) (argv : List Bytes) : (w.conn c).isMasterLink = false →
      isReplicaof argv = false → Guests O ((dispatch c argv).exec O w).1 w' → Guests O w w'
  | event {w w' : World} (e : Eff) : (∃ i, e = .connAlloc i) ∨ (∃ i, e = .close i ∨ e = .flush i) →
      Guests O (e.perform O w).1 w' → Guests O w w'

theorem kept_guests [Libc] (hclock : ∀ n, (O.env n).Until t) (hrun : Guests O w w') (h : w.Kept t core₀) :
    w'.Kept t core₀ := by
  induction hrun with
  | nil => exact h
  | command c argv hl hr _ ih => exact ih (kept_dispatch hclock hl hr h)
  | event e he _ ih =>
    refine ih (kept_perform (c := 0) hclock ?_ h).1
    obtain ⟨i, rfl⟩ | ⟨i, rfl | rfl⟩ := he <;> trivial

/-- **A read-only replica keeps its key space**: whatever other connections than the link to the master ask
for, directly or from a queue, every key has what it had, or what it had is due and gone. -/
theorem readonly_keeps [Libc] (hwf : w.core.WF) (hro : w.core.srv.replReadonly = true)
    (hq : ∀ i, NoReplicaof (w.conn i).tx.multiQ) (hclock : ∀ n, (O.env n).Until t) (hrun : Guests O w w') :
    w'.core.srv.replReadonly = true ∧
      ∀ key, w'.core.itemsAt key = w.core.itemsAt key ∨
        (w'.core.itemsAt key = 0 ∧ ∀ i ∈ w.core.itemsAt key, Due t i.expireAt) := by
  have h := kept_guests hclock hrun ⟨hwf, hro, hq, .refl t w.core⟩
  exact ⟨h.readonly, h.keys⟩

/-- A client that has queued a `SET`. -/
def queuedConn : ArConn := { inUse := true, tx := { inMulti := true, multiQ := [[lit "SET", lit "k", lit "v"]] } }

/-- A replica with such a client. -/
def replicaWorld (core : ArCore) : World :=
  { core := { core with srv := { replReadonly := true }, conns := [queuedConn] } }

theorem readonly_keeps_sample :
    let _ : Libc := smallLibc
    let w := replicaWorld (ArCore.arCoreCreate.runCalls sampleCalls)
    let w' := ((dispatch 0 [lit "EXEC"]).exec (.steady 9) w).1
    w'.core.srv.replReadonly = true ∧
      ∀ key, w'.core.itemsAt key = w.core.itemsAt key ∨
        (w'.core.itemsAt key = 0 ∧ ∀ i ∈ w.core.itemsAt key, Due 9 i.expireAt) := by
  intro _
  have hwf := (ArCore.Reachable.create.runCalls sampleCalls).wf
  generalize ArCore.arCoreCreate.runCalls sampleCalls = core at hwf
  have hq : ∀ i, NoReplicaof ((replicaWorld core).conn i).tx.multiQ := by
    intro i
    show NoReplicaof (([queuedConn].getD i {}).tx.multiQ)
    cases i with
    | zero =>
      intro argv ha
      rw [List.mem_singleton.1 ha]
      decide
    | succ i =>
      rw [List.getD_cons_succ, List.getD_nil]
      exact noReplicaof_nil
  exact readonly_keeps (O := .steady 9) (w := replicaWorld core) ⟨hwf.dict, hwf.objs⟩ rfl hq (fun _ _ => Nat.le_refl 9)
    (.command 0 [lit "EXEC"] rfl (by decide) (.nil _))

end

end AuraRedis
