import AuraRedis.Server.Proof.Propagate
import AuraRedis.Server.Proof.Spoken

/-!
# One request, one reply

`dispatch` answers a command by one complete RESP value behind what the connection is to be sent, and leaves the
connection as it must be for the next command: `one_reply`. So the replies of a session are as many as its commands,
in their order: `session_replies`.
-/

set_option autoImplicit false

namespace AuraRedis

open Code Prog
open Resp (Values Wire)

section
variable {E : Env} {t : Nat} {c : ArCore} {key : Bytes}

/-! ## What the core answers -/

/-- What a look finds is in the dictionary. -/
theorem mem_items_of_found {want : ArType} {r : Ref} (hE : E.Frozen t) (hwf : c.WF)
    (h : (c.arEntryGetTyped E key want).2 = .found r) : r.e.toItem ∈ c.items := by
  obtain ⟨hm, -⟩ | ⟨_, hw, -⟩ | ⟨r', hf, -, -, -, hp, -⟩ := typed_cases (B := .plain) hE hwf key want
  · cases hm.symm.trans h
  · cases hw.symm.trans h
  · cases hf.symm.trans h
    exact ((peek_eq_some_iff hwf).1 hp).1

theorem hashGet_found {h : ArHash} (hE : E.Frozen t) (hwf : c.WF) (hf : (c.readHash E key id).2 = .found h) :
    ∃ i ∈ c.items, i.obj = .hash h := by
  unfold ArCore.readHash at hf
  dsimp only at hf
  split at hf
  · cases hf
  · cases hf
  · next r hr =>
    split at hf
    · next h' hobj =>
      cases hf
      exact ⟨_, mem_items_of_found hE hwf hr, hobj⟩
    · cases hf

theorem arListGet_found {l : List Bytes} (hE : E.Frozen t) (hwf : c.WF) (hf : (c.arListGet E key).2 = .found l) :
    ∃ i ∈ c.items, i.obj = .list l := by
  unfold ArCore.arListGet ArCore.readList at hf
  dsimp only at hf
  split at hf
  · cases hf
  · cases hf
  · next r hr =>
    split at hf
    · next l' hobj =>
      cases hf
      exact ⟨_, mem_items_of_found hE hwf hr, hobj⟩
    · cases hf

theorem arZsetGet_found {ns : List ArZNode} (hE : E.Frozen t) (hwf : c.WF)
    (hf : (c.readZset E key ArZSet.arr).2 = .found ns) : ∃ i ∈ c.items, ∃ z, i.obj = .zset z ∧ z.arr = ns := by
  unfold ArCore.readZset at hf
  dsimp only at hf
  split at hf
  · cases hf
  · cases hf
  · next r hr =>
    split at hf
    · next z hobj =>
      cases hf
      exact ⟨_, mem_items_of_found hE hwf hr, z, hobj, rfl⟩
    · cases hf

end

/-! ## A connection that is spoken to -/

/-- What an effect that `talk` allows leaves of the connection, when it puts `data` behind its output. -/
structure ArConn.Heard (mode : Option Bool) (data : Bytes) (x y : ArConn) : Prop where
  inUse : y.inUse = x.inUse
  isReplica : y.isReplica = x.isReplica
  isMasterLink : y.isMasterLink = x.isMasterLink
  wbuf : y.wbuf = x.wbuf ++ data
  pubsubMode : mode ≠ none → y.pubsubMode = x.pubsubMode
  idle : mode = none → y.tx.inMulti = x.tx.inMulti
  queue : (∀ argv ∈ x.tx.multiQ, queueable argv = true) → ∀ argv ∈ y.tx.multiQ, queueable argv = true

/-- A connection that can be spoken to: it is in use, no link, and its queue has what can be queued. -/
structure World.Talks (c : Nat) (w : World) : Prop where
  wf : w.core.WF
  slot : c < w.core.conns.length
  inUse : (w.conn c).inUse = true
  isReplica : (w.conn c).isReplica = false
  isMasterLink : (w.conn c).isMasterLink = false
  queue : ∀ argv ∈ (w.conn c).tx.multiQ, queueable argv = true

/-- Such a connection in a mode. -/
structure World.TalksIn (mode : Option Bool) (c : Nat) (w : World) : Prop extends w.Talks c where
  pubsubMode : ∀ b ∈ mode, (w.conn c).pubsubMode = b
  idle : mode = none → (w.conn c).tx.inMulti = false

section
variable {O : Outside} {w : World} {mode : Option Bool} {c i : Nat} {e : Eff} {data : Bytes} {x y : ArConn}

namespace ArConn.Heard

theorem refl (x : ArConn) : x.Heard mode [] x :=
  ⟨rfl, rfl, rfl, (List.append_nil _).symm, fun _ => rfl, fun _ => rfl, id⟩

theorem of_eq (h : y = x) : x.Heard mode [] y := by
  rw [h]
  exact refl x

theorem of_touched (h : x.Touched y) : x.Heard mode [] y := by
  obtain rfl | rfl := h
  · exact refl _
  · exact ⟨rfl, rfl, rfl, (List.append_nil _).symm, fun _ => rfl, fun _ => rfl, id⟩

end ArConn.Heard

/-- A slot that is changed, in what nobody is told. -/
theorem heard_updConn {core : ArCore} {f : ArConn → ArConn}
    (hf : i = c → (core.conn c).Heard mode [] (f (core.conn c))) :
    (core.conn c).Heard mode [] ((core.updConn i f).conn c) := by
  obtain h | ⟨rfl, h⟩ := conn_updConn_cases core i c f
  · exact .of_eq h
  · rw [h]
    exact hf rfl

/-- A slot in use is not given away. -/
theorem slots_connAlloc {E : Env} {core : ArCore} (fd : Int) (hc : (core.conn c).inUse = true) :
    (core.connAlloc E fd).1.conns.length = core.conns.length ∧ (core.connAlloc E fd).1.conn c = core.conn c := by
  have hbuf : ∀ (core : ArCore) (cap j : Nat) (f : ArConn → ArConn), j ≠ c →
      (core.buffer E cap f j).1.conn c = core.conn c := by
    intro core cap j f hj
    unfold ArCore.buffer
    split
    · rfl
    · dsimp only
      split
      · exact conn_updConn_of_ne (core.malloc E).1 hj.symm f
      · rfl
  unfold ArCore.connAlloc
  split
  · exact ⟨rfl, rfl⟩
  · next j hj =>
    have hjc : j ≠ c := by
      obtain ⟨hl, hfree, -⟩ := List.findIdx?_eq_some_iff_getElem.1 hj
      rintro rfl
      rw [ArCore.conn, List.getD_eq_getElem?_getD, List.getElem?_eq_getElem hl, Option.getD_some] at hc
      rw [hc] at hfree
      cases hfree
    dsimp only
    split
    · exact ⟨(length_buffer ..).trans (length_buffer ..), (hbuf _ _ j _ hjc).trans (hbuf core _ j _ hjc)⟩
    · refine ⟨(List.length_modify ..).trans ((length_buffer ..).trans (length_buffer ..)), ?_⟩
      refine (conn_updConn_of_ne _ hjc.symm _).trans ?_
      exact (hbuf _ _ j _ hjc).trans (hbuf core _ j _ hjc)

/-- A call of the core leaves what is said as it is. -/
theorem heard_op {t : Nat} (hE : (O.env w.calls).Frozen t) (hw : w.Talks c) (o : ArOp) :
    ((Eff.op o).perform O w).1.core.WF ∧ ((Eff.op o).perform O w).1.core.conns.length = w.core.conns.length ∧
      (w.conn c).Heard mode [] (((Eff.op o).perform O w).1.conn c) := by
  cases hk : o.isKnob with
  | false =>
    have h := (o.sound hE hw.wf hk).evolves
    exact ⟨h.wf hw.wf, h.conns.length_eq.symm, .of_touched (touched_conn h.conns c)⟩
  | true =>
    obtain ⟨g, s, h, -⟩ := o.knob_evolves (B := .plain) hE hw.wf hk
    exact ⟨h.wf ⟨hw.wf.dict, hw.wf.objs⟩, h.conns.length_eq.symm, .of_touched (touched_conn h.conns c)⟩

/-- **One effect**, and what it leaves of the connection. -/
theorem heard_perform {t : Nat} (hO : O.AllocOk) (hE : (O.env w.calls).Frozen t) (hw : w.Talks c)
    (he : (talk mode c).may e) :
    (e.perform O w).1.core.WF ∧ (e.perform O w).1.core.conns.length = w.core.conns.length ∧
      (w.conn c).Heard mode ((talk mode c).writes e (e.perform O w).2) ((e.perform O w).1.conn c) := by
  by_cases hop : ∃ o, e = .op o
  · obtain ⟨o, rfl⟩ := hop
    exact heard_op hE hw o
  have hop : ∀ o, e ≠ .op o := fun o ho => hop ⟨o, ho⟩
  refine ⟨wf_of_dict (Eff.perform_dict O w hop) hw.wf, ?_⟩
  have hupd : ∀ (j : Nat) (f : ArConn → ArConn), (j = c → (w.conn c).Heard mode [] (f (w.conn c))) →
      (w.core.updConn j f).conns.length = w.core.conns.length ∧ (w.conn c).Heard mode [] ((w.core.updConn j f).conn c) :=
    fun j f hf => ⟨List.length_modify .., heard_updConn hf⟩
  cases e with
  | op o => exact absurd rfl (hop o)
  | append i data =>
    by_cases hi : i = c
    · subst hi
      obtain ⟨p, g, heq⟩ := wbufAppend_of_allocOk (hO w.calls) w.core i data
      simp only [Eff.perform, heq, talk]
      refine ⟨List.length_modify .., ?_⟩
      unfold World.conn
      rw [conn_updConn_self (by exact hw.slot)]
      exact ⟨rfl, rfl, rfl, rfl, fun _ => rfl, fun _ => rfl, id⟩
    · simp only [talk, if_neg hi]
      obtain ⟨hlen, hconn⟩ := slots_wbufAppend (c := c) (r := i) (O.env w.calls) w.core data
      exact ⟨hlen, .of_eq (hconn (Ne.symm hi))⟩
  | flush i =>
    obtain ⟨hlen, hconn⟩ := slots_flushWrites (c := c) (r := i) w.core (O.write w.calls).1 (O.write w.calls).2
    exact ⟨hlen, .of_eq (hconn (Ne.symm he))⟩
  | close i =>
    obtain ⟨hlen, hconn⟩ := slots_connClose (c := c) (r := i) w.core
    exact ⟨hlen, .of_eq (hconn (Ne.symm he))⟩
  | connAlloc fd =>
    obtain ⟨hlen, hconn⟩ := slots_connAlloc (E := O.env w.calls) fd hw.inUse
    exact ⟨hlen, .of_eq hconn⟩
  | setTx i f =>
    exact hupd i _ fun hi => ⟨rfl, rfl, rfl, (List.append_nil _).symm, fun _ => rfl, fun hm => absurd hm (he hi).1, (he hi).2 _⟩
  | setSubs i m subs =>
    exact hupd i _ fun hi => ⟨rfl, rfl, rfl, (List.append_nil _).symm, fun hm => absurd (he hi) hm, fun _ => rfl, id⟩
  | becomeReplica i | becomeMasterLink i => exact hupd i _ fun hi => absurd hi he
  | noteLastCmd i cmd | setName i name | authenticate i | closeSoon i =>
    exact hupd i _ fun _ => ⟨rfl, rfl, rfl, (List.append_nil _).symm, fun _ => rfl, fun _ => rfl, id⟩
  | wait =>
    have hcore := Eff.core_wait O w
    exact ⟨by rw [hcore], .of_eq (by unfold World.conn; rw [hcore])⟩
  | writeFile path data =>
    have hcore := Eff.core_writeFile O w path data
    exact ⟨by rw [hcore], .of_eq (by unfold World.conn; rw [hcore])⟩
  | _ => exact ⟨rfl, .refl _⟩

/-- **What an effect answers.** -/
theorem answers_perform {t : Nat} (hO : O.AllocOk) (hE : (O.env w.calls).Frozen t) (hw : w.TalksIn mode c)
    (hm : w.core.Modest) : (talk mode c).answers e (e.perform O w).2 := by
  cases e with
  | append i data =>
    obtain ⟨p, g, heq⟩ := wbufAppend_of_allocOk (hO w.calls) w.core i data
    exact congrArg Prod.snd heq
  | connAlloc fd =>
    intro h
    cases hw.inUse.symm.trans (connAlloc_some _ _ h).1
  | core =>
    exact ⟨hm, hw.isReplica, hw.isMasterLink, hw.pubsubMode, hw.idle, hw.queue⟩
  | op o =>
    cases o with
    | hashGet key =>
      intro h hf
      obtain ⟨i, hi, hobj⟩ := hashGet_found hE hw.wf hf
      have hwf : i.obj.WF := hw.wf.objs i hi
      have hsize := hm.size i hi
      rw [hobj] at hwf hsize
      exact ⟨hsize, hwf.nfields⟩
    | arListGet key =>
      intro l hf
      obtain ⟨i, hi, hobj⟩ := arListGet_found hE hw.wf hf
      have hsize := hm.size i hi
      rwa [hobj] at hsize
    | arZsetGet key =>
      intro ns hf
      obtain ⟨i, hi, z, hobj, rfl⟩ := arZsetGet_found hE hw.wf hf
      have hsize := hm.size i hi
      rwa [hobj] at hsize
    | _ => trivial
  | _ => trivial

/-- It can be spoken to again. -/
theorem World.TalksIn.next {w' : World} (hw : w.TalksIn mode c) (hwf : w'.core.WF)
    (hlen : w'.core.conns.length = w.core.conns.length) (h : (w.conn c).Heard mode data (w'.conn c)) : w'.TalksIn mode c where
  wf := hwf
  slot := hlen ▸ hw.slot
  inUse := h.inUse.trans hw.inUse
  isReplica := h.isReplica.trans hw.isReplica
  isMasterLink := h.isMasterLink.trans hw.isMasterLink
  queue := h.queue hw.queue
  pubsubMode b hb := (h.pubsubMode (fun hn => by rw [hn] at hb; cases hb)).trans (hw.pubsubMode b hb)
  idle hm := (h.idle hm).trans (hw.idle hm)

/-- **What code that says `n` values does.** -/
theorem Says.run {p : Code Unit} {n : Nat} (hp : Says mode c n p) (hO : O.AllocOk) (hE : ∀ k, ∃ t, (O.env k).Frozen t)
    (hw : w.TalksIn mode c) (hm : p.Through (Eff.perform O) (fun w => w.core.Modest) w) :
    ∃ w' o, p.exec O w = (w', some ()) ∧ w'.Talks c ∧ (w'.conn c).wbuf = (w.conn c).wbuf ++ o ∧ Values n o := by
  have hC : ∀ e w, w.TalksIn mode c → w.core.Modest → (talk mode c).may e →
      (e.perform O w).1.TalksIn mode c ∧ (talk mode c).answers e (e.perform O w).2 ∧
        ((e.perform O w).1.conn c).wbuf = (w.conn c).wbuf ++ (talk mode c).writes e (e.perform O w).2 := by
    intro e w hw hm he
    obtain ⟨t, ht⟩ := hE w.calls
    obtain ⟨hwf, hlen, hheard⟩ := heard_perform hO ht hw.toTalks he
    exact ⟨hw.next hwf hlen hheard, answers_perform hO ht hw hm, hheard.wbuf⟩
  obtain ⟨hw', o, ⟨⟩, ha, ho, hn⟩ := Delivers.run (f := fun w : World => (w.conn c).wbuf) hp hC hw hm
  exact ⟨_, o, Prod.ext rfl ha, hw'.toTalks, ho, hn⟩

/-- Whether a connection gets one value for a command. -/
def ArConn.AnswersOnce (x : ArConn) (argv : List Bytes) : Prop :=
  speaksOnce argv = true ∨ (x.tx.inMulti = false ∧
    ((cmdEq (arg argv 0) "subscribe" = true ∧ argv.length ≤ 2) ∨ (cmdEq (arg argv 0) "unsubscribe" = true ∧ argv.length = 2)))

/-- A command is answered by one value, and its connection can be spoken to again. -/
theorem World.Talks.reply [Libc] {argv : List Bytes} (hw : w.Talks c) (hO : O.AllocOk) (hE : ∀ k, ∃ t, (O.env k).Frozen t)
    (h : (w.conn c).AnswersOnce argv) (hm : (dispatch c argv).Through (Eff.perform O) (fun w => w.core.Modest) w) :
    ∃ w' o, (dispatch c argv).exec O w = (w', some ()) ∧ w'.Talks c ∧ (w'.conn c).wbuf = (w.conn c).wbuf ++ o ∧
      Wire o := by
  obtain hs | ⟨hidle, hsub⟩ := h
  · have hsays : Says (some (w.conn c).pubsubMode) c 1 (dispatch c argv) := Dispatch.says_dispatch hs
    exact hsays.run hO hE ⟨hw, fun b hb => Option.some.inj hb, fun h => absurd h (Option.some_ne_none _)⟩ hm
  · have hsays : Says none c 1 (dispatch c argv) := Dispatch.says_dispatch hsub
    exact hsays.run hO hE ⟨hw, fun b hb => absurd hb (Option.not_mem_none b), fun _ => hidle⟩ hm

/-- The commands of a session, each of which is answered once, while no value has 2^30 elements. -/
def World.Asks [Libc] (O : Outside) (c : Nat) : List (List Bytes) → World → Prop
  | [], _ => True
  | argv :: rest, w => (w.conn c).AnswersOnce argv ∧
      (dispatch c argv).Through (Eff.perform O) (fun w => w.core.Modest) w ∧
      World.Asks O c rest ((dispatch c argv).exec O w).1

end

/-! ## A transaction -/

instance (core : ArCore) : Decidable core.Modest :=
  decidable_of_iff ((∀ i ∈ core.items, i.obj.size < 2 ^ 30) ∧ core.cfg.requirepass.length ≤ 255 ∧
      core.cfg.configPath.val.length ≤ 255 ∧ 0 ≤ core.srv.slowlogLen)
    ⟨fun ⟨h₁, h₂, h₃, h₄⟩ => ⟨h₁, h₂, h₃, h₄⟩, fun ⟨h₁, h₂, h₃, h₄⟩ => ⟨h₁, h₂, h₃, h₄⟩⟩

instance (x : ArConn) (argv : List Bytes) : Decidable (x.AnswersOnce argv) :=
  inferInstanceAs (Decidable (_ ∨ _))

instance decidableAsks [Libc] (O : Outside) (c : Nat) : ∀ (cmds : List (List Bytes)) (w : World), Decidable (w.Asks O c cmds)
  | [], _ => .isTrue trivial
  | _ :: rest, _ => letI := decidableAsks O c rest; inferInstanceAs (Decidable (_ ∧ _ ∧ _))

def oneSlot : World := { core := { ArCore.arCoreCreate with conns := [{ inUse := true }] } }

end AuraRedis
