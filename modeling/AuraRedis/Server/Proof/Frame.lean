import AuraRedis.Core.Proof.Runs
import AuraRedis.Server.World

/-!
# What an effect leaves alone

Only a call of the core changes the dictionary (`perform_dict`), and an effect leaves a connection in the
state it was in, unless it is about that connection or the slot is given back or taken (`conn_perform`).
-/

set_option autoImplicit false

namespace AuraRedis

/-- The memory of a world lasts. -/
def Outside.AllocOk (O : Outside) : Prop := ∀ n, (O.env n).AllocOk

section
variable {α β : Type} {O : Outside} {w w₁ : World}

/-- What an effect does before the rest. -/
theorem exec_step (e : Eff) (k : e.Ans → Code α) (O : Outside) (w : World) :
    (Code.eff e >>= k).exec O w = (k (e.perform O w).2).exec O (e.perform O w).1 := rfl

/-- A call of the core, and what follows. -/
theorem exec_call (O : Outside) (w : World) (o : ArOp) (k : o.Ans → Code α) :
    (Code.call o >>= k).exec O w = (k (o.run (O.env w.calls) w.core).2).exec O
      { w with core := (o.run (O.env w.calls) w.core).1, calls := w.calls + 1 } := rfl

/-- One piece of code after another. -/
theorem exec_seq {p : Code α} {f : α → Code β} {a : α} (h : p.exec O w = (w₁, some a)) :
    (p >>= f).exec O w = (f a).exec O w₁ := by
  unfold Code.exec at h ⊢
  rw [Prog.run_bind, h]

end

/-- The same connection, which may have been sent something, have another name or be told to close. -/
structure ArConn.Same (x y : ArConn) : Prop where
  inUse : y.inUse = x.inUse
  authenticated : y.authenticated = x.authenticated
  isReplica : y.isReplica = x.isReplica
  isMasterLink : y.isMasterLink = x.isMasterLink
  pubsubMode : y.pubsubMode = x.pubsubMode
  subChannels : y.subChannels = x.subChannels
  inMulti : y.tx.inMulti = x.tx.inMulti
  multiQ : y.tx.multiQ = x.tx.multiQ
  watchKeys : y.tx.watchKeys = x.tx.watchKeys

/-- A slot that has no connection, or a new one. -/
structure ArConn.Fresh (x : ArConn) : Prop where
  isReplica : x.isReplica = false
  isMasterLink : x.isMasterLink = false
  pubsubMode : x.pubsubMode = false
  subChannels : x.subChannels = []
  tx : x.tx = {}

namespace ArConn

variable {x y z : ArConn}

theorem Same.refl (x : ArConn) : x.Same x := ⟨rfl, rfl, rfl, rfl, rfl, rfl, rfl, rfl, rfl⟩

theorem Same.trans (h : x.Same y) (h' : y.Same z) : x.Same z :=
  ⟨h'.inUse.trans h.inUse, h'.authenticated.trans h.authenticated, h'.isReplica.trans h.isReplica,
    h'.isMasterLink.trans h.isMasterLink, h'.pubsubMode.trans h.pubsubMode,
    h'.subChannels.trans h.subChannels, h'.inMulti.trans h.inMulti, h'.multiQ.trans h.multiQ,
    h'.watchKeys.trans h.watchKeys⟩

theorem Touched.same (h : x.Touched y) : x.Same y := by
  rcases h with rfl | rfl
  · exact .refl _
  · exact ⟨rfl, rfl, rfl, rfl, rfl, rfl, rfl, rfl, rfl⟩

theorem fresh_reset (x : ArConn) : x.reset.Fresh := ⟨rfl, rfl, rfl, rfl, rfl⟩

end ArConn

theorem peek_of_dict {c c' : ArCore} (h : c'.dict = c.dict) (t : Nat) (k : Bytes) : c'.peek t k = c.peek t k := by
  unfold ArCore.peek
  rw [h]

theorem wf_of_dict {c c' : ArCore} (hd : c'.dict = c.dict) (h : c.WF) : c'.WF := by
  refine ⟨hd ▸ h.dict, ?_⟩
  rw [ArCore.items, hd]
  exact h.objs

/-! ## Slots -/

theorem conn_updConn_self {core : ArCore} {c : Nat} (hc : c < core.conns.length) (f : ArConn → ArConn) :
    (core.updConn c f).conn c = f (core.conn c) := by
  unfold ArCore.conn ArCore.updConn
  simp [List.getD_eq_getElem?_getD, List.getElem?_eq_getElem hc]

theorem conn_updConn_of_ne (core : ArCore) {c i : Nat} (hi : i ≠ c) (f : ArConn → ArConn) :
    (core.updConn c f).conn i = core.conn i := by
  unfold ArCore.conn ArCore.updConn
  simp only [List.getD_eq_getElem?_getD]
  rw [List.getElem?_modify_ne _ _ (Ne.symm hi)]

/-- A slot after a change of one. -/
theorem conn_updConn_cases (core : ArCore) (c i : Nat) (f : ArConn → ArConn) :
    (core.updConn c f).conn i = core.conn i ∨ (i = c ∧ (core.updConn c f).conn i = f (core.conn i)) := by
  by_cases hi : i = c
  · subst hi
    by_cases hl : i < core.conns.length
    · exact .inr ⟨rfl, conn_updConn_self hl f⟩
    · left
      unfold ArCore.conn ArCore.updConn
      rw [List.getD_eq_getElem?_getD, List.getD_eq_getElem?_getD, List.getElem?_eq_none (by simp; omega),
        List.getElem?_eq_none (by omega)]
  · exact .inl (conn_updConn_of_ne core hi f)

theorem same_updConn (core : ArCore) (c i : Nat) {f : ArConn → ArConn} (hf : ∀ x : ArConn, x.Same (f x)) :
    (core.conn i).Same ((core.updConn c f).conn i) := by
  rcases conn_updConn_cases core c i f with h | ⟨-, h⟩
  · exact h ▸ .refl _
  · exact h ▸ hf _

/-- A call of the core tells a connection no more than that a key of it changed. -/
theorem touched_conn {c c' : ArCore} (h : ConnsTouched c.conns c'.conns) (i : Nat) :
    ArConn.Touched (c.conn i) (c'.conn i) := by
  unfold ArCore.conn
  simp only [List.getD_eq_getElem?_getD]
  by_cases hi : i < c.conns.length
  · have hi' : i < c'.conns.length := h.length_eq ▸ hi
    rw [List.getElem?_eq_getElem hi, List.getElem?_eq_getElem hi']
    exact h.get hi hi'
  · have hi' : ¬i < c'.conns.length := h.length_eq ▸ hi
    rw [List.getElem?_eq_none (by omega), List.getElem?_eq_none (by omega)]
    exact .refl _

section
variable (E : Env) (core : ArCore) (c i : Nat)

theorem same_wbufAppend (data : Bytes) : (core.conn i).Same ((core.wbufAppend E c data).1.conn i) := by
  unfold ArCore.wbufAppend
  dsimp only
  split
  · exact same_updConn _ _ _ fun x => ⟨rfl, rfl, rfl, rfl, rfl, rfl, rfl, rfl, rfl⟩
  · split
    · exact .refl _
    · exact same_updConn (core.malloc E).1 _ _ fun x => ⟨rfl, rfl, rfl, rfl, rfl, rfl, rfl, rfl, rfl⟩

theorem conn_connClose : (core.connClose c).conn i = core.conn i ∨
    (i = c ∧ (core.connClose c).conn i = (core.conn i).reset) := by
  unfold ArCore.connClose
  split
  · exact conn_updConn_cases core c i _
  · exact .inl rfl

theorem conn_flushWrites (taken : Nat) (fails : Bool) :
    (core.conn i).Same ((core.flushWrites c taken fails).1.conn i) ∨
      ((core.flushWrites c taken fails).1.conn i).Fresh := by
  unfold ArCore.flushWrites
  dsimp only
  split
  · generalize hk : core.updConn c (fun x => { x with sock := x.out, wbuf := [], woff := 0 }) = core'
    have hs : (core.conn i).Same (core'.conn i) := hk ▸
      same_updConn _ _ _ fun x => ⟨rfl, rfl, rfl, rfl, rfl, rfl, rfl, rfl, rfl⟩
    split
    · rcases conn_connClose core' c i with h | ⟨-, h⟩
      · exact .inl (h ▸ hs)
      · exact .inr (h ▸ ArConn.fresh_reset _)
    · exact .inl hs
  · exact .inl (same_updConn _ _ _ fun x => ⟨rfl, rfl, rfl, rfl, rfl, rfl, rfl, rfl, rfl⟩)

/-- Slots and places in the streams of what comes from outside apart, the cores are the same. -/
def ArCore.Beside (core core' : ArCore) : Prop :=
  { core' with conns := [], pos := {} } = { core with conns := [], pos := {} }

theorem ArCore.Beside.trans {a b d : ArCore} (h : a.Beside b) (h' : b.Beside d) : a.Beside d := Eq.trans h' h

theorem ArCore.Beside.dict {core core' : ArCore} (h : core.Beside core') : core'.dict = core.dict := by
  have heq := congrArg ArCore.dict (show { core' with conns := [], pos := {} } = _ from h)
  exact heq

theorem ArCore.Beside.srv {core core' : ArCore} (h : core.Beside core') : core'.srv = core.srv := by
  have heq := congrArg ArCore.srv (show { core' with conns := [], pos := {} } = _ from h)
  exact heq

theorem ArCore.Beside.cfg {core core' : ArCore} (h : core.Beside core') : core'.cfg = core.cfg := by
  have heq := congrArg ArCore.cfg (show { core' with conns := [], pos := {} } = _ from h)
  exact heq

theorem beside_connClose : core.Beside (core.connClose c) := by
  unfold ArCore.connClose
  split <;> rfl

theorem beside_buffer (cap : Nat) (f : ArConn → ArConn) : core.Beside (core.buffer E cap f c).1 := by
  unfold ArCore.buffer
  split
  · rfl
  · dsimp only
    split <;> rfl

theorem beside_connAlloc (fd : Int) : core.Beside (core.connAlloc E fd).1 := by
  unfold ArCore.connAlloc
  split
  · rfl
  · dsimp only
    split
    · exact (beside_buffer E _ _ _ _).trans (beside_buffer E _ _ _ _)
    · exact ((beside_buffer E _ _ _ _).trans (beside_buffer E _ _ _ _)).trans rfl

theorem beside_wbufAppend (data : Bytes) : core.Beside (core.wbufAppend E c data).1 := by
  unfold ArCore.wbufAppend
  dsimp only
  split
  · rfl
  · split <;> rfl

theorem beside_flushWrites (taken : Nat) (fails : Bool) : core.Beside (core.flushWrites c taken fails).1 := by
  unfold ArCore.flushWrites
  dsimp only
  split
  · split
    · exact beside_connClose _ c
    · rfl
  · rfl

theorem same_buffer (cap : Nat) {f : ArConn → ArConn} (hf : ∀ x : ArConn, x.Same (f x)) :
    (core.conn i).Same ((core.buffer E cap f c).1.conn i) := by
  unfold ArCore.buffer
  split
  · exact .refl _
  · dsimp only
    split
    · exact same_updConn (core.malloc E).1 _ _ hf
    · exact .refl _

theorem length_buffer (cap : Nat) (f : ArConn → ArConn) :
    (core.buffer E cap f c).1.conns.length = core.conns.length := by
  unfold ArCore.buffer
  split
  · rfl
  · dsimp only
    split
    · exact List.length_modify ..
    · rfl

/-- A slot that is taken. -/
theorem connAlloc_some {core : ArCore} {fd : Int} (h : (core.connAlloc E fd).2 = some i) :
    (core.conn i).inUse = false ∧ ∃ x now, (core.connAlloc E fd).1.conn i = { ArConn.reset x with
      sock := [], fd := fd, inUse := true, lastActiveMs := now, authenticated := core.cfg.requirepass.isEmpty } := by
  unfold ArCore.connAlloc at h ⊢
  split at h
  · cases h
  · rename_i j hj
    obtain ⟨hl, hfree, -⟩ := List.findIdx?_eq_some_iff_getElem.1 hj
    dsimp only at h ⊢
    generalize hr : core.buffer E (core.conn j).rcap (fun x => { x with rcap := bufInit }) j = r at h ⊢
    have hr' : core.Beside r.1 ∧ r.1.conns.length = core.conns.length :=
      hr ▸ ⟨beside_buffer E core j _ _, length_buffer E core j _ _⟩
    generalize hw : r.1.buffer E (r.1.conn j).wcap (fun x => { x with wcap := bufInit }) j = w at h ⊢
    have hw' : r.1.Beside w.1 ∧ w.1.conns.length = r.1.conns.length :=
      hw ▸ ⟨beside_buffer E r.1 j _ _, length_buffer E r.1 j _ _⟩
    by_cases hok : (!r.2 || !w.2) = true
    · rw [if_pos hok] at h
      cases h
    · rw [if_neg hok] at h ⊢
      obtain rfl : j = i := Option.some.inj h
      refine ⟨?_, w.1.conn j, (w.1.arNowMs E).2, ?_⟩
      · unfold ArCore.conn
        rw [List.getD_eq_getElem?_getD, List.getElem?_eq_getElem hl]
        simpa using hfree
      · have hcfg : (w.1.arNowMs E).1.cfg = core.cfg := (hr'.1.trans hw'.1).cfg
        have hlen : j < (w.1.arNowMs E).1.conns.length := by
          show j < w.1.conns.length
          rw [hw'.2, hr'.2]
          exact hl
        rw [conn_updConn_self hlen, hcfg]
        rfl

/-- The slots after one has been looked for. -/
theorem conn_connAlloc (fd : Int) : (core.conn i).Same ((core.connAlloc E fd).1.conn i) ∨
    ((core.connAlloc E fd).1.conn i).Fresh := by
  unfold ArCore.connAlloc
  split
  · exact .inl (.refl _)
  · rename_i j _
    dsimp only
    generalize hr : core.buffer E (core.conn j).rcap (fun x => { x with rcap := bufInit }) j = r
    have h₁ : (core.conn i).Same (r.1.conn i) := hr ▸ same_buffer E core j i _ fun x =>
      ⟨rfl, rfl, rfl, rfl, rfl, rfl, rfl, rfl, rfl⟩
    generalize hw : r.1.buffer E (r.1.conn j).wcap (fun x => { x with wcap := bufInit }) j = w
    have h₂ : (r.1.conn i).Same (w.1.conn i) := hw ▸ same_buffer E r.1 j i _ fun x =>
      ⟨rfl, rfl, rfl, rfl, rfl, rfl, rfl, rfl, rfl⟩
    split
    · exact .inl (h₁.trans h₂)
    · rcases conn_updConn_cases (w.1.arNowMs E).1 j i (fun x => { x.reset with
          sock := [], fd := fd, inUse := true, lastActiveMs := (w.1.arNowMs E).2
          authenticated := (w.1.arNowMs E).1.cfg.requirepass.isEmpty }) with h | ⟨-, h⟩
      · exact .inl (h ▸ h₁.trans h₂)
      · exact .inr (h ▸ ⟨rfl, rfl, rfl, rfl, rfl⟩)

end

/-! ## Effects -/

namespace Eff

/-- The connection an effect is about. -/
def sets : Eff → Option Nat
  | setTx c _ | setSubs c _ _ | authenticate c | becomeReplica c | becomeMasterLink c => some c
  | _ => none

variable {e : Eff} (O : Outside) (w : World)

theorem core_wait : (Eff.wait.perform O w).1.core = w.core := by
  simp only [perform]
  split
  · rfl
  · split <;> rfl

theorem core_writeFile (path data : Bytes) : ((Eff.writeFile path data).perform O w).1.core = w.core := by
  simp only [perform]
  split <;> rfl

/-- Whether an effect changes what the core has beside the connections. -/
def isCore : Eff → Bool
  | op _ | setSrv _ | setCfg _ | setStats _ => true
  | _ => false

/-- **The others change only slots.** -/
theorem perform_beside (he : e.isCore = false) : w.core.Beside (e.perform O w).1.core := by
  cases e with
  | op o | setSrv f | setCfg f | setStats f => cases he
  | append c data => exact beside_wbufAppend ..
  | flush c => exact beside_flushWrites ..
  | close c => exact beside_connClose ..
  | connAlloc fd => exact beside_connAlloc ..
  | wait => rw [core_wait]; rfl
  | writeFile path data => rw [core_writeFile]; rfl
  | _ => rfl

/-- Only a call of the core changes the dictionary. -/
theorem perform_dict (hop : ∀ o, e ≠ op o) : (e.perform O w).1.core.dict = w.core.dict := by
  cases he : e.isCore with
  | false => exact (perform_beside O w he).dict
  | true =>
    cases e with
    | op o => exact absurd rfl (hop o)
    | setSrv f | setCfg f | setStats f => rfl
    | _ => cases he

/-- **A slot after an effect**: the same connection, unless the effect is about it, or a fresh slot. -/
theorem conn_perform (hop : ∀ o, e ≠ op o) (i : Nat) : (w.conn i).Same ((e.perform O w).1.conn i) ∨
    e.sets = some i ∨ ((e.perform O w).1.conn i).Fresh := by
  have hupd : ∀ c (f : ArConn → ArConn), i ≠ c → (w.conn i).Same ((w.core.updConn c f).conn i) := fun c f hi => by
    rw [conn_updConn_of_ne _ hi]
    exact .refl _
  cases e with
  | op o => exact absurd rfl (hop o)
  | append c data => exact .inl (same_wbufAppend _ _ c i data)
  | flush c => exact (conn_flushWrites _ c i _ _).imp_right .inr
  | close c =>
    rcases conn_connClose w.core c i with h | ⟨-, h⟩
    · exact .inl (show (w.conn i).Same ((w.core.connClose c).conn i) from h ▸ .refl _)
    · exact .inr (.inr (show ((w.core.connClose c).conn i).Fresh from h ▸ ArConn.fresh_reset _))
  | connAlloc fd => exact (conn_connAlloc _ _ i fd).imp_right .inr
  | setTx c f | setSubs c mode subs | authenticate c | becomeReplica c | becomeMasterLink c =>
    by_cases hi : i = c
    · exact .inr (.inl (hi ▸ rfl))
    · exact .inl (hupd c _ hi)
  | noteLastCmd c cmd | setName c name | closeSoon c =>
    exact .inl (same_updConn _ _ _ fun x => ⟨rfl, rfl, rfl, rfl, rfl, rfl, rfl, rfl, rfl⟩)
  | wait => exact .inl (show (w.conn i).Same ((Eff.wait.perform O w).1.core.conn i) from core_wait O w ▸ .refl _)
  | writeFile path data =>
    exact .inl (show (w.conn i).Same (((Eff.writeFile path data).perform O w).1.core.conn i) from
      core_writeFile O w path data ▸ .refl _)
  | _ => exact .inl (.refl _)

end Eff

/-- What the effects of some code keep, the code keeps. -/
theorem Code.exec_invariant {α : Type} {P : Eff → Prop} {I : World → Prop} {O : Outside} {p : Code α} {w : World}
    (hp : p.Only P) (hI : ∀ e w, P e → I w → I (e.perform O w).1) (hw : I w) : I (p.exec O w).1 :=
  hp.run_invariant hI hw

/-- Worlds that the effects of some code do not tell apart, the code does not. -/
theorem Code.exec_pair {α : Type} {P : Eff → Prop} {R : World → World → Prop} {O : Outside} {p : Code α}
    {w w' : World} (hp : p.Only P) (hR : ∀ e w w', P e → R w w' →
      R (e.perform O w).1 (e.perform O w').1 ∧ (e.perform O w).2 = (e.perform O w').2) (hw : R w w') :
    R (p.exec O w).1 (p.exec O w').1 ∧ (p.exec O w).2 = (p.exec O w').2 := hp.run_pair hR hw

/-! ## A steady world -/

/-- A world at one time whose memory lasts and whose chance is even-handed. -/
def Outside.steady (t : Nat) : Outside :=
  { env := fun _ => .steady t, secs := fun _ => t / 1000, write := fun _ => (0, false), grants := fun _ => true
    socket := fun _ => none, fork := fun _ => none, wait := fun _ => none, stack := fun _ _ => 0
    plugin := fun _ => none, denyPlugin := none }

/-- A C library that knows the numbers `0`, `1` and `2`. -/
@[reducible] def smallLibc : Libc where
  strtod s :=
    if s.take 1 = lit "1" then (⟨0x3FF0000000000000#64⟩, 1)
    else if s.take 1 = lit "2" then (⟨0x4000000000000000#64⟩, 1)
    else if s.take 1 = lit "0" then (⟨0#64⟩, 1)
    else (⟨0#64⟩, 0)
  fmt17g x :=
    if x.bits = 0x3FF0000000000000#64 then lit "1"
    else if x.bits = 0x4000000000000000#64 then lit "2"
    else lit "0"

end AuraRedis
