import AuraRedis.Server.Proof.Frame
import AuraRedis.Server.Typed

/-!
# What a reply is

`Writes c p data`: when there is memory, the code `p` puts `data` behind what the connection `c` is to be
sent, does nothing else and does not fail. The rules follow the `reply_` functions.
-/

set_option autoImplicit false

namespace AuraRedis

open Code

/-- Only the write buffer of a connection is longer. -/
structure Appended (c : Nat) (data : Bytes) (w w' : World) : Prop where
  wbuf : (w'.conn c).wbuf = (w.conn c).wbuf ++ data
  slots : w'.core.conns.length = w.core.conns.length
  others : ∀ i, i ≠ c → w'.conn i = w.conn i
  core : { w'.core with conns := [], pos := {} } = { w.core with conns := [], pos := {} }
  disk : w'.disk = w.disk

/-- The code appends `data`, and nothing else. -/
def Writes (c : Nat) (p : Code Unit) (data : Bytes) : Prop :=
  ∀ (O : Outside) (w : World), O.AllocOk → c < w.core.conns.length →
    ∃ w', p.exec O w = (w', some ()) ∧ Appended c data w w'

/-- The code, in this world, puts `data` behind what the connection is to be sent. -/
def Replies (O : Outside) (w : World) (c : Nat) (p : Code Unit) (data : Bytes) : Prop :=
  ∃ w', p.exec O w = (w', some ()) ∧ (w'.conn c).wbuf = (w.conn c).wbuf ++ data

namespace Appended

variable {c : Nat} {data data' : Bytes} {w w' w'' : World}

theorem refl (c : Nat) (w : World) : Appended c [] w w :=
  ⟨(List.append_nil _).symm, rfl, fun _ _ => rfl, rfl, rfl⟩

theorem trans (h : Appended c data w w') (h' : Appended c data' w' w'') :
    Appended c (data ++ data') w w'' where
  wbuf := by rw [h'.wbuf, h.wbuf, List.append_assoc]
  slots := h'.slots.trans h.slots
  others i hi := (h'.others i hi).trans (h.others i hi)
  core := h'.core.trans h.core
  disk := h'.disk.trans h.disk

end Appended

theorem ArConn.Touched.wbuf {x y : ArConn} (h : x.Touched y) : y.wbuf = x.wbuf := by
  rcases h with rfl | rfl <;> rfl

/-- `wbuf_append`, when there is memory. -/
theorem wbufAppend_of_allocOk {E : Env} (hE : E.AllocOk) (core : ArCore) (c : Nat) (data : Bytes) :
    ∃ (p : Pos) (g : Nat → Nat), core.wbufAppend E c data =
      (({ core with pos := p } : ArCore).updConn c fun x =>
        { x with wcap := g x.wcap, wbuf := x.wbuf ++ data }, true) := by
  unfold ArCore.wbufAppend
  dsimp only
  split
  · exact ⟨core.pos, id, rfl⟩
  · simp only [ArCore.malloc, hE core.pos.alloc, Bool.not_true, Bool.false_eq_true, if_false]
    exact ⟨_, fun _ => _, rfl⟩

namespace Writes

variable {c : Nat} {p q : Code Unit} {data data' : Bytes}

theorem nil (c : Nat) : Writes c (pure ()) [] := fun _ w _ _ => ⟨w, rfl, .refl c w⟩

theorem append (c : Nat) (data : Bytes) : Writes c (wbufAppend c data) data := by
  intro O w hO hc
  obtain ⟨p, g, he⟩ := wbufAppend_of_allocOk (hO w.calls) w.core c data
  refine ⟨(Eff.perform O (.append c data) w).1, ?_, ?_⟩
  · unfold wbufAppend Code.check Code.eff Code.exec
    rw [Prog.perform_bind, Prog.run_step]
    simp only [Eff.perform, he]
    rfl
  · simp only [Eff.perform, he]
    refine ⟨?_, List.length_modify .., fun i hi => ?_, rfl, rfl⟩
    · unfold World.conn
      rw [conn_updConn_self (by exact hc)]
      rfl
    · unfold World.conn
      rw [conn_updConn_of_ne _ hi]
      rfl

theorem bind (hp : Writes c p data) (hq : Writes c q data') :
    Writes c (p >>= fun _ => q) (data ++ data') := by
  intro O w hO hc
  obtain ⟨w₁, h₁, ha₁⟩ := hp O w hO hc
  obtain ⟨w₂, h₂, ha₂⟩ := hq O w₁ hO (by rwa [ha₁.slots])
  refine ⟨w₂, ?_, ha₁.trans ha₂⟩
  unfold Code.exec at h₁ h₂ ⊢
  rw [Prog.run_bind, h₁]
  exact h₂

theorem each {α : Type} {f : α → Code Unit} {d : α → Bytes} (hf : ∀ a, Writes c (f a) (d a)) (as : List α) :
    Writes c (Prog.each f as) (as.flatMap d) := by
  induction as with
  | nil => exact .nil c
  | cons a as ih => exact (hf a).bind ih

/-- A reply to what a call of the core answers. -/
theorem after_op {O : Outside} {w : World} {t : Nat} (op : ArOp) {k : op.Ans → Code Unit} (hO : O.AllocOk)
    (hE : (O.env w.calls).Frozen t) (hwf : w.core.WF) (hop : op.isKnob = false)
    (hc : c < w.core.conns.length) (hk : Writes c (k (op.run (O.env w.calls) w.core).2) data) :
    ∃ w', (call op >>= k).exec O w = (w', some ()) ∧ (w'.conn c).wbuf = (w.conn c).wbuf ++ data := by
  have hconns := (op.sound hE hwf hop).evolves.conns
  obtain ⟨w', hrun, happ⟩ := hk O (Eff.perform O (.op op) w).1 hO (hconns.length_eq ▸ hc)
  refine ⟨w', ?_, ?_⟩
  · unfold Code.exec Code.call at *
    rw [Prog.perform_bind, Prog.run_step]
    exact hrun
  · have hw : ((Eff.perform O (.op op) w).1.conn c).wbuf = (w.conn c).wbuf := (touched_conn hconns c).wbuf
    rw [happ.wbuf, hw]

end Writes

/-! ## Single replies -/

/-- A value, or the null bulk. -/
def valueReply : Option Bytes → Bytes
  | none => 36 :: (Resp.nullLen ++ Resp.crlf)
  | some v => Resp.bulk v

def intReply (n : Int) : Bytes := 58 :: (Decimal.ofInt n ++ Resp.crlf)

theorem Writes.value {cid : Nat} (o : Option Bytes) : Writes cid (replyValue cid ((o.map .found).getD .missing)) (valueReply o) := by
  cases o with
  | none => exact .append cid _
  | some v => exact .append cid _

/-- The count of an array is read back from its header. -/
theorem arrayHdr_append_inj {z : Int} {n : Nat} {s s' : Bytes}
    (h : Resp.arrayHdr z ++ s = Resp.arrayHdr n ++ s') : z = n := by
  have hcut : ∀ (k : Nat) (r : Bytes), Decimal.span (Decimal.ofNat k ++ Resp.crlf ++ r) = (Decimal.ofNat k, Resp.crlf ++ r) := by
    intro k r
    rw [List.append_assoc]
    refine Decimal.span_append (fun b hb => Decimal.isDigit_ofNat hb) fun b hb => ?_
    cases hb
    rfl
  have htail : Decimal.ofInt z ++ Resp.crlf ++ s = Decimal.ofNat n ++ Resp.crlf ++ s' := by
    have := (List.cons.inj h).2
    rwa [Decimal.ofInt_natCast] at this
  have hspan := congrArg (fun u => (Decimal.span u).1) htail
  simp only [hcut] at hspan
  unfold Decimal.ofInt at hspan
  split at hspan
  · -- a sign is no digit
    exact absurd hspan.symm (Decimal.ofNat_ne_nil n)
  · simp only [hcut] at hspan
    have := Decimal.ofNat_injective hspan
    omega

/-- A count that fits an `int`. -/
theorem int32_eq_iff (n : Nat) : int32 n = n ↔ n < 2 ^ 31 := by
  unfold int32
  rw [Int.bmod_def]
  omega

/-! ## A key between two commands -/

/-- A world in which a key has this slot, under the noop kernel. -/
structure HasSlot (w : World) (t : Nat) (key : Bytes) (s : Option Slot) : Prop where
  wf : w.core.WF
  noop : w.core.cfg.evict = .noop
  slot : w.core.view t key = s

namespace HasSlot

variable {w w' : World} {t : Nat} {key data : Bytes} {s : Option Slot}

/-- What a connection is sent is no matter of the key. -/
theorem appended {cid : Nat} (h : HasSlot w t key s) (ha : Appended cid data w w') : HasSlot w' t key s := by
  have hb : w.core.Beside w'.core := ha.core
  refine ⟨wf_of_dict hb.dict h.wf, (congrArg Cfg.evict hb.cfg).trans h.noop, ?_⟩
  unfold ArCore.view
  rw [peek_of_dict hb.dict]
  exact h.slot

/-- A world with the core of a run. -/
theorem of_run {c : ArCore} {t' : Nat} (hv : c.view t key = s) (hs : Store.alive t' s = s) (hwf : c.WF)
    (hn : c.cfg.evict = .noop) (hle : t ≤ t') (hd : w.core.dict = c.dict) (hg : w.core.cfg = c.cfg) :
    HasSlot w t' key s := by
  refine ⟨wf_of_dict hd hwf, (congrArg Cfg.evict hg).trans hn, ?_⟩
  unfold ArCore.view
  rw [peek_of_dict hd]
  show c.view t' key = s
  rw [← view_at hwf hle, Store.at_, hv, hs]

end HasSlot

end AuraRedis
