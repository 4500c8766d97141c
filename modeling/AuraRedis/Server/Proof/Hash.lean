import AuraRedis.Core.Proof.Fields
import AuraRedis.Server.Proof.Writes

/-!
# Hashes and their commands

What the commands on a hash show of it after a run of `HSET`, `HDEL` and `HINCRBY`: the finite map that these make
(`hash_refines`). Only the header of `HGETALL`, whose count is an `int`, needs the map to be small.
-/

set_option autoImplicit false

namespace AuraRedis

open Code
open ArCore (Typed)

/-! ## What the commands answer -/

section
variable {E : Env} {t : Nat} {c : ArCore} {key : Bytes} {m : FieldMap}

theorem readHash_hashSlot {α : Type} (f : FieldMap → Typed α) :
    Spec.readHash f (hashSlot m) = (hashSlot m, if m = ∅ then .missing else f m) := by
  unfold Spec.readHash hashSlot
  split <;> rfl

theorem hset_of_view (hE : E.Frozen t) (ha : E.AllocOk) (hwf : c.WF) (hn : c.cfg.evict = .noop)
    (hv : c.view t key = hashSlot m) (pairs : List (Bytes × Bytes)) :
    (c.arHashHset E key pairs).2 = .found (m.missing pairs).card :=
  (hashSlot_of_step ((ArOp.sound hE hwf (.arHashHset key pairs) rfl).means ha hn) hv (hset_hashSlot pairs)).2

theorem hdel_of_view (hE : E.Frozen t) (ha : E.AllocOk) (hwf : c.WF) (hn : c.cfg.evict = .noop)
    (hv : c.view t key = hashSlot m) (fields : List Bytes) :
    (c.arHashHdel E key fields).2 = if m = ∅ then .missing else .found (m.present fields).card :=
  (hashSlot_of_step ((ArOp.sound hE hwf (.arHashHdel key fields) rfl).means ha hn) hv (hdel_hashSlot fields)).2

theorem hincrby_of_view (hE : E.Frozen t) (ha : E.AllocOk) (hwf : c.WF) (hn : c.cfg.evict = .noop)
    (hv : c.view t key = hashSlot m) {field : Bytes} {incr : Int} (h : m.InRange field incr) :
    (c.arHashHincrby E key field incr).2 = m.sum field incr :=
  (hashSlot_of_step ((ArOp.sound hE hwf (.arHashHincrby key field incr) rfl).means ha hn) hv (hincrby_hashSlot h)).2

theorem hget_of_view (hE : E.Frozen t) (ha : E.AllocOk) (hwf : c.WF) (hn : c.cfg.evict = .noop)
    (hv : c.view t key = hashSlot m) (field : Bytes) :
    (c.arHashHget E key field).2 = ((m.lookup field).map .found).getD .missing := by
  have hans := (hashSlot_of_step ((ArOp.sound hE hwf (.arHashHget key field) rfl).means ha hn) hv
    (readHash_hashSlot _)).2
  refine hans.trans ?_
  split
  · next h => rw [h, Finmap.lookup_empty]; rfl
  · rfl

theorem hexists_of_view (hE : E.Frozen t) (ha : E.AllocOk) (hwf : c.WF) (hn : c.cfg.evict = .noop)
    (hv : c.view t key = hashSlot m) (field : Bytes) :
    (c.arHashHexists E key field).2 = if m = ∅ then .missing else .found (m.lookup field).isSome :=
  (hashSlot_of_step ((ArOp.sound hE hwf (.arHashHexists key field) rfl).means ha hn) hv (readHash_hashSlot _)).2

theorem hlen_of_view (hE : E.Frozen t) (ha : E.AllocOk) (hwf : c.WF) (hn : c.cfg.evict = .noop)
    (hv : c.view t key = hashSlot m) :
    (c.arHashHlen E key).2 = if m = ∅ then .missing else .found m.entries.card :=
  (hashSlot_of_step ((ArOp.sound hE hwf (.arHashHlen key) rfl).means ha hn) hv (readHash_hashSlot _)).2

/-- The table itself. -/
theorem hashGet_of_view (hE : E.Frozen t) (hwf : c.WF) (hv : c.view t key = hashSlot m) :
    if m = ∅ then (c.readHash E key id).2 = .missing
    else ∃ h, (c.readHash E key id).2 = .found h ∧ h.WF ∧ h.fields = m := by
  unfold ArCore.readHash
  split
  · next hm =>
    have hp : c.peek t key = none := peek_of_empty (hm ▸ hv)
    rcases typed_cases (B := .plain) hE hwf key .hash with ⟨hg, -⟩ | ⟨r, -, -, -, hr, -⟩ | ⟨r, -, -, -, -, hr, -⟩
    · simp only [hg]
    · cases hr.symm.trans hp
    · cases hr.symm.trans hp
  · next hm =>
    obtain ⟨i, h, hp, ho, hw, hf⟩ := table_of_view hwf hv hm
    obtain ⟨r, hg, -, -, -, rfl⟩ := typed_found hE hwf .hash hp (by rw [ho]; rfl)
    have hobj : r.e.obj = .hash h := ho
    refine ⟨h, ?_, hw, hf⟩
    simp only [hg, hobj]
    rfl

end

/-! ## What the commands reply -/

/-- A world in which a key has these fields. -/
abbrev HasFields (w : World) (t : Nat) (key : Bytes) (m : FieldMap) : Prop := HasSlot w t key (hashSlot m)

/-- Fields and their values. -/
def fieldsReply (l : List (Bytes × Bytes)) : Bytes := l.flatMap fun f => Resp.bulk f.1 ++ Resp.bulk f.2

/-- A reply with the fields of a map and their values, each once. -/
def ShowsMap (m : FieldMap) (reply : Bytes) : Prop :=
  ∃ l, Lists m l ∧ reply = Resp.arrayHdr (2 * l.length : Nat) ++ fieldsReply l

section
variable {O : Outside} {w w' : World} {t cid : Nat} {key : Bytes} {m : FieldMap}

theorem HasSlot.hget (h : HasFields w t key m) (hO : O.AllocOk) (hE : (O.env w.calls).Frozen t)
    (hc : cid < w.core.conns.length) (name field : Bytes) :
    Replies O w cid (Dispatch.hget cid [name, key, field]) (valueReply (m.lookup field)) := by
  refine Writes.after_op (.arHashHget key field) (k := replyValue cid) hO hE h.wf rfl hc ?_
  rw [show (ArOp.run (O.env w.calls) w.core (.arHashHget key field)).2 = _ from
    hget_of_view hE (hO w.calls) h.wf h.noop h.slot field]
  exact .value _

theorem HasSlot.hexists (h : HasFields w t key m) (hO : O.AllocOk) (hE : (O.env w.calls).Frozen t)
    (hc : cid < w.core.conns.length) (name field : Bytes) :
    Replies O w cid (Dispatch.hexists cid [name, key, field]) (intReply (if field ∈ m then 1 else 0)) := by
  refine Writes.after_op (.arHashHexists key field) hO hE h.wf rfl hc ?_
  rw [show (ArOp.run (O.env w.calls) w.core (.arHashHexists key field)).2 = _ from
    hexists_of_view hE (hO w.calls) h.wf h.noop h.slot field]
  by_cases hm : m = ∅
  · rw [if_pos hm, if_neg (hm ▸ Finmap.notMem_empty)]
    exact .append cid _
  · rw [if_neg hm]
    by_cases hf : field ∈ m
    · rw [if_pos hf, Finmap.lookup_isSome.2 hf]
      exact .append cid _
    · rw [if_neg hf, Finmap.lookup_eq_none.2 hf]
      exact .append cid _

theorem HasSlot.hlen (h : HasFields w t key m) (hO : O.AllocOk) (hE : (O.env w.calls).Frozen t)
    (hc : cid < w.core.conns.length) (name : Bytes) :
    Replies O w cid (Dispatch.hlen cid [name, key]) (intReply m.entries.card) := by
  refine Writes.after_op (.arHashHlen key) (k := replyCount cid) hO hE h.wf rfl hc ?_
  rw [show (ArOp.run (O.env w.calls) w.core (.arHashHlen key)).2 = _ from
    hlen_of_view hE (hO w.calls) h.wf h.noop h.slot]
  by_cases hm : m = ∅
  · rw [if_pos hm, FieldMap.card_eq_zero.2 hm]
    exact .append cid _
  · rw [if_neg hm]
    exact .append cid _

/-- A read of the hash leaves it, and what the connection is to be sent. -/
theorem HasSlot.asked (h : HasFields w t key m) (op : ArOp) (cid : Nat) (hO : O.AllocOk) (hE : (O.env w.calls).Frozen t)
    (hop : op.OnHash key) (hk : op.isKnob = false) (hm : op.fields key m = m)
    (hr : ∀ field incr, op ≠ .arHashHincrby key field incr) :
    HasFields (Eff.perform O (.op op) w).1 t key m ∧
      (Eff.perform O (.op op) w).1.core.conns.length = w.core.conns.length ∧
      ((Eff.perform O (.op op) w).1.conn cid).wbuf = (w.conn cid).wbuf := by
  have hslot := hash_call (x := ⟨O.env w.calls, t, op, hE⟩) h.wf h.noop (hO w.calls) hop
    (fun field incr he => absurd he (hr field incr)) h.slot
  have hnoop := (means_run (x := ⟨O.env w.calls, t, op, hE⟩) h.wf h.noop (hO w.calls) hop.setsKernel).2
  have hconns := (ArOp.sound hE h.wf op hk).evolves.conns
  rw [hm] at hslot
  exact ⟨⟨wf_run h.wf ⟨O.env w.calls, t, op, hE⟩, hnoop, hslot⟩, hconns.length_eq.symm, (touched_conn hconns cid).wbuf⟩

/-- One field of `HMGET`. -/
theorem HasSlot.hmgetField (h : HasFields w t key m) (hO : O.AllocOk) (hE : (O.env w.calls).Frozen t)
    (hc : cid < w.core.conns.length) (field : Bytes) :
    ∃ w', (Dispatch.hmgetField cid key field).exec O w = (w', some ()) ∧
      (w'.conn cid).wbuf = (w.conn cid).wbuf ++ valueReply (m.lookup field) ∧
      w'.core.conns.length = w.core.conns.length ∧ HasFields w' t key m := by
  obtain ⟨h₁, hlen, hbuf⟩ := h.asked (.arHashHget key field) cid hO hE trivial rfl rfl
    fun _ _ he => by cases he
  have hans := hget_of_view hE (hO w.calls) h.wf h.noop h.slot field
  unfold Dispatch.hmgetField
  rw [exec_call, show (ArOp.run (O.env w.calls) w.core (.arHashHget key field)).2 = _ from hans]
  cases m.lookup field with
  | none =>
    obtain ⟨w₂, hrun, happ⟩ := Writes.append cid (valueReply none) O _ hO (hlen ▸ hc)
    exact ⟨w₂, hrun, happ.wbuf.trans (by rw [hbuf]), happ.slots.trans hlen, h₁.appended happ⟩
  | some v =>
    obtain ⟨w₂, hrun, happ⟩ := Writes.append cid (valueReply (some v)) O _ hO (hlen ▸ hc)
    exact ⟨w₂, hrun, happ.wbuf.trans (by rw [hbuf]), happ.slots.trans hlen, h₁.appended happ⟩

/-- The fields that `HMGET` asks for, one after the other. -/
theorem HasSlot.each_hmgetField (h : HasFields w t key m) (hO : O.AllocOk) (hE : ∀ n, (O.env n).Frozen t)
    (hc : cid < w.core.conns.length) (fields : List Bytes) :
    Replies O w cid (Prog.each (Dispatch.hmgetField cid key) fields)
      (fields.flatMap fun field => valueReply (m.lookup field)) := by
  induction fields generalizing w with
  | nil => exact ⟨w, rfl, (List.append_nil _).symm⟩
  | cons field fields ih =>
    obtain ⟨w₁, hrun, hbuf, hlen, h₁⟩ := h.hmgetField hO (hE w.calls) hc field
    obtain ⟨w₂, hrest, hbuf₂⟩ := ih h₁ (hlen ▸ hc)
    refine ⟨w₂, (exec_seq hrun).trans hrest, ?_⟩
    rw [hbuf₂, hbuf, List.flatMap_cons, List.append_assoc]

/-- The fields of a map, none of which is there. -/
theorem Writes.each_null (cid : Nat) (fields : List Bytes) :
    Writes cid (Prog.each (fun _ => replyNullBulk cid) fields)
      (fields.flatMap fun field => valueReply (Finmap.lookup field (∅ : FieldMap))) :=
  .each (fun field => by rw [Finmap.lookup_empty]; exact .append cid _) fields

theorem HasSlot.hmget (h : HasFields w t key m) (hO : O.AllocOk) (hE : ∀ n, (O.env n).Frozen t)
    (hc : cid < w.core.conns.length) (name : Bytes) {fields : List Bytes} (hf : fields ≠ []) :
    Replies O w cid (Dispatch.hmget cid (name :: key :: fields))
      (Resp.arrayHdr fields.length ++ fields.flatMap fun field => valueReply (m.lookup field)) := by
  have hlen : ¬(name :: key :: fields).length < 3 := by
    have := List.length_pos_iff.2 hf
    simp only [List.length_cons]
    omega
  have hargc : (((name :: key :: fields).length : Nat) : Int) - 2 = fields.length := by
    simp only [List.length_cons]
    omega
  have hget := hashGet_of_view (hE w.calls) h.wf h.slot
  obtain ⟨h₁, hsame, hbuf⟩ := h.asked (.hashGet key) cid hO (hE w.calls) trivial rfl rfl
    fun _ _ he => by cases he
  have hhdr := Writes.append cid (Resp.arrayHdr fields.length) O (Eff.perform O (.op (.hashGet key)) w).1 hO
    (hsame ▸ hc)
  obtain ⟨w₂, hrun, happ⟩ := hhdr
  unfold Dispatch.hmget Replies
  rw [if_neg hlen, hargc, show arg (name :: key :: fields) 1 = key from rfl, exec_call]
  by_cases hm : m = ∅
  · rw [if_pos hm] at hget
    obtain ⟨w₃, hnull, happ₃⟩ := Writes.each_null cid fields O w₂ hO (by rw [happ.slots, hsame]; exact hc)
    rw [show (ArOp.run (O.env w.calls) w.core (.hashGet key)).2 = _ from hget, hm]
    refine ⟨w₃, (exec_seq hrun).trans hnull, ?_⟩
    rw [happ₃.wbuf, happ.wbuf, hbuf, List.append_assoc]
  · rw [if_neg hm] at hget
    obtain ⟨tab, hfound, -⟩ := hget
    obtain ⟨w₃, hrest, hbuf₃⟩ := (h₁.appended happ).each_hmgetField hO hE (by rw [happ.slots, hsame]; exact hc) fields
    rw [show (ArOp.run (O.env w.calls) w.core (.hashGet key)).2 = _ from hfound]
    refine ⟨w₃, (exec_seq hrun).trans hrest, ?_⟩
    rw [hbuf₃, happ.wbuf, hbuf, List.append_assoc]

theorem Writes.field (f : Bytes × Bytes) :
    Writes cid (Dispatch.replyField cid f) (Resp.bulk f.1 ++ Resp.bulk f.2) :=
  (Writes.append cid _).bind (.append cid _)

theorem Lists.length_eq {l : List (Bytes × Bytes)} (h : Lists m l) : l.length = m.entries.card := by
  rw [← h, Multiset.coe_card, List.length_map]

/-- **`HGETALL`** shows the map, when its count fits an `int`. -/
theorem HasSlot.hgetall (h : HasFields w t key m) (hO : O.AllocOk) (hE : (O.env w.calls).Frozen t)
    (hc : cid < w.core.conns.length) (name : Bytes) :
    ∃ l, Lists m l ∧ Replies O w cid (Dispatch.hgetall cid [name, key])
      (Resp.arrayHdr (int32 (2 * l.length : Nat)) ++ fieldsReply l) := by
  have hget := hashGet_of_view hE h.wf h.slot
  by_cases hm : m = ∅
  · rw [if_pos hm] at hget
    subst hm
    refine ⟨[], rfl, Writes.after_op (.hashGet key) hO hE h.wf rfl hc ?_⟩
    rw [show (ArOp.run (O.env w.calls) w.core (.hashGet key)).2 = _ from hget]
    exact .append cid _
  · rw [if_neg hm] at hget
    obtain ⟨tab, hfound, hw, rfl⟩ := hget
    have hlen : (tab.nfields : Int) * 2 = (2 * tab.buckets.flatten.length : Nat) := by
      have hcard : tab.nfields = tab.buckets.flatten.length := hw.nfields
      omega
    refine ⟨tab.buckets.flatten, hw.lists, Writes.after_op (.hashGet key) hO hE h.wf rfl hc ?_⟩
    rw [show (ArOp.run (O.env w.calls) w.core (.hashGet key)).2 = _ from hfound, ← hlen]
    exact (Writes.append cid _).bind (.each Writes.field _)

theorem showsMap_iff {l : List (Bytes × Bytes)} (h : Lists m l) :
    ShowsMap m (Resp.arrayHdr (int32 (2 * l.length : Nat)) ++ fieldsReply l) ↔ m.entries.card < 2 ^ 30 := by
  rw [← h.length_eq]
  constructor
  · rintro ⟨l', hl', he⟩
    have hcount := arrayHdr_append_inj he
    rw [hl'.length_eq, ← h.length_eq, int32_eq_iff] at hcount
    omega
  · intro hlt
    refine ⟨l, h, ?_⟩
    rw [(int32_eq_iff _).2 (by omega)]

end

/-! ## After a run -/

/-- A key of the core is a map: it is there exactly when the map is not empty, its table holds each field once, in the
chain of its hash, and counts them, and the writes answer by the map. -/
structure HoldsFields (c : ArCore) (t : Nat) (key : Bytes) (m : FieldMap) : Prop where
  gone : c.peek t key = none ↔ m = ∅
  table : m ≠ ∅ → ∃ i h, c.peek t key = some i ∧ i.obj = .hash h ∧ i.expireAt = 0 ∧ h.WF ∧ h.fields = m ∧
    h.nfields = m.entries.card
  hset : ∀ E : Env, E.Frozen t → E.AllocOk → ∀ pairs, (c.arHashHset E key pairs).2 = .found (m.missing pairs).card
  hdel : ∀ E : Env, E.Frozen t → E.AllocOk → ∀ fields,
    (c.arHashHdel E key fields).2 = if m = ∅ then .missing else .found (m.present fields).card
  hincrby : ∀ E : Env, E.Frozen t → E.AllocOk → ∀ field incr, m.InRange field incr →
    (c.arHashHincrby E key field incr).2 = m.sum field incr

/-- The reads of a hash reply by the map. -/
structure ShowsFields (O : Outside) (w : World) (cid : Nat) (key : Bytes) (m : FieldMap) : Prop where
  hget : ∀ name field, Replies O w cid (Dispatch.hget cid [name, key, field]) (valueReply (m.lookup field))
  hexists : ∀ name field,
    Replies O w cid (Dispatch.hexists cid [name, key, field]) (intReply (if field ∈ m then 1 else 0))
  hlen : ∀ name, Replies O w cid (Dispatch.hlen cid [name, key]) (intReply m.entries.card)
  hmget : ∀ name fields, fields ≠ [] → Replies O w cid (Dispatch.hmget cid (name :: key :: fields))
    (Resp.arrayHdr fields.length ++ fields.flatMap fun field => valueReply (m.lookup field))

section
variable {c : ArCore} {key : Bytes} {m : FieldMap} {t : Nat} {calls : List Call}

theorem holdsFields_of_view (hwf : c.WF) (hn : c.cfg.evict = .noop) (hv : c.view t key = hashSlot m) :
    HoldsFields c t key m where
  gone := by
    constructor
    · intro hp
      by_contra hm
      obtain ⟨i, -, hi, -⟩ := table_of_view hwf hv hm
      cases hp.symm.trans hi
    · rintro rfl
      exact peek_of_empty hv
  table hm := by
    obtain ⟨i, h, hp, ho, hw, hf⟩ := table_of_view hwf hv hm
    refine ⟨i, h, hp, ho, ?_, hw, hf, by rw [← hf, hw.card_fields]⟩
    unfold ArCore.view hashSlot at hv
    rw [hp, if_neg hm] at hv
    exact congrArg Prod.snd (Option.some.inj hv)
  hset E hE ha := hset_of_view hE ha hwf hn hv
  hdel E hE ha := hdel_of_view hE ha hwf hn hv
  hincrby E hE ha field incr := hincrby_of_view hE ha hwf hn hv

/-- **A hash is a finite map**: after any run of `HSET`, `HDEL` and `HINCRBY` on a key that is a map or not there,
its table is the map that these make, the commands answer and reply by it, and `HGETALL` shows it exactly when it has
fewer than `2 ^ 30` fields. -/
theorem hash_refines (hc : ArCore.Reachable c) (hn : c.cfg.evict = .noop) (hk : c.view t key = hashSlot m)
    (ha : ∀ x ∈ calls, x.E.AllocOk ∧ x.op.OnHash key) (hr : IncrsFit key m calls)
    (ht : (t :: calls.map Call.t).Pairwise (· ≤ ·)) :
    ∀ t', lastTime t calls ≤ t' →
      HoldsFields (c.runCalls calls) t' key (fieldsAfter key m calls) ∧
      ∀ (O : Outside) (w : World) (cid : Nat), w.core.dict = (c.runCalls calls).dict →
        w.core.cfg = (c.runCalls calls).cfg → O.AllocOk → (∀ n, (O.env n).Frozen t') → cid < w.core.conns.length →
        ShowsFields O w cid key (fieldsAfter key m calls) ∧
        ∀ name, ∃ reply, Replies O w cid (Dispatch.hgetall cid [name, key]) reply ∧
          (ShowsMap (fieldsAfter key m calls) reply ↔ (fieldsAfter key m calls).entries.card < 2 ^ 30) := by
  intro t' hle
  obtain ⟨hv, hwf, hn'⟩ := hash_run hc.wf hn ha hr ht hk
  constructor
  · refine holdsFields_of_view hwf hn' ?_
    rw [← view_at hwf hle, Store.at_, hv, alive_hashSlot]
  · intro O w cid hd hg hO hE hcid
    have h : HasFields w t' key (fieldsAfter key m calls) := .of_run hv (alive_hashSlot _ _) hwf hn' hle hd hg
    refine ⟨⟨h.hget hO (hE _) hcid, h.hexists hO (hE _) hcid, h.hlen hO (hE _) hcid,
      fun name fields => h.hmget hO hE hcid name⟩, fun name => ?_⟩
    obtain ⟨l, hl, hreply⟩ := h.hgetall hO (hE _) hcid name
    exact ⟨_, hreply, showsMap_iff hl⟩

/-- A field twice in one command, a field that is counted up from nothing, and one that goes. -/
def hashCalls : List Call :=
  [.steady 1 (.arHashHset (lit "h") [(lit "a", lit "1"), (lit "b", lit "2"), (lit "a", lit "3")]),
    .steady 2 (.arHashHincrby (lit "h") (lit "n") 5), .steady 3 (.arHashHdel (lit "h") [lit "b", lit "b"])]

theorem hash_refines_sample :
    HoldsFields (ArCore.arCoreCreate.runCalls hashCalls) 3 (lit "h") (fieldsAfter (lit "h") ∅ hashCalls) := by
  have hk : ArCore.arCoreCreate.view 0 (lit "h") = hashSlot ∅ := by decide +kernel
  have ha : ∀ x ∈ hashCalls, x.E.AllocOk ∧ x.op.OnHash (lit "h") := by
    intro x hx
    simp only [hashCalls, List.mem_cons, List.not_mem_nil, or_false] at hx
    obtain rfl | rfl | rfl := hx <;> exact ⟨fun _ => rfl, trivial⟩
  have hr : IncrsFit (lit "h") ∅ hashCalls := by
    refine .cons (fun _ _ h => by cases h) (.cons (fun field incr h v hv => ?_) (.cons (fun _ _ h => by cases h) .nil))
    cases h
    obtain rfl : (0 : Int) = v := Option.some.inj ((by decide : _ = some (0 : Int)).symm.trans hv)
    decide
  exact (hash_refines .create rfl hk ha hr (by decide) 3 (by decide)).1

/-- `HSET` of one field after the other. -/
def fieldsCalls (n : Nat) : List Call :=
  (List.range n).map fun i => .steady 0 (.arHashHset (lit "h") [(Decimal.ofNat i, [])])

theorem mem_fieldsCalls {n : Nat} {x : Call} (h : x ∈ fieldsCalls n) :
    ∃ i, x = .steady 0 (.arHashHset (lit "h") [(Decimal.ofNat i, [])]) := by
  obtain ⟨i, -, rfl⟩ := List.mem_map.1 h
  exact ⟨i, rfl⟩

theorem mem_fieldsAfter_fieldsCalls (n : Nat) (field : Bytes) :
    field ∈ fieldsAfter (lit "h") ∅ (fieldsCalls n) ↔ ∃ i < n, Decimal.ofNat i = field := by
  induction n with
  | zero =>
    refine iff_of_false (fun h => Finmap.notMem_empty h) ?_
    rintro ⟨i, hi, -⟩
    exact absurd hi (Nat.not_lt_zero i)
  | succ n ih =>
    have hsnoc : fieldsAfter (lit "h") ∅ (fieldsCalls (n + 1)) =
        (fieldsAfter (lit "h") ∅ (fieldsCalls n)).insert (Decimal.ofNat n) [] := by
      unfold fieldsAfter fieldsCalls
      rw [List.range_succ, List.map_append, List.foldl_append]
      rfl
    rw [hsnoc, Finmap.mem_insert, ih]
    constructor
    · rintro (rfl | ⟨i, hi, rfl⟩)
      · exact ⟨n, Nat.lt_succ_self n, rfl⟩
      · exact ⟨i, Nat.lt_succ_of_lt hi, rfl⟩
    · rintro ⟨i, hi, rfl⟩
      rcases Nat.lt_succ_iff_lt_or_eq.1 hi with hi | rfl
      · exact .inr ⟨i, hi, rfl⟩
      · exact .inl rfl

theorem card_fieldsCalls (n : Nat) : (fieldsAfter (lit "h") ∅ (fieldsCalls n)).entries.card = n := by
  have hkeys : (fieldsAfter (lit "h") ∅ (fieldsCalls n)).keys = (Finset.range n).image Decimal.ofNat := by
    ext field
    rw [Finmap.mem_keys, mem_fieldsAfter_fieldsCalls]
    simp only [Finset.mem_image, Finset.mem_range]
  have hcard : (fieldsAfter (lit "h") ∅ (fieldsCalls n)).keys.card = n := by
    rw [hkeys, Finset.card_image_of_injective _ fun _ _ => Decimal.ofNat_injective, Finset.card_range]
  exact (Multiset.card_map Sigma.fst _).symm.trans hcard

theorem run_fieldsCalls (n : Nat) :
    HasFields { core := ArCore.arCoreCreate.runCalls (fieldsCalls n) } 0 (lit "h")
      (fieldsAfter (lit "h") ∅ (fieldsCalls n)) := by
  have hk : ArCore.arCoreCreate.view 0 (lit "h") = hashSlot ∅ := by decide +kernel
  have htime : ∀ x ∈ fieldsCalls n, x.t = 0 := by
    intro x hx
    obtain ⟨i, rfl⟩ := mem_fieldsCalls hx
    rfl
  obtain ⟨hlast, hle⟩ := sameTime htime
  have ha : ∀ x ∈ fieldsCalls n, x.E.AllocOk ∧ x.op.OnHash (lit "h") := by
    intro x hx
    obtain ⟨i, rfl⟩ := mem_fieldsCalls hx
    exact ⟨fun _ => rfl, trivial⟩
  have hr : IncrsFit (lit "h") ∅ (fieldsCalls n) := by
    intro pre x post hp field incr hop
    have hx : x ∈ fieldsCalls n := by
      rw [hp]
      exact List.mem_append_right pre (.head post)
    obtain ⟨i, rfl⟩ := mem_fieldsCalls hx
    cases hop
  obtain ⟨hv, hwf, hn⟩ := hash_run wf_arCoreCreate rfl ha hr hle hk
  rw [hlast] at hv
  exact ⟨hwf, hn, hv⟩

theorem conns_fieldsCalls (n : Nat) : (ArCore.arCoreCreate.runCalls (fieldsCalls n)).conns.length = 1024 := by
  rw [← (touched_runCalls wf_arCoreCreate _).length_eq]
  exact List.length_replicate

/-- After `HSET` of `2 ^ 30` fields `HGETALL` counts the elements of its reply as `-2147483648`. -/
theorem hgetall_wraps :
    let w : World := { core := ArCore.arCoreCreate.runCalls (fieldsCalls (2 ^ 30)) }
    let m := fieldsAfter (lit "h") ∅ (fieldsCalls (2 ^ 30))
    ∃ l, Lists m l ∧
      Replies (.steady 0) w 0 (Dispatch.hgetall 0 [lit "HGETALL", lit "h"])
        (Resp.arrayHdr (-2147483648) ++ fieldsReply l) ∧
      ¬ShowsMap m (Resp.arrayHdr (-2147483648) ++ fieldsReply l) := by
  intro w m
  have hlen : 0 < w.core.conns.length := by
    rw [conns_fieldsCalls]
    decide
  obtain ⟨l, hl, hreply⟩ := (run_fieldsCalls (2 ^ 30)).hgetall (O := .steady 0) (fun _ _ => rfl) (fun _ => rfl) hlen
    (lit "HGETALL")
  have hcard : l.length = 2 ^ 30 := hl.length_eq.trans (card_fieldsCalls _)
  have hcount : int32 (2 * l.length : Nat) = -2147483648 := by
    rw [hcard]
    decide
  rw [hcount] at hreply
  refine ⟨l, hl, hreply, fun h => ?_⟩
  rw [← hcount, showsMap_iff hl, card_fieldsCalls] at h
  exact Nat.lt_irrefl _ h

end

end AuraRedis
