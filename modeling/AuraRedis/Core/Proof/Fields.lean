import AuraRedis.Core.Proof.Found
import AuraRedis.Core.Proof.OneKey
import AuraRedis.Lib.Numeral

/-!
# Hashes through a run

The map that `HSET`, `HDEL` and `HINCRBY` make of the fields of a key, one after the other (`fieldsAfter`), and that
the core's table is this map after any run of them (`hash_run`, `table_of_view`).
-/

set_option autoImplicit false

namespace AuraRedis

open ArCore (Typed)
open Decimal (ofInt)

/-! ## Commands on a finite map -/

namespace FieldMap

variable {m : FieldMap} {field : Bytes}

/-- The pairs of `HSET`, one after the other. -/
def put (pairs : List (Bytes × Bytes)) (m : FieldMap) : FieldMap := pairs.foldl (fun m p => m.insert p.1 p.2) m

/-- The fields of `HDEL`. -/
def drop (fields : List Bytes) (m : FieldMap) : FieldMap := fields.foldl (fun m field => m.erase field) m

/-- The number in a field; one that is missing is `0`. -/
def number (m : FieldMap) (field : Bytes) : Option Int := (m.lookup field).elim (some 0) ArCore.parseInteger

/-- `HINCRBY`, which leaves a field that is no number. -/
def add (field : Bytes) (incr : Int) (m : FieldMap) : FieldMap :=
  match m.number field with
  | none => m
  | some v => m.insert field (ofInt (v + incr))

/-- The fields of some pairs that are not there. -/
def missing (m : FieldMap) (pairs : List (Bytes × Bytes)) : Finset Bytes :=
  (pairs.map Prod.fst).toFinset.filter (· ∉ m)

/-- Those of some fields that are there. -/
def present (m : FieldMap) (fields : List Bytes) : Finset Bytes := fields.toFinset.filter (· ∈ m)

theorem lookup_isNone : (m.lookup field).isNone = true ↔ field ∉ m := by
  rw [Option.isNone_iff_eq_none, Finmap.lookup_eq_none]

theorem insert_ne_empty (val : Bytes) : m.insert field val ≠ ∅ := fun h => by
  have hmem : field ∈ m.insert field val := Finmap.mem_insert.2 (.inl rfl)
  rw [h] at hmem
  exact Finmap.notMem_empty hmem

theorem put_ne_empty (pairs : List (Bytes × Bytes)) (h : pairs ≠ [] ∨ m ≠ ∅) : put pairs m ≠ ∅ := by
  induction pairs generalizing m with
  | nil => exact h.resolve_left fun h => h rfl
  | cons p pairs ih => exact ih (.inr (insert_ne_empty _))

theorem card_missing_cons (p : Bytes × Bytes) (pairs : List (Bytes × Bytes)) :
    (m.missing (p :: pairs)).card = (if p.1 ∈ m then 0 else 1) + (missing (m.insert p.1 p.2) pairs).card := by
  unfold missing
  rw [List.map_cons, List.toFinset_cons]
  by_cases hp : p.1 ∈ m
  · rw [Finset.filter_insert, if_neg (not_not.2 hp), if_pos hp, Nat.zero_add]
    refine congrArg Finset.card (Finset.filter_congr fun f _ => ?_)
    rw [Finmap.mem_insert, not_or]
    exact ⟨fun hf => ⟨fun h => hf (h ▸ hp), hf⟩, And.right⟩
  · have hsplit : (insert p.1 (pairs.map Prod.fst).toFinset).filter (· ∉ m) =
        insert p.1 ((pairs.map Prod.fst).toFinset.filter (· ∉ m.insert p.1 p.2)) := by
      ext f
      simp only [Finset.mem_filter, Finset.mem_insert, Finmap.mem_insert, not_or]
      by_cases hf : f = p.1
      · simp [hf, hp]
      · simp [hf]
    rw [hsplit, if_neg hp, Nat.add_comm]
    refine Finset.card_insert_of_notMem fun h => ?_
    exact (Finset.mem_filter.1 h).2 (Finmap.mem_insert.2 (.inl rfl))

theorem card_present_cons (field : Bytes) (fields : List Bytes) :
    (m.present (field :: fields)).card = (if field ∈ m then 1 else 0) + (present (m.erase field) fields).card := by
  unfold present
  rw [List.toFinset_cons]
  by_cases hf : field ∈ m
  · have hsplit : (insert field fields.toFinset).filter (· ∈ m) =
        insert field (fields.toFinset.filter (· ∈ m.erase field)) := by
      ext f
      simp only [Finset.mem_filter, Finset.mem_insert, Finmap.mem_erase]
      by_cases h : f = field
      · simp [h, hf]
      · simp [h]
    rw [hsplit, if_pos hf, Nat.add_comm]
    refine Finset.card_insert_of_notMem fun h => ?_
    exact (Finmap.mem_erase.1 (Finset.mem_filter.1 h).2).1 rfl
  · rw [Finset.filter_insert, if_neg hf, if_neg hf, Nat.zero_add]
    refine congrArg Finset.card (Finset.filter_congr fun f _ => ?_)
    rw [Finmap.mem_erase]
    exact ⟨fun h => ⟨fun he => hf (he ▸ h), h⟩, And.right⟩

/-- The loop of `HSET` counts the fields that are new. -/
theorem hsetPairs_eq (pairs : List (Bytes × Bytes)) (k : Nat) :
    Spec.hsetPairs pairs m k = (put pairs m, k + (m.missing pairs).card) := by
  induction pairs generalizing m k with
  | nil => rfl
  | cons p pairs ih =>
    unfold Spec.hsetPairs
    rw [ih, card_missing_cons]
    refine Prod.ext rfl ?_
    by_cases hp : p.1 ∈ m
    · rw [if_neg fun h => lookup_isNone.1 h hp, if_pos hp, Nat.zero_add]
    · rw [if_pos (lookup_isNone.2 hp), if_neg hp, Nat.add_assoc]

/-- The loop of `HDEL` counts the fields that were there. -/
theorem hdelFields_eq (fields : List Bytes) (k : Nat) :
    Spec.hdelFields fields m k = (drop fields m, k + (m.present fields).card) := by
  induction fields generalizing m k with
  | nil => rfl
  | cons field fields ih =>
    unfold Spec.hdelFields
    rw [ih, card_present_cons]
    refine Prod.ext rfl ?_
    by_cases hf : field ∈ m
    · rw [if_neg fun h => lookup_isNone.1 h hf, if_pos hf, Nat.add_assoc]
    · rw [if_pos (lookup_isNone.2 hf), if_neg hf, Nat.zero_add]

theorem drop_empty (fields : List Bytes) : drop fields ∅ = ∅ := by
  induction fields with
  | nil => rfl
  | cons field fields ih =>
    have he : (∅ : FieldMap).erase field = ∅ := by
      apply Finmap.ext_lookup
      intro g
      by_cases hg : g = field
      · rw [hg, Finmap.lookup_erase, Finmap.lookup_empty]
      · rw [Finmap.lookup_erase_ne hg]
    unfold drop
    rw [List.foldl_cons, he]
    exact ih

theorem card_eq_zero : m.entries.card = 0 ↔ m = ∅ := by
  rw [Multiset.card_eq_zero]
  constructor
  · intro h
    exact Finmap.ext h
  · rintro rfl
    rfl

end FieldMap

/-! ## What the slot becomes -/

/-- The slot of a map without a deadline: an empty one is no key. -/
def hashSlot (m : FieldMap) : Option Slot := if m = ∅ then none else some (.hash m, 0)

section
variable {m : FieldMap}

theorem alive_hashSlot (t : Nat) (m : FieldMap) : Store.alive t (hashSlot m) = hashSlot m := by
  unfold hashSlot Store.alive
  split
  · rfl
  · simp [Due]

/-- A write to a hash, which is created when it is missing. -/
theorem orCreate_hashSlot {β : Type} (f : AVal → Nat → Option Slot × β) :
    Spec.orCreate (.hash ∅) (hashSlot m) f = f (.hash m) 0 := by
  unfold hashSlot
  split
  · next h => rw [h]; rfl
  · rfl

theorem hset_hashSlot (pairs : List (Bytes × Bytes)) :
    Spec.hset pairs (hashSlot m) = (hashSlot (m.put pairs), .found (m.missing pairs).card) := by
  unfold Spec.hset
  by_cases hp : pairs = []
  · subst hp
    rfl
  · rw [if_neg (by simpa using hp), orCreate_hashSlot]
    simp only [FieldMap.hsetPairs_eq, Nat.zero_add]
    rw [hashSlot, if_neg (FieldMap.put_ne_empty pairs (.inl hp))]

theorem hdel_hashSlot (fields : List Bytes) :
    Spec.hdel fields (hashSlot m) =
      (hashSlot (m.drop fields), if m = ∅ then .missing else .found (m.present fields).card) := by
  by_cases hm : m = ∅
  · subst hm
    rw [FieldMap.drop_empty, if_pos rfl]
    rfl
  · rw [if_neg hm, hashSlot, if_neg hm]
    simp only [Spec.hdel, FieldMap.hdelFields_eq, FieldMap.card_eq_zero, Nat.zero_add]
    rfl

/-- What `HINCRBY` answers. -/
def FieldMap.sum (field : Bytes) (incr : Int) (m : FieldMap) : ArCore.HincrResult :=
  match m.number field with
  | none => .notInt
  | some v => .value (v + incr)

/-- `HINCRBY` does not leave the type. -/
def FieldMap.InRange (field : Bytes) (incr : Int) (m : FieldMap) : Prop :=
  ∀ v, m.number field = some v → Fits64 (v + incr)

theorem hincrby_hashSlot {field : Bytes} {incr : Int} (h : m.InRange field incr) :
    Spec.hincrby field incr (hashSlot m) = (hashSlot (m.add field incr), m.sum field incr) := by
  unfold Spec.hincrby FieldMap.add FieldMap.sum
  rw [orCreate_hashSlot]
  have hnum : (m.lookup field).elim (some 0) ArCore.parseInteger = m.number field := rfl
  simp only [hnum]
  cases hv : m.number field with
  | none =>
    have hm : m ≠ ∅ := by
      rintro rfl
      cases hv
    refine Prod.ext ?_ rfl
    simp only [hashSlot, if_neg hm]
  | some v =>
    obtain ⟨hlo, hhi⟩ := h v hv
    simp only [int64_eq hlo hhi]
    rw [hashSlot, if_neg (FieldMap.insert_ne_empty _)]

end

/-! ## Runs -/

/-- A call of a run on a hash: it sets, removes or counts up fields of the key's hash, reads it, or is about other
keys; it chooses no kernel. -/
def ArOp.OnHash (key : Bytes) : ArOp → Prop
  | arHashHset _ _ | arHashHdel _ _ | arHashHincrby _ _ _ => True
  | arHashHget _ _ | arHashHexists _ _ | arHashHlen _ | hashGet _ | hgetall _ | arHscan _ _ _ _ => True
  | op => key ∉ op.keys ∧ op.setsKernel = false

/-- What a call makes of the fields of a key. -/
def ArOp.fields (key : Bytes) (m : FieldMap) : ArOp → FieldMap
  | arHashHset k pairs => if k = key then m.put pairs else m
  | arHashHdel k fields => if k = key then m.drop fields else m
  | arHashHincrby k field incr => if k = key then m.add field incr else m
  | _ => m

/-- **The fields after some calls**, each the value it was last given. -/
def fieldsAfter (key : Bytes) (m : FieldMap) (calls : List Call) : FieldMap :=
  calls.foldl (fun m x => x.op.fields key m) m

/-- The numbers of a run do not leave their type. -/
def IncrsFit (key : Bytes) (m : FieldMap) (calls : List Call) : Prop :=
  ∀ pre x post, calls = pre ++ x :: post →
    ∀ field incr, x.op = .arHashHincrby key field incr → (fieldsAfter key m pre).InRange field incr

section
variable {c : ArCore} {key : Bytes} {m : FieldMap} {x : Call}

theorem IncrsFit.nil : IncrsFit key m [] := fun pre x post h => by cases pre <;> cases h

theorem IncrsFit.cons {calls : List Call} (hx : ∀ field incr, x.op = .arHashHincrby key field incr → m.InRange field incr)
    (h : IncrsFit key (x.op.fields key m) calls) : IncrsFit key m (x :: calls) := by
  intro pre y post hp
  cases pre with
  | nil =>
    cases hp
    exact hx
  | cons z pre =>
    cases hp
    exact h pre y post rfl

theorem ArOp.OnHash.setsKernel {op : ArOp} (h : op.OnHash key) : op.setsKernel = false := by
  cases op <;> first | rfl | exact h.2

/-- What is asked of another key. -/
theorem ArOp.fields_of_notMem {op : ArOp} (h : key ∉ op.keys) : op.fields key m = m := by
  cases op with
  | arHashHset k _ | arHashHdel k _ | arHashHincrby k _ _ =>
    simp only [ArOp.fields]
    rw [if_neg fun he => h (Set.mem_singleton_iff.2 he.symm)]
  | _ => rfl

/-- A step of the slot, on a map. -/
theorem hashSlot_of_step {β : Type} {t : Nat} {st : Store} {g : Option Slot → Option Slot × β} {y : Store × β}
    {m' : FieldMap} {a : β} (hy : y = st.step t key g) (hst : st key = hashSlot m)
    (hg : g (hashSlot m) = (hashSlot m', a)) : y.1 key = hashSlot m' ∧ y.2 = a := by
  have hslot := slot_of_step hy
  rw [hst, hg] at hslot
  refine ⟨hslot.trans (alive_hashSlot t m'), ?_⟩
  rw [hy]
  show (g (st key)).2 = a
  rw [hst, hg]

/-- **One call.** -/
theorem hash_call (hwf : c.WF) (hn : c.cfg.evict = .noop) (ha : x.E.AllocOk) (hop : x.op.OnHash key)
    (hr : ∀ field incr, x.op = .arHashHincrby key field incr → m.InRange field incr)
    (h : c.view x.t key = hashSlot m) : (x.op.run x.E c).1.view x.t key = hashSlot (x.op.fields key m) := by
  by_cases hk : key ∈ x.op.keys
  · obtain ⟨hm, -⟩ := means_run hwf hn ha hop.setsKernel
    obtain ⟨E, t, op, hE⟩ := x
    cases op with
    | arHashHset k pairs =>
      obtain rfl : key = k := hk
      simp only [ArOp.fields, if_true]
      exact (hashSlot_of_step hm h (hset_hashSlot pairs)).1
    | arHashHdel k fields =>
      obtain rfl : key = k := hk
      simp only [ArOp.fields, if_true]
      exact (hashSlot_of_step hm h (hdel_hashSlot fields)).1
    | arHashHincrby k field incr =>
      obtain rfl : key = k := hk
      simp only [ArOp.fields, if_true]
      exact (hashSlot_of_step hm h (hincrby_hashSlot (hr field incr rfl))).1
    | arHashHget k field | arHashHexists k field | arHashHlen k =>
      obtain rfl : key = k := hk
      exact (hashSlot_of_step hm h rfl).1
    | hashGet k =>
      exact (congrFun hm key).trans h
    | hgetall k =>
      exact (congrFun hm.1 key).trans h
    | arHscan k cursor pat count => exact absurd hk (Set.notMem_empty key)
    | _ => exact absurd hk hop.1
  · rw [ArOp.fields_of_notMem hk, view_of_notMem hwf hn hop.setsKernel hk]
    exact h

/-- **The calls one after the other.** -/
theorem hash_run {t : Nat} {calls : List Call} (hwf : c.WF) (hn : c.cfg.evict = .noop)
    (ha : ∀ x ∈ calls, x.E.AllocOk ∧ x.op.OnHash key) (hr : IncrsFit key m calls)
    (ht : (t :: calls.map Call.t).Pairwise (· ≤ ·)) (h : c.view t key = hashSlot m) :
    (c.runCalls calls).view (lastTime t calls) key = hashSlot (fieldsAfter key m calls) ∧
      (c.runCalls calls).WF ∧ (c.runCalls calls).cfg.evict = .noop := by
  refine holds_run (fun m s => s = hashSlot m) (fun m op => op.fields key m)
    (fun m _ x => x.op.OnHash key ∧ ∀ field incr, x.op = .arHashHincrby key field incr → m.InRange field incr)
    (fun m s h t => h ▸ alive_hashSlot t m) (fun m c x hwf hn hax hmay hm => ?_) hwf hn (fun x hx => (ha x hx).1)
    (fun pre x post hp => ?_) ht h
  · exact ⟨hmay.1.setsKernel, hash_call hwf hn hax hmay.1 hmay.2 hm⟩
  · refine ⟨(ha x ?_).2, hr pre x post hp⟩
    rw [hp]
    exact List.mem_append_right pre (.head post)

/-! ## The table -/

/-- **The table of a key** whose slot is that of a map: the fields are in the chains of their hashes, none is linked
twice, they are counted, and they are the map. -/
theorem table_of_view {t : Nat} (hwf : c.WF) (hv : c.view t key = hashSlot m) (hm : m ≠ ∅) :
    ∃ i h, c.peek t key = some i ∧ i.obj = .hash h ∧ h.WF ∧ h.fields = m := by
  unfold ArCore.view hashSlot at hv
  rw [if_neg hm, Option.map_eq_some_iff] at hv
  obtain ⟨i, hp, hi⟩ := hv
  have habs : i.obj.abs = .hash m := congrArg Prod.fst hi
  have hw : i.obj.WF := hwf.objs i ((peek_eq_some_iff hwf).1 hp).1
  cases ho : i.obj with
  | hash h =>
    rw [ho] at habs hw
    exact ⟨i, h, hp, ho, hw, AVal.hash.inj habs⟩
  | string _ | list _ | zset _ =>
    rw [ho] at habs
    cases habs

theorem peek_of_empty {t : Nat} (hv : c.view t key = hashSlot ∅) : c.peek t key = none := by
  unfold ArCore.view hashSlot at hv
  rw [if_pos rfl] at hv
  exact Option.map_eq_none_iff.1 hv

end

end AuraRedis
