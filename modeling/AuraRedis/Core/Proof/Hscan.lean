import AuraRedis.Core.Proof.Iterate
import AuraRedis.Core.Proof.ScanFlat

/-!
# `HSCAN` sees the fields that stay

The cursor of `HSCAN` is the number of a chain of the field table. `HSET`, `HDEL` and `HINCRBY` on a key that
is there leave the table or double it (`HashCall.grown`), so that no field is moved behind the cursor, and an
iteration is a sweep as with `SCAN`.
-/

set_option autoImplicit false

namespace AuraRedis

open ArCore (Typed)

namespace ArCore

/-- The hash a lookup would find. -/
def hashAt (c : ArCore) (t : Nat) (key : Bytes) : Option ArHash :=
  (c.peek t key).bind fun i => match i.obj with
    | .hash h => some h
    | _ => none

/-- The value of a field a lookup would find. -/
def fieldAt (c : ArCore) (t : Nat) (key field : Bytes) : Option Bytes := (c.hashAt t key).bind (·.find field)

end ArCore

/-- An `HSET`, `HDEL` or `HINCRBY` on the key. -/
def ArOp.writesHash (key : Bytes) : ArOp → Prop
  | arHashHset k _ | arHashHdel k _ | arHashHincrby k _ _ => k = key
  | _ => False

/-- One `HSCAN`, and the calls before the next one. -/
structure HscanTurn where
  E : Env
  t : Nat
  /-- There is one clock value for the call. -/
  frozen : E.Frozen t
  count : Int
  calls : List Call

/-- The elements of a reply two by two. -/
def pairsOf : List Bytes → List (Bytes × Bytes)
  | field :: val :: elems => (field, val) :: pairsOf elems
  | _ => []

/-- What an `HSCAN` replies: the elements and the next cursor. -/
def hscanReply : Typed (List Bytes × Nat) → List Bytes × Nat
  | .found r => r
  | _ => ([], 0)

/-- `HSCAN` as an iteration with a cursor: the fields returned. -/
def hscanWalk (key pat : Bytes) : Cursored ArCore HscanTurn Bytes where
  reply c cursor x :=
    let r := hscanReply (c.arHscan x.E key cursor pat x.count).2
    ((pairsOf r.1).map Prod.fst, r.2)
  after c cursor x := (c.arHscan x.E key cursor pat x.count).1.runCalls x.calls

/-- A reply is fields and values in turn, each value the one the field holds. -/
def Paired (key pat : Bytes) (c : ArCore) (cursor : Nat) (x : HscanTurn) : Prop :=
  let elems := (hscanReply (c.arHscan x.E key cursor pat x.count).2).1
  ((pairsOf elems).flatMap fun p => [p.1, p.2]) = elems ∧
    ∀ p ∈ pairsOf elems, c.fieldAt x.t key p.1 = some p.2

/-- The field is there when the `HSCAN` of a turn begins and when each call between begins; these write the
hash, and the `HSCAN` gets its memory. -/
def KeepsField (key pat field : Bytes) (c : ArCore) (cursor : Nat) (x : HscanTurn) : Prop :=
  (c.fieldAt x.t key field).isSome = true ∧ x.E.AllocOk ∧
    (c.arHscan x.E key cursor pat x.count).1.Each
      (fun c y => y.op.writesHash key ∧ (c.fieldAt y.t key field).isSome = true) x.calls

section
variable {E : Env} {t n : Nat} {pat key field : Bytes} {c c' : ArCore} {h : ArHash}

/-! ## What an `HSCAN` returns -/

theorem pairsOf_flatMap (ps : List (Bytes × Bytes)) : pairsOf (ps.flatMap fun p => [p.1, p.2]) = ps := by
  induction ps with
  | nil => rfl
  | cons p ps ih =>
    rw [List.flatMap_cons]
    exact congrArg (List.cons p) ih

/-- The fields of a chain that match, with their values. -/
def shownPairs (pat : Bytes) (l : List (Bytes × Bytes)) : List (Bytes × Bytes) :=
  l.filter fun f => patMatches pat f.1

theorem hscanChain_spec (pat : Bytes) (ha : E.AllocOk) (l : List (Bytes × Bytes)) (c : ArCore) (elems : List Bytes)
    (cap : Nat) : (ArCore.hscanChain E pat l c elems cap).2.1 =
      elems ++ (shownPairs pat l).flatMap fun p => [p.1, p.2] := by
  induction l generalizing c elems cap with
  | nil => exact (List.append_nil _).symm
  | cons f l ih =>
    unfold ArCore.hscanChain shownPairs
    by_cases hp : patMatches pat f.1 = true
    · have hok : ∀ (c : ArCore) (n cap : Nat), (c.pushRoom E n cap).2.2 = true := pushRoom_ok ha
      rw [if_pos hp, List.filter_cons_of_pos (by exact hp)]
      simp only [hok, Bool.not_true, Bool.false_eq_true, if_false]
      rw [ih, List.flatMap_cons, List.append_assoc]
      rfl
    · rw [if_neg hp, List.filter_cons_of_neg (by exact hp)]
      exact ih c elems cap

/-- The loop over the chains returns the fields of a window of them, and the number behind it. -/
theorem hscanLoop_spec (pat : Bytes) (ha : E.AllocOk) (h : ArHash) (slots i : Nat) (c : ArCore) (elems : List Bytes)
    (cap : Nat) (hi : i < h.buckets.length) :
    let x := ArCore.hscanLoop E pat h slots i c elems cap
    x.2.1 = elems ++ ((List.range' i slots).flatMap fun j => shownPairs pat (h.buckets.chain j)).flatMap
        (fun p => [p.1, p.2]) ∧
      x.2.2 = if h.buckets.length ≤ i + slots then 0 else i + slots := by
  induction slots generalizing i c elems cap with
  | zero =>
    refine ⟨(List.append_nil _).symm, ?_⟩
    rw [if_neg (by omega)]
    rfl
  | succ slots ih =>
    have hchain := hscanChain_spec pat ha (h.buckets.chain i) c elems cap
    unfold ArCore.hscanLoop
    simp only
    rw [List.range'_succ, List.flatMap_cons, List.flatMap_append, ← List.append_assoc, ← hchain]
    by_cases hlast : i + 1 ≥ h.buckets.length
    · have hnil : (List.range' (i + 1) slots).flatMap
          (fun j => shownPairs pat (h.buckets.chain j)) = [] := by
        refine List.flatMap_eq_nil_iff.2 fun j hj => ?_
        rw [List.mem_range'_1] at hj
        rw [Chains.chain_of_le (by omega)]
        rfl
      rw [if_pos hlast, hnil, List.flatMap_nil, List.append_nil, if_pos (by omega)]
      exact ⟨rfl, rfl⟩
    · obtain ⟨h₁, h₂⟩ := ih (i + 1) (ArCore.hscanChain E pat (h.buckets.chain i) c elems cap).1
        (ArCore.hscanChain E pat (h.buckets.chain i) c elems cap).2.1
        (ArCore.hscanChain E pat (h.buckets.chain i) c elems cap).2.2 (by omega)
      rw [if_neg hlast]
      refine ⟨h₁, ?_⟩
      rw [h₂, Nat.add_right_comm, Nat.add_assoc]

theorem hashAt_eq_some : c.hashAt t key = some h ↔ ∃ i, c.peek t key = some i ∧ i.obj = .hash h := by
  unfold ArCore.hashAt
  rw [Option.bind_eq_some_iff]
  refine exists_congr fun i => and_congr_right fun _ => ?_
  cases i.obj with
  | hash h' => simp
  | string _ | list _ | zset _ => simp

theorem wf_hashAt (hwf : c.WF) (hh : c.hashAt t key = some h) : h.WF := by
  obtain ⟨i, hp, ho⟩ := hashAt_eq_some.1 hh
  have hobj := hwf.objs i ((peek_eq_some_iff hwf).1 hp).1
  rwa [ho] at hobj

/-- An `HSCAN` of a hash that has a field. -/
theorem hscanReply_eq (pat : Bytes) (hE : E.Frozen t) (ha : E.AllocOk) (hwf : c.WF) (hh : c.hashAt t key = some h)
    {val : Bytes} (hf : h.find field = some val) (cursor : Nat) (count : Int) :
    let r := hscanReply (c.arHscan E key cursor pat count).2
    let to_ := cursor + ArCore.maxSlots count
    (pairsOf r.1 = (List.range' cursor (ArCore.maxSlots count)).flatMap
        fun j => shownPairs pat (h.buckets.chain j)) ∧
      ((pairsOf r.1).flatMap fun p => [p.1, p.2]) = r.1 ∧
      r.2 = if h.buckets.length ≤ to_ then 0 else to_ := by
  obtain ⟨i, hp, ho⟩ := hashAt_eq_some.1 hh
  have hn : h.nfields ≠ 0 := by
    have hw := wf_hashAt hwf hh
    rw [hw.nfields]
    exact (Multiset.card_pos_iff_exists_mem.2 ⟨_, hw.find_iff.1 hf⟩).ne'
  have hread : (c.readHash E key id).2 = .found h := by
    unfold ArCore.readHash
    rcases typed_cases (B := .plain) hE hwf key .hash with
      ⟨-, -, -, hnone⟩ | ⟨r, -, -, -, hr, ht⟩ | ⟨r, hg, -, -, -, hr, -⟩
    · cases hnone.symm.trans hp
    · cases hr.symm.trans hp
      exact absurd (congrArg ArObj.type ho) ht
    · cases hr.symm.trans hp
      have hobj : r.e.obj = .hash h := ho
      simp only [hg, hobj, id]
  intro r to_
  have hr : r = if h.nfields = 0 ∨ cursor ≥ h.buckets.length then ([], 0) else
      (ArCore.hscanLoop E pat h (ArCore.maxSlots count) cursor (c.readHash E key id).1 [] 0).2 := by
    unfold r ArCore.arHscan
    simp only [hread]
    split <;> rfl
  by_cases hlt : cursor < h.buckets.length
  · obtain ⟨h₁, h₂⟩ := hscanLoop_spec pat ha h (ArCore.maxSlots count) cursor
      (c.readHash E key id).1 [] 0 hlt
    rw [if_neg (by omega)] at hr
    rw [← hr, List.nil_append] at h₁
    rw [← hr] at h₂
    rw [h₁, pairsOf_flatMap]
    exact ⟨rfl, rfl, h₂⟩
  · rw [if_pos (.inr (by omega))] at hr
    have hnil : (List.range' cursor (ArCore.maxSlots count)).flatMap
        (fun j => shownPairs pat (h.buckets.chain j)) = [] := by
      refine List.flatMap_eq_nil_iff.2 fun j hj => ?_
      rw [List.mem_range'_1] at hj
      rw [Chains.chain_of_le (by omega)]
      rfl
    rw [hr, hnil, if_pos (by omega)]
    exact ⟨rfl, rfl, rfl⟩

/-- A field is among the fields of one chain. -/
theorem count_shownPairs (hw : h.WF) {val : Bytes} (hf : h.find field = some val)
    (hm : patMatches pat field = true) (j : Nat) :
    ((shownPairs pat (h.buckets.chain j)).map Prod.fst).count field =
      if j = ArHash.fieldSlot h.buckets.length (field, val) then 1 else 0 := by
  have hmem := hw.find_iff.1 hf
  by_cases hj : j = ArHash.fieldSlot h.buckets.length (field, val)
  · rw [if_pos hj]
    have hc := hw.placed.mem_chain hmem
    rw [← hj] at hc
    apply List.count_eq_one_of_mem
    · refine (List.filter_sublist.map _).nodup ?_
      rw [Chains.chain_of_lt (Chains.lt_of_mem_chain hc)]
      exact ((List.sublist_flatten_of_mem (List.getElem_mem _)).map _).nodup hw.nodup
    · exact List.mem_map.2 ⟨_, List.mem_filter.2 ⟨hc, hm⟩, rfl⟩
  · rw [if_neg hj, List.count_eq_zero]
    intro hin
    obtain ⟨a, ha, rfl⟩ := List.mem_map.1 hin
    exact hj (hw.placed j a (List.mem_of_mem_filter ha)).symm

/-! ## What a write does to the table -/

theorem length_hashMaybeRehash (c : ArCore) (h : ArHash) :
    h.buckets.length ≤ (c.hashMaybeRehash E h).2.buckets.length := by
  unfold ArCore.hashMaybeRehash
  split
  · exact Nat.le_refl _
  · simp only
    split
    · show _ ≤ (Chains.rehash _ _ _).length
      rw [Chains.length_rehash]
      omega
    · exact Nat.le_refl _

theorem length_hsetField (c : ArCore) (h : ArHash) (field val : Bytes) :
    h.buckets.length ≤ (c.hsetField E h field val).2.1.buckets.length := by
  unfold ArCore.hsetField
  split
  · simp only
    split
    · exact (Chains.length_update ..).ge
    · exact Nat.le_refl _
  · simp only
    split
    · exact Nat.le_refl _
    · split
      · exact Nat.le_refl _
      · refine Nat.le_trans ?_ (length_hashMaybeRehash _ _)
        exact (Chains.length_push ..).ge

theorem length_hsetFields (pairs : List (Bytes × Bytes)) (c : ArCore) (h : ArHash) (added : Nat) :
    h.buckets.length ≤ (ArCore.hsetFields E pairs c h added).2.1.buckets.length := by
  induction pairs generalizing c h added with
  | nil => exact Nat.le_refl _
  | cons p pairs ih => exact (length_hsetField c h p.1 p.2).trans (ih _ _ _)

theorem length_hdelFields (fields : List Bytes) (h : ArHash) (removed : Nat) :
    (ArCore.hdelFields fields h removed).1.buckets.length = h.buckets.length := by
  induction fields generalizing h removed with
  | nil => rfl
  | cons field fields ih =>
    unfold ArCore.hdelFields
    split
    · exact ih h removed
    · exact (ih _ _).trans (Chains.length_remove ..)

theorem length_hincrField (field : Bytes) (h' : ArHash) (o : Option Int) (hx : (c.hincrField E h field).2 = some (h', o)) :
    h'.buckets.length = h.buckets.length := by
  unfold ArCore.hincrField at hx
  split at hx
  · cases hx
    rfl
  · simp only at hx
    split at hx
    · cases hx
    · split at hx
      · cases hx
      · cases hx
        exact Chains.length_push ..

/-- If there is a hash under the key, its table has `n` chains at least; there is nothing else. -/
def GrownTo (n : Nat) (key : Bytes) (c : ArCore) : Prop :=
  ∀ i, c.Has key (some i) → ∃ h, i.obj = .hash h ∧ n ≤ h.buckets.length

theorem Leaves.grown {B : Terms} {W : Set Bytes} {o : Option Item} (hl : Leaves t B W key o c c')
    (ho : ∀ i, o = some i → ∃ h, i.obj = .hash h ∧ n ≤ h.buckets.length) : GrownTo n key c' := by
  intro i hi
  unfold ArCore.Has at hi
  rcases hl.now with hh | ⟨hh, -⟩
  · cases o with
    | none => exact absurd (hi.symm.trans hh) (Multiset.singleton_ne_zero i)
    | some j =>
      have hij : i = j := Multiset.singleton_inj.1 (hi.symm.trans hh)
      exact ho i (by rw [hij])
  · exact absurd (hi.symm.trans hh) (Multiset.singleton_ne_zero i)

theorem GrownTo.hashAt {t' : Nat} (hg : GrownTo n key c) (hwf : c.WF) (hh : c.hashAt t' key = some h) :
    n ≤ h.buckets.length := by
  obtain ⟨i, hp, ho⟩ := hashAt_eq_some.1 hh
  obtain ⟨hi, hk, -⟩ := (peek_eq_some_iff hwf).1 hp
  have hhas := has_of_mem hwf hi
  rw [hk] at hhas
  obtain ⟨h', ho', hle⟩ := hg i hhas
  cases ho.symm.trans ho'
  exact hle

/-- A key that is looked at only. -/
theorem GrownTo.of_hashAt (hwf : c.WF) (hh : c.hashAt t key = some h) : GrownTo h.buckets.length key c := by
  obtain ⟨i, hp, ho⟩ := hashAt_eq_some.1 hh
  obtain ⟨hi, hk, -⟩ := (peek_eq_some_iff hwf).1 hp
  have hhas := has_of_mem hwf hi
  rw [hk] at hhas
  intro j hj
  have hij : j = i := Multiset.singleton_inj.1 (hj.symm.trans hhas)
  exact ⟨h, by rw [hij, ho], Nat.le_refl _⟩

theorem grown_hset (hE : E.Frozen t) (hwf : c.WF) (hh : c.hashAt t key = some h)
    (pairs : List (Bytes × Bytes)) : GrownTo h.buckets.length key (c.arHashHset E key pairs).1 := by
  unfold ArCore.arHashHset
  split
  · exact .of_hashAt hwf hh
  · obtain ⟨i, hp, ho⟩ := hashAt_eq_some.1 hh
    rcases create_cases (B := .plain) (W := ∅) hE hwf key .hash with
      ⟨hg, hl, -⟩ | ⟨r, hg, hq, hk, hr, ht⟩ | ⟨r, hg, hwf', hr, hk, ht, ⟨hq, hp'⟩ | ⟨-, hnone, -⟩⟩
    · simp only [hg]
      exact hl.grown nofun
    · cases hr.symm.trans hp
      exact absurd (congrArg ArObj.type ho) ht
    · cases hp'.symm.trans hp
      have hobj : r.e.obj = .hash h := ho
      simp only [hg, hobj]
      obtain ⟨hs, hw, -⟩ := hsetFields_spec (E := E) (c := (c.arEntryGetOrCreate E key .hash).1)
        pairs (hash_wf hwf' hr hobj) 0
      have hlen := length_hsetFields (E := E) pairs (c.arEntryGetOrCreate E key .hash).1 h 0
      subst hk
      have hl := Leaves.writeBack (t := t) (B := .plain) (W := ∅) hE (hs.quiet.wf hwf') (hs.holds hr)
        (show ArObj.WF (.hash _) from hw) (by rw [hobj]; rfl)
      refine hl.grown fun i hi => ?_
      cases hi
      exact ⟨_, rfl, hlen⟩
    · cases hnone.symm.trans hp

theorem grown_hdel (hE : E.Frozen t) (hwf : c.WF) (hh : c.hashAt t key = some h) (fields : List Bytes) :
    GrownTo h.buckets.length key (c.arHashHdel E key fields).1 := by
  obtain ⟨i, hp, ho⟩ := hashAt_eq_some.1 hh
  unfold ArCore.arHashHdel
  rcases typed_cases (B := .plain) hE hwf key .hash with
    ⟨-, -, -, hnone⟩ | ⟨r, -, -, -, hr, ht⟩ | ⟨r, hg, hq, hr, hk, hp', -⟩
  · cases hnone.symm.trans hp
  · cases hr.symm.trans hp
    exact absurd (congrArg ArObj.type ho) ht
  · cases hp'.symm.trans hp
    have hobj : r.e.obj = .hash h := ho
    have hwf' := hq.wf hwf
    simp only [hg, hobj]
    obtain ⟨hw', -, hle⟩ := hdelFields_spec fields (hash_wf hwf' hr hobj) 0
    have hlen := length_hdelFields fields h 0
    generalize ArCore.hdelFields fields h 0 = x at hw' hle hlen ⊢
    subst hk
    obtain ⟨hl, -⟩ := Leaves.shrinkBack (t := t) (B := .plain) hwf' hr (.hash x.1) hw'
      (by rw [hobj]; rfl) (by rw [hobj]; exact hle)
    generalize (c.arEntryGetTyped E r.e.key .hash).1.shrinkBack r (.hash x.1) = c₁ at hl ⊢
    have hkeep : GrownTo h.buckets.length r.e.key c₁ := hl.grown fun i hi => by
      cases hi
      exact ⟨_, rfl, hlen.ge⟩
    have hgone : ∀ {c₂ : ArCore}, c₂.Has r.e.key none → GrownTo h.buckets.length r.e.key c₂ :=
      fun h0 i hi => absurd (hi.symm.trans h0) (Multiset.singleton_ne_zero i)
    split
    · rcases find_cases (B := .plain) hE (hl.ev.wf hwf') r.e.key with ⟨hn, -, h0, -⟩ | ⟨r', hs, hq', hr', hk', -⟩
      · simp only [hn]
        exact hgone h0
      · simp only [hs]
        refine hgone (has_none_iff.2 ?_)
        have hfree := free_key_notMem (hq'.wf (hl.ev.wf hwf')) hr'
        rwa [hk'] at hfree
    · split
      · exact hkeep
      · exact hkeep

theorem grown_hincrby (hE : E.Frozen t) (hwf : c.WF) (hh : c.hashAt t key = some h) (field : Bytes)
    (incr : Int) : GrownTo h.buckets.length key (c.arHashHincrby E key field incr).1 := by
  obtain ⟨i, hp, ho⟩ := hashAt_eq_some.1 hh
  unfold ArCore.arHashHincrby
  rcases create_cases (B := .plain) (W := ∅) hE hwf key .hash with
    ⟨hg, hl, -⟩ | ⟨r, hg, hq, hk, hr, ht⟩ | ⟨r, hg, hwf', hr, hk, ht, ⟨hq, hp'⟩ | ⟨-, hnone, -⟩⟩
  · simp only [hg]
    exact hl.grown nofun
  · cases hr.symm.trans hp
    exact absurd (congrArg ArObj.type ho) ht
  · cases hp'.symm.trans hp
    have hobj : r.e.obj = .hash h := ho
    simp only [hg, hobj]
    subst hk
    generalize (c.arEntryGetOrCreate E r.e.key .hash).1 = c₁ at hwf' hr ⊢
    obtain ⟨hs, -, hx⟩ := hincrField_spec (E := E) (c := c₁) (hash_wf hwf' hr hobj) field
    have hlen := fun h' o => length_hincrField (E := E) (c := c₁) (h := h) field h' o
    generalize c₁.hincrField E h field = x at hs hx hlen ⊢
    have hsame : ∀ {c₂ : ArCore}, Quiet c₁ c₂ → GrownTo h.buckets.length r.e.key c₂ := fun hq =>
      (Leaves.same (t := t) (B := .plain) (W := ∅) hwf' hr rfl hq).grown fun i hi => by
        cases hi
        exact ⟨h, hobj, Nat.le_refl _⟩
    obtain ⟨c₂, none | ⟨h', none | v⟩⟩ := x
    · exact hsame hs.quiet
    · exact hsame hs.quiet
    · obtain ⟨hw', -, hset, -⟩ := hx h' _ rfl
      have hs' := hs.trans (.malloc E c₂)
      have hr₂ : (c₂.malloc E).1.Holds r := hs'.holds hr
      have hwf₂ := hs'.quiet.wf hwf'
      simp only
      split
      · have hput : Leaves t ⟨False, False, none, False, False⟩ {r.e.key} r.e.key
            (some { r.e.toItem with obj := .hash h' }) (c₂.malloc E).1
            ((c₂.malloc E).1.updEntry r.e.key fun e => { e with obj := .hash h' }) :=
          .put (f := fun e => { e with obj := .hash h' }) hwf₂ hr₂ (fun _ => rfl) hw' rfl
            (fun _ _ => .post (.swollen (i := r.e.toItem) (fun h => h) (fun h => h) (by rw [hobj]; rfl)))
            rfl rfl rfl (Nat.le_refl _) fun _ h h' => ⟨h, h'⟩
        refine hput.grown fun i hi => ?_
        cases hi
        exact ⟨_, rfl, (hlen h' _ rfl).ge⟩
      · obtain ⟨hw₂, -⟩ := hset (Decimal.ofInt (int64 (v + incr)))
        have hl := Leaves.writeBack (t := t) (B := .plain) (W := ∅) hE hwf₂ hr₂
          (show ArObj.WF (.hash _) from hw₂) (by rw [hobj]; rfl)
        refine hl.grown fun i hi => ?_
        cases hi
        exact ⟨_, rfl, ((Chains.length_update ..).trans (hlen h' _ rfl)).ge⟩
  · cases hnone.symm.trans hp

theorem GrownTo.mono {m : Nat} (hg : GrownTo n key c) (hle : m ≤ n) : GrownTo m key c := fun i hi => by
  obtain ⟨h, ho, hlen⟩ := hg i hi
  exact ⟨h, ho, hle.trans hlen⟩

theorem GrownTo.quiet (hg : GrownTo n key c) (hq : Quiet c c') : GrownTo n key c' := fun i hi =>
  hg i ((hq.itemsAt key).symm.trans hi)

theorem fieldAt_isSome : (c.fieldAt t key field).isSome = true ↔
    ∃ h val, c.hashAt t key = some h ∧ h.find field = some val := by
  unfold ArCore.fieldAt
  constructor
  · intro hs
    obtain ⟨val, hv⟩ := Option.isSome_iff_exists.1 hs
    obtain ⟨h, hh, hf⟩ := Option.bind_eq_some_iff.1 hv
    exact ⟨h, val, hh, hf⟩
  · rintro ⟨h, val, hh, hf⟩
    rw [hh, Option.bind_some, hf]
    rfl

/-- **A write to a hash that is there does not shrink its table.** -/
theorem grown_run {y : Call} (hwf : c.WF) (hop : y.op.writesHash key) (hh : c.hashAt y.t key = some h) :
    GrownTo h.buckets.length key (y.op.run y.E c).1 := by
  obtain ⟨E, t, op, hE⟩ := y
  cases op with
  | arHashHset k pairs =>
    cases hop
    exact grown_hset hE hwf hh pairs
  | arHashHdel k fields =>
    cases hop
    exact grown_hdel hE hwf hh fields
  | arHashHincrby k field incr =>
    cases hop
    exact grown_hincrby hE hwf hh field incr
  | _ => exact hop.elim

theorem grown_runs {calls : List Call} (hwf : c.WF) (hg : GrownTo n key c)
    (hs : c.Each (fun c y => y.op.writesHash key ∧ (c.fieldAt y.t key field).isSome = true) calls) :
    GrownTo n key (c.runCalls calls) := by
  induction calls generalizing c with
  | nil => exact hg
  | cons y calls ih =>
    obtain ⟨⟨hop, hf⟩, hrest⟩ := hs
    obtain ⟨h, -, hh, -⟩ := fieldAt_isSome.1 hf
    exact ih (wf_run hwf y) ((grown_run hwf hop hh).mono (hg.hashAt hwf hh)) hrest

/-! ## Iterations -/

theorem quiet_arHscan (hE : E.Frozen t) (hwf : c.WF) (hh : c.hashAt t key = some h) (cursor : Nat)
    (pat : Bytes) (count : Int) : Quiet c (c.arHscan E key cursor pat count).1 := by
  obtain ⟨i, hp, ho⟩ := hashAt_eq_some.1 hh
  have hread : Quiet c (c.readHash E key id).1 := by
    rw [readHash_core]
    rcases typed_cases (B := .plain) hE hwf key .hash with
      ⟨-, -, -, hnone⟩ | ⟨r, -, hq, -⟩ | ⟨r, -, hq, -⟩
    · cases hnone.symm.trans hp
    · exact hq
    · exact hq
  unfold ArCore.arHscan
  simp only
  split
  · exact hread
  · exact hread
  · split
    · exact hread
    · exact hread.trans (SameBut.hscanLoop ..).quiet

section
variable {cursor : Nat} {turns : List HscanTurn} {x : HscanTurn}

theorem wf_hscanTurn (key pat : Bytes) (hwf : c.WF) (x : HscanTurn) (cursor : Nat) :
    ((hscanWalk key pat).after c cursor x).WF := by
  have hev : Expires x.t .plain c (c.arHscan x.E key cursor pat x.count).1 :=
    .arHscan x.frozen.until hwf key cursor pat x.count
  exact wf_runCalls (hev.wf hwf) x.calls

/-- A turn does not shrink the table. -/
theorem grown_turn (hwf : c.WF) (hk : KeepsField key pat field c cursor x)
    (hh : c.hashAt x.t key = some h) :
    GrownTo h.buckets.length key ((hscanWalk key pat).after c cursor x) := by
  obtain ⟨-, -, hcalls⟩ := hk
  have hq := quiet_arHscan x.frozen hwf hh cursor pat x.count
  exact grown_runs (hq.wf hwf) ((GrownTo.of_hashAt hwf hh).quiet hq) hcalls

/-- The chain a field is in. -/
def fieldPlace (key field : Bytes) (c : ArCore) (x : HscanTurn) : Nat :=
  ((c.hashAt x.t key).map fun h => ArHash.fieldSlot h.buckets.length (field, [])).getD 0

theorem fieldPlace_eq (hh : c.hashAt x.t key = some h) :
    fieldPlace key field c x = ArHash.fieldSlot h.buckets.length (field, []) := by
  unfold fieldPlace
  rw [hh]
  rfl

/-- Each turn looks at its window. -/
theorem shows_hscan (hwf : c.WF) (hm : patMatches pat field = true)
    (hk : KeepsField key pat field c cursor x) :
    (hscanWalk key pat).Shows field (fieldPlace key field) (fun x => ArCore.maxSlots x.count) c cursor x := by
  obtain ⟨hf, ha, -⟩ := hk
  obtain ⟨h, val, hh, hfind⟩ := fieldAt_isSome.1 hf
  obtain ⟨hpairs, -, hnext⟩ := hscanReply_eq pat x.frozen ha hwf hh hfind cursor x.count
  have hw := wf_hashAt hwf hh
  have hlt : ArHash.fieldSlot h.buckets.length (field, []) < h.buckets.length := by
    obtain ⟨p, hpow⟩ := hw.pow
    exact ArHash.fieldSlot_lt hpow _
  have hpos := maxSlots_pos x.count
  refine ⟨?_, ?_⟩
  · show List.count field ((pairsOf _).map Prod.fst) = _
    rw [hpairs, fieldPlace_eq hh, List.map_flatMap]
    exact count_window (count_shownPairs hw hfind hm) cursor _
  · rw [fieldPlace_eq hh]
    show ((hscanReply _).2 = 0 ∧ _) ∨ ((hscanReply _).2 = _ ∧ _)
    rw [hnext]
    split
    · exact .inl ⟨rfl, by omega⟩
    · exact .inr ⟨rfl, by omega⟩

theorem paired_hscan (hwf : c.WF) (hk : KeepsField key pat field c cursor x) : Paired key pat c cursor x := by
  obtain ⟨hf, ha, -⟩ := hk
  obtain ⟨h, val, hh, hfind⟩ := fieldAt_isSome.1 hf
  obtain ⟨hpairs, hflat, -⟩ := hscanReply_eq pat x.frozen ha hwf hh hfind cursor x.count
  refine ⟨hflat, fun p hp => ?_⟩
  rw [hpairs] at hp
  obtain ⟨j, -, hj⟩ := List.mem_flatMap.1 hp
  unfold ArCore.fieldAt
  rw [hh, Option.bind_some, (wf_hashAt hwf hh).find_iff]
  exact Chains.mem_entries_of_chain (List.mem_of_mem_filter hj)

/-- What holds of the turns of an iteration whose cores are well formed. -/
theorem each_hscan {P Q : ArCore → Nat → HscanTurn → Prop} (hwf : c.WF)
    (hPQ : ∀ {c : ArCore} {i x}, c.WF → P c i x → Q c i x)
    (hs : (hscanWalk key pat).Each P c cursor turns) : (hscanWalk key pat).Each Q c cursor turns := by
  induction turns generalizing c cursor with
  | nil => trivial
  | cons x turns ih => exact ⟨hPQ hwf hs.1, ih (wf_hscanTurn key pat hwf x cursor) hs.2⟩

/-- **The table grows and no field is moved behind the cursor.** -/
theorem staysAhead_hscan (hwf : c.WF) (hs : (hscanWalk key pat).Each (KeepsField key pat field) c cursor turns) :
    StaysAhead ((hscanWalk key pat).looks (fieldPlace key field) (fun x => ArCore.maxSlots x.count)
      c cursor turns) := by
  induction turns generalizing c cursor with
  | nil => exact .nil
  | cons x turns ih =>
    have hwf' := wf_hscanTurn key pat hwf x cursor
    have hrest := ih hwf' hs.2
    cases turns with
    | nil => exact .singleton _
    | cons y turns =>
      refine List.isChain_cons_cons.2 ⟨fun hto => hto.trans ?_, hrest⟩
      obtain ⟨h, -, hh, -⟩ := fieldAt_isSome.1 hs.1.1
      obtain ⟨h', -, hh', -⟩ := fieldAt_isSome.1 hs.2.1.1
      obtain ⟨p, hpow⟩ := (wf_hashAt hwf hh).pow
      obtain ⟨q, hpow'⟩ := (wf_hashAt hwf' hh').pow
      show fieldPlace key field _ _ ≤ fieldPlace key field _ _
      rw [fieldPlace_eq hh, fieldPlace_eq hh']
      exact mask_mono hpow hpow' ((grown_turn hwf hs.1 hh).hashAt hwf' hh') _

/-- **An iteration with `HSCAN` returns every field that is there throughout**, whatever `HSET`, `HDEL` and
`HINCRBY` do to the hash; what it returns are fields with the values they hold; and if the table does not
double, it returns the field once. -/
theorem hscan_sees (hc : ArCore.Reachable c) (hm : patMatches pat field = true)
    (hs : (hscanWalk key pat).Each (KeepsField key pat field) c 0 turns)
    (hf : (hscanWalk key pat).Full c 0 turns) :
    field ∈ (hscanWalk key pat).returned c 0 turns ∧
      (hscanWalk key pat).Each (Paired key pat) c 0 turns ∧
      ∀ n, (hscanWalk key pat).Each
          (fun c _ x => (c.hashAt x.t key).map (·.buckets.length) = some n) c 0 turns →
        ((hscanWalk key pat).returned c 0 turns).count field = 1 := by
  have hshow := each_hscan hc.wf (fun hwf hk => shows_hscan hwf hm hk) hs
  refine ⟨Cursored.mem_returned hshow hf (staysAhead_hscan hc.wf hs),
    each_hscan hc.wf (fun hwf hk => paired_hscan hwf hk) hs, fun n hn => ?_⟩
  refine Cursored.count_returned_one hshow hf (p := ArHash.fieldSlot n (field, []))
    (Cursored.place_of_mem_looks (hn.mono fun c _ x hx => ?_))
  obtain ⟨h, hh, hlen⟩ := Option.map_eq_some_iff.1 hx
  rw [fieldPlace_eq hh, hlen]

/-- The key `h` with the field `f`. -/
def oneFieldCalls : List Call := [.steady 0 (.arHashHset (lit "h") [(lit "f", lit "v")])]

def oneField : ArCore := ArCore.arCoreCreate.runCalls oneFieldCalls

theorem reachable_oneField : ArCore.Reachable oneField := ArCore.Reachable.create.runCalls _

/-- Half of the chains, a new field, and the other half. -/
def halves : List HscanTurn :=
  [⟨.steady 0, 0, Env.frozen_steady_zero, 10, [.steady 0 (.arHashHset (lit "h") [(lit "g", lit "w")])]⟩,
    ⟨.steady 0, 0, Env.frozen_steady_zero, 10, []⟩]

/-- The core the second half begins with. -/
def secondHalf (c : ArCore) : ArCore := (c.arHscan (.steady 0) (lit "h") 0 [] 10).1.runCalls
  [.steady 0 (.arHashHset (lit "h") [(lit "g", lit "w")])]

theorem full_halves (h₁ : (hscanReply (c.arHscan (.steady 0) (lit "h") 0 [] 10).2).2 = 10)
    (h₂ : (hscanReply ((secondHalf c).arHscan (.steady 0) (lit "h") 10 [] 10).2).2 = 0) :
    (hscanWalk (lit "h") []).Full c 0 halves := by
  have h₁' : ((hscanWalk (lit "h") []).reply c 0 ⟨.steady 0, 0, Env.frozen_steady 0, 10,
      [.steady 0 (.arHashHset (lit "h") [(lit "g", lit "w")])]⟩).2 = 10 := h₁
  have h₂' : ((hscanWalk (lit "h") []).reply (secondHalf c) 10
      ⟨.steady 0, 0, Env.frozen_steady 0, 10, []⟩).2 = 0 := h₂
  unfold halves Cursored.Full
  rw [h₁', if_neg (by decide)]
  exact (if_pos h₂').mpr rfl

theorem hscan_sees_halves :
    lit "f" ∈ (hscanWalk (lit "h") []).returned oneField 0 halves ∧
      (hscanWalk (lit "h") []).Each (Paired (lit "h") []) oneField 0 halves ∧
      ((hscanWalk (lit "h") []).returned oneField 0 halves).count (lit "f") = 1 := by
  have hc := reachable_oneField
  have hn₁ : (hscanReply (oneField.arHscan (.steady 0) (lit "h") 0 [] 10).2).2 = 10 := by decide +kernel
  have hn₂ : (hscanReply ((secondHalf oneField).arHscan (.steady 0) (lit "h") 10 [] 10).2).2 = 0 := by
    decide +kernel
  have hf₁ : (oneField.fieldAt 0 (lit "h") (lit "f")).isSome = true := by decide +kernel
  have hf₂ : ((oneField.arHscan (.steady 0) (lit "h") 0 [] 10).1.fieldAt 0 (lit "h") (lit "f")).isSome = true := by
    decide +kernel
  have hf₃ : ((secondHalf oneField).fieldAt 0 (lit "h") (lit "f")).isSome = true := by decide +kernel
  have ht₁ : (oneField.hashAt 0 (lit "h")).map (·.buckets.length) = some 16 := by decide +kernel
  have ht₂ : ((secondHalf oneField).hashAt 0 (lit "h")).map (·.buckets.length) = some 16 := by decide +kernel
  -- the core is a name from here on, not a run to be computed
  generalize oneField = c at hc hn₁ hn₂ hf₁ hf₂ hf₃ ht₁ ht₂ ⊢
  have hall : ∀ n, (Env.steady 0).alloc n = true := fun _ => rfl
  have hkeeps : (hscanWalk (lit "h") []).Each (KeepsField (lit "h") [] (lit "f")) c 0 halves :=
    ⟨⟨hf₁, hall, ⟨rfl, hf₂⟩, trivial⟩, ⟨hf₃, hall, trivial⟩, trivial⟩
  obtain ⟨hin, hpaired, hone⟩ := hscan_sees hc rfl hkeeps (full_halves hn₁ hn₂)
  exact ⟨hin, hpaired, hone 16 ⟨ht₁, ht₂, trivial⟩⟩

/-- Memory for the two arrays and one copy. -/
def Env.scarce (n : Nat) : Env := ⟨fun _ => 0, fun _ => 0, fun k => decide (k < n)⟩

/-- **Without memory an iteration leaves the field out**; and with memory for the field only, it returns the
field and no value. -/
theorem hscan_leaves_out :
    ArCore.Reachable oneField ∧ (oneField.fieldAt 0 (lit "h") (lit "f")).isSome = true ∧
      (hscanWalk (lit "h") []).Full oneField 0 [⟨Env.broke, 0, Env.frozen_broke, 10000, []⟩] ∧
      (hscanWalk (lit "h") []).returned oneField 0 [⟨Env.broke, 0, Env.frozen_broke, 10000, []⟩] = [] ∧
      (hscanReply (oneField.arHscan (.scarce (oneField.pos.alloc + 3)) (lit "h") 0 [] 10000).2).1 =
        [lit "f"] := by
  have hreply : hscanReply (oneField.arHscan Env.broke (lit "h") 0 [] 10000).2 = ([], 0) := by decide +kernel
  have hfield : (oneField.fieldAt 0 (lit "h") (lit "f")).isSome = true := by decide +kernel
  have hscarce : (hscanReply (oneField.arHscan (.scarce (oneField.pos.alloc + 3)) (lit "h") 0 [] 10000).2).1 =
      [lit "f"] := by decide +kernel
  have hc := reachable_oneField
  generalize oneField = c at hc hreply hfield hscarce ⊢
  have hwalk : (hscanWalk (lit "h") []).reply c 0 ⟨Env.broke, 0, Env.frozen_broke, 10000, []⟩ = ([], 0) := by
    show ((pairsOf _).map Prod.fst, _) = _
    rw [hreply]
    rfl
  refine ⟨hc, hfield, (if_pos (by rw [hwalk])).mpr rfl, ?_, hscarce⟩
  unfold Cursored.returned
  rw [hwalk]
  rfl

end

end

end AuraRedis
