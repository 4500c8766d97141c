import AuraRedis.Core.Proof.Strings
import Mathlib.Algebra.Order.BigOperators.Group.List
import Mathlib.Algebra.Order.Group.Nat

/-!
# Element loops

What the loops over the elements of a container compute, as functions on its abstract value, when
no allocation fails; that they keep a hash well formed; and that what only removes does not grow.
-/

set_option autoImplicit false

namespace AuraRedis

/-! ## Only the outside moved -/

/-- The same core, further down the streams of the outside. -/
def SameBut (c c' : ArCore) : Prop := ∃ p, c' = { c with pos := p }

namespace SameBut

variable {c c' c'' : ArCore}

theorem refl (c : ArCore) : SameBut c c := ⟨c.pos, rfl⟩

theorem trans (h : SameBut c c') (h' : SameBut c' c'') : SameBut c c'' := by
  obtain ⟨p, rfl⟩ := h
  obtain ⟨q, rfl⟩ := h'
  exact ⟨q, rfl⟩

theorem malloc (E : Env) (c : ArCore) : SameBut c (c.malloc E).1 := ⟨_, rfl⟩

theorem quiet (h : SameBut c c') : Quiet c c' := by
  obtain ⟨p, rfl⟩ := h
  exact .of_dict rfl rfl rfl rfl rfl (Nat.le_refl _)

theorem holds (h : SameBut c c') {r : Ref} (hr : c.Holds r) : c'.Holds r := by
  obtain ⟨p, rfl⟩ := h
  exact hr

end SameBut

section
variable {E : Env} {c : ArCore}

/-! ## Hashes -/

theorem hashMaybeRehash_spec {h : ArHash} (hw : h.WF) :
    let x := c.hashMaybeRehash E h
    SameBut c x.1 ∧ x.2.WF ∧ x.2.fields = h.fields := by
  intro x
  unfold x ArCore.hashMaybeRehash
  split
  · exact ⟨.refl c, hw, rfl⟩
  · simp only
    split
    · obtain ⟨h₁, h₂⟩ := hw.rehash
      exact ⟨.malloc E c, h₁, h₂⟩
    · exact ⟨.malloc E c, hw, rfl⟩

/-- One pair of `HSET`. -/
theorem hsetField_spec {h : ArHash} (hw : h.WF) (field val : Bytes) :
    let x := c.hsetField E h field val
    SameBut c x.1 ∧ x.2.1.WF ∧ (E.AllocOk → x.2.1.fields = h.fields.insert field val ∧
      x.2.2 = (h.fields.lookup field).isNone) := by
  intro x
  unfold x ArCore.hsetField
  rw [hw.lookup_fields]
  cases hf : h.find field with
  | some old =>
    simp only
    refine ⟨.malloc E c, ?_, fun ha => ?_⟩
    · split
      · exact hw.setVal field val
      · exact hw
    · rw [malloc_ok ha, if_pos rfl]
      exact ⟨hw.fields_setVal hf val, rfl⟩
  | none =>
    simp only
    have hs := SameBut.malloc E c
    have hs₂ := (hs.trans (.malloc E _)).trans (.malloc E ((c.malloc E).1.malloc E).1)
    split
    · rename_i hm
      refine ⟨hs, hw, fun ha => ?_⟩
      rw [malloc_ok ha] at hm
      cases hm
    · split
      · rename_i hm
        refine ⟨hs₂, hw, fun ha => ?_⟩
        rw [malloc_ok ha, malloc_ok ha] at hm
        cases hm
      · obtain ⟨h₁, h₂, h₃⟩ := hashMaybeRehash_spec (E := E)
          (c := (((c.malloc E).1.malloc E).1.malloc E).1) (hw.link hf val)
        exact ⟨hs₂.trans h₁, h₂, fun _ => ⟨h₃.trans (hw.fields_link hf val), rfl⟩⟩

theorem hsetFields_spec (pairs : List (Bytes × Bytes)) {h : ArHash} (hw : h.WF) (added : Nat) :
    let x := ArCore.hsetFields E pairs c h added
    SameBut c x.1 ∧ x.2.1.WF ∧ (E.AllocOk →
      (x.2.1.fields, x.2.2) = Spec.hsetPairs pairs h.fields added) := by
  induction pairs generalizing c h added with
  | nil => exact ⟨.refl c, hw, fun _ => rfl⟩
  | cons p pairs ih =>
    obtain ⟨h₁, h₂, h₃⟩ := hsetField_spec (E := E) (c := c) hw p.1 p.2
    obtain ⟨h₄, h₅, h₆⟩ := ih (c := (c.hsetField E h p.1 p.2).1) h₂
      (if (c.hsetField E h p.1 p.2).2.2 then added + 1 else added)
    refine ⟨h₁.trans h₄, h₅, fun ha => (h₆ ha).trans ?_⟩
    obtain ⟨hm, hn⟩ := h₃ ha
    rw [hm, hn, Spec.hsetPairs]

/-- A field that is not there is not taken out. -/
theorem erase_of_lookup_none {m : FieldMap} {field : Bytes} (h : m.lookup field = none) :
    m.erase field = m := by
  apply Finmap.ext_lookup
  intro g
  by_cases hg : g = field
  · rw [hg, Finmap.lookup_erase, h]
  · rw [Finmap.lookup_erase_ne hg]

theorem hdelFields_spec (fields : List Bytes) {h : ArHash} (hw : h.WF) (removed : Nat) :
    let x := ArCore.hdelFields fields h removed
    x.1.WF ∧ (x.1.fields, x.2) = Spec.hdelFields fields h.fields removed ∧
      hashObjBytes x.1 ≤ hashObjBytes h := by
  induction fields generalizing h removed with
  | nil => exact ⟨hw, rfl, le_refl _⟩
  | cons field fields ih =>
    intro x
    unfold x ArCore.hdelFields Spec.hdelFields
    cases hf : h.find field with
    | none =>
      have hl : h.fields.lookup field = none := (hw.lookup_fields field).trans hf
      rw [hl, erase_of_lookup_none hl]
      exact ih hw removed
    | some old =>
      have hl : h.fields.lookup field = some old := (hw.lookup_fields field).trans hf
      obtain ⟨h₁, h₂, h₃⟩ := ih (hw.unlink hf) (removed + 1)
      rw [hl, ← hw.fields_unlink hf]
      refine ⟨h₁, h₂, le_trans h₃ ?_⟩
      -- a field less
      have he := hw.entries_unlink hf
      have hsum : ∀ g : ArHash, (g.buckets.flatten.map fun f => 40 + f.1.length + f.2.length).sum =
          (g.buckets.entries.map fun f => 40 + f.1.length + f.2.length).sum := fun g => by
        rw [Chains.entries, Multiset.map_coe, Multiset.sum_coe]
      unfold hashObjBytes
      rw [hsum, hsum, he, Multiset.map_cons, Multiset.sum_cons]
      have hlen : (h.unlink field).buckets.length = h.buckets.length := Chains.length_remove ..
      rw [hlen]
      omega

/-! ## Lists -/

theorem pushVals_spec (left : Bool) (vals l : List Bytes) :
    let x := ArCore.pushVals E left vals c l
    SameBut c x.1 ∧ (E.AllocOk → x.2 = Spec.pushVals left vals l) := by
  induction vals generalizing c l with
  | nil =>
    refine ⟨.refl c, fun _ => ?_⟩
    show l = _
    cases left
    · exact (List.append_nil l).symm
    · rfl
  | cons val vals ih =>
    intro x
    unfold x ArCore.pushVals
    simp only
    have hs := SameBut.malloc E c
    have hs₂ := hs.trans (.malloc E (c.malloc E).1)
    split
    · rename_i hm
      refine ⟨hs.trans (ih _).1, fun ha => ?_⟩
      rw [malloc_ok ha] at hm
      cases hm
    · split
      · rename_i hm
        refine ⟨hs₂.trans (ih _).1, fun ha => ?_⟩
        rw [malloc_ok ha] at hm
        cases hm
      · refine ⟨hs₂.trans (ih _).1, fun ha => ((ih _).2 ha).trans ?_⟩
        cases left <;> simp [Spec.pushVals]

theorem lremWalk_sublist (elem : Bytes) (stop : Int → Bool) (l : List Bytes) (removed : Int) :
    (ArCore.lremWalk elem stop l removed).1.Sublist l := by
  induction l generalizing removed with
  | nil => exact .slnil
  | cons v l ih =>
    unfold ArCore.lremWalk
    split
    · split
      · exact List.sublist_cons_self v l
      · exact (ih _).cons v
    · exact (ih _).cons_cons v

theorem lremList_sublist (l : List Bytes) (count : Int) (elem : Bytes) :
    (ArCore.lremList l count elem).1.Sublist l := by
  unfold ArCore.lremList
  split
  · exact lremWalk_sublist ..
  · simp only
    exact List.sublist_reverse_iff.1 (lremWalk_sublist ..)

theorem listObjBytes_le {l l' : List Bytes} (h : l'.Sublist l) : listObjBytes l' ≤ listObjBytes l := by
  unfold listObjBytes
  exact Nat.add_le_add_left (List.Sublist.sum_le_sum (h.map _) fun _ _ => Nat.zero_le _) 24

/-! ## Sorted sets -/

theorem zensureCap_spec (z : ArZSet) (need : Nat) :
    let x := c.zensureCap E z need
    SameBut c x.1 ∧ x.2.1.arr = z.arr ∧ (E.AllocOk → x.2.2 = true) := by
  intro x
  unfold x ArCore.zensureCap
  split
  · exact ⟨.refl c, rfl, fun _ => rfl⟩
  · simp only
    split
    · rename_i hm
      refine ⟨.malloc E c, rfl, fun ha => ?_⟩
      rw [malloc_ok ha] at hm
      cases hm
    · exact ⟨.malloc E c, rfl, fun _ => rfl⟩

/-- A member that is not there is not taken out. -/
theorem eraseP_of_find_none {arr : List ArZNode} {member : Bytes}
    (h : Spec.member? arr member = none) : arr.eraseP (·.member == member) = arr :=
  List.eraseP_of_forall_not fun x hx => by simpa using List.find?_eq_none.1 h x hx

/-- One pair of `ZADD`. -/
theorem zaddMember_spec (z : ArZSet) (n : ArZNode) :
    let x := c.zaddMember E z n
    SameBut c x.1 ∧ (E.AllocOk →
      x.2.1.arr = ArZSet.insertNode n (z.arr.eraseP (·.member == n.member)) ∧
        x.2.2 = if (Spec.member? z.arr n.member).isNone then 1 else 0) := by
  intro x
  unfold x ArCore.zaddMember
  have hrem : (z.without n.member).arr = z.arr.eraseP (·.member == n.member) := by
    unfold ArZSet.without
    split
    · rfl
    · rename_i hf
      exact (eraseP_of_find_none hf).symm
  simp only
  generalize z.without n.member = z' at hrem ⊢
  obtain ⟨h₁, h₂, h₃⟩ := zensureCap_spec (E := E) (c := c) z' (z'.arr.length + 1)
  split
  · rename_i hm
    refine ⟨h₁, fun ha => ?_⟩
    rw [h₃ ha] at hm
    cases hm
  · split
    · rename_i hm
      refine ⟨h₁.trans (.malloc E _), fun ha => ?_⟩
      rw [malloc_ok ha] at hm
      cases hm
    · refine ⟨h₁.trans (.malloc E _), fun _ => ⟨?_, rfl⟩⟩
      show ArZSet.insertNode n _ = _
      rw [h₂, hrem]

theorem zaddMembers_spec (ns : List ArZNode) (z : ArZSet) (added : Nat) :
    let x := ArCore.zaddMembers E ns c z added
    SameBut c x.1 ∧ (E.AllocOk → (x.2.1.arr, x.2.2) = Spec.zaddNodes ns z.arr added) := by
  induction ns generalizing c z added with
  | nil => exact ⟨.refl c, fun _ => rfl⟩
  | cons n ns ih =>
    obtain ⟨h₁, h₂⟩ := zaddMember_spec (E := E) (c := c) z n
    obtain ⟨h₃, h₄⟩ := ih (c := (c.zaddMember E z n).1) (z := (c.zaddMember E z n).2.1)
      (added + (c.zaddMember E z n).2.2)
    refine ⟨h₁.trans h₃, fun ha => (h₄ ha).trans ?_⟩
    obtain ⟨he, hn⟩ := h₂ ha
    rw [he, hn, Spec.zaddNodes]

theorem insertNode_perm (n : ArZNode) (arr : List ArZNode) :
    (ArZSet.insertNode n arr).Perm (n :: arr) := by
  induction arr with
  | nil => exact .refl _
  | cons x arr ih =>
    unfold ArZSet.insertNode
    split
    · exact (ih.cons x).trans (.swap n x arr)
    · exact .refl _

theorem find_isNone_iff {z : ArZSet} {member : Bytes} :
    (z.find member).isNone = true ↔ member ∉ z.arr.map ArZNode.member := by
  unfold ArZSet.find
  rw [Option.isNone_iff_eq_none, List.find?_eq_none]
  simp

/-- A member that is taken out is gone, and it is the only one. -/
theorem without_members {z : ArZSet} (h : (z.arr.map ArZNode.member).Nodup) (member : Bytes) :
    ((z.without member).arr.map ArZNode.member).Sublist (z.arr.map ArZNode.member) ∧
      member ∉ (z.without member).arr.map ArZNode.member := by
  unfold ArZSet.without
  split
  · refine ⟨List.eraseP_sublist.map _, fun hm => ?_⟩
    obtain ⟨x, hx, hxm⟩ := List.mem_map.1 hm
    have hnd : (z.arr.map ArZNode.member).Nodup := h
    rw [show (z.remove member).arr = z.arr.eraseP (·.member == member) from rfl] at hx
    have hx' := List.mem_of_mem_eraseP hx
    obtain ⟨a, l₁, l₂, hl₁, ha, he, he'⟩ := List.exists_of_eraseP (p := fun y : ArZNode => y.member == member)
      hx' (by simp [hxm])
    rw [he'] at hx
    rw [he, List.map_append, List.map_cons] at hnd
    have ha' : a.member = member := by simpa using ha
    rcases List.mem_append.1 hx with h₁ | h₂
    · exact hl₁ x h₁ (by simp [hxm])
    · have := (List.nodup_cons.1 (List.nodup_append.1 hnd).2.1).1
      exact this (List.mem_map.2 ⟨x, h₂, hxm.trans ha'.symm⟩)
  · rename_i hf
    refine ⟨List.Sublist.refl _, find_isNone_iff.1 ?_⟩
    rw [Option.isNone_iff_eq_none]
    exact hf

/-- One pair of `ZADD` keeps the members apart, and brings no other. -/
theorem zaddMember_members {z : ArZSet} (h : (z.arr.map ArZNode.member).Nodup) (n : ArZNode) :
    ((c.zaddMember E z n).2.1.arr.map ArZNode.member).Nodup ∧
      ∀ m ∈ (c.zaddMember E z n).2.1.arr.map ArZNode.member, m = n.member ∨ m ∈ z.arr.map ArZNode.member := by
  obtain ⟨hsub, hn⟩ := without_members h n.member
  unfold ArCore.zaddMember
  simp only
  generalize z.without n.member = z' at hsub hn ⊢
  obtain ⟨-, harr, -⟩ := zensureCap_spec (E := E) (c := c) z' (z'.arr.length + 1)
  split
  · exact ⟨h.sublist hsub, fun m hm => .inr (hsub.subset hm)⟩
  · split
    · rw [harr]
      exact ⟨h.sublist hsub, fun m hm => .inr (hsub.subset hm)⟩
    · have hp := (insertNode_perm n z'.arr).map ArZNode.member
      rw [harr]
      refine ⟨hp.nodup_iff.2 (List.nodup_cons.2 ⟨hn, h.sublist hsub⟩), fun m hm => ?_⟩
      exact (List.mem_cons.1 (hp.subset hm)).imp id fun hm => hsub.subset hm

theorem zaddMembers_members (ns : List ArZNode) {z : ArZSet} (h : (z.arr.map ArZNode.member).Nodup)
    (added : Nat) :
    ((ArCore.zaddMembers E ns c z added).2.1.arr.map ArZNode.member).Nodup ∧
      ∀ m ∈ (ArCore.zaddMembers E ns c z added).2.1.arr.map ArZNode.member,
        m ∈ ns.map ArZNode.member ∨ m ∈ z.arr.map ArZNode.member := by
  induction ns generalizing c z added with
  | nil => exact ⟨h, fun m hm => .inr hm⟩
  | cons n ns ih =>
    obtain ⟨h₁, h₂⟩ := zaddMember_members (E := E) (c := c) h n
    obtain ⟨h₃, h₄⟩ := ih (c := (c.zaddMember E z n).1) h₁ (added + (c.zaddMember E z n).2.2)
    refine ⟨h₃, fun m hm => ?_⟩
    rcases h₄ m hm with hm | hm
    · exact .inl (.tail _ hm)
    · rcases h₂ m hm with rfl | hm
      · exact .inl (.head _)
      · exact .inr hm

/-- **`ZADD` keeps within the members a set may have**, when it has let the new ones in. -/
theorem ArZSet.WF.zaddMembers {z : ArZSet} (h : z.WF) (ns : List ArZNode) (added : Nat)
    (hlen : ¬((ns.countP fun n => (z.find n.member).isNone) > 0 ∧
      z.arr.length + (ns.countP fun n => (z.find n.member).isNone) > ArCore.zsetMaxMembers)) :
    (ArCore.zaddMembers E ns c z added).2.1.WF := by
  obtain ⟨hn, hm⟩ := zaddMembers_members (E := E) (c := c) ns h.nodup added
  refine ⟨hn, ?_⟩
  have hsub : ∀ m ∈ (ArCore.zaddMembers E ns c z added).2.1.arr.map ArZNode.member,
      m ∈ z.arr.map ArZNode.member ++
        (ns.filter fun n => (z.find n.member).isNone).map ArZNode.member := by
    intro m hmem
    rw [List.mem_append]
    by_cases hz : m ∈ z.arr.map ArZNode.member
    · exact .inl hz
    · obtain ⟨n, hns, rfl⟩ := List.mem_map.1 ((hm m hmem).resolve_right hz)
      exact .inr (List.mem_map_of_mem (List.mem_filter.2 ⟨hns, find_isNone_iff.2 hz⟩))
  have hle := (hn.subperm hsub).length_le
  rw [List.length_append, List.length_map, List.length_map, List.length_map,
    ← List.countP_eq_length_filter] at hle
  have := h.len
  omega

/-- **`ZREM` leaves a part of a set.** -/
theorem zremMembers_sublist (members : List Bytes) (z : ArZSet) (removed : Nat) :
    (ArCore.zremMembers members z removed).1.arr.Sublist z.arr := by
  induction members generalizing z removed with
  | nil => exact List.Sublist.refl _
  | cons member members ih =>
    unfold ArCore.zremMembers
    split
    · exact ih z removed
    · exact (ih (z.remove member) (removed + 1)).trans List.eraseP_sublist

theorem ArZSet.WF.sublist {z z' : ArZSet} (h : z.WF) (hs : z'.arr.Sublist z.arr) : z'.WF :=
  ⟨h.nodup.sublist (hs.map _), hs.length_le.trans h.len⟩

theorem zremMembers_spec (members : List Bytes) (z : ArZSet) (removed : Nat) :
    let x := ArCore.zremMembers members z removed
    (x.1.arr, x.2) = Spec.zremMembers members z.arr removed ∧
      zsetObjBytes x.1 ≤ zsetObjBytes z := by
  induction members generalizing z removed with
  | nil => exact ⟨rfl, le_refl _⟩
  | cons member members ih =>
    intro x
    unfold x ArCore.zremMembers Spec.zremMembers
    cases hf : z.find member with
    | none =>
      have hl : Spec.member? z.arr member = none := hf
      rw [hl, eraseP_of_find_none hl]
      exact ih z removed
    | some n =>
      have hl : Spec.member? z.arr member = some n := hf
      obtain ⟨h₁, h₂⟩ := ih (z.remove member) (removed + 1)
      rw [hl]
      refine ⟨h₁, le_trans h₂ ?_⟩
      unfold zsetObjBytes
      have hsub : (z.remove member).arr.Sublist z.arr := List.eraseP_sublist
      have := List.Sublist.sum_le_sum (hsub.map fun n => n.member.length) fun _ _ => Nat.zero_le _
      have hcap : (z.remove member).cap = z.cap := rfl
      rw [hcap]
      omega

end

end AuraRedis
