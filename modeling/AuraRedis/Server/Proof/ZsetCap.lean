import AuraRedis.Core.Proof.Found
import AuraRedis.Server.Proof.Propagate
import AuraRedis.Server.Proof.Zset

/-!
# The cap of ZADD

`ZADD` counts the members it would bring before it brings any, and counts a member that its pairs repeat each
time; what it replies it counts while it brings them. `zadd_cap` says where the two agree.
-/

set_option autoImplicit false

namespace AuraRedis

open Code

/-! ## The members of an array -/

/-- The members of some nodes. -/
def membersOf (ns : List ArZNode) : Finset Bytes := (ns.map (·.member)).toFinset

theorem mem_membersOf {ns : List ArZNode} {m : Bytes} : m ∈ membersOf ns ↔ ∃ n ∈ ns, n.member = m := by
  unfold membersOf
  rw [List.mem_toFinset, List.mem_map]

theorem membersOf_cons (n : ArZNode) (ns : List ArZNode) : membersOf (n :: ns) = insert n.member (membersOf ns) := by
  unfold membersOf
  rw [List.map_cons, List.toFinset_cons]

theorem card_membersOf {arr : List ArZNode} (h : (arr.map (·.member)).Nodup) : (membersOf arr).card = arr.length := by
  unfold membersOf
  rw [List.toFinset_card_of_nodup h, List.length_map]

section
variable {arr : List ArZNode}

theorem member?_isNone {m : Bytes} : (Spec.member? arr m).isNone = true ↔ m ∉ membersOf arr := by
  unfold Spec.member?
  rw [Option.isNone_iff_eq_none, List.find?_eq_none, mem_membersOf]
  simp

/-- One pair of `ZADD` brings its member. -/
theorem membersOf_put (h : (arr.map (·.member)).Nodup) (n : ArZNode) :
    ((ArZSet.insertNode n (arr.eraseP (·.member == n.member))).map (·.member)).Nodup ∧
      membersOf (ArZSet.insertNode n (arr.eraseP (·.member == n.member))) = insert n.member (membersOf arr) := by
  have hp := (insertNode_perm n (arr.eraseP (·.member == n.member))).map ArZNode.member
  have hmem : ∀ a, a ∈ arr.eraseP (·.member == n.member) ↔ a ∈ arr ∧ a.member ≠ n.member := fun a =>
    Ranked.mem_drop h
  constructor
  · refine hp.nodup_iff.2 (List.nodup_cons.2 ⟨fun hm => ?_, h.sublist (List.eraseP_sublist.map _)⟩)
    obtain ⟨a, ha, he⟩ := List.mem_map.1 hm
    exact ((hmem a).1 ha).2 he
  · ext m
    rw [Finset.mem_insert, mem_membersOf, mem_membersOf]
    constructor
    · rintro ⟨a, ha, rfl⟩
      rcases List.mem_cons.1 ((insertNode_perm n _).subset ha) with rfl | ha'
      · exact .inl rfl
      · exact .inr ⟨a, ((hmem a).1 ha').1, rfl⟩
    · rintro (rfl | ⟨a, ha, rfl⟩)
      · exact ⟨n, (insertNode_perm n _).symm.subset (.head _), rfl⟩
      · by_cases he : a.member = n.member
        · exact ⟨n, (insertNode_perm n _).symm.subset (.head _), he.symm⟩
        · exact ⟨a, (insertNode_perm n _).symm.subset (.tail _ ((hmem a).2 ⟨ha, he⟩)), rfl⟩

/-- All pairs bring theirs, and the count is of those that were not there. -/
theorem zaddNodes_count (h : (arr.map (·.member)).Nodup) (ns : List ArZNode) (added : Nat) :
    (Spec.zaddNodes ns arr added).2 = added + (membersOf ns \ membersOf arr).card := by
  induction ns generalizing arr added with
  | nil => simp [Spec.zaddNodes, membersOf]
  | cons n ns ih =>
    obtain ⟨hn, hm⟩ := membersOf_put h n
    unfold Spec.zaddNodes
    rw [ih hn, hm, membersOf_cons]
    by_cases hmem : n.member ∈ membersOf arr
    · have hnone : ¬(Spec.member? arr n.member).isNone = true := fun hc => member?_isNone.1 hc hmem
      rw [if_neg hnone, Finset.insert_eq_of_mem hmem, Finset.insert_sdiff_of_mem _ hmem, Nat.add_zero]
    · have hins : insert n.member (membersOf ns) \ membersOf arr =
          insert n.member (membersOf ns \ insert n.member (membersOf arr)) := by
        rw [Finset.insert_sdiff_of_notMem _ hmem, Finset.sdiff_insert]
        ext m
        by_cases hm : m = n.member <;> simp [hm]
      rw [if_pos (member?_isNone.2 hmem), hins, Finset.card_insert_of_notMem fun hc =>
        (Finset.mem_sdiff.1 hc).2 (Finset.mem_insert_self _ _)]
      omega

/-- The pairs with new members are at least as many as these. -/
theorem card_le_newPairs (z : ArZSet) (ns : List ArZNode) :
    (membersOf ns \ membersOf z.arr).card ≤ z.newPairs ns := by
  have hsub : membersOf ns \ membersOf z.arr ⊆ membersOf (ns.filter fun n => (z.find n.member).isNone) := by
    intro m hm
    obtain ⟨hns, harr⟩ := Finset.mem_sdiff.1 hm
    obtain ⟨n, hn, rfl⟩ := mem_membersOf.1 hns
    exact mem_membersOf.2 ⟨n, List.mem_filter.2 ⟨hn, member?_isNone.2 harr⟩, rfl⟩
  calc (membersOf ns \ membersOf z.arr).card
      ≤ (membersOf (ns.filter fun n => (z.find n.member).isNone)).card := Finset.card_le_card hsub
    _ ≤ (ns.filter fun n => (z.find n.member).isNone).length := by
        refine (List.toFinset_card_le _).trans ?_
        rw [List.length_map]
    _ = z.newPairs ns := List.countP_eq_length_filter.symm

/-- The members there are after all pairs. -/
theorem card_after (h : (arr.map (·.member)).Nodup) (ns : List ArZNode) :
    (membersOf arr ∪ membersOf ns).card = arr.length + (membersOf ns \ membersOf arr).card := by
  rw [← Finset.union_sdiff_self_eq_union, Finset.card_union_of_disjoint Finset.disjoint_sdiff, card_membersOf h]

end

/-! ## ZADD -/

/-- What `ZADD` replies. -/
def zaddReply (c : Nat) (argv : List Bytes) : ArCore.ZaddResult → Code Unit
  | .wrongType => replyWrongType c
  | .oversize => replyErr c "ERR zset max members exceeded (Tier-2 sorted-array cap)"
  | .noMemory => replyErr c "ERR zadd failed"
  | .added n => do
    replPropagate argv
    replyInt c n

/-- `ZADD` refuses the pairs and leaves the key as it is when the members there would be are more than a set may
have, and else answers how many it brings. -/
def ZaddExact (t : Nat) (key : Bytes) (i : Item) (arr ns : List ArZNode) (x : ArCore × ArCore.ZaddResult) : Prop :=
  if ArCore.zsetMaxMembers < (membersOf arr ∪ membersOf ns).card then x.2 = .oversize ∧ x.1.peek t key = some i
  else x.2 = .added (membersOf ns \ membersOf arr).card

section
variable [Libc] {E : Env} {t : Nat} {c : ArCore} {key : Bytes} {i : Item} {z : ArZSet}

theorem zadd_eq {argv : List Bytes} {ns : List ArZNode} (hargc : 4 ≤ argv.length) (hpairs : (argv.length - 2) % 2 = 0)
    (hnp : (argv.length - 2) / 2 ≤ 64) (hns : Dispatch.zaddArgs (argv.drop 2) = some ns) (conn : Nat) :
    Dispatch.zadd conn argv = call (.arZsetZadd (arg argv 1) ns) >>= zaddReply conn argv := by
  unfold Dispatch.zadd
  rw [if_neg (by omega), if_neg (show ¬(argv.length - 2) / 2 > maxNames from by exact Nat.not_lt.2 hnp), hns]
  refine congrArg (call (.arZsetZadd (arg argv 1) ns) >>= ·) (funext fun a => ?_)
  cases a <;> rfl

/-- **Where the cap of `ZADD` is exact**: when the members there would be are too many, or when the pairs with
members that are not there fit with each of them counted. -/
theorem zadd_cap (hE : E.Frozen t) (hwf : c.WF) (hp : c.peek t key = some i) (ho : i.obj = .zset z)
    (ns : List ArZNode) :
    (∀ (conn : Nat) (argv : List Bytes), 4 ≤ argv.length → (argv.length - 2) % 2 = 0 →
      (argv.length - 2) / 2 ≤ 64 → arg argv 1 = key → Dispatch.zaddArgs (argv.drop 2) = some ns →
      Dispatch.zadd conn argv = call (.arZsetZadd key ns) >>= zaddReply conn argv) ∧
    (E.AllocOk →
      (ZaddExact t key i z.arr ns (c.arZsetZadd E key ns) ↔
        ArCore.zsetMaxMembers < (membersOf z.arr ∪ membersOf ns).card ∨
          z.arr.length + z.newPairs ns ≤ ArCore.zsetMaxMembers)) := by
  refine ⟨fun conn argv hargc hpairs hnp hkey hns => hkey ▸ zadd_eq hargc hpairs hnp hns conn, fun ha => ?_⟩
  have hz := wf_of_peek_zset hE hwf hp ho
  have hcard := card_after hz.nodup ns
  have hle := card_le_newPairs z ns
  have hlen := hz.len
  obtain ⟨hover, hfits⟩ := arZsetZadd_found hE hwf hp ho ns
  unfold ZaddExact
  by_cases hr : z.Refuses ns
  · obtain ⟨hans, hpeek⟩ := hover hr
    obtain ⟨-, hgt⟩ := hr
    rw [hans]
    split
    · next hmany => exact iff_of_true ⟨rfl, hpeek⟩ (.inl hmany)
    · next hmany =>
      refine iff_of_false (fun h => by cases h) ?_
      rintro (h | h)
      · exact hmany h
      · omega
  · obtain ⟨n, hans, hn⟩ := hfits hr
    have hfew : z.arr.length + z.newPairs ns ≤ ArCore.zsetMaxMembers := by
      by_contra hc
      exact hr ⟨by omega, by omega⟩
    rw [if_neg (by omega), hans, hn ha, zaddNodes_count hz.nodup, Nat.zero_add]
    exact iff_of_true rfl (.inr hfew)

end

/-! ## A set that is filled -/

/-- A member of `n + 1` letters. -/
def letters (n : Nat) : ArZNode := ⟨⟨0#64⟩, List.replicate (n + 1) 0x61⟩

/-- The core after a `ZADD` for each of the first `n` of these members. -/
def filled : Nat → ArCore
  | 0 => .arCoreCreate
  | n + 1 => (ArOp.run (.steady 1) (filled n) (.arZsetZadd (lit "z") [letters n])).1

theorem letters_injective : Function.Injective fun n => (letters n).member := by
  intro m n h
  have hlen := congrArg List.length h
  simpa [letters] using hlen

theorem reachable_filled (n : Nat) : ArCore.Reachable (filled n) := by
  induction n with
  | zero => exact .create
  | succ n ih => exact .call (.steady 1 (.arZsetZadd (lit "z") [letters n])) ih

theorem step_self {β : Type} (t : Nat) (key : Bytes) (f : Option Slot → Option Slot × β) (s : Store) :
    (s.step t key f).1 key = Store.alive t (f (s key)).1 := Function.update_self key _ s

theorem view_filled {n : Nat} (hn : n ≤ ArCore.zsetMaxMembers) :
    (filled n).cfg.evict = .noop ∧
      ∃ arr, (arr.map (·.member)).Nodup ∧ membersOf arr = (Finset.range n).image (fun j => (letters j).member) ∧
        (filled n).view 1 (lit "z") = zsetSlot arr := by
  induction n with
  | zero => exact ⟨rfl, [], .nil, rfl, by decide +kernel⟩
  | succ n ih =>
    obtain ⟨hk, arr, hnd, hmem, hv⟩ := ih (Nat.le_of_succ_le hn)
    obtain ⟨hm, hk'⟩ := means_run (x := .steady 1 (.arZsetZadd (lit "z") [letters n])) (reachable_filled n).wf hk
      (fun _ => rfl) rfl
    obtain ⟨hnd', hmem'⟩ := membersOf_put hnd (letters n)
    have hview := congrFun (congrArg Prod.fst hm) (lit "z")
    have hnone : (Spec.member? arr (letters n).member).isNone = true := by
      rw [member?_isNone, hmem, Finset.mem_image]
      rintro ⟨j, hj, he⟩
      have hlt := Finset.mem_range.1 hj
      have := letters_injective he
      omega
    have hlen : arr.length = n := by
      rw [← card_membersOf hnd, hmem, Finset.card_image_of_injective _ letters_injective, Finset.card_range]
    have hfits : ¬([letters n].countP (fun x => (Spec.member? arr x.member).isNone) > 0 ∧
        arr.length + [letters n].countP (fun x => (Spec.member? arr x.member).isNone) > ArCore.zsetMaxMembers) := by
      rw [List.countP_singleton, if_pos hnone, hlen]
      exact fun h => Nat.not_lt.2 hn h.2
    have hsome : arr ≠ [] ∨ [letters n] ≠ [] := .inr (List.cons_ne_nil (letters n) [])
    have hne := zaddNodes_ne_nil hsome 0
    refine ⟨hk', _, hnd', ?_, hview.trans ((step_self ..).trans ?_)⟩
    · rw [hmem', hmem, Finset.range_add_one, Finset.image_insert]
    · refine (congrArg (fun s => Store.alive 1 (Spec.zadd [letters n] s).1) hv).trans ?_
      rw [zadd_zsetSlot (List.cons_ne_nil _ _)]
      simp only [if_neg hfits]
      rw [← alive_zsetSlot 1, zsetSlot, if_neg (by exact hne)]
      rfl

theorem peek_filled :
    (filled 2).peek 1 (lit "z") = some ⟨lit "z", .zset ⟨[letters 0, letters 1], 8⟩, false, 0⟩ := by
  decide +kernel

/-- A member that is there and a new one twice. -/
theorem zadd_cap_fits :
    ZaddExact 1 (lit "z") ⟨lit "z", .zset ⟨[letters 0, letters 1], 8⟩, false, 0⟩ [letters 0, letters 1]
      [letters 0, letters 2, letters 2]
      ((filled 2).arZsetZadd (.steady 1) (lit "z") [letters 0, letters 2, letters 2]) :=
  ((@zadd_cap smallLibc _ 1 _ _ _ _ (fun _ => rfl) (reachable_filled 2).wf peek_filled rfl
    [letters 0, letters 2, letters 2]).2 fun _ => rfl).2 (.inr (by decide))

/-- `ZADD z 0 m 0 m`, of one member, is refused by a set of 4095 members. -/
theorem zadd_repeated :
    ∃ (i : Item) (z : ArZSet), ArCore.Reachable (filled 4095) ∧ (filled 4095).peek 1 (lit "z") = some i ∧
      i.obj = .zset z ∧ z.arr.length = 4095 ∧
      ((filled 4095).arZsetZadd (.steady 1) (lit "z") [letters 4095, letters 4095]).2 = .oversize ∧
      (membersOf z.arr ∪ membersOf [letters 4095, letters 4095]).card = 4096 := by
  obtain ⟨-, arr, hnd, hmem, hv⟩ := view_filled (n := 4095) (by decide)
  have hlen : arr.length = 4095 := by
    rw [← card_membersOf hnd, hmem, Finset.card_image_of_injective _ letters_injective, Finset.card_range]
  have hnew : (letters 4095).member ∉ membersOf arr := by
    rw [hmem, Finset.mem_image]
    rintro ⟨j, hj, he⟩
    have hlt := Finset.mem_range.1 hj
    have hj' := letters_injective he
    omega
  rw [zsetSlot, if_neg fun h => by rw [h] at hlen; cases hlen] at hv
  obtain ⟨i, hp, hs⟩ := Option.map_eq_some_iff.1 hv
  have habs : i.obj.abs = .zset arr := congrArg Prod.fst hs
  cases ho : i.obj with
  | zset z =>
    rw [ho] at habs
    obtain rfl : z.arr = arr := AVal.zset.inj habs
    have hnone : (z.find (letters 4095).member).isNone = true := member?_isNone.2 hnew
    have hpairs : z.newPairs [letters 4095, letters 4095] = 2 := by simp [ArZSet.newPairs, hnone]
    obtain ⟨hover, -⟩ := arZsetZadd_found (E := .steady 1) (fun _ => rfl) (reachable_filled 4095).wf hp ho
      [letters 4095, letters 4095]
    refine ⟨i, z, reachable_filled 4095, hp, ho, hlen, (hover ⟨?_, ?_⟩).1, ?_⟩
    · rw [hpairs]
      decide
    · rw [hpairs, hlen]
      decide
    · rw [card_after hnd, hlen]
      have hone : membersOf [letters 4095, letters 4095] \ membersOf z.arr = {(letters 4095).member} := by
        rw [membersOf_cons, membersOf_cons, Finset.insert_idem, Finset.insert_sdiff_of_notMem _ hnew,
          show membersOf [] = ∅ from rfl, Finset.empty_sdiff]
        rfl
      rw [hone, Finset.card_singleton]
  | string _ | hash _ | list _ => rw [ho] at habs; cases habs

end AuraRedis
