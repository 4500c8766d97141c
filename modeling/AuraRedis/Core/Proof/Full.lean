import AuraRedis.Core.Proof.Key

/-!
# Containers that stay full

What the operations on containers mean leaves no empty container: a write puts something in, and a removal
that takes the last element takes the key.
-/

set_option autoImplicit false

namespace AuraRedis

theorem full_insert (m : FieldMap) (field val : Bytes) : (AVal.hash (m.insert field val)).Full := by
  intro hc
  have h0 : (m.insert field val).entries = 0 := Multiset.card_eq_zero.1 hc
  have hm : field ∈ m.insert field val := Finmap.mem_insert.2 (.inl rfl)
  rw [Finmap.mem_def, h0] at hm
  simp at hm

theorem full_hsetPairs {pairs : List (Bytes × Bytes)} {m : FieldMap} (n : Nat)
    (h : pairs ≠ [] ∨ (AVal.hash m).Full) : (AVal.hash (Spec.hsetPairs pairs m n).1).Full := by
  induction pairs generalizing m n with
  | nil => exact h.resolve_left fun hne => hne rfl
  | cons p pairs ih =>
    unfold Spec.hsetPairs
    exact ih _ (.inr (full_insert m p.1 p.2))

/-- A write to a container that is created when it is missing. -/
theorem slotFull_orCreate {β : Type} {empty : AVal} {f : AVal → Nat → Option Slot × β} {s : Option Slot}
    (hs : SlotFull s) (h0 : SlotFull (f empty 0).1) (h : ∀ v d, v.Full → SlotFull (f v d).1) :
    SlotFull (Spec.orCreate empty s f).1 := by
  cases s with
  | none => exact h0
  | some x => exact h x.1 x.2 (hs x rfl)

theorem slotFull_of {v : AVal} {d : Nat} (h : v.Full) : SlotFull (some (v, d)) := fun x hx => by
  cases hx
  exact h

theorem keepsFull_hset (pairs : List (Bytes × Bytes)) : KeepsFull (Spec.hset pairs) := by
  intro s hs
  unfold Spec.hset
  split
  · exact hs
  · next hp =>
    have hne : pairs ≠ [] := by simpa using hp
    refine slotFull_orCreate hs (slotFull_of (full_hsetPairs 0 (.inl hne))) fun v d hv => ?_
    cases v with
    | hash m => exact slotFull_of (full_hsetPairs 0 (.inl hne))
    | string _ | list _ | zset _ => exact slotFull_of hv

theorem keepsFull_hincrby (field : Bytes) (incr : Int) : KeepsFull (Spec.hincrby field incr) := by
  intro s hs
  unfold Spec.hincrby
  refine slotFull_orCreate hs (slotFull_of (full_insert ∅ field _)) fun v d hv => ?_
  cases v with
  | hash m =>
    dsimp only
    split
    · exact slotFull_of hv
    · exact slotFull_of (full_insert m field _)
  | string _ | list _ | zset _ => exact slotFull_of hv

theorem keepsFull_hdel (fields : List Bytes) : KeepsFull (Spec.hdel fields) := by
  intro s hs
  unfold Spec.hdel
  split
  · exact hs
  · dsimp only
    split
    · exact slotFull_none
    · next hne => exact slotFull_of hne
  · exact hs

theorem keepsFull_push (left : Bool) (vals : List Bytes) : KeepsFull (Spec.push left vals) := by
  intro s hs
  unfold Spec.push
  split
  · exact hs
  · next hp =>
    have hne : vals ≠ [] := by simpa using hp
    have hfull : ∀ l, (AVal.list (Spec.pushVals left vals l)).Full := by
      intro l
      unfold Spec.pushVals AVal.Full
      cases left <;> simp [hne]
    refine slotFull_orCreate hs (slotFull_of (hfull [])) fun v d hv => ?_
    cases v with
    | list l => exact slotFull_of (hfull l)
    | string _ | hash _ | zset _ => exact slotFull_of hv

theorem slotFull_orNone (l : List Bytes) (d : Nat) : SlotFull (Spec.orNone l d) := by
  unfold Spec.orNone
  split
  · exact slotFull_none
  · next hne => exact slotFull_of (by simpa [AVal.Full] using hne)

theorem keepsFull_pop (left : Bool) : KeepsFull (Spec.pop left) := by
  intro s hs
  unfold Spec.pop
  split
  · exact hs
  · split
    · exact hs
    · exact slotFull_orNone _ _
  · exact hs

theorem keepsFull_lrem (count : Int) (elem : Bytes) : KeepsFull (Spec.lrem count elem) := by
  intro s hs
  unfold Spec.lrem
  split
  · exact hs
  · exact slotFull_orNone _ _
  · exact hs

theorem keepsFull_ltrim (start stop : Int) : KeepsFull (Spec.ltrim start stop) := by
  intro s hs
  unfold Spec.ltrim
  split
  · exact hs
  · dsimp only
    split
    · exact slotFull_none
    · exact slotFull_orNone _ _
  · exact hs

theorem insertNode_ne_nil (n : ArZNode) (arr : List ArZNode) : ArZSet.insertNode n arr ≠ [] := by
  cases arr with
  | nil => simp [ArZSet.insertNode]
  | cons x arr =>
    unfold ArZSet.insertNode
    split <;> simp

theorem zaddNodes_ne_nil {ns arr : List ArZNode} (h : arr ≠ [] ∨ ns ≠ []) (k : Nat) :
    (Spec.zaddNodes ns arr k).1 ≠ [] := by
  induction ns generalizing arr k with
  | nil => simpa [Spec.zaddNodes] using h
  | cons n ns ih =>
    unfold Spec.zaddNodes
    exact ih (.inl (insertNode_ne_nil _ _)) _

/-- `ZADD` of no more members than the cap allows is not refused on a new key. -/
theorem keepsFull_zadd {ns : List ArZNode} (hcap : ns.length ≤ ArCore.zsetMaxMembers) :
    KeepsFull (Spec.zadd ns) := by
  intro s hs
  unfold Spec.zadd
  split
  · exact hs
  · next hp =>
    have hne : ns ≠ [] := by simpa using hp
    refine slotFull_orCreate hs ?_ fun v d hv => ?_
    · have hle := List.countP_le_length (p := fun n => (Spec.member? [] n.member).isNone) (l := ns)
      dsimp only
      rw [if_neg (by simp only [List.length_nil]; omega)]
      exact slotFull_of (zaddNodes_ne_nil (.inr hne) 0)
    · cases v with
      | zset arr =>
        dsimp only
        split
        · exact slotFull_of hv
        · exact slotFull_of (zaddNodes_ne_nil (.inr hne) 0)
      | string _ | hash _ | list _ => exact slotFull_of hv

theorem keepsFull_zrem (members : List Bytes) : KeepsFull (Spec.zrem members) := by
  intro s hs
  unfold Spec.zrem
  split
  · exact hs
  · dsimp only
    split
    · exact slotFull_none
    · next hne => exact slotFull_of (by simpa [AVal.Full] using hne)
  · exact hs

end AuraRedis
