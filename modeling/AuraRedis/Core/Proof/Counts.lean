import AuraRedis.Core.Dict
import Mathlib.Algebra.BigOperators.Group.Multiset.Basic
import Mathlib.Data.Multiset.Filter

/-!
# The accounting is exact

`Mem.Counts m s`: the counters of `m` are those of the items of `s`. Each lemma below is one change of
the source, on the item it changes (`Counts.cons_iff` splits the item off).
-/

set_option autoImplicit false

namespace AuraRedis

/-- **The accounting**, of the items of `s`. -/
structure Mem.Counts (m : Mem) (s : Multiset Item) : Prop where
  used : m.usedMemory = (s.map Item.total).sum
  typeNkeys : ∀ T, m.typeNkeys T = s.countP (·.obj.type = T)
  typeBytes : ∀ T, m.typeBytes T = ((s.filter (·.obj.type = T)).map Item.total).sum
  ttl : m.keysWithTtl = s.countP (·.expireAt ≠ 0)

namespace Mem

/-- A deadline is no matter of bytes. -/
theorem clearExpire_bytes (m : Mem) (old : Nat) :
    (m.clearExpire old).usedMemory = m.usedMemory ∧ (m.clearExpire old).typeNkeys = m.typeNkeys ∧
      (m.clearExpire old).typeBytes = m.typeBytes := by
  unfold clearExpire
  split <;> exact ⟨rfl, rfl, rfl⟩

theorem setExpireAt_bytes (m : Mem) (old new : Nat) :
    (m.setExpireAt old new).usedMemory = m.usedMemory ∧
      (m.setExpireAt old new).typeNkeys = m.typeNkeys ∧
      (m.setExpireAt old new).typeBytes = m.typeBytes := by
  unfold setExpireAt
  simp only
  split
  · exact m.clearExpire_bytes old
  · exact m.clearExpire_bytes old

end Mem

namespace Mem.Counts

variable {m : Mem} {s : Multiset Item} {i : Item}

theorem typeBytes_cons (T : ArType) :
    (((i ::ₘ s).filter (·.obj.type = T)).map Item.total).sum =
      (if i.obj.type = T then i.total else 0) +
        ((s.filter (·.obj.type = T)).map Item.total).sum := by
  rw [Multiset.filter_cons]
  split <;> simp

/-- One item apart. -/
theorem cons_iff : m.Counts (i ::ₘ s) ↔
    m.usedMemory = i.total + (s.map Item.total).sum ∧
    (∀ T, m.typeNkeys T = s.countP (·.obj.type = T) + if i.obj.type = T then 1 else 0) ∧
    (∀ T, m.typeBytes T = (if i.obj.type = T then i.total else 0) +
      ((s.filter (·.obj.type = T)).map Item.total).sum) ∧
    m.keysWithTtl = s.countP (·.expireAt ≠ 0) + if i.expireAt ≠ 0 then 1 else 0 := by
  constructor
  · intro h
    refine ⟨?_, fun T => ?_, fun T => ?_, ?_⟩
    · rw [h.used, Multiset.map_cons, Multiset.sum_cons]
    · rw [h.typeNkeys, Multiset.countP_cons]
    · rw [h.typeBytes, typeBytes_cons]
    · rw [h.ttl, Multiset.countP_cons]
  · intro ⟨h₁, h₂, h₃, h₄⟩
    refine ⟨?_, fun T => ?_, fun T => ?_, ?_⟩
    · rw [h₁, Multiset.map_cons, Multiset.sum_cons]
    · rw [h₂, Multiset.countP_cons]
    · rw [h₃, typeBytes_cons]
    · rw [h₄, Multiset.countP_cons]

/-- An empty key space. -/
theorem zero (h₁ : m.usedMemory = 0) (h₂ : m.typeNkeys = fun _ => 0)
    (h₃ : m.typeBytes = fun _ => 0) (h₄ : m.keysWithTtl = 0) : m.Counts 0 := by
  refine ⟨?_, fun T => ?_, fun T => ?_, ?_⟩
  · rw [h₁, Multiset.map_zero, Multiset.sum_zero]
  · rw [h₂, Multiset.countP_zero]
  · rw [h₃, Multiset.filter_zero, Multiset.map_zero, Multiset.sum_zero]
  · rw [h₄, Multiset.countP_zero]

/-- The accounting says nothing about pins. -/
theorem of_pinned {n : Nat} (h : m.Counts s) : ({ m with pinnedKeys := n } : Mem).Counts s :=
  ⟨h.used, h.typeNkeys, h.typeBytes, h.ttl⟩

/-- Nor do the items' pins count. -/
theorem pin (h : m.Counts (i ::ₘ s)) (b : Bool) : m.Counts ({ i with pinned := b } ::ₘ s) := by
  rw [cons_iff] at h ⊢
  exact h

/-- An entry is linked. -/
theorem insert (h : m.Counts s) (hi : i.expireAt = 0) :
    ((m.add i.total).addKey i.obj.type i.total).Counts (i ::ₘ s) := by
  rw [cons_iff, hi]
  refine ⟨?_, fun T => ?_, fun T => ?_, ?_⟩
  · show m.usedMemory + i.total = _
    rw [h.used, Nat.add_comm]
  · have := h.typeNkeys T
    simp only [addKey, add, Function.update_apply]
    split <;> rename_i hT
    · subst hT
      simp [this]
    · rw [this, if_neg fun he => hT he.symm, Nat.add_zero]
  · have := h.typeBytes T
    simp only [addKey, add, Function.update_apply]
    split <;> rename_i hT
    · subst hT
      simp [this, Nat.add_comm]
    · rw [this, if_neg fun he => hT he.symm, Nat.zero_add]
  · exact h.ttl

/-- A deadline is cleared: one less that has one. -/
theorem ttl_clearExpire (h : m.Counts (i ::ₘ s)) :
    (m.clearExpire i.expireAt).keysWithTtl = s.countP (·.expireAt ≠ 0) := by
  have h₄ := (cons_iff.1 h).2.2.2
  unfold Mem.clearExpire
  split <;> rename_i hi
  · rw [h₄, if_neg (by simp [hi]), Nat.add_zero]
  · show m.keysWithTtl - 1 = _
    rw [h₄, if_pos hi, Nat.add_sub_cancel]

/-- An entry is released. -/
theorem remove (h : m.Counts (i ::ₘ s)) :
    (((m.clearExpire i.expireAt).subKey i.obj.type i.total).sub i.total).Counts s := by
  obtain ⟨h₁, h₂, h₃, -⟩ := cons_iff.1 h
  obtain ⟨hu, hn, hb⟩ := m.clearExpire_bytes i.expireAt
  have ht := h.ttl_clearExpire
  refine ⟨?_, fun T => ?_, fun T => ?_, ht⟩
  · simp only [sub, subKey, hu]
    rw [if_pos (by omega)]
    omega
  · have := h₂ T
    simp only [sub, subKey, Function.update_apply, hn]
    split <;> rename_i hT
    · subst hT
      simp [this]
    · rw [this, if_neg fun he => hT he.symm, Nat.add_zero]
  · have := h₃ T
    simp only [sub, subKey, Function.update_apply, hb]
    split <;> rename_i hT
    · subst hT
      rw [if_pos rfl] at this
      rw [if_pos (by omega)]
      omega
    · rw [this, if_neg fun he => hT he.symm, Nat.zero_add]

/-- A deadline is set, or cleared. -/
theorem deadline (h : m.Counts (i ::ₘ s)) (new : Nat) :
    (m.setExpireAt i.expireAt new).Counts ({ i with expireAt := new } ::ₘ s) := by
  obtain ⟨h₁, h₂, h₃, -⟩ := cons_iff.1 h
  obtain ⟨hu, hn, hb⟩ := m.setExpireAt_bytes i.expireAt new
  have ht := h.ttl_clearExpire
  rw [cons_iff, hu, hn, hb]
  refine ⟨h₁, h₂, h₃, ?_⟩
  unfold setExpireAt
  simp only
  split <;> rename_i hn
  · rw [ht, if_neg (by simp [hn]), Nat.add_zero]
  · show (m.clearExpire i.expireAt).keysWithTtl + 1 = _
    rw [ht]

theorem clearExpire (h : m.Counts (i ::ₘ s)) :
    (m.clearExpire i.expireAt).Counts ({ i with expireAt := 0 } ::ₘ s) := h.deadline 0

/-- The bytes of an item change by a difference. -/
theorem grow {j : Item} (h : m.Counts (i ::ₘ s)) (hj : j.obj.type = i.obj.type)
    (he : j.expireAt = i.expireAt) (n : Nat) (hn : j.total = i.total + n) :
    ((m.add n).bytesDelta i.obj.type (n : Int)).Counts (j ::ₘ s) := by
  obtain ⟨h₁, h₂, h₃, h₄⟩ := cons_iff.1 h
  rw [cons_iff, hj, he]
  refine ⟨?_, h₂, fun T => ?_, h₄⟩
  · show m.usedMemory + n = _
    omega
  · have := h₃ T
    simp only [bytesDelta, add, Function.update_apply, Int.natCast_nonneg, ge_iff_le, if_true,
      Int.toNat_natCast]
    split <;> rename_i hT
    · subst hT
      rw [if_pos rfl] at this ⊢
      omega
    · rw [this, if_neg fun he => hT he.symm, if_neg fun he => hT he.symm]

theorem fall {j : Item} (h : m.Counts (i ::ₘ s)) (hj : j.obj.type = i.obj.type)
    (he : j.expireAt = i.expireAt) (n : Nat) (hn : i.total = j.total + n) :
    ((m.sub n).bytesDelta i.obj.type (-(n : Int))).Counts (j ::ₘ s) := by
  obtain ⟨h₁, h₂, h₃, h₄⟩ := cons_iff.1 h
  rw [cons_iff, hj, he]
  refine ⟨?_, h₂, fun T => ?_, h₄⟩
  · simp only [bytesDelta, sub]
    rw [if_pos (by omega)]
    omega
  · have := h₃ T
    simp only [bytesDelta, sub, Function.update_apply, Int.natAbs_neg, Int.natAbs_natCast]
    split <;> rename_i hT
    · subst hT
      rw [if_pos rfl] at this ⊢
      split
      · omega
      · rw [if_pos (by omega)]
        omega
    · rw [this, if_neg fun he => hT he.symm, if_neg fun he => hT he.symm]

/-- A container changes. -/
theorem resize {obj : ArObj} (h : m.Counts (i ::ₘ s)) (ht : obj.type = i.obj.type) :
    (m.resize obj.type i.obj.payloadBytes obj.payloadBytes).Counts ({ i with obj := obj } ::ₘ s) := by
  unfold Mem.resize
  rw [ht]
  split
  · exact h.grow (j := { i with obj := obj }) ht rfl _ (by simp only [Item.total]; omega)
  · exact h.fall (j := { i with obj := obj }) ht rfl _ (by simp only [Item.total]; omega)

/-- A container shrinks. -/
theorem shrink {obj : ArObj} (h : m.Counts (i ::ₘ s)) (ht : obj.type = i.obj.type)
    (hle : obj.payloadBytes ≤ i.obj.payloadBytes) :
    (m.shrink obj.type i.obj.payloadBytes obj.payloadBytes).Counts ({ i with obj := obj } ::ₘ s) := by
  unfold Mem.shrink
  rw [ht, if_pos hle]
  exact h.fall (j := { i with obj := obj }) ht rfl _ (by simp only [Item.total]; omega)

/-- A key changes its name. -/
theorem rekey {key : Bytes} (h : m.Counts (i ::ₘ s)) :
    (m.rekey i.obj.type i.key.length key.length).Counts ({ i with key := key } ::ₘ s) := by
  unfold Mem.rekey
  split
  · exact h.grow (j := { i with key := key }) rfl rfl _ (by simp only [Item.total]; omega)
  · split
    · exact h.fall (j := { i with key := key }) rfl rfl _ (by simp only [Item.total]; omega)
    · have hl : i.key.length = key.length := by omega
      have ht : Item.total { i with key := key } = i.total := by simp only [Item.total, hl]
      rw [cons_iff] at h ⊢
      rwa [ht]

/-- A string takes the place of a string. -/
theorem setString (h : m.Counts (i ::ₘ s)) (val : Bytes) (ht : i.obj.type = .string) :
    ((((m.subWrap i.obj.payloadBytes).bytesDelta .string (-(i.obj.payloadBytes : Int))).add
      val.length).bytesDelta .string val.length).Counts ({ i with obj := .string val } ::ₘ s) := by
  have hsub : m.subWrap i.obj.payloadBytes = m.sub i.obj.payloadBytes := by
    have := (cons_iff.1 h).1
    simp only [Item.total] at this
    unfold subWrap sub
    rw [if_pos (by omega), if_pos (by omega)]
  have hempty : ((m.subWrap i.obj.payloadBytes).bytesDelta .string
      (-(i.obj.payloadBytes : Int))).Counts ({ i with obj := .string [] } ::ₘ s) := by
    rw [hsub, ← ht]
    exact h.fall (j := { i with obj := .string [] }) ht.symm rfl _
      (by simp only [Item.total, ArObj.payloadBytes, List.length_nil]; omega)
  exact hempty.grow (j := { i with obj := .string val }) rfl rfl _
    (by simp only [Item.total, ArObj.payloadBytes, List.length_nil]; omega)

/-- The value of another type goes, and leaves the shell of an empty string. -/
theorem retype (h : m.Counts (i ::ₘ s)) :
    (((m.subKey i.obj.type (i.key.length + i.obj.payloadBytes + entrySize)).sub
      i.obj.payloadBytes).addKey .string (i.key.length + entrySize)).Counts
      ({ i with obj := .string [] } ::ₘ s) := by
  obtain ⟨h₁, h₂, h₃, h₄⟩ := cons_iff.1 h
  have htotal : i.total = i.key.length + i.obj.payloadBytes + entrySize := rfl
  have hshell : Item.total { i with obj := .string [] } = i.key.length + entrySize := rfl
  rw [cons_iff, hshell]
  refine ⟨?_, fun T => ?_, fun T => ?_, h₄⟩
  · show (if m.usedMemory ≥ i.obj.payloadBytes then m.usedMemory - i.obj.payloadBytes else 0) = _
    split <;> omega
  · have := h₂ T
    simp only [addKey, sub, subKey, Function.update_apply]
    have hs : ArObj.type (.string []) = .string := rfl
    rw [hs]
    by_cases h₁ : T = i.obj.type <;> by_cases h₂ : T = .string
    · subst h₁; rw [h₂] at this ⊢; simp [this]
    · subst h₁; simp [h₂, Ne.symm h₂, this]
    · subst h₂; simp [h₁, Ne.symm h₁, this]
    · simp [h₁, h₂, Ne.symm h₁, Ne.symm h₂, this]
  · have := h₃ T
    simp only [addKey, sub, subKey, Function.update_apply]
    have hs : ArObj.type (.string []) = .string := rfl
    rw [hs]
    by_cases h₁ : T = i.obj.type <;> by_cases h₂ : T = .string
    · subst h₁
      rw [if_pos rfl] at this
      rw [h₂] at this ⊢
      simp only [if_true]
      rw [if_pos (by omega)]
      omega
    · subst h₁
      rw [if_pos rfl] at this
      simp only [h₂, Ne.symm h₂, if_true, if_false]
      rw [if_pos (by omega)]
      omega
    · subst h₂
      simp only [h₁, Ne.symm h₁, if_true, if_false] at this ⊢
      omega
    · simp only [h₁, h₂, Ne.symm h₁, Ne.symm h₂, if_false] at this ⊢
      exact this

end Mem.Counts

end AuraRedis
