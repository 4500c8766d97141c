import AuraRedis.Core.Proof.Runs

/-!
# What the other counters count

Three readings of the journal. `keys_with_ttl` and `expire_at_sum` are exact as long as no sum of deadlines
reaches `2 ^ 64` (`Ttl`, `ttl_runs`); `pinned_keys` counts the pinned entries and those that `FLUSHDB` has
dropped (`pinned_keys_iff`); the counters of the types and the global ones agree, whatever goes unbooked
(`Agree`, `type_stats_runs`).
-/

set_option autoImplicit false

namespace AuraRedis

namespace Mem

theorem pinnedKeys_clearExpire (m : Mem) (at_ : Nat) : (m.clearExpire at_).pinnedKeys = m.pinnedKeys := by
  unfold Mem.clearExpire
  split <;> rfl

theorem pinnedKeys_setExpireAt (m : Mem) (old new : Nat) :
    (m.setExpireAt old new).pinnedKeys = m.pinnedKeys := by
  unfold Mem.setExpireAt
  simp only
  split <;> exact pinnedKeys_clearExpire m old

end Mem

namespace Ledger

/-! ## Deadlines -/

/-- The sum of the deadlines. -/
def deadlines (s : Multiset Item) : Nat := (s.map Item.expireAt).sum

theorem deadlines_cons (i : Item) (s : Multiset Item) : deadlines (i ::ₘ s) = i.expireAt + deadlines s := by
  rw [deadlines, Multiset.map_cons, Multiset.sum_cons, deadlines]

/-- The deadlines of the keys other than `key`. -/
def others (key : Bytes) (s : Multiset Item) : Nat := deadlines (s.filter (·.key ≠ key))

theorem others_cons (key : Bytes) (i : Item) (s : Multiset Item) :
    others key (i ::ₘ s) = (if i.key ≠ key then i.expireAt else 0) + others key s := by
  unfold others
  by_cases h : i.key ≠ key
  · rw [Multiset.filter_cons_of_pos s h, deadlines_cons, if_pos h]
  · rw [Multiset.filter_cons_of_neg s h, if_neg h, Nat.zero_add]

theorem others_eq {key : Bytes} {s : Multiset Item} (h : ∀ j ∈ s, j.key ≠ key) : others key s = deadlines s := by
  rw [others, Multiset.filter_eq_self.2 h]

/-- **The statistics of the deadlines are exact**, and there is room for the one that is asked for. -/
structure Ttl (B : Terms) (a : Ledger) : Prop where
  count : a.1.keysWithTtl = a.2.countP (·.expireAt ≠ 0)
  sum : a.1.expireAtSum = deadlines a.2
  lt : deadlines a.2 < 2 ^ 64
  room : ∀ key d, B.asked = some (key, d) → others key a.2 + d < 2 ^ 64

variable {B : Terms} {m : Mem} {s : Multiset Item} {i j : Item}

/-- The deadline of one item apart. -/
theorem ttl_cons_iff : Ttl B (m, i ::ₘ s) ↔
    m.keysWithTtl = s.countP (·.expireAt ≠ 0) + (if i.expireAt ≠ 0 then 1 else 0) ∧
    m.expireAtSum = i.expireAt + deadlines s ∧ i.expireAt + deadlines s < 2 ^ 64 ∧
    ∀ key d, B.asked = some (key, d) → (if i.key ≠ key then i.expireAt else 0) + others key s + d < 2 ^ 64 := by
  constructor
  · intro h
    obtain ⟨h₁, h₂, h₃, h₄⟩ := h
    simp only [Multiset.countP_cons, deadlines_cons, others_cons] at h₁ h₂ h₃ h₄
    exact ⟨h₁, h₂, h₃, h₄⟩
  · intro ⟨h₁, h₂, h₃, h₄⟩
    refine ⟨?_, ?_, ?_, fun key d h => ?_⟩
    · rw [h₁, Multiset.countP_cons]
    · rw [h₂, deadlines_cons]
    · rwa [deadlines_cons]
    · rw [others_cons]
      exact h₄ key d h

/-- What the other counters are is no matter of deadlines. -/
theorem Ttl.congr {m' : Mem} {s' : Multiset Item} (h : Ttl B (m, s)) (hk : m'.keysWithTtl = m.keysWithTtl)
    (hs : m'.expireAtSum = m.expireAtSum) (he : s' = s) : Ttl B (m', s') := by
  subst he
  exact ⟨hk.trans h.count, hs.trans h.sum, h.lt, h.room⟩

/-- An item changes, key and deadline apart. -/
theorem Ttl.alike {m' : Mem} (h : Ttl B (m, i ::ₘ s)) (hk : m'.keysWithTtl = m.keysWithTtl)
    (hs : m'.expireAtSum = m.expireAtSum) (he : j.expireAt = i.expireAt)
    (hkey : j.key = i.key ∨ B.asked = none) : Ttl B (m', j ::ₘ s) := by
  rw [ttl_cons_iff] at h ⊢
  rw [he, hk, hs]
  refine ⟨h.1, h.2.1, h.2.2.1, fun key d hB => ?_⟩
  rcases hkey with hkey | hnone
  · rw [hkey]
    exact h.2.2.2 key d hB
  · rw [hnone] at hB
    cases hB

/-- The deadline of an item is cleared. -/
theorem Ttl.clear (h : Ttl B (m, i ::ₘ s)) : Ttl B (m.clearExpire i.expireAt, s) := by
  obtain ⟨h₁, h₂, h₃, h₄⟩ := ttl_cons_iff.1 h
  have hroom : ∀ key d, B.asked = some (key, d) → others key s + d < 2 ^ 64 := fun key d hB => by
    have := h₄ key d hB
    omega
  unfold Mem.clearExpire
  split
  · rename_i hz
    rw [hz] at h₁ h₂ h₃
    exact ⟨by simpa using h₁, by simpa using h₂, by simpa using h₃, hroom⟩
  · rename_i hz
    refine ⟨?_, ?_, by show deadlines s < _; omega, hroom⟩
    · show m.keysWithTtl - 1 = _
      rw [h₁, if_pos hz, Nat.add_sub_cancel]
    · show (if m.expireAtSum ≥ i.expireAt then m.expireAtSum - i.expireAt else 0) = deadlines s
      rw [h₂, if_pos (by omega)]
      omega

/-- A deadline that is allowed leaves room. -/
theorem Ttl.allowed {new : Nat} (h : Ttl B (m, i ::ₘ s)) (hk : ∀ j ∈ s, j.key ≠ i.key)
    (ha : B.Allows i.key i.expireAt new) : new + deadlines s < 2 ^ 64 := by
  obtain ⟨-, -, h₃, h₄⟩ := ttl_cons_iff.1 h
  rcases ha with rfl | rfl | ha
  · omega
  · exact h₃
  · have := h₄ i.key new ha
    rw [if_neg (by simp), others_eq hk] at this
    omega

theorem Ttl.set {new : Nat} (h : Ttl B (m, i ::ₘ s)) (hk : ∀ j ∈ s, j.key ≠ i.key)
    (ha : B.Allows i.key i.expireAt new) :
    Ttl B (m.setExpireAt i.expireAt new, { i with expireAt := new } ::ₘ s) := by
  have hlt := h.allowed hk ha
  have hc := h.clear
  obtain ⟨-, -, -, h₄⟩ := ttl_cons_iff.1 h
  have hroom : ∀ key d, B.asked = some (key, d) → (if i.key ≠ key then new else 0) + others key s + d < 2 ^ 64 := by
    intro key d hB
    rcases ha with rfl | rfl | ha
    · simpa using hc.room key d hB
    · exact h₄ key d hB
    · obtain ⟨rfl, rfl⟩ := Prod.mk.inj (Option.some.inj (ha.symm.trans hB))
      simpa using hc.room i.key new hB
  rw [ttl_cons_iff]
  unfold Mem.setExpireAt
  simp only
  split
  · rename_i hz
    subst hz
    exact ⟨by simpa using hc.count, by simpa using hc.sum, by simpa using hc.lt, hroom⟩
  · rename_i hz
    refine ⟨?_, ?_, hlt, hroom⟩
    · show (m.clearExpire i.expireAt).keysWithTtl + 1 = _
      rw [hc.count]
    · show ((m.clearExpire i.expireAt).expireAtSum + new) % 2 ^ 64 = _
      rw [hc.sum, Nat.mod_eq_of_lt (by show deadlines s + new < _; omega), Nat.add_comm]

/-- **A posting keeps the statistics of the deadlines.** -/
theorem Ttl.post {a b : Ledger} (h : Ttl B a) (hp : Posting B a b) : Ttl B b := by
  cases hp with
  | come he _ =>
    rw [ttl_cons_iff, he]
    refine ⟨?_, ?_, by simpa using h.lt, by simpa using h.room⟩
    · rw [if_neg (by simp), Nat.add_zero]
      exact h.count
    · rw [Nat.zero_add]
      exact h.sum
  | gone =>
    unfold Mem.release
    simp only
    split <;> exact h.clear.congr rfl rfl rfl
  | pin _ => exact h.alike rfl rfl rfl (.inl rfl)
  | unpin _ => exact h.alike rfl rfl rfl (.inl rfl)
  | deadline hk ha => exact h.set hk ha
  | grow hl hk _ => exact h.alike rfl rfl hl.expireAt hk
  | fall hl hk _ => exact h.alike rfl rfl hl.expireAt hk
  | setString _ => exact h.alike rfl rfl rfl (.inl rfl)
  | retype => exact h.alike rfl rfl rfl (.inl rfl)
  | shrunk _ _ _ => exact h.alike rfl rfl rfl (.inl rfl)
  | swollen _ _ _ => exact h.alike rfl rfl rfl (.inl rfl)
  | flush _ =>
    refine ⟨rfl, rfl, show 0 < 2 ^ 64 by decide, fun key d hB => ?_⟩
    have := h.room key d hB
    show 0 + d < _
    omega

/-! ## Pins -/

/-- The counter of the pinned entries is `n` too high. -/
def Pinned (n : Nat) (a : Ledger) : Prop := a.1.pinnedKeys = a.2.countP (·.pinned) + n

theorem Pinned.cons_iff {n : Nat} : Pinned n (m, i ::ₘ s) ↔
    m.pinnedKeys = s.countP (·.pinned) + (if i.pinned then 1 else 0) + n := by
  rw [Pinned, Multiset.countP_cons]

/-- **A posting keeps what the counter is too high by**, unless the key space is emptied. -/
theorem Pinned.post {n : Nat} {a b : Ledger} (h : Pinned n a) (hB : ¬B.flush) (hp : Posting B a b) :
    Pinned n b := by
  cases hp with
  | come _ hp =>
    rw [cons_iff, hp]
    exact h
  | @gone m s i =>
    rw [cons_iff] at h
    unfold Mem.release
    simp only
    split
    · rename_i hpin
      rw [if_pos hpin] at h
      show (m.clearExpire i.expireAt).pinnedKeys - 1 = _
      rw [Mem.pinnedKeys_clearExpire, h]
      show _ = s.countP _ + n
      omega
    · rename_i hpin
      rw [if_neg hpin] at h
      show (m.clearExpire i.expireAt).pinnedKeys = _
      rw [Mem.pinnedKeys_clearExpire, h]
      rfl
  | @pin m s i hpin =>
    rw [cons_iff, hpin] at h
    rw [cons_iff]
    show m.pinnedKeys + 1 = _
    simp only [Bool.false_eq_true, if_false] at h
    simp only [if_true]
    omega
  | @unpin m s i hpin =>
    rw [cons_iff, hpin] at h
    rw [cons_iff]
    show m.pinnedKeys - 1 = _
    simp only [Bool.false_eq_true, if_false]
    simp only [if_true] at h
    omega
  | @deadline m s i new _ _ =>
    rw [cons_iff] at h ⊢
    rw [Mem.pinnedKeys_setExpireAt]
    exact h
  | grow hl _ _ =>
    rw [cons_iff] at h ⊢
    rw [hl.pinned]
    exact h
  | fall hl _ _ =>
    rw [cons_iff] at h ⊢
    rw [hl.pinned]
    exact h
  | setString _ => rwa [cons_iff] at h ⊢
  | retype => rwa [cons_iff] at h ⊢
  | shrunk _ _ _ => rwa [cons_iff] at h ⊢
  | swollen _ _ _ => rwa [cons_iff] at h ⊢
  | flush hf => exact absurd hf hB

/-! ## Types -/

/-- The bytes of the items of a type. -/
def bytes (T : ArType) (s : Multiset Item) : Nat := ((s.filter (·.obj.type = T)).map Item.total).sum

theorem bytes_cons (T : ArType) (i : Item) (s : Multiset Item) :
    bytes T (i ::ₘ s) = (if i.obj.type = T then i.total else 0) + bytes T s := Mem.Counts.typeBytes_cons T

/-- The four types together. -/
def total (f : ArType → Nat) : Nat := f .string + f .hash + f .list + f .zset

theorem total_update (f : ArType → Nat) (T : ArType) (n : Nat) :
    total (Function.update f T n) + f T = total f + n := by
  unfold total
  cases T <;> simp <;> omega

theorem le_total (f : ArType → Nat) (T : ArType) : f T ≤ total f := by
  unfold total
  cases T <;> omega

/-- **The counters of the types agree with the global ones**, and no type is booked with less than its items
have. -/
structure Agree (a : Ledger) : Prop where
  nkeys : ∀ T, a.1.typeNkeys T = a.2.countP (·.obj.type = T)
  used : a.1.usedMemory = total a.1.typeBytes
  covers : ∀ T, bytes T a.2 ≤ a.1.typeBytes T

theorem Agree.cons_iff : Agree (m, i ::ₘ s) ↔
    (∀ T, m.typeNkeys T = s.countP (·.obj.type = T) + if i.obj.type = T then 1 else 0) ∧
    m.usedMemory = total m.typeBytes ∧
    ∀ T, (if i.obj.type = T then i.total else 0) + bytes T s ≤ m.typeBytes T := by
  constructor
  · intro h
    refine ⟨fun T => ?_, h.used, fun T => ?_⟩
    · have := h.nkeys T
      rwa [Multiset.countP_cons] at this
    · have := h.covers T
      rwa [bytes_cons] at this
  · intro ⟨h₁, h₂, h₃⟩
    refine ⟨fun T => ?_, h₂, fun T => ?_⟩
    · rw [h₁, Multiset.countP_cons]
    · rw [bytes_cons]
      exact h₃ T

/-- What an item has is booked twice. -/
theorem Agree.booked (h : Agree (m, i ::ₘ s)) :
    i.total ≤ m.typeBytes i.obj.type ∧ i.total ≤ m.usedMemory := by
  obtain ⟨-, h₂, h₃⟩ := cons_iff.1 h
  have := h₃ i.obj.type
  rw [if_pos rfl] at this
  have := le_total m.typeBytes i.obj.type
  omega

theorem Agree.insert (h : Agree (m, s)) (i : Item) :
    Agree ((m.add i.total).addKey i.obj.type i.total, i ::ₘ s) := by
  rw [cons_iff]
  have hu := total_update m.typeBytes i.obj.type (m.typeBytes i.obj.type + i.total)
  refine ⟨fun T => ?_, ?_, fun T => ?_⟩
  · have := h.nkeys T
    simp only [Mem.addKey, Mem.add, Function.update_apply] at this ⊢
    split <;> rename_i hT
    · subst hT
      simp [this]
    · rw [this, if_neg fun he => hT he.symm, Nat.add_zero]
  · have := h.used
    simp only [Mem.addKey, Mem.add] at this ⊢
    omega
  · have := h.covers T
    simp only [Mem.addKey, Mem.add, Function.update_apply] at this ⊢
    split <;> rename_i hT
    · subst hT
      rw [if_pos rfl]
      omega
    · rw [if_neg fun he => hT he.symm]
      omega

theorem Agree.remove (h : Agree (m, i ::ₘ s)) :
    Agree (((m.clearExpire i.expireAt).subKey i.obj.type i.total).sub i.total, s) := by
  obtain ⟨h₁, h₂, h₃⟩ := cons_iff.1 h
  obtain ⟨hb, hu⟩ := h.booked
  obtain ⟨eu, en, eb⟩ := m.clearExpire_bytes i.expireAt
  have hsum := total_update m.typeBytes i.obj.type (m.typeBytes i.obj.type - i.total)
  refine ⟨fun T => ?_, ?_, fun T => ?_⟩
  · have := h₁ T
    simp only [Mem.sub, Mem.subKey, Function.update_apply, en]
    split <;> rename_i hT
    · subst hT
      simp [this]
    · rw [this, if_neg fun he => hT he.symm, Nat.add_zero]
  · simp only [Mem.sub, Mem.subKey, eu, eb]
    rw [if_pos hu, if_pos hb]
    omega
  · have := h₃ T
    simp only [Mem.sub, Mem.subKey, Function.update_apply, eb]
    by_cases hT : i.obj.type = T
    · subst hT
      rw [if_pos rfl] at this
      rw [if_pos rfl, if_pos hb]
      omega
    · rw [if_neg hT] at this
      rw [if_neg (Ne.symm hT)]
      omega

/-- The bytes of an item change by a difference. -/
theorem Agree.grow {n : Nat} (h : Agree (m, i ::ₘ s)) (hj : j.obj.type = i.obj.type)
    (hn : j.total = i.total + n) : Agree ((m.add n).bytesDelta i.obj.type (n : Int), j ::ₘ s) := by
  obtain ⟨h₁, h₂, h₃⟩ := cons_iff.1 h
  have hsum := total_update m.typeBytes i.obj.type (m.typeBytes i.obj.type + n)
  rw [cons_iff, hj]
  refine ⟨h₁, ?_, fun T => ?_⟩
  · simp only [Mem.bytesDelta, Mem.add, Int.natCast_nonneg, ge_iff_le, if_true, Int.toNat_natCast]
    omega
  · have := h₃ T
    simp only [Mem.bytesDelta, Mem.add, Function.update_apply, Int.natCast_nonneg, ge_iff_le, if_true,
      Int.toNat_natCast]
    by_cases hT : i.obj.type = T
    · subst hT
      simp only [if_true] at this ⊢
      omega
    · rw [if_neg hT] at this ⊢
      rw [if_neg (Ne.symm hT)]
      exact this

theorem Agree.fall {n : Nat} (h : Agree (m, i ::ₘ s)) (hj : j.obj.type = i.obj.type)
    (hn : i.total = j.total + n) : Agree ((m.sub n).bytesDelta i.obj.type (-(n : Int)), j ::ₘ s) := by
  obtain ⟨h₁, h₂, h₃⟩ := cons_iff.1 h
  obtain ⟨hb, hu⟩ := h.booked
  have hbytes : (m.sub n).bytesDelta i.obj.type (-(n : Int)) =
      { m with usedMemory := m.usedMemory - n
               typeBytes := Function.update m.typeBytes i.obj.type (m.typeBytes i.obj.type - n) } := by
    simp only [Mem.bytesDelta, Mem.sub, Int.natAbs_neg, Int.natAbs_natCast]
    rw [if_pos (by omega)]
    congr 2
    split
    · omega
    · rw [if_pos (by omega)]
  have hsum := total_update m.typeBytes i.obj.type (m.typeBytes i.obj.type - n)
  rw [hbytes, cons_iff, hj]
  refine ⟨h₁, ?_, fun T => ?_⟩
  · simp only
    omega
  · have := h₃ T
    simp only [Function.update_apply]
    by_cases hT : i.obj.type = T
    · subst hT
      simp only [if_true] at this ⊢
      omega
    · rw [if_neg hT] at this ⊢
      rw [if_neg (Ne.symm hT)]
      exact this

theorem Agree.setString (h : Agree (m, i ::ₘ s)) (val : Bytes) (ht : i.obj.type = .string) :
    Agree (m.setString i.obj.payloadBytes val.length, { i with obj := .string val } ::ₘ s) := by
  have hsub : m.subWrap i.obj.payloadBytes = m.sub i.obj.payloadBytes := by
    have := h.booked.2
    simp only [Item.total] at this
    unfold Mem.subWrap Mem.sub
    rw [if_pos (by omega), if_pos (by omega)]
  have hempty : Agree ((m.subWrap i.obj.payloadBytes).bytesDelta .string (-(i.obj.payloadBytes : Int)),
      { i with obj := .string [] } ::ₘ s) := by
    rw [hsub, ← ht]
    exact h.fall (j := { i with obj := .string [] }) ht.symm
      (by simp only [Item.total, ArObj.payloadBytes, List.length_nil]; omega)
  exact hempty.grow (j := { i with obj := .string val }) rfl
    (by simp only [Item.total, ArObj.payloadBytes, List.length_nil]; omega)

/-- The value of another type goes: its key is released, and the shell of a string takes its place. -/
theorem Agree.retype (h : Agree (m, i ::ₘ s)) : Agree (m.retype i, { i with obj := .string [] } ::ₘ s) := by
  obtain ⟨h₁, h₂, h₃⟩ := cons_iff.1 h
  obtain ⟨hb, hu⟩ := h.booked
  have htotal : i.total = i.key.length + i.obj.payloadBytes + entrySize := rfl
  have hshell : Item.total { i with obj := .string [] } = i.key.length + entrySize := rfl
  have hs : ArObj.type (.string []) = .string := rfl
  have hgone : m.typeBytes i.obj.type ≥ i.key.length + i.obj.payloadBytes + entrySize := by omega
  generalize hf : Function.update m.typeBytes i.obj.type
    (m.typeBytes i.obj.type - (i.key.length + i.obj.payloadBytes + entrySize)) = f
  have hf₁ := total_update m.typeBytes i.obj.type
    (m.typeBytes i.obj.type - (i.key.length + i.obj.payloadBytes + entrySize))
  rw [hf] at hf₁
  have hf₂ := total_update f .string (f .string + (i.key.length + entrySize))
  have hmem : m.retype i = { m with
      usedMemory := m.usedMemory - i.obj.payloadBytes
      typeNkeys := Function.update (Function.update m.typeNkeys i.obj.type (m.typeNkeys i.obj.type - 1))
        .string (Function.update m.typeNkeys i.obj.type (m.typeNkeys i.obj.type - 1) .string + 1)
      typeBytes := Function.update f .string (f .string + (i.key.length + entrySize)) } := by
    rw [← hf]
    have hpay : m.usedMemory ≥ i.obj.payloadBytes := by omega
    simp only [Mem.retype, Mem.subKey, Mem.sub, Mem.addKey, hgone, hpay, if_true]
  rw [hmem, cons_iff, hshell, hs]
  refine ⟨fun T => ?_, ?_, fun T => ?_⟩
  · have := h₁ T
    simp only [Function.update_apply]
    by_cases h₁ : T = i.obj.type <;> by_cases h₂ : T = .string
    · subst h₁; rw [h₂] at this ⊢; simp [this]
    · subst h₁; simp [h₂, Ne.symm h₂, this]
    · subst h₂; simp [h₁, Ne.symm h₁, this]
    · simp [h₁, h₂, Ne.symm h₁, Ne.symm h₂, this]
  · simp only
    omega
  · have := h₃ T
    rw [← hf]
    simp only [Function.update_apply]
    by_cases h₁ : T = i.obj.type <;> by_cases h₂ : T = .string
    · subst h₁
      rw [if_pos rfl] at this
      rw [h₂] at this ⊢
      simp only [if_true]
      rw [h₂] at hgone
      omega
    · subst h₁
      rw [if_pos rfl] at this
      simp only [h₂, Ne.symm h₂, if_true, if_false]
      omega
    · subst h₂
      simp only [h₁, Ne.symm h₁, if_true, if_false] at this ⊢
      omega
    · simp only [h₁, h₂, Ne.symm h₁, Ne.symm h₂, if_false] at this ⊢
      exact this

/-- **A posting keeps the agreement**, unless an allocation fails. -/
theorem Agree.post {a b : Ledger} (h : Agree a) (hB : B.alloc) (hp : Posting B a b) : Agree b := by
  cases hp with
  | come _ _ => exact h.insert _
  | gone =>
    have hr := h.remove
    unfold Mem.release
    simp only
    split <;> exact ⟨hr.nkeys, hr.used, hr.covers⟩
  | pin _ => rwa [cons_iff] at h ⊢
  | unpin _ => rwa [cons_iff] at h ⊢
  | @deadline m s i new _ _ =>
    obtain ⟨hu, hn, hb⟩ := m.setExpireAt_bytes i.expireAt new
    rw [cons_iff] at h ⊢
    rw [hu, hn, hb]
    exact h
  | grow hl _ hn => exact h.grow hl.type hn
  | fall hl _ hn => exact h.fall hl.type hn
  | setString ht => exact h.setString _ ht
  | retype => exact h.retype
  | @shrunk m s i obj _ ht hle =>
    obtain ⟨h₁, h₂, h₃⟩ := cons_iff.1 h
    rw [cons_iff]
    simp only [ht]
    refine ⟨h₁, h₂, fun T => le_trans ?_ (h₃ T)⟩
    split
    · simp only [Item.total]
      omega
    · exact le_refl _
  | swollen _ ha _ => exact absurd hB ha
  | flush _ =>
    refine ⟨fun T => rfl, rfl, fun T => ?_⟩
    exact Nat.le_refl _

end Ledger

section
variable {c : ArCore}

/-! ## Runs -/

/-- What a call posts. -/
theorem journal_run (hwf : c.WF) (x : Call) :
    Journal (x.op.terms x.E x.t (c.view x.t)) c.ledger (x.op.run x.E c).1.ledger := by
  cases hk : x.op.isKnob with
  | false => exact (x.op.sound x.frozen hwf hk).evolves.journal
  | true =>
    obtain ⟨g, s, hev, -⟩ := x.op.knob_evolves (B := x.op.terms x.E x.t (c.view x.t)) x.frozen hwf hk
    exact hev.journal

theorem countP_items (c : ArCore) (p : Item → Bool) :
    c.items.countP (fun i => p i = true) = c.dict.linked.countP fun e => p e.toItem := by
  rw [ArCore.items, Multiset.countP_map, ← coe_linked, ← Multiset.countP_eq_card_filter, Multiset.coe_countP]
  simp only [Bool.decide_eq_true]

theorem sum_items (c : ArCore) (f : Item → Nat) :
    (c.items.map f).sum = (c.dict.linked.map fun e => f e.toItem).sum := by
  rw [ArCore.items, Multiset.map_map, ← coe_linked, Multiset.map_coe, Multiset.sum_coe]
  rfl

/-! ### Deadlines -/

/-- The deadline that a call sets, and those of the other keys, have a sum below `2 ^ 64`. -/
def TtlFits (c : ArCore) (x : Call) : Prop :=
  ∀ key d, x.op.asked x.t (c.view x.t) = some (key, d) →
    ((c.dict.linked.filter fun e => e.key ≠ key).map (·.expireAt)).sum + d < 2 ^ 64

theorem others_items (c : ArCore) (key : Bytes) :
    Ledger.others key c.items = ((c.dict.linked.filter fun e => e.key ≠ key).map (·.expireAt)).sum := by
  rw [Ledger.others, Ledger.deadlines, ArCore.items, ← coe_linked, Multiset.map_coe, Multiset.filter_coe,
    Multiset.map_coe, Multiset.sum_coe, List.filter_map, List.map_map]
  rfl

theorem ttl_run (hwf : c.WF) (h : c.ledger.Ttl .plain) (x : Call) (hx : TtlFits c x) :
    (x.op.run x.E c).1.ledger.Ttl .plain := by
  have h' : c.ledger.Ttl (x.op.terms x.E x.t (c.view x.t)) :=
    ⟨h.count, h.sum, h.lt, fun key d hB => by
      rw [show c.ledger.2 = c.items from rfl, others_items]
      exact hx key d hB⟩
  have hr := (journal_run hwf x).keeps (fun _ _ hp hi => Ledger.Ttl.post hi hp) h'
  exact ⟨hr.count, hr.sum, hr.lt, fun _ _ hB => by cases hB⟩

theorem ttl_run_all (hwf : c.WF) (h : c.ledger.Ttl .plain) {calls : List Call} (hx : c.Each TtlFits calls) :
    (c.runCalls calls).ledger.Ttl .plain := by
  induction calls generalizing c with
  | nil => exact h
  | cons x calls ih => exact ih (wf_run hwf x) (ttl_run hwf h x hx.1) hx.2

/-- **The statistics of the deadlines are exact**, and the average that is reported is the true one, in every
core that a run comes to whose calls keep the sums of deadlines below `2 ^ 64`. -/
theorem ttl_runs {calls : List Call} (hx : ArCore.arCoreCreate.Each TtlFits calls) :
    let c := ArCore.arCoreCreate.runCalls calls
    c.mem.keysWithTtl = c.dict.linked.countP (fun e => e.expireAt ≠ 0) ∧
    c.mem.expireAtSum = (c.dict.linked.map (·.expireAt)).sum ∧
    ∀ now, c.arCoreAvgTtlMs now =
      if c.dict.linked.countP (fun e => e.expireAt ≠ 0) = 0 then 0
      else (c.dict.linked.map (·.expireAt)).sum / c.dict.linked.countP (fun e => e.expireAt ≠ 0) - now := by
  intro c
  have h₀ : ArCore.arCoreCreate.ledger.Ttl .plain := by
    rw [ArCore.ledger, items_arCoreCreate]
    exact ⟨rfl, rfl, show 0 < 2 ^ 64 by decide, fun _ _ hB => by cases hB⟩
  have h : c.ledger.Ttl .plain := ttl_run_all wf_arCoreCreate h₀ hx
  have hcount : c.mem.keysWithTtl = c.dict.linked.countP fun e => e.expireAt ≠ 0 := by
    rw [← countP_items c fun i => i.expireAt ≠ 0, show c.mem.keysWithTtl = _ from h.count]
    simp only [decide_eq_true_eq]
    rfl
  have hsum : c.mem.expireAtSum = (c.dict.linked.map (·.expireAt)).sum := by
    rw [show c.mem.expireAtSum = _ from h.sum]
    exact sum_items c Item.expireAt
  refine ⟨hcount, hsum, fun now => ?_⟩
  unfold ArCore.arCoreAvgTtlMs
  rw [hcount, hsum]

/-- A deadline that is still far off. -/
def farAt : Int := 9223372036854775807

theorem asked_arPexpireat {t : Nat} {s : Store} {key k : Bytes} {n : Int} {d : Nat}
    (h : (ArOp.arPexpireat key n).asked t s = some (k, d)) : k = key ∧ d = uint64 n := by
  simp only [ArOp.asked] at h
  split at h
  · obtain ⟨h₁, h₂⟩ := Prod.mk.inj (Option.some.inj h)
    exact ⟨h₁.symm, h₂.symm⟩
  · cases h

theorem ttl_sample :
    let c := ArCore.arCoreCreate.runCalls [.steady 5 (.arEntrySetEx (lit "k") (lit "v") 9),
      .steady 6 (.arPexpireat (lit "k") farAt)]
    c.mem.keysWithTtl = c.dict.linked.countP (fun e => e.expireAt ≠ 0) ∧
    c.mem.expireAtSum = (c.dict.linked.map (·.expireAt)).sum ∧
    ∀ now, c.arCoreAvgTtlMs now =
      if c.dict.linked.countP (fun e => e.expireAt ≠ 0) = 0 then 0
      else (c.dict.linked.map (·.expireAt)).sum / c.dict.linked.countP (fun e => e.expireAt ≠ 0) - now := by
  refine ttl_runs ⟨?_, ?_, trivial⟩
  · intro key d h
    cases h
    decide +kernel
  · intro key d h
    obtain ⟨rfl, rfl⟩ := asked_arPexpireat h
    decide +kernel

/-- Three keys, each with a deadline of `2 ^ 63 - 1`. -/
def farCalls : List Call :=
  [.steady 0 (.arEntrySetEx (lit "a") (lit "v") 0), .steady 0 (.arEntrySetEx (lit "b") (lit "v") 0),
    .steady 0 (.arEntrySetEx (lit "c") (lit "v") 0), .steady 0 (.arPexpireat (lit "a") farAt),
    .steady 0 (.arPexpireat (lit "b") farAt), .steady 0 (.arPexpireat (lit "c") farAt)]

/-- The sum of three deadlines has wrapped round, and the average is a third of what is left. -/
theorem ttl_wraps :
    (ArCore.arCoreCreate.runCalls farCalls).mem.keysWithTtl = 3 ∧
    (ArCore.arCoreCreate.runCalls farCalls).mem.expireAtSum = 9223372036854775805 ∧
    ((ArCore.arCoreCreate.runCalls farCalls).dict.linked.map (·.expireAt)).sum = 27670116110564327421 ∧
    (ArCore.arCoreCreate.runCalls farCalls).arCoreAvgTtlMs 0 = 3074457345618258601 := by
  decide +kernel

/-! ### Pins -/

/-- No entry is pinned when the key space is emptied. -/
def FlushUnpinned (c : ArCore) (x : Call) : Prop :=
  x.op = .arFlushdb → c.dict.linked.countP (·.pinned) = 0

/-- What a call adds to what the counter is too high by: the pinned entries that it flushes. -/
theorem pinned_run (hwf : c.WF) {n : Nat} (h : c.ledger.Pinned n) (x : Call) :
    ∃ n', (x.op.run x.E c).1.ledger.Pinned n' ∧ n ≤ n' ∧ (n' = n ↔ FlushUnpinned c x) := by
  by_cases hf : x.op = .arFlushdb
  · have hrun : (x.op.run x.E c).1 = c.arFlushdb := by rw [hf]; rfl
    have hitems : c.arFlushdb.items = 0 := by
      show Multiset.map _ _ = _
      rw [show c.arFlushdb.dict.entries = 0 from (hwf.dict.flush rfl).2, Multiset.map_zero]
    refine ⟨n + c.dict.linked.countP (·.pinned), ?_, Nat.le_add_right _ _, ?_⟩
    · rw [hrun, ← countP_items c Item.pinned]
      have hc : c.mem.pinnedKeys = c.items.countP (fun i => i.pinned = true) + n := h
      unfold Ledger.Pinned ArCore.ledger
      rw [hitems]
      show c.mem.pinnedKeys = 0 + _
      omega
    · unfold FlushUnpinned
      rw [Nat.add_eq_left]
      exact ⟨fun hz _ => hz, fun hz => hz hf⟩
  · exact ⟨n, (journal_run hwf x).keeps (fun _ _ hp hi => hi.post hf hp) h, Nat.le_refl n,
      iff_of_true rfl fun h => absurd h hf⟩

theorem pinned_run_all (hwf : c.WF) {n : Nat} (h : c.ledger.Pinned n) (calls : List Call) :
    ∃ n', (c.runCalls calls).ledger.Pinned n' ∧ n ≤ n' ∧ (n' = n ↔ c.Each FlushUnpinned calls) := by
  induction calls generalizing c n with
  | nil => exact ⟨n, h, Nat.le_refl n, iff_of_true rfl trivial⟩
  | cons x calls ih =>
    obtain ⟨n₁, hp₁, hle₁, hiff₁⟩ := pinned_run hwf h x
    obtain ⟨n₂, hp₂, hle₂, hiff₂⟩ := ih (wf_run hwf x) hp₁
    refine ⟨n₂, hp₂, hle₁.trans hle₂, ?_⟩
    show _ ↔ FlushUnpinned c x ∧ _
    rw [← hiff₁, ← hiff₂]
    omega

/-- **`pinned_keys` is exact** at the end of a run just when no `FLUSHDB` of the run has met a pinned entry. -/
theorem pinned_keys_iff (calls : List Call) :
    (ArCore.arCoreCreate.runCalls calls).mem.pinnedKeys =
        (ArCore.arCoreCreate.runCalls calls).dict.linked.countP (·.pinned) ↔
      ArCore.arCoreCreate.Each FlushUnpinned calls := by
  have h₀ : ArCore.arCoreCreate.ledger.Pinned 0 := by
    rw [ArCore.ledger, items_arCoreCreate]
    rfl
  obtain ⟨n, hp, -, hiff⟩ := pinned_run_all wf_arCoreCreate h₀ calls
  have hp : (ArCore.arCoreCreate.runCalls calls).mem.pinnedKeys = _ := hp
  rw [← hiff, hp, ← countP_items _ Item.pinned]
  exact Nat.add_eq_left

/-- A pinned key is flushed: no entry is left, and one is counted. -/
theorem flush_keeps_pins :
    (ArCore.arCoreCreate.runCalls [.steady 0 (.arEntrySetEx (lit "k") (lit "v") 0),
      .steady 0 (.arCorePin (lit "k")), .steady 0 .arFlushdb]).dict.linked = [] ∧
    (ArCore.arCoreCreate.runCalls [.steady 0 (.arEntrySetEx (lit "k") (lit "v") 0),
      .steady 0 (.arCorePin (lit "k")), .steady 0 .arFlushdb]).mem.pinnedKeys = 1 := by
  decide +kernel

/-! ### Types -/

theorem agree_run (hwf : c.WF) (h : c.ledger.Agree) (x : Call) (ha : x.E.AllocOk) :
    (x.op.run x.E c).1.ledger.Agree :=
  (journal_run hwf x).keeps (fun _ _ hp hi => Ledger.Agree.post (B := x.op.terms x.E x.t (c.view x.t)) hi ha hp) h

theorem agree_run_all (hwf : c.WF) (h : c.ledger.Agree) {calls : List Call} (ha : ∀ x ∈ calls, x.E.AllocOk) :
    (c.runCalls calls).ledger.Agree := by
  induction calls generalizing c with
  | nil => exact h
  | cons x calls ih => exact ih (wf_run hwf x) (agree_run hwf h x (ha x (.head _))) fun y hy => ha y (.tail _ hy)

/-- Every item is of one of the four types. -/
theorem Ledger.total_countP (s : Multiset Item) :
    Ledger.total (fun T => s.countP (·.obj.type = T)) = s.card := by
  induction s using Multiset.induction with
  | empty => rfl
  | cons i s ih =>
    rw [Multiset.card_cons, ← ih]
    unfold Ledger.total
    simp only [Multiset.countP_cons]
    cases i.obj <;> simp only [ArObj.type, reduceCtorEq, if_true, if_false] <;> omega

/-- **The counters of the types and the global ones agree** in every core that a run without failing
allocations comes to. -/
theorem type_stats_runs {calls : List Call} (ha : ∀ x ∈ calls, x.E.AllocOk) :
    let c := ArCore.arCoreCreate.runCalls calls
    (∀ T, c.mem.typeNkeys T = c.dict.linked.countP fun e => e.obj.type = T) ∧
    c.mem.typeNkeys .string + c.mem.typeNkeys .hash + c.mem.typeNkeys .list + c.mem.typeNkeys .zset =
      c.dict.nkeys ∧
    c.mem.typeBytes .string + c.mem.typeBytes .hash + c.mem.typeBytes .list + c.mem.typeBytes .zset =
      c.mem.usedMemory := by
  intro c
  have h₀ : ArCore.arCoreCreate.ledger.Agree := by
    rw [ArCore.ledger, items_arCoreCreate]
    exact ⟨fun _ => rfl, rfl, fun _ => Nat.le_refl _⟩
  have h : c.ledger.Agree := agree_run_all wf_arCoreCreate h₀ ha
  have hwf : c.WF := (ArCore.Reachable.create.runCalls calls).wf
  refine ⟨fun T => ?_, ?_, h.used.symm⟩
  · rw [← countP_items c fun i => i.obj.type = T, show c.mem.typeNkeys T = _ from h.nkeys T]
    simp only [decide_eq_true_eq]
    rfl
  · have htotal := Ledger.total_countP c.items
    rw [ArCore.items, Multiset.card_map, ← hwf.dict.nkeys] at htotal
    rw [← htotal, ← ArCore.items]
    have hn : ∀ T, c.mem.typeNkeys T = _ := h.nkeys
    unfold Ledger.total
    rw [hn, hn, hn, hn]
    rfl

/-- A string over a hash, and a list that `LREM` empties. -/
def mixedCalls : List Call :=
  [.steady 0 (.arHashHset (lit "k") [(lit "f", lit "v")]), .steady 0 (.arEntrySetEx (lit "k") (lit "v") 0),
    .steady 0 (.arListPush (lit "l") false [lit "a"]), .steady 0 (.arListLrem (lit "l") 0 (lit "a"))]

theorem type_stats_sample :
    let c := ArCore.arCoreCreate.runCalls mixedCalls
    (∀ T, c.mem.typeNkeys T = c.dict.linked.countP fun e => e.obj.type = T) ∧
    c.mem.typeNkeys .string + c.mem.typeNkeys .hash + c.mem.typeNkeys .list + c.mem.typeNkeys .zset =
      c.dict.nkeys ∧
    c.mem.typeBytes .string + c.mem.typeBytes .hash + c.mem.typeBytes .list + c.mem.typeBytes .zset =
      c.mem.usedMemory := by
  refine type_stats_runs fun x hx => ?_
  simp only [mixedCalls, List.mem_cons, List.not_mem_nil, or_false] at hx
  obtain rfl | rfl | rfl | rfl := hx <;> exact fun _ => rfl

end

end AuraRedis
