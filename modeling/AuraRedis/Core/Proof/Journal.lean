import AuraRedis.Core.Proof.Counts
import Mathlib.Logic.Relation

/-!
# The journal of the accounts

A `Ledger` is the counters and the items they are about. What an operation does to it is a `Journal`: one
`Posting` after the other, each a change the source makes in one place. `Journal.keeps` carries an invariant
of the ledger from the postings to an operation; `Journal.counts` is the first use of it.
-/

set_option autoImplicit false

namespace AuraRedis

/-- The counters, and the items. -/
abbrev Ledger : Type := Mem × Multiset Item

/-- What an operation may post beside the ordinary. -/
structure Terms where
  /-- No change of a size goes unbooked. -/
  exact : Prop
  /-- No allocation fails. -/
  alloc : Prop
  /-- The deadline that is asked for a key. -/
  asked : Option (Bytes × Nat)
  /-- The key space is emptied. -/
  flush : Prop
  /-- A container that is made gets something in it. -/
  fills : Prop

/-- The ordinary postings. -/
def Terms.plain : Terms := ⟨True, True, none, False, True⟩

/-- The deadline `new` may take the place of `old` on a key. -/
def Terms.Allows (B : Terms) (key : Bytes) (old new : Nat) : Prop :=
  new = 0 ∨ new = old ∨ B.asked = some (key, new)

theorem Terms.Allows.zero {B : Terms} {key : Bytes} {old : Nat} : B.Allows key old 0 := .inl rfl

theorem Terms.Allows.asked {B : Terms} {key : Bytes} {old new : Nat} (h : B.asked = some (key, new)) :
    B.Allows key old new := .inr (.inr h)

namespace Mem

/-- The accounting of `ar_entry_free_ex`. -/
def release (m : Mem) (i : Item) : Mem :=
  let m := ((m.clearExpire i.expireAt).subKey i.obj.type i.total).sub i.total
  if i.pinned then { m with pinnedKeys := m.pinnedKeys - 1 } else m

/-- The accounting of `ar_flushdb`. -/
def flushed (m : Mem) : Mem :=
  { m with usedMemory := 0, keysWithTtl := 0, expireAtSum := 0,
           typeNkeys := fun _ => 0, typeBytes := fun _ => 0 }

/-- The accounting of a string in the place of a string. -/
def setString (m : Mem) (old new : Nat) : Mem :=
  (((m.subWrap old).bytesDelta .string (-(old : Int))).add new).bytesDelta .string new

/-- The accounting of a value of another type that goes. -/
def retype (m : Mem) (i : Item) : Mem :=
  ((m.subKey i.obj.type (i.key.length + i.obj.payloadBytes + entrySize)).sub i.obj.payloadBytes).addKey
    .string (i.key.length + entrySize)

end Mem

/-- The same but for key and size. -/
structure Item.Alike (i j : Item) : Prop where
  type : j.obj.type = i.obj.type
  expireAt : j.expireAt = i.expireAt
  pinned : j.pinned = i.pinned

/-- **One change of the ledger.** -/
inductive Posting (B : Terms) : Ledger → Ledger → Prop
  | come {m : Mem} {s : Multiset Item} {i : Item} (he : i.expireAt = 0) (hp : i.pinned = false) :
      Posting B (m, s) ((m.add i.total).addKey i.obj.type i.total, i ::ₘ s)
  | gone {m : Mem} {s : Multiset Item} {i : Item} : Posting B (m, i ::ₘ s) (m.release i, s)
  | pin {m : Mem} {s : Multiset Item} {i : Item} (h : i.pinned = false) :
      Posting B (m, i ::ₘ s) ({ m with pinnedKeys := m.pinnedKeys + 1 }, { i with pinned := true } ::ₘ s)
  | unpin {m : Mem} {s : Multiset Item} {i : Item} (h : i.pinned = true) :
      Posting B (m, i ::ₘ s) ({ m with pinnedKeys := m.pinnedKeys - 1 }, { i with pinned := false } ::ₘ s)
  | deadline {m : Mem} {s : Multiset Item} {i : Item} {new : Nat} (hk : ∀ j ∈ s, j.key ≠ i.key)
      (h : B.Allows i.key i.expireAt new) :
      Posting B (m, i ::ₘ s) (m.setExpireAt i.expireAt new, { i with expireAt := new } ::ₘ s)
  | grow {m : Mem} {s : Multiset Item} {i j : Item} {n : Nat} (h : i.Alike j)
      (hk : j.key = i.key ∨ B.asked = none) (hn : j.total = i.total + n) :
      Posting B (m, i ::ₘ s) ((m.add n).bytesDelta i.obj.type (n : Int), j ::ₘ s)
  | fall {m : Mem} {s : Multiset Item} {i j : Item} {n : Nat} (h : i.Alike j)
      (hk : j.key = i.key ∨ B.asked = none) (hn : i.total = j.total + n) :
      Posting B (m, i ::ₘ s) ((m.sub n).bytesDelta i.obj.type (-(n : Int)), j ::ₘ s)
  | setString {m : Mem} {s : Multiset Item} {i : Item} {val : Bytes} (h : i.obj.type = .string) :
      Posting B (m, i ::ₘ s) (m.setString i.obj.payloadBytes val.length, { i with obj := .string val } ::ₘ s)
  | retype {m : Mem} {s : Multiset Item} {i : Item} :
      Posting B (m, i ::ₘ s) (m.retype i, { i with obj := .string [] } ::ₘ s)
  /-- A container loses elements that no counter hears of. -/
  | shrunk {m : Mem} {s : Multiset Item} {i : Item} {obj : ArObj} (h : ¬B.exact)
      (ht : obj.type = i.obj.type) (hle : obj.payloadBytes ≤ i.obj.payloadBytes) :
      Posting B (m, i ::ₘ s) (m, { i with obj := obj } ::ₘ s)
  /-- A container gets an element that no counter hears of. -/
  | swollen {m : Mem} {s : Multiset Item} {i : Item} {obj : ArObj} (h : ¬B.exact) (ha : ¬B.alloc)
      (ht : obj.type = i.obj.type) : Posting B (m, i ::ₘ s) (m, { i with obj := obj } ::ₘ s)
  | flush {m : Mem} {s : Multiset Item} (h : B.flush) : Posting B (m, s) (m.flushed, 0)

/-- Postings in a row. -/
abbrev Journal (B : Terms) : Ledger → Ledger → Prop := Relation.ReflTransGen (Posting B)

namespace Journal

variable {B : Terms} {a b d : Ledger} {m : Mem} {s : Multiset Item} {i : Item}

theorem post (h : Posting B a b) : Journal B a b := .single h

/-- **What every posting keeps, an operation keeps.** -/
theorem keeps {I : Ledger → Prop} (h : Journal B a b) (hI : ∀ x y, Posting B x y → I x → I y) (ha : I a) :
    I b := by
  induction h with
  | refl => exact ha
  | tail _ hp ih => exact hI _ _ hp ih

/-! ## Changes of more than one posting -/

theorem same {j : Item} (h : j = i) : Journal B (m, i ::ₘ s) (m, j ::ₘ s) := by
  rw [h]

/-- A container changes. -/
theorem resize {obj : ArObj} (ht : obj.type = i.obj.type) :
    Journal B (m, i ::ₘ s)
      (m.resize obj.type i.obj.payloadBytes obj.payloadBytes, { i with obj := obj } ::ₘ s) := by
  have halike : i.Alike { i with obj := obj } := ⟨ht, rfl, rfl⟩
  unfold Mem.resize
  rw [ht]
  split
  · exact .post (.grow halike (.inl rfl) (by simp only [Item.total]; omega))
  · exact .post (.fall halike (.inl rfl) (by simp only [Item.total]; omega))

/-- A container shrinks. -/
theorem shrink {obj : ArObj} (ht : obj.type = i.obj.type) (hle : obj.payloadBytes ≤ i.obj.payloadBytes) :
    Journal B (m, i ::ₘ s)
      (m.shrink obj.type i.obj.payloadBytes obj.payloadBytes, { i with obj := obj } ::ₘ s) := by
  have halike : i.Alike { i with obj := obj } := ⟨ht, rfl, rfl⟩
  unfold Mem.shrink
  rw [ht, if_pos hle]
  exact .post (.fall halike (.inl rfl) (by simp only [Item.total]; omega))

/-- A key changes its name. -/
theorem rekey {key : Bytes} (hB : B.asked = none) :
    Journal B (m, i ::ₘ s) (m.rekey i.obj.type i.key.length key.length, { i with key := key } ::ₘ s) := by
  have halike : i.Alike { i with key := key } := ⟨rfl, rfl, rfl⟩
  unfold Mem.rekey
  split
  · exact .post (.grow halike (.inr hB) (by simp only [Item.total]; omega))
  · split
    · exact .post (.fall halike (.inr hB) (by simp only [Item.total]; omega))
    · have hp : Posting B (m, i ::ₘ s) ((m.add 0).bytesDelta i.obj.type ((0 : Nat) : Int),
          { i with key := key } ::ₘ s) := .grow halike (.inr hB) (by simp only [Item.total]; omega)
      rw [show (m.add 0).bytesDelta i.obj.type ((0 : Nat) : Int) = m by
        simp [Mem.add, Mem.bytesDelta]] at hp
      exact .post hp

end Journal

/-! ## The accounting -/

/-- A posting keeps the accounting, when all sizes are booked. -/
theorem Posting.counts {B : Terms} {a b : Ledger} (h : Posting B a b) (hB : B.exact) (hc : a.1.Counts a.2) :
    b.1.Counts b.2 := by
  cases h with
  | come he _ => exact hc.insert he
  | gone =>
    unfold Mem.release
    simp only
    split
    · exact hc.remove.of_pinned
    · exact hc.remove
  | pin _ => exact (hc.pin true).of_pinned
  | unpin _ => exact (hc.pin false).of_pinned
  | deadline _ _ => exact hc.deadline _
  | grow h _ hn => exact hc.grow h.type h.expireAt _ hn
  | fall h _ hn => exact hc.fall h.type h.expireAt _ hn
  | setString h => exact hc.setString _ h
  | retype => exact hc.retype
  | shrunk h _ _ => exact absurd hB h
  | swollen h _ _ => exact absurd hB h
  | flush _ => exact .zero rfl rfl rfl rfl

theorem Journal.counts {B : Terms} {a b : Ledger} (h : Journal B a b) (hB : B.exact)
    (hc : a.1.Counts a.2) : b.1.Counts b.2 :=
  h.keeps (I := fun x => x.1.Counts x.2) (fun _ _ hp => hp.counts hB) hc

end AuraRedis
