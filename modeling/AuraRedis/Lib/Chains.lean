import Mathlib.Algebra.Order.Group.Multiset
import Mathlib.Data.List.Basic
import Mathlib.Data.Multiset.Basic

/-!
# Hash tables with chaining

A table is the list of its chains, each with its newest element first. `slot n a` is the chain in
which `a` belongs in a table of `n` chains; `Placed slot t` says that every element of `t` is in its
chain. What a table holds is the multiset `entries t`: `entries_push`, `entries_remove`,
`entries_update` and `entries_rehash` say what each operation does to it, and `Placed.push`,
`Placed.remove`, `Placed.update`, `Placed.rehash` that the placement is kept. `find_some` and
`find_none` are what a search in one chain says about the whole table. `Thins t' t`: elements have left.
-/

set_option autoImplicit false

universe u

abbrev Chains (α : Type u) := List (List α)

namespace Chains

variable {α : Type u}

/-- `table[b]`. -/
def chain (t : Chains α) (b : Nat) : List α := t[b]?.getD []

/-- Link `a` at the front of chain `b`. -/
def push (t : Chains α) (b : Nat) (a : α) : Chains α := t.modify b (a :: ·)

/-- Unlink the first element of chain `b` that satisfies `p`. -/
def remove (t : Chains α) (b : Nat) (p : α → Bool) : Chains α := t.modify b (·.eraseP p)

/-- Change the elements in place. -/
def update (t : Chains α) (f : α → α) : Chains α := t.map (·.map f)

/-- Link the elements of a list one after the other, each in its chain. -/
def pushAll (slot : Nat → α → Nat) (t : Chains α) (as : List α) : Chains α :=
  as.foldl (fun t a => t.push (slot t.length a) a) t

/-- Move every element into a table of `n` chains. -/
def rehash (slot : Nat → α → Nat) (t : Chains α) (n : Nat) : Chains α :=
  pushAll slot (List.replicate n []) t.flatten

def find (t : Chains α) (b : Nat) (p : α → Bool) : Option α := (t.chain b).find? p

/-- What the table holds. -/
def entries (t : Chains α) : Multiset α := (t.flatten : List α)

def Placed (slot : Nat → α → Nat) (t : Chains α) : Prop :=
  ∀ b, ∀ a ∈ t.chain b, slot t.length a = b

/-! ## Chains -/

theorem chain_of_lt {t : Chains α} {b : Nat} (h : b < t.length) : t.chain b = t[b] := by
  rw [chain, List.getElem?_eq_getElem h, Option.getD_some]

theorem chain_of_le {t : Chains α} {b : Nat} (h : t.length ≤ b) : t.chain b = [] := by
  rw [chain, List.getElem?_eq_none h, Option.getD_none]

theorem lt_of_mem_chain {t : Chains α} {b : Nat} {a : α} (h : a ∈ t.chain b) : b < t.length := by
  by_contra hb
  rw [chain_of_le (by omega)] at h
  cases h

theorem mem_entries {t : Chains α} {a : α} : a ∈ t.entries ↔ ∃ b, a ∈ t.chain b := by
  rw [entries, Multiset.mem_coe, List.mem_flatten]
  constructor
  · rintro ⟨l, hl, ha⟩
    obtain ⟨b, hb, rfl⟩ := List.getElem_of_mem hl
    exact ⟨b, by rwa [chain_of_lt hb]⟩
  · rintro ⟨b, hb⟩
    have hlt := lt_of_mem_chain hb
    rw [chain_of_lt hlt] at hb
    exact ⟨_, List.getElem_mem hlt, hb⟩

theorem mem_entries_of_chain {t : Chains α} {b : Nat} {a : α} (h : a ∈ t.chain b) :
    a ∈ t.entries := mem_entries.2 ⟨b, h⟩

theorem chain_modify (t : Chains α) (b : Nat) (f : List α → List α) (hf : f [] = [] ∨ b < t.length)
    (b' : Nat) : chain (t.modify b f) b' = if b = b' then f (t.chain b) else t.chain b' := by
  by_cases h : b = b'
  · subst h
    rw [if_pos rfl, chain, List.getElem?_modify_eq]
    rcases Nat.lt_or_ge b t.length with hlt | hle
    · rw [chain_of_lt hlt, List.getElem?_eq_getElem hlt]
      rfl
    · rw [chain_of_le hle, List.getElem?_eq_none hle]
      rcases hf with hf | hlt
      · exact hf.symm
      · omega
  · rw [if_neg h, chain, List.getElem?_modify_ne _ _ h, chain]

/-- A table, split at one of its chains. -/
theorem entries_modify {t : Chains α} {b : Nat} (h : b < t.length) (f : List α → List α) :
    ∃ s : Multiset α, t.entries = (t.chain b : Multiset α) + s ∧
      entries (t.modify b f) = (f (t.chain b) : Multiset α) + s := by
  refine ⟨((t.take b).flatten ++ (t.drop (b + 1)).flatten : List α), ?_, ?_⟩
  · rw [entries, Multiset.coe_add, Multiset.coe_eq_coe, chain_of_lt h]
    conv_lhs => rw [← List.take_append_drop b t, List.drop_eq_getElem_cons h]
    rw [List.flatten_append, List.flatten_cons, ← List.append_assoc, ← List.append_assoc]
    exact (List.perm_append_comm).append_right _
  · rw [entries, Multiset.coe_add, Multiset.coe_eq_coe, chain_of_lt h,
      List.modify_eq_take_cons_drop h, List.flatten_append, List.flatten_cons,
      ← List.append_assoc, ← List.append_assoc]
    exact (List.perm_append_comm).append_right _

/-! ## Linking and unlinking -/

@[simp] theorem length_push (t : Chains α) (b : Nat) (a : α) : (t.push b a).length = t.length :=
  List.length_modify ..

@[simp] theorem length_remove (t : Chains α) (b : Nat) (p : α → Bool) :
    (t.remove b p).length = t.length := List.length_modify ..

@[simp] theorem length_update (t : Chains α) (f : α → α) : (t.update f).length = t.length :=
  List.length_map ..

theorem entries_push {t : Chains α} {b : Nat} (h : b < t.length) (a : α) :
    (t.push b a).entries = a ::ₘ t.entries := by
  obtain ⟨s, h₁, h₂⟩ := entries_modify h (a :: ·)
  rw [push, h₂, h₁, ← Multiset.cons_coe, Multiset.cons_add]

/-- Unlinking takes one element out. -/
theorem entries_remove {t : Chains α} {b : Nat} {p : α → Bool} {a : α} (ha : a ∈ t.chain b)
    (hp : p a = true) (hu : ∀ x ∈ t.chain b, p x = true → x = a) :
    t.entries = a ::ₘ (t.remove b p).entries := by
  obtain ⟨s, h₁, h₂⟩ := entries_modify (lt_of_mem_chain ha) (·.eraseP p)
  obtain ⟨x, l₁, l₂, -, hx, hl, he⟩ := List.exists_of_eraseP ha hp
  obtain rfl := hu x (by rw [hl]; simp) hx
  rw [remove, h₂, h₁, he, hl, ← Multiset.cons_add, Multiset.cons_coe, Multiset.coe_eq_coe.2]
  exact List.perm_middle

theorem entries_update (t : Chains α) (f : α → α) : (t.update f).entries = t.entries.map f := by
  rw [entries, entries, update, Multiset.map_coe, List.map_flatten]

theorem chain_update (t : Chains α) (f : α → α) (b : Nat) :
    (t.update f).chain b = (t.chain b).map f := by
  rw [chain, update, List.getElem?_map, chain]
  cases t[b]? <;> rfl

theorem chain_push {t : Chains α} {b : Nat} (h : b < t.length) (a : α) (b' : Nat) :
    (t.push b a).chain b' = if b = b' then a :: t.chain b else t.chain b' :=
  chain_modify t b _ (.inr h) b'

theorem chain_remove (t : Chains α) (b : Nat) (p : α → Bool) (b' : Nat) :
    (t.remove b p).chain b' = if b = b' then (t.chain b).eraseP p else t.chain b' :=
  chain_modify t b _ (.inl rfl) b'

/-! ## Placement -/

section
variable {slot : Nat → α → Nat} {t : Chains α}

theorem Placed.mem_chain (h : Placed slot t) {a : α} (ha : a ∈ t.entries) :
    a ∈ t.chain (slot t.length a) := by
  obtain ⟨b, hb⟩ := mem_entries.1 ha
  rwa [h b a hb]

theorem Placed.push (h : Placed slot t) {b : Nat} {a : α} (hb : slot t.length a = b)
    (hlt : b < t.length) : Placed slot (t.push b a) := by
  intro b' x hx
  rw [length_push]
  rw [chain_push hlt] at hx
  split at hx
  · rename_i he
    subst he
    rcases List.mem_cons.1 hx with rfl | hx
    · exact hb
    · exact h _ _ hx
  · exact h _ _ hx

theorem Placed.remove (h : Placed slot t) (b : Nat) (p : α → Bool) :
    Placed slot (t.remove b p) := by
  intro b' x hx
  rw [length_remove]
  rw [chain_remove] at hx
  split at hx
  · rename_i he
    subst he
    exact h _ _ (List.mem_of_mem_eraseP hx)
  · exact h _ _ hx

theorem Placed.update (h : Placed slot t) {f : α → α} (hf : ∀ n a, slot n (f a) = slot n a) :
    Placed slot (t.update f) := by
  intro b x hx
  rw [chain_update] at hx
  obtain ⟨a, ha, rfl⟩ := List.mem_map.1 hx
  rw [length_update, hf]
  exact h b a ha

theorem placed_replicate (n : Nat) : Placed slot (List.replicate n ([] : List α)) := by
  intro b a ha
  have hlt := lt_of_mem_chain ha
  rw [chain_of_lt hlt, List.getElem_replicate] at ha
  cases ha

@[simp] theorem entries_replicate (n : Nat) :
    entries (List.replicate n ([] : List α)) = 0 := by
  simp [entries]

@[simp] theorem length_pushAll (as : List α) : (pushAll slot t as).length = t.length := by
  induction as generalizing t with
  | nil => rfl
  | cons a as ih =>
    show (pushAll slot (t.push _ a) as).length = _
    rw [ih, length_push]

theorem entries_pushAll (hs : ∀ a, slot t.length a < t.length) (as : List α) :
    (pushAll slot t as).entries = as + t.entries := by
  induction as generalizing t with
  | nil => simp [pushAll]
  | cons a as ih =>
    show (pushAll slot (t.push _ a) as).entries = _
    rw [ih (by simpa using hs), entries_push (hs a), ← Multiset.cons_coe, Multiset.cons_add,
      Multiset.add_cons]

theorem Placed.pushAll (h : Placed slot t) (hs : ∀ a, slot t.length a < t.length) (as : List α) :
    Placed slot (pushAll slot t as) := by
  induction as generalizing t with
  | nil => exact h
  | cons a as ih => exact ih (h.push rfl (hs a)) (by simpa using hs)

@[simp] theorem length_rehash (n : Nat) : (rehash slot t n).length = n := by
  rw [rehash, length_pushAll, List.length_replicate]

theorem entries_rehash {n : Nat} (hs : ∀ a, slot n a < n) : (rehash slot t n).entries = t.entries := by
  rw [rehash, entries_pushAll (by simpa using hs), entries_replicate, add_zero, entries]

theorem placed_rehash {n : Nat} (hs : ∀ a, slot n a < n) : Placed slot (rehash slot t n) :=
  (placed_replicate n).pushAll (by simpa using hs) _

/-! ## Searching -/

theorem find_some {b : Nat} {p : α → Bool} {a : α} (h : t.find b p = some a) :
    a ∈ t.chain b ∧ p a = true := ⟨List.mem_of_find?_eq_some h, List.find?_some h⟩

theorem find_none (hp : Placed slot t) {b : Nat} {p : α → Bool}
    (hs : ∀ a, p a = true → slot t.length a = b) (h : t.find b p = none) {a : α}
    (ha : a ∈ t.entries) : p a = false := by
  by_contra hn
  have hn := eq_true_of_ne_false hn
  have hc := hp.mem_chain ha
  rw [hs a hn] at hc
  exact absurd hn (by simpa using List.find?_eq_none.1 h a hc)

/-- A search by key, where every element has its own. -/
theorem find_key_iff {κ : Type*} [BEq κ] [LawfulBEq κ] {key : α → κ} (hp : Placed slot t)
    (hn : (t.entries.map key).Nodup) {b : Nat} {k : κ} (hs : ∀ a, key a = k → slot t.length a = b)
    {a : α} : t.find b (fun x => key x == k) = some a ↔ a ∈ t.entries ∧ key a = k := by
  constructor
  · intro h
    obtain ⟨hm, hk⟩ := find_some h
    exact ⟨mem_entries_of_chain hm, by simpa using hk⟩
  · intro ⟨hm, hk⟩
    cases hf : t.find b (fun x => key x == k) with
    | none =>
      have := find_none hp (fun x hx => hs x (by simpa using hx)) hf hm
      simp [hk] at this
    | some x =>
      obtain ⟨hx, hkx⟩ := find_some hf
      have hkx : key x = k := by simpa using hkx
      rw [Multiset.inj_on_of_nodup_map hn x (mem_entries_of_chain hx) a hm (hkx.trans hk.symm)]

end

/-! ## Fewer elements -/

/-- Elements have left `t`, and nothing else has happened to it. -/
def Thins (t' t : Chains α) : Prop := List.Forall₂ List.Sublist t' t

namespace Thins

variable {t t' t'' : Chains α}

theorem refl (t : Chains α) : Thins t t := List.forall₂_same.2 fun l _ => List.Sublist.refl l

theorem trans (h : Thins t'' t') (h' : Thins t' t) : Thins t'' t := by
  induction h generalizing t with
  | nil => exact h'
  | cons hx _ ih =>
    obtain ⟨_, _, hy, hl, rfl⟩ := List.forall₂_cons_left_iff.1 h'
    exact .cons (hx.trans hy) (ih hl)

theorem length_eq (h : Thins t' t) : t'.length = t.length := List.Forall₂.length_eq h

theorem chain (h : Thins t' t) (b : Nat) : (t'.chain b).Sublist (t.chain b) := by
  unfold Chains.chain
  induction h generalizing b with
  | nil => exact List.Sublist.refl _
  | cons hx _ ih =>
    cases b with
    | zero => exact hx
    | succ b => exact ih b

theorem remove (t : Chains α) (b : Nat) (p : α → Bool) : Thins (t.remove b p) t := by
  unfold Chains.remove
  induction t generalizing b with
  | nil =>
    rw [List.modify_nil]
    exact refl _
  | cons l t ih =>
    cases b with
    | zero => exact .cons List.eraseP_sublist (refl t)
    | succ b => exact .cons (List.Sublist.refl l) (ih b)

theorem entries_le (h : Thins t' t) : t'.entries ≤ t.entries := by
  refine Multiset.coe_le.2 (List.Sublist.subperm ?_)
  induction h with
  | nil => exact List.Sublist.refl _
  | cons hx _ ih => exact hx.append ih

theorem placed {slot : Nat → α → Nat} (h : Thins t' t) (hp : Placed slot t) : Placed slot t' := by
  intro b a ha
  rw [h.length_eq]
  exact hp b a ((h.chain b).subset ha)

end Thins

end Chains
