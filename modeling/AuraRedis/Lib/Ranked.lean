import Mathlib.Data.List.Sort

/-!
# Ranked lists

Lists in the order of a relation that hold one element for each name. `drop` takes out the element of a name
and `put` replaces it; both keep a list ranked (`drop_ranked`, `put_ranked`), and `look_drop` and
`look_put` say what a look-up by name then finds.
-/

set_option autoImplicit false

/-- In order, and with one element for each name. -/
structure Ranked {α κ : Type} (r : α → α → Prop) (name : α → κ) (l : List α) : Prop where
  sorted : l.Pairwise r
  names : (l.map name).Nodup

namespace Ranked

theorem nil {α κ : Type} {r : α → α → Prop} {name : α → κ} : Ranked r name [] := ⟨.nil, by simp⟩

/-- Elements of different names are not level. -/
theorem strict {α κ : Type} {r : α → α → Prop} {name : α → κ} {l : List α} (h : Ranked r name l)
    (hr : ∀ a b, r a b → r b a → name a = name b) : l.Pairwise fun a b => r a b ∧ ¬r b a := by
  have hn : l.Pairwise fun a b => name a ≠ name b := List.pairwise_map.1 h.names
  refine (h.sorted.and hn).imp fun hab => ⟨hab.1, fun hba => ?_⟩
  exact hab.2 (hr _ _ hab.1 hba)

variable {α κ : Type} [BEq κ] (r : α → α → Prop) (name : α → κ)

/-- The element of a name. -/
def look (l : List α) (k : κ) : Option α := l.find? (name · == k)

/-- All but the element of a name. -/
def drop (k : κ) (l : List α) : List α := l.eraseP (name · == k)

/-- The element in the place of the one of its name. -/
def put [DecidableRel r] (n : α) (l : List α) : List α := (drop name (name n) l).orderedInsert r n

variable {r name}
variable {l : List α} {n a : α} {k k' : κ}

theorem drop_sublist : (drop name k l).Sublist l := List.eraseP_sublist

theorem names_drop (h : (l.map name).Nodup) : ((drop name k l).map name).Nodup :=
  h.sublist (drop_sublist.map name)

theorem drop_ranked (h : Ranked r name l) (k : κ) : Ranked r name (drop name k l) :=
  ⟨h.sorted.sublist drop_sublist, names_drop h.names⟩

/-- A new name makes the list longer. -/
theorem length_put [DecidableRel r] :
    (put r name n l).length = l.length + if (look name l (name n)).isNone then 1 else 0 := by
  unfold put drop look
  rw [List.orderedInsert_length, List.length_eraseP]
  by_cases h : l.any (name · == name n) = true
  · obtain ⟨a, ha, he⟩ := List.any_eq_true.1 h
    have hs : (l.find? (name · == name n)).isSome = true := List.find?_isSome.2 ⟨a, ha, he⟩
    have hp : 0 < l.length := List.length_pos_of_mem ha
    simp only [h, if_true, Option.isNone_iff_eq_none, Option.isSome_iff_ne_none.1 hs, if_false]
    omega
  · have hn : l.find? (name · == name n) = none := by
      rw [List.find?_eq_none]
      intro a ha he
      exact h (List.any_eq_true.2 ⟨a, ha, he⟩)
    simp [h, hn]

variable [LawfulBEq κ]

/-! ## Elements and their names -/

theorem look_eq_some_iff (h : (l.map name).Nodup) : look name l k = some a ↔ a ∈ l ∧ name a = k := by
  unfold look
  constructor
  · intro hf
    exact ⟨List.mem_of_find?_eq_some hf, by simpa using List.find?_some hf⟩
  · rintro ⟨ha, rfl⟩
    have hs : (l.find? (name · == name a)).isSome := by
      rw [List.find?_isSome]
      exact ⟨a, ha, by simp⟩
    obtain ⟨b, hb⟩ := Option.isSome_iff_exists.1 hs
    have hn : name b = name a := by simpa using List.find?_some hb
    rw [hb, List.inj_on_of_nodup_map h (List.mem_of_find?_eq_some hb) ha hn]

theorem mem_drop (h : (l.map name).Nodup) : a ∈ drop name k l ↔ a ∈ l ∧ name a ≠ k := by
  unfold drop
  induction l with
  | nil => simp
  | cons b l ih =>
    rw [List.map_cons, List.nodup_cons] at h
    by_cases hb : name b = k
    · have hl : ∀ x ∈ l, name x ≠ k := by
        intro x hx he
        exact h.1 (hb ▸ he ▸ List.mem_map_of_mem hx)
      simp only [hb, beq_self_eq_true, List.eraseP_cons_of_pos, List.mem_cons]
      constructor
      · intro ha
        exact ⟨.inr ha, hl a ha⟩
      · rintro ⟨rfl | ha, hne⟩
        · exact absurd hb hne
        · exact ha
    · rw [List.eraseP_cons_of_neg (by simpa using hb), List.mem_cons, List.mem_cons, ih h.2]
      constructor
      · rintro (rfl | ⟨ha, hne⟩)
        · exact ⟨.inl rfl, hb⟩
        · exact ⟨.inr ha, hne⟩
      · rintro ⟨rfl | ha, hne⟩
        · exact .inl rfl
        · exact .inr ⟨ha, hne⟩

theorem mem_put [DecidableRel r] (h : (l.map name).Nodup) : a ∈ put r name n l ↔ a = n ∨ a ∈ l ∧ name a ≠ name n := by
  rw [put, List.mem_orderedInsert, mem_drop h]

theorem names_put [DecidableRel r] (h : (l.map name).Nodup) : ((put r name n l).map name).Nodup := by
  have hp : ((put r name n l).map name).Perm (name n :: (drop name (name n) l).map name) :=
    (List.perm_orderedInsert r n _).map name
  rw [hp.nodup_iff, List.nodup_cons]
  refine ⟨fun hm => ?_, names_drop h⟩
  obtain ⟨b, hb, he⟩ := List.mem_map.1 hm
  exact ((mem_drop h).1 hb).2 he

/-! ## What is found -/

theorem look_drop [DecidableEq κ] (h : (l.map name).Nodup) :
    look name (drop name k l) k' = if k' = k then none else look name l k' := by
  ext a
  rw [look_eq_some_iff (names_drop h), mem_drop h]
  split
  · next he => simp [he, and_assoc]
  · next hne =>
    rw [look_eq_some_iff h]
    constructor
    · rintro ⟨⟨ha, -⟩, hk⟩
      exact ⟨ha, hk⟩
    · rintro ⟨ha, hk⟩
      exact ⟨⟨ha, by rwa [hk]⟩, hk⟩

theorem look_put [DecidableEq κ] [DecidableRel r] (h : (l.map name).Nodup) :
    look name (put r name n l) k = if k = name n then some n else look name l k := by
  ext a
  rw [look_eq_some_iff (names_put h), mem_put h]
  split
  · next he =>
    subst he
    constructor
    · rintro ⟨rfl | ⟨-, hne⟩, he⟩
      · rfl
      · exact absurd he hne
    · intro ha
      cases ha
      exact ⟨.inl rfl, rfl⟩
  · next hne =>
    rw [look_eq_some_iff h]
    constructor
    · rintro ⟨rfl | ⟨ha, -⟩, hk⟩
      · exact absurd hk.symm hne
      · exact ⟨ha, hk⟩
    · rintro ⟨ha, rfl⟩
      exact ⟨.inr ⟨ha, hne⟩, rfl⟩

/-! ## Ranked lists stay ranked -/

theorem put_ranked [DecidableRel r] [Std.Total r] [IsTrans α r] (h : Ranked r name l) (n : α) :
    Ranked r name (put r name n l) :=
  ⟨(h.drop_ranked (name n)).sorted.orderedInsert n _, names_put h.names⟩

end Ranked
