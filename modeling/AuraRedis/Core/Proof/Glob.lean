import AuraRedis.Core.Scan
import AuraRedis.Lib.Glob

/-!
# The glob matcher

`arGlobMatch_iff`: `ar_glob_match` decides the language of the pattern. The loop keeps the last star only;
what it has matched since is a stretch of the pattern without a star and as many bytes (`Since`).
-/

set_option autoImplicit false

namespace AuraRedis

open Glob (lang mem_lang_nil mem_lang_star cons_mem_lang_cons nil_mem_lang lang_forget)

/-- A byte of a pattern. -/
def globSym (a : UInt8) : Glob.Sym UInt8 :=
  if a = star then .star else if a = question then .any else .one a

/-- The language of a pattern. -/
def globLang (pat : Bytes) : Language UInt8 := lang (pat.map globSym)

theorem globSym_eq_star {a : UInt8} : globSym a = .star ↔ a = star := by
  unfold globSym
  split
  · simp [*]
  · split
    · simp_all [star, question]
    · simp [*]

theorem takes_globSym {a b : UInt8} (ha : a ≠ star) :
    (globSym a).Takes b ↔ a = question ∨ a = b := by
  unfold globSym
  rw [if_neg ha]
  split <;> simp [Glob.Sym.Takes, *]

variable {p q s u : Bytes} {a b : UInt8}

theorem cons_mem_globLang (ha : a ≠ star) :
    b :: s ∈ globLang (a :: p) ↔ (a = question ∨ a = b) ∧ s ∈ globLang p := by
  rw [globLang, List.map_cons, cons_mem_lang_cons (mt globSym_eq_star.1 ha), takes_globSym ha]
  rfl

theorem mem_globLang_star : s ∈ globLang (star :: p) ↔ ∃ v, v <:+ s ∧ v ∈ globLang p := mem_lang_star

theorem nil_mem_globLang : [] ∈ globLang p ↔ p.all (· == star) = true := by
  rw [globLang, nil_mem_lang]
  simp [globSym_eq_star]

/-- What the loop has matched since the last star: a stretch of the pattern without a star, and as many bytes
of the string. -/
def Since (p s : Bytes) (back : Option (Bytes × Bytes)) : Prop :=
  ∀ x ∈ back, ∃ w w', star ∉ w ∧ w'.length = w.length ∧ x.1 = w ++ p ∧ x.2 = w' ++ s

/-- What coming back to the last star may still find: a suffix of what was left of the string there, and not
all of it. -/
def Later (back : Option (Bytes × Bytes)) : Prop :=
  ∃ x ∈ back, ∃ v, v <:+ x.2.tail ∧ v ∈ globLang x.1

/-- **The last star is enough.** -/
theorem Since.forget {back : Option (Bytes × Bytes)} (h : Since (star :: p) s back) (hl : Later back) :
    s ∈ globLang (star :: p) := by
  obtain ⟨x, hx, v, hv, hm⟩ := hl
  obtain ⟨w, w', hw, hlen, hq, hu⟩ := h x hx
  have hw : ∀ y ∈ w.map globSym, y ≠ .star := by
    intro y hy
    obtain ⟨a, ha, rfl⟩ := List.mem_map.1 hy
    exact fun he => hw (globSym_eq_star.1 he ▸ ha)
  rw [globLang, hq, List.map_append] at hm
  rw [hu] at hv
  exact lang_forget (p := p.map globSym) hw (by simpa using hlen) (hv.trans (List.tail_suffix _)) hm

/-- At the end of the string there is nothing to come back for. -/
theorem Since.all_star {back : Option (Bytes × Bytes)} (h : Since p [] back) (hl : Later back) :
    [] ∈ globLang p := by
  obtain ⟨x, hx, v, hv, hm⟩ := hl
  obtain ⟨w, w', hw, hlen, hq, hu⟩ := h x hx
  have hw : ∀ y ∈ w.map globSym, y ≠ .star := by
    intro y hy
    obtain ⟨a, ha, rfl⟩ := List.mem_map.1 hy
    exact fun he => hw (globSym_eq_star.1 he ▸ ha)
  rw [globLang, hq, List.map_append] at hm
  obtain ⟨hle, hd⟩ := Glob.drop_mem_lang hw hm
  rw [hu, List.append_nil] at hv
  have hvl := hv.length_le
  rw [List.length_tail, hlen] at hvl
  rw [List.length_map] at hle hd
  -- the tail is shorter than the stretch, unless both are empty
  have hnil : v.drop w.length = [] := List.drop_eq_nil_of_le (by omega)
  rw [hnil] at hd
  exact hd

theorem Since.step {back : Option (Bytes × Bytes)} (h : Since (a :: p) (b :: s) back) (ha : a ≠ star) :
    Since p s back := by
  intro x hx
  obtain ⟨w, w', hw, hlen, hq, hu⟩ := h x hx
  refine ⟨w ++ [a], w' ++ [b], ?_, by simp [hlen], by simp [hq], by simp [hu]⟩
  simpa [hw] using ha.symm

theorem since_self (p s : Bytes) : Since p s (some (p, s)) := by
  rintro _ ⟨⟩
  exact ⟨[], [], List.not_mem_nil, rfl, rfl, rfl⟩

theorem later_some : Later (some (q, u)) ↔ ∃ v, v <:+ u.tail ∧ v ∈ globLang q := by
  simp [Later]

/-- To come back to the last star is to go on behind it, one byte further in the string. -/
theorem later_back : Later (some (q, u)) ↔ u.tail ∈ globLang q ∨ Later (some (q, u.tail)) := by
  rw [later_some, later_some]
  constructor
  · rintro ⟨v, hv, hm⟩
    cases ht : u.tail with
    | nil =>
      rw [ht, List.suffix_nil] at hv
      exact .inl (hv ▸ hm)
    | cons c t =>
      rw [ht, List.suffix_cons_iff] at hv
      rcases hv with rfl | hv
      · exact .inl hm
      · exact .inr ⟨v, hv, hm⟩
  · rintro (hm | ⟨v, hv, hm⟩)
    · exact ⟨_, List.suffix_rfl, hm⟩
    · exact ⟨v, hv.trans (List.tail_suffix _), hm⟩

/-- **What the loop finds**: a match from here, or one that coming back to the last star finds. -/
theorem globWalk_iff (p s : Bytes) (back : Option (Bytes × Bytes)) (h : Since p s back) :
    globWalk p s back = true ↔ s ∈ globLang p ∨ Later back := by
  induction p, s, back using globWalk.induct with
  | case1 p back =>
    rw [globWalk, ← nil_mem_globLang]
    exact ⟨.inl, fun hm => hm.elim id h.all_star⟩
  | case2 back b s p ih =>
    rw [globWalk.eq_def]
    simp only [↓reduceIte]
    rw [ih (since_self _ _), later_some, List.tail_cons]
    have hstar : b :: s ∈ globLang (star :: p) ↔
        b :: s ∈ globLang p ∨ ∃ v, v <:+ s ∧ v ∈ globLang p := by
      simp only [mem_globLang_star, List.suffix_cons_iff, or_and_right, exists_or, exists_eq_left]
    rw [← hstar]
    exact ⟨.inl, fun hm => hm.elim id h.forget⟩
  | case3 back b s a p ha hm ih =>
    rw [globWalk.eq_def]
    simp only [if_neg ha, if_pos hm]
    rw [ih (h.step ha), cons_mem_globLang ha, and_iff_right hm]
  | case4 b s a p ha hm q u ih =>
    rw [globWalk, if_neg ha, if_neg hm, ih (since_self _ _), ← later_back, cons_mem_globLang ha]
    simp [hm]
  | case5 b s a p ha hm =>
    rw [globWalk, if_neg ha, if_neg hm, cons_mem_globLang ha]
    simp [hm, Later]
  | case6 b s q u ih =>
    rw [globWalk, ih (since_self _ _), ← later_back]
    simp [globLang]
  | case7 b s =>
    rw [globWalk]
    simp [globLang, Later]

/-- **The matcher decides the language of the pattern.** -/
theorem arGlobMatch_iff (pat str : Bytes) : arGlobMatch pat str = true ↔ str ∈ globLang pat := by
  unfold arGlobMatch
  split
  · rename_i hp
    rw [List.isEmpty_iff] at hp
    subst hp
    simp [globLang]
  · split
    · rename_i _ hp
      subst hp
      rw [mem_globLang_star]
      simp only [true_iff]
      exact ⟨[], List.nil_suffix, by simp [globLang]⟩
    · rw [globWalk_iff pat str none (fun _ hx => by cases hx)]
      simp [Later]

end AuraRedis
