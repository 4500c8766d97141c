import Mathlib.Data.List.Basic

/-!
# A log of lines, cut when it is too long

A log is a text to which lines are appended; once it is longer than `cap` it is cut to its last `keep` elements.
What is left is a suffix of the lines exactly when the cut comes at the end of one (`whole_trim_iff`).
-/

set_option autoImplicit false

namespace LineLog

variable {α : Type*} {e : α}

/-- A line, with its end `e`. -/
def IsLine (e : α) (l : List α) : Prop := ∃ b, l = b ++ [e] ∧ e ∉ b

/-- The last `keep` elements of a text that is longer than `cap`. -/
def trim (cap keep : Nat) (text : List α) : List α :=
  if cap < text.length then text.drop (text.length - keep) else text

/-- Where a text is cut, a line ends. -/
def CutsAtEnd (e : α) (cap keep : Nat) (text : List α) : Prop :=
  cap < text.length → text[text.length - keep - 1]? = some e

/-- The text is the last lines of those appended so far, the last one among them, each of them whole. -/
def Whole (e : α) (lines : List (List α)) (text : List α) : Prop :=
  ∃ kept, kept <:+ lines ∧ (lines ≠ [] → kept ≠ []) ∧ text = kept.flatten ∧ ∀ l ∈ kept, IsLine e l

theorem IsLine.ne_nil {l : List α} (h : IsLine e l) : l ≠ [] := by
  obtain ⟨b, rfl, -⟩ := h
  simp

theorem whole_nil (e : α) : Whole e [] [] :=
  ⟨[], List.suffix_refl _, fun h => h, rfl, fun _ hl => absurd hl List.not_mem_nil⟩

theorem length_flatten_of_length {ls : List (List α)} {n : Nat} (hn : ∀ l ∈ ls, l.length = n) :
    ls.flatten.length = n * ls.length := by
  induction ls with
  | nil => rfl
  | cons l ls ih =>
    obtain ⟨hl, hls⟩ := List.forall_mem_cons.1 hn
    rw [List.flatten_cons, List.length_append, hl, ih hls, List.length_cons, Nat.mul_succ, Nat.add_comm]

/-- Whole lines of one length are that many times as long. -/
theorem Whole.dvd_length {lines : List (List α)} {text : List α} {n : Nat} (h : Whole e lines text)
    (hn : ∀ l ∈ lines, l.length = n) : n ∣ text.length := by
  obtain ⟨kept, hsuf, -, rfl, -⟩ := h
  exact ⟨_, length_flatten_of_length fun l hl => hn l (hsuf.subset hl)⟩

/-! ## Where lines end -/

/-- An end of a line among lines is the end of some of them. -/
theorem split_of_end {ls : List (List α)} (hl : ∀ l ∈ ls, IsLine e l) {i : Nat} (hi : ls.flatten[i]? = some e) :
    ∃ a b, ls = a ++ b ∧ a.flatten.length = i + 1 := by
  induction ls generalizing i with
  | nil => cases hi
  | cons l ls ih =>
    obtain ⟨⟨b, hb, hnot⟩, hls⟩ := List.forall_mem_cons.1 hl
    have hlen : l.length = b.length + 1 := by rw [hb, List.length_append]; rfl
    rw [List.flatten_cons] at hi
    rcases Nat.lt_or_ge i l.length with hin | hout
    · rw [List.getElem?_append_left hin] at hi
      have hlast : ¬i < b.length := by
        intro h
        rw [hb, List.getElem?_append_left h] at hi
        exact hnot (List.mem_of_getElem? hi)
      refine ⟨[l], ls, rfl, ?_⟩
      simp only [List.flatten_cons, List.flatten_nil, List.append_nil]
      omega
    · rw [List.getElem?_append_right hout] at hi
      obtain ⟨a, c, rfl, hlen'⟩ := ih hls hi
      refine ⟨l :: a, c, rfl, ?_⟩
      rw [List.flatten_cons, List.length_append, hlen']
      omega

/-- The end of the last of some lines. -/
theorem end_of_split {a b : List (List α)} (hl : ∀ l ∈ a, IsLine e l) (hne : a ≠ []) :
    (a ++ b).flatten[a.flatten.length - 1]? = some e := by
  obtain rfl | ⟨i, l, rfl⟩ := List.eq_nil_or_concat' a
  · exact absurd rfl hne
  obtain ⟨t, rfl, -⟩ := hl l (List.mem_append_right _ (List.mem_singleton.2 rfl))
  have htext : (i ++ [t ++ [e]] ++ b).flatten = (i.flatten ++ t) ++ (e :: b.flatten) := by simp
  have hlen : (i ++ [t ++ [e]]).flatten.length - 1 = (i.flatten ++ t).length := by simp
  rw [htext, hlen, List.getElem?_append_right (Nat.le_refl _), Nat.sub_self]
  rfl

/-- Lines of one length are cut at the end of one when what is kept is so many lines. -/
theorem cutsAtEnd_of_dvd {ls : List (List α)} {n cap keep : Nat} (hl : ∀ l ∈ ls, IsLine e l)
    (hn : ∀ l ∈ ls, l.length = n) (hk : n ∣ keep) (hcap : keep ≤ cap) : CutsAtEnd e cap keep ls.flatten := by
  intro hlong
  obtain ⟨k, rfl⟩ := hk
  have hlen := length_flatten_of_length hn
  have hlt : k < ls.length := Nat.lt_of_mul_lt_mul_left (a := n) (by omega)
  have hcut : (ls.take (ls.length - k)).flatten.length = ls.flatten.length - n * k := by
    rw [length_flatten_of_length fun l h => hn l (List.mem_of_mem_take h), hlen, List.length_take,
      Nat.min_eq_left (Nat.sub_le ..), Nat.mul_sub]
  have hend := end_of_split (a := ls.take (ls.length - k)) (b := ls.drop (ls.length - k)) (fun l h =>
    hl l (List.mem_of_mem_take h)) (List.ne_nil_of_length_pos (by rw [List.length_take]; omega))
  rwa [List.take_append_drop, hcut] at hend

/-- Of two suffixes, the one with the shorter text is a suffix of the other. -/
theorem suffix_of_shorter {a b ls : List (List α)} (ha : a <:+ ls) (hb : b <:+ ls) (ht : ∀ l ∈ a, l ≠ [])
    (hlt : b.flatten.length < a.flatten.length) : ∃ c, c ≠ [] ∧ a = c ++ b := by
  rcases List.suffix_or_suffix_of_suffix ha hb with h | h
  · obtain ⟨c, rfl⟩ := h
    rw [List.flatten_append, List.length_append] at hlt
    omega
  · obtain ⟨c, rfl⟩ := h
    refine ⟨c, ?_, rfl⟩
    rintro rfl
    exact Nat.lt_irrefl _ hlt

/-! ## One more line -/

variable {lines : List (List α)} {text l : List α} {cap keep : Nat}

/-- **What is left is whole lines** exactly when the cut comes at the end of one. -/
theorem whole_trim_iff (h : Whole e lines text) (hl : IsLine e l) (hk : 0 < keep) (hcap : keep ≤ cap) :
    Whole e (lines ++ [l]) (trim cap keep (text ++ l)) ↔ CutsAtEnd e cap keep (text ++ l) := by
  obtain ⟨kept, ⟨old, rfl⟩, -, rfl, hkept⟩ := h
  have hall : ∀ x ∈ kept ++ [l], IsLine e x := by
    intro x hx
    rcases List.mem_append.1 hx with hx | hx
    · exact hkept x hx
    · exact List.mem_singleton.1 hx ▸ hl
  have htext : kept.flatten ++ l = (kept ++ [l]).flatten := by simp
  have hsuf : kept ++ [l] <:+ old ++ kept ++ [l] := ⟨old, (List.append_assoc ..).symm⟩
  rw [htext]
  unfold trim CutsAtEnd
  by_cases hlong : cap < (kept ++ [l]).flatten.length
  · rw [if_pos hlong]
    constructor
    · rintro ⟨kept', hsuf', -, hcut, -⟩ -
      have hlen : kept'.flatten.length = keep := by
        rw [← hcut, List.length_drop]
        omega
      obtain ⟨c, hc, heq⟩ := suffix_of_shorter hsuf hsuf' (fun x hx => (hall x hx).ne_nil) (by omega)
      have hend := end_of_split (b := kept') (fun x hx => hall x (heq ▸ List.mem_append_left _ hx)) hc
      rw [heq]
      have hat : (c ++ kept').flatten.length - keep = c.flatten.length := by
        rw [List.flatten_append, List.length_append, hlen]
        omega
      rw [hat]
      exact hend
    · intro hend
      obtain ⟨a, b, hab, hlen⟩ := split_of_end hall (hend hlong)
      have hat : a.flatten.length = (kept ++ [l]).flatten.length - keep := by omega
      have hcut : (kept ++ [l]).flatten.drop a.flatten.length = b.flatten := by
        rw [hab, List.flatten_append, List.drop_left]
      refine ⟨b, .trans ⟨a, hab.symm⟩ hsuf, fun _ hb => ?_, by rw [← hat, hcut], fun x hx => ?_⟩
      · have hnil := congrArg List.length hcut
        rw [hb, List.length_drop, List.flatten_nil, List.length_nil] at hnil
        omega
      · exact hall x (hab ▸ List.mem_append_right _ hx)
  · rw [if_neg hlong]
    refine iff_of_true ⟨kept ++ [l], hsuf, fun _ => by simp, rfl, hall⟩ fun h => absurd h hlong

end LineLog
