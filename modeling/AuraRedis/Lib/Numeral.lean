import AuraRedis.Lib.CString

/-!
# The strings that are numbers

`Numeral s neg ds`: the string is blanks, a sign and the digits `ds`, and nothing else. These are the strings
that `strtoll` reads to their end (`strtoll_whole_iff`); the decimal form of a number is one of many.
-/

set_option autoImplicit false

/-- The values of an `int64_t`. -/
def Fits64 (x : Int) : Prop := -2 ^ 63 ≤ x ∧ x < 2 ^ 63

instance (x : Int) : Decidable (Fits64 x) := inferInstanceAs (Decidable (_ ∧ _))

namespace CString

open Decimal

/-- A sign, and whether it is a minus. -/
inductive Sign : Bytes → Bool → Prop
  | none : Sign [] false
  | plus : Sign [43] false
  | minus : Sign [45] true

/-- Blanks, a sign and digits. -/
def Numeral (s : Bytes) (neg : Bool) (ds : Bytes) : Prop :=
  ∃ sp sg, s = sp ++ (sg ++ ds) ∧ (∀ b ∈ sp, isSpace b = true) ∧ Sign sg neg ∧ ds ≠ [] ∧
    ∀ b ∈ ds, isDigit b = true

/-- The number that a sign and digits denote. -/
def signed (neg : Bool) (ds : Bytes) : Int := if neg then -(value ds : Int) else value ds

variable {s ds sp sg : Bytes} {neg : Bool}

theorem sign_append (h : Sign sg neg) (hne : ds ≠ []) (hd : ∀ b ∈ ds, isDigit b = true) :
    sign (sg ++ ds) = (neg, ds) ∧ ∀ b ∈ (sg ++ ds).head?, isSpace b = false := by
  obtain ⟨d, ds', rfl⟩ := List.exists_cons_of_ne_nil hne
  obtain ⟨hs, hm, hp, -⟩ := isSpace_digit (hd d (.head _))
  cases h with
  | none =>
    refine ⟨?_, fun b hb => by cases hb; exact hs⟩
    unfold sign
    split
    · rename_i h
      exact absurd (List.cons.inj h).1 hm
    · rename_i h
      exact absurd (List.cons.inj h).1 hp
    · rfl
  | plus => exact ⟨rfl, fun b hb => by cases hb; rfl⟩
  | minus => exact ⟨rfl, fun b hb => by cases hb; rfl⟩

theorem sign_cases (s : Bytes) : ∃ sg, Sign sg (sign s).1 ∧ s = sg ++ (sign s).2 := by
  unfold sign
  split
  · exact ⟨[45], .minus, rfl⟩
  · exact ⟨[43], .plus, rfl⟩
  · exact ⟨[], .none, rfl⟩

/-- A numeral is read to its end. -/
theorem scan_numeral (h : Numeral s neg ds) : scan s = (neg, ds, s.length) := by
  obtain ⟨sp, sg, rfl, hsp, hsg, hne, hd⟩ := h
  obtain ⟨hsign, hhead⟩ := sign_append hsg hne hd
  have hbody : (sp ++ (sg ++ ds)).dropWhile isSpace = sg ++ ds := by
    rw [List.dropWhile_append_of_pos hsp]
    cases hc : sg ++ ds with
    | nil => rfl
    | cons b s => rw [List.dropWhile_cons_of_neg (by simp [hhead b (by rw [hc]; rfl)])]
  have hspan := span_append hd (s := []) (fun b hb => by cases hb)
  rw [List.append_nil] at hspan
  unfold scan
  simp only [hbody, hsign, hspan, if_neg hne, List.length_append]
  congr 2
  omega

/-- What is read to its end is a numeral. -/
theorem numeral_of_scan (h0 : (scan s).2.2 ≠ 0) (h : (scan s).2.2 = s.length) :
    Numeral s (scan s).1 (scan s).2.1 := by
  have hsplit := List.takeWhile_append_dropWhile (p := isSpace) (l := s)
  obtain ⟨sg, hsg, hbody⟩ := sign_cases (s.dropWhile isSpace)
  have hspan := span_eq (sign (s.dropWhile isSpace)).2
  unfold scan at h0 h ⊢
  dsimp only at h0 h ⊢
  split at h0
  · exact absurd rfl h0
  · rename_i hne
    rw [if_neg hne] at h ⊢
    dsimp only at h ⊢
    have hlen := congrArg List.length hsplit
    have hbodyLen := congrArg List.length hbody
    have hspanLen := congrArg List.length hspan
    rw [List.length_append] at hlen hbodyLen hspanLen
    have hrest : (span (sign (s.dropWhile isSpace)).2).2 = [] := by
      apply List.eq_nil_of_length_eq_zero
      omega
    rw [hrest, List.append_nil] at hspan
    refine ⟨s.takeWhile isSpace, sg, ?_, fun b hb => List.mem_takeWhile_imp hb, hsg, hne,
      fun b hb => span_digits hb⟩
    rw [hspan, ← hbody, hsplit]

theorem scan_le (s : Bytes) : (scan s).2.2 ≤ s.length := by
  have hlen := congrArg List.length (List.takeWhile_append_dropWhile (p := isSpace) (l := s))
  obtain ⟨sg, -, hbody⟩ := sign_cases (s.dropWhile isSpace)
  have hbodyLen := congrArg List.length hbody
  have hspanLen := congrArg List.length (span_eq (sign (s.dropWhile isSpace)).2)
  rw [List.length_append] at hlen hbodyLen hspanLen
  unfold scan
  dsimp only
  split
  · exact Nat.zero_le _
  · dsimp only
    omega

/-- `*end == '\0'`: the string ends there. -/
theorem getElem?_eq_nul_iff (s : Bytes) {k : Nat} (hk : k ≤ (cstr s).length) :
    (s ++ [0])[k]? = some 0 ↔ k = (cstr s).length := by
  have hs : cstr s ++ s.dropWhile (· ≠ 0) = s := List.takeWhile_append_dropWhile
  generalize hr : s.dropWhile (· ≠ 0) = rest at hs
  have happ : s ++ [0] = cstr s ++ (rest ++ [0]) := by rw [← List.append_assoc, hs]
  rw [happ]
  rcases Nat.lt_or_eq_of_le hk with hlt | rfl
  · rw [List.getElem?_append_left hlt, List.getElem?_eq_getElem hlt]
    refine ⟨fun h => absurd (List.getElem_mem hlt) ?_, fun h => absurd h (Nat.ne_of_lt hlt)⟩
    rw [Option.some.inj h]
    exact cstr_noNul s
  · rw [List.getElem?_append_right (Nat.le_refl _), Nat.sub_self]
    refine ⟨fun _ => rfl, fun _ => ?_⟩
    cases hc : rest with
    | nil => rfl
    | cons b rest' =>
      have hb : (decide (b ≠ 0)) = false := by
        have hne : s.dropWhile (· ≠ 0) ≠ [] := by
          rw [hr, hc]
          exact List.cons_ne_nil b rest'
        have hhead := List.head_dropWhile_not (fun b : UInt8 => decide (b ≠ 0)) hne
        simpa only [hr, hc, List.head_cons] using hhead
      simpa using hb

/-- **The strings that `strtoll` reads to their end.** -/
theorem strtoll_whole_iff (val : Bytes) :
    ((strtoll val).2 ≠ 0 ∧ (strtoll val).2 = (cstr val).length) ↔ ∃ neg ds, Numeral (cstr val) neg ds := by
  constructor
  · intro ⟨h0, h⟩
    exact ⟨_, _, numeral_of_scan h0 h⟩
  · rintro ⟨neg, ds, h⟩
    have hs := scan_numeral h
    have hpos : (cstr val).length ≠ 0 := by
      obtain ⟨sp, sg, hv, -, -, hne, -⟩ := h
      have := List.length_pos_iff.2 hne
      rw [hv, List.length_append, List.length_append]
      omega
    unfold strtoll
    simp only [hs]
    exact ⟨hpos, trivial⟩

theorem strtoll_numeral {val : Bytes} (h : Numeral (cstr val) neg ds) :
    strtoll val = (clamp (-2 ^ 63) (2 ^ 63 - 1) (signed neg ds), (cstr val).length) := by
  unfold strtoll
  simp only [scan_numeral h]
  rfl

/-! ## Decimal forms -/

theorem numeral_ofInt (n : Int) : Numeral (ofInt n) (decide (n < 0)) (ofNat n.natAbs) := by
  unfold ofInt
  by_cases hn : n < 0
  · rw [if_pos hn, decide_eq_true hn]
    exact ⟨[], [45], rfl, List.forall_mem_nil _, .minus, ofNat_ne_nil _, fun _ => isDigit_ofNat⟩
  · rw [if_neg hn, decide_eq_false hn]
    exact ⟨[], [], rfl, List.forall_mem_nil _, .none, ofNat_ne_nil _, fun _ => isDigit_ofNat⟩

theorem cstr_ofInt (n : Int) : cstr (ofInt n) = ofInt n := by
  refine cstr_of_noNul ?_
  unfold ofInt
  have h0 : (0 : UInt8) ∉ ofNat n.natAbs := fun h => (isSpace_digit (isDigit_ofNat h)).2.2.2 rfl
  split
  · simpa using h0
  · exact h0

theorem signed_ofNat (n : Int) : signed (decide (n < 0)) (ofNat n.natAbs) = n := by
  unfold signed
  rw [value_ofNat]
  by_cases hn : n < 0
  · rw [decide_eq_true hn, if_pos rfl]
    omega
  · rw [decide_eq_false hn, if_neg Bool.false_ne_true]
    omega

/-- **The decimal form of a number is read as that number, and to its end.** -/
theorem strtoll_ofInt {n : Int} (h : Fits64 n) : strtoll (ofInt n) = (n, (ofInt n).length) := by
  have hnum : Numeral (cstr (ofInt n)) (decide (n < 0)) (ofNat n.natAbs) := (cstr_ofInt n).symm ▸ numeral_ofInt n
  rw [strtoll_numeral hnum, signed_ofNat, cstr_ofInt]
  obtain ⟨h₁, h₂⟩ := h
  congr 1
  unfold clamp
  omega

theorem length_ofInt_le {n : Int} (h : Fits64 n) : 0 < (ofInt n).length ∧ (ofInt n).length ≤ 20 := by
  obtain ⟨h₁, h₂⟩ := h
  have hlen : (ofNat n.natAbs).length ≤ 19 := length_ofNat_le (by decide) (by omega)
  have hpos := List.length_pos_iff.2 (ofNat_ne_nil n.natAbs)
  unfold ofInt
  split
  · rw [List.length_cons]
    omega
  · omega

end CString
