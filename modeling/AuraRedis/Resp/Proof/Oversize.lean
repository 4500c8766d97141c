import AuraRedis.Resp.Proof.Parse

/-!
# Oversize headers

What the reader makes of the digits of a header. The length of a bulk is read exactly or not at all
(`bulkDigits_eq_ok`), but the argument count is accumulated in a `long` without a look at its size: it is read as long
as that does not overflow (`argcLine_digits`), and what comes then is undefined (`argcLine_overflow`).
`rejectsOversize_iff` says which headers are safe.
-/

set_option autoImplicit false

namespace Resp

open Decimal

/-! ## The argument count -/

theorem expectCrlf_append (s : Bytes) : expectCrlf (crlf ++ s) = .ok () s := rfl

/-- What the `long` and the `int` that count lines are read with can take. -/
def CountFits (ds : Bytes) : Prop := value ds < 2 ^ 63 ∧ ds.length < 2 ^ 31

/-- **A count that fits is read exactly.** -/
theorem argcLine_digits {ds : Bytes} (hne : ds ≠ []) (hd : ∀ b ∈ ds, isDigit b = true) (hf : CountFits ds)
    (s : Bytes) : argcLine (ds ++ (crlf ++ s)) = .ok (value ds) s := by
  have hlen : 0 + ds.length ≠ 0 := by simpa using hne
  have hrun : argcDigits 0 0 (ds ++ (crlf ++ s)) = .ok (value ds) (crlf ++ s) := by
    rw [← Int.natCast_zero, argcDigits_run ds hd 0 0 hf.1 (by have := hf.2; omega), crlf, List.cons_append, argcDigits,
      if_neg (by decide), if_neg hlen]
    rfl
  rw [argcLine, hrun, Parsed.andThen_ok, expectCrlf_append, Parsed.andThen_ok]

theorem argcDigits_overflow {ds : Bytes} (hd : ∀ b ∈ ds, isDigit b = true) {n k : Nat} (hn : n < 2 ^ 63)
    (hk : k < 2 ^ 31) (ho : ¬(valueFrom n ds < 2 ^ 63 ∧ k + ds.length < 2 ^ 31)) (s : Bytes) :
    argcDigits n k (ds ++ s) = .undefined := by
  induction ds generalizing n k with
  | nil => exact absurd ⟨hn, hk⟩ ho
  | cons b ds ih =>
    have hc : (n : Int) * 10 + (digit b : Nat) = (n * 10 + digit b : Nat) := by omega
    rw [List.cons_append, argcDigits, if_pos (hd b (.head _)), hc]
    split
    · next hfits =>
      rw [valueFrom_cons, List.length_cons] at ho
      exact ih (fun c hm => hd c (.tail _ hm)) (by omega) hfits.2 (by omega)
    · rfl

/-- **What a count leads to that does not fit is undefined.** -/
theorem argcLine_overflow {ds : Bytes} (hd : ∀ b ∈ ds, isDigit b = true) (hf : ¬CountFits ds) (s : Bytes) :
    argcLine (ds ++ (crlf ++ s)) = .undefined := by
  have hrun : argcDigits 0 0 (ds ++ (crlf ++ s)) = .undefined := by
    rw [← Int.natCast_zero]
    refine argcDigits_overflow hd (by decide) (by decide) (fun h => hf ⟨h.1, ?_⟩) _
    have := h.2
    omega
  rw [argcLine, hrun, Parsed.andThen_undefined]

/-- **A count over the limit is rejected, whatever follows its line.** -/
theorem count_rejected {ds : Bytes} (hne : ds ≠ []) (hd : ∀ b ∈ ds, isDigit b = true) (hf : CountFits ds)
    (hv : maxArgv < value ds) (s : Bytes) : parseCommand (42 :: (ds ++ (crlf ++ s))) = .error := by
  rw [parseCommand, if_neg (by decide), argcLine_digits hne hd hf, Parsed.andThen_ok, if_pos (by omega)]

/-! ## Nothing undefined -/

theorem expectCrlf_defined (s : Bytes) : expectCrlf s ≠ .undefined := by
  match s with
  | [] => simp [expectCrlf]
  | [b] => by_cases hb : b = 13 <;> simp [expectCrlf, hb]
  | b :: b' :: s => by_cases hb : b = 13 <;> by_cases hb' : b' = 10 <;> simp [expectCrlf, hb, hb']

theorem bulkDigits_defined (n k : Nat) (s : Bytes) : bulkDigits n k s ≠ .undefined := by
  induction s generalizing n k with
  | nil => simp [bulkDigits]
  | cons b s ih =>
    rw [bulkDigits]
    split
    · split
      · simp
      · exact ih _ _
    · split <;> simp

theorem parseBulk_defined (s : Bytes) : parseBulk s ≠ .undefined := by
  have hlen : ∀ s, bulkLen s ≠ .undefined := fun s =>
    Parsed.andThen_defined (bulkDigits_defined 0 0 s) fun n s => Parsed.andThen_defined (expectCrlf_defined s) fun _ _ => by simp
  cases s with
  | nil => simp [parseBulk]
  | cons b s =>
    rw [parseBulk]
    split
    · simp
    split
    · exact Parsed.andThen_defined (hlen _) fun _ _ => by simp
    · refine Parsed.andThen_defined (hlen _) fun n s => ?_
      unfold bulkPayload
      split
      · simp
      split
      · simp
      split <;> simp

theorem parseArgv_defined (n : Nat) (s : Bytes) : parseArgv n s ≠ .undefined := by
  induction n generalizing s with
  | zero => simp [parseArgv]
  | succ n ih =>
    refine Parsed.andThen_defined (parseBulk_defined s) fun arg s => ?_
    cases arg with
    | none => simp
    | some arg => exact Parsed.andThen_defined (ih s) fun _ _ => by simp

/-! ## The length of a bulk -/

/-- A length that is read is the number its digits denote. -/
theorem bulkDigits_eq_ok {ds : Bytes} (hd : ∀ b ∈ ds, isDigit b = true) {n k m : Nat} {s r : Bytes}
    (h : bulkDigits n k (ds ++ (crlf ++ s)) = .ok m r) : m = valueFrom n ds ∧ r = crlf ++ s := by
  induction ds generalizing n k with
  | nil =>
    rw [List.nil_append, crlf, List.cons_append, bulkDigits, if_neg (by decide)] at h
    split at h <;> cases h
    exact ⟨rfl, rfl⟩
  | cons b ds ih =>
    rw [List.cons_append, bulkDigits, if_pos (hd b (.head _))] at h
    split at h
    · cases h
    · exact ih (fun c hc => hd c (.tail _ hc)) h

/-- The digits of a length are read or rejected, once the line goes on behind them. -/
theorem bulkDigits_complete {ds : Bytes} (hd : ∀ b ∈ ds, isDigit b = true) (n k : Nat) (s : Bytes) :
    bulkDigits n k (ds ++ (crlf ++ s)) ≠ .incomplete := by
  induction ds generalizing n k with
  | nil =>
    rw [List.nil_append, crlf, List.cons_append, bulkDigits, if_neg (by decide)]
    split <;> simp
  | cons b ds ih =>
    rw [List.cons_append, bulkDigits, if_pos (hd b (.head _))]
    split
    · simp
    · exact ih (fun c hc => hd c (.tail _ hc)) _ _

/-- **The line of a length is read as the number its digits denote, or rejected.** -/
theorem bulkLen_line {ds : Bytes} (hd : ∀ b ∈ ds, isDigit b = true) (s : Bytes) :
    bulkLen (ds ++ (crlf ++ s)) = .error ∨ bulkLen (ds ++ (crlf ++ s)) = .ok (value ds) s := by
  cases h : bulkDigits 0 0 (ds ++ (crlf ++ s)) with
  | incomplete => exact absurd h (bulkDigits_complete hd 0 0 s)
  | error => exact .inl (by rw [bulkLen, h, Parsed.andThen_error])
  | undefined => exact absurd h (bulkDigits_defined _ _ _)
  | ok m r =>
    obtain ⟨rfl, rfl⟩ := bulkDigits_eq_ok hd h
    exact .inr (by rw [bulkLen, h, Parsed.andThen_ok, expectCrlf_append, Parsed.andThen_ok, value])

theorem head_digits_append {ds : Bytes} (hne : ds ≠ []) (hd : ∀ b ∈ ds, isDigit b = true) (s : Bytes) :
    (ds ++ s).head? ≠ some 45 := by
  obtain ⟨b, ds, rfl⟩ := List.exists_cons_of_ne_nil hne
  have hb := hd b (.head _)
  rw [List.cons_append, List.head?_cons]
  rintro ⟨⟩
  exact absurd hb (by decide)

/-- A bulk whose length is over the cap is rejected with its header. -/
theorem parseBulk_oversize {ds : Bytes} (hne : ds ≠ []) (hd : ∀ b ∈ ds, isDigit b = true)
    (hv : maxBulk < value ds) (s : Bytes) : parseBulk (36 :: (ds ++ (crlf ++ s))) = .error := by
  rw [parseBulk, if_neg (by decide), if_neg (head_digits_append hne hd _)]
  rcases bulkLen_line hd s with h | h
  · rw [h, Parsed.andThen_error]
  · rw [h, Parsed.andThen_ok, bulkPayload, if_pos hv]

/-- A bulk with a negative length is the null bulk, or rejected. -/
theorem parseBulk_negative {ds : Bytes} (hd : ∀ b ∈ ds, isDigit b = true) (s : Bytes) :
    parseBulk (36 :: 45 :: (ds ++ (crlf ++ s))) = .error ∨
      parseBulk (36 :: 45 :: (ds ++ (crlf ++ s))) = .ok none s := by
  rw [parseBulk, if_neg (by decide), List.head?_cons, if_pos rfl, List.tail_cons]
  rcases bulkLen_line hd s with h | h
  · exact .inl (by rw [h, Parsed.andThen_error])
  · exact .inr (by rw [h, Parsed.andThen_ok])

/-! ## A bulk in its command -/

/-- The reader has taken the count line of a command and some of its bulks, and comes to the next one. -/
def ComesTo (s rest : Bytes) : Prop :=
  ∃ (line : Bytes) (n : Int) (s' : Bytes) (j : Nat) (argv : List Bytes), s = 42 :: line ∧
    argcLine line = .ok n s' ∧ n ≤ maxArgv ∧ j < n ∧ parseArgv j s' = .ok argv rest

theorem parseArgv_add {j : Nat} {s rest : Bytes} {argv : List Bytes} (h : parseArgv j s = .ok argv rest)
    (k : Nat) :
    parseArgv (j + k) s = (parseArgv k rest).andThen fun more t => .ok (argv ++ more) t := by
  induction j generalizing s argv with
  | zero =>
    cases h
    rw [Nat.zero_add]
    cases h : parseArgv k rest <;> rfl
  | succ j ih =>
    rw [parseArgv] at h
    obtain ⟨arg, s₁, hb, h⟩ := Parsed.andThen_eq_ok h
    cases arg with
    | none => cases h
    | some arg =>
      obtain ⟨args, s₂, ha, h⟩ := Parsed.andThen_eq_ok h
      cases h
      rw [Nat.succ_add, parseArgv, hb, Parsed.andThen_ok]
      simp only [ih ha]
      cases parseArgv k rest <;> rfl

/-- **A command with a bulk that is rejected, or null, is rejected**, whatever came before. -/
theorem ComesTo.error {s rest : Bytes} (h : ComesTo s rest)
    (hb : parseBulk rest = .error ∨ ∃ t, parseBulk rest = .ok none t) : parseCommand s = .error := by
  obtain ⟨line, n, s', j, argv, rfl, hl, hn, hj, ha⟩ := h
  obtain ⟨k, hk⟩ : ∃ k, n.toNat = j + (k + 1) := ⟨n.toNat - j - 1, by omega⟩
  have hrest : parseArgv (k + 1) rest = .error := by
    rw [parseArgv]
    rcases hb with hb | ⟨t, hb⟩ <;> rw [hb] <;> rfl
  rw [parseCommand, if_neg (by decide), hl, Parsed.andThen_ok, if_neg (by omega), hk,
    parseArgv_add ha, hrest, Parsed.andThen_error]

/-! ## Both headers -/

/-- A header with these digits is rejected once its line is complete when it asks for too much: a count line
when it denotes more than `maxArgv`, the header of a bulk when it denotes more than `maxBulk` or is negative.
What is not rejected is read as no smaller number, and nothing undefined comes of it. -/
structure RejectsOversize (ds : Bytes) : Prop where
  count : maxArgv < value ds → ∀ s, parseCommand (42 :: (ds ++ (crlf ++ s))) = .error
  bulk : maxBulk < value ds → ∀ s t, ComesTo s (36 :: (ds ++ (crlf ++ t))) → parseCommand s = .error
  negative : ∀ s t, ComesTo s (36 :: 45 :: (ds ++ (crlf ++ t))) → parseCommand s = .error
  defined : ∀ s, parseCommand (42 :: (ds ++ (crlf ++ s))) ≠ .undefined
  countExact : ∀ s n, argcLine (ds ++ (crlf ++ s)) = .ok n s → value ds ≤ n
  bulkExact : ∀ s n, bulkLen (ds ++ (crlf ++ s)) = .ok n s → value ds ≤ n

/-- **Every oversize header is rejected, as long as the count does not overflow.** -/
theorem rejectsOversize_iff {ds : Bytes} (hne : ds ≠ []) (hd : ∀ b ∈ ds, isDigit b = true) :
    RejectsOversize ds ↔ CountFits ds := by
  constructor
  · intro h
    by_contra hf
    refine h.defined [] ?_
    rw [parseCommand, if_neg (by decide), argcLine_overflow hd hf, Parsed.andThen_undefined]
  · intro hf
    refine ⟨fun hv => count_rejected hne hd hf hv, fun hv s t hc => ?_, fun s t hc => ?_, fun s => ?_,
      fun s n hn => ?_, fun s n hn => ?_⟩
    · exact hc.error (.inl (parseBulk_oversize hne hd hv t))
    · exact hc.error ((parseBulk_negative hd t).imp_right fun h => ⟨t, h⟩)
    · rw [parseCommand, if_neg (by decide), argcLine_digits hne hd hf, Parsed.andThen_ok]
      split
      · simp
      · exact parseArgv_defined _ s
    · rw [argcLine_digits hne hd hf] at hn
      injection hn with hn
      exact hn.le
    · rcases bulkLen_line hd s with h' | h'
      · cases h'.symm.trans hn
      · cases h'.symm.trans hn
        exact Nat.le_refl _

/-- A count of 65. -/
theorem rejectsOversize_sixty_five : RejectsOversize (lit "65") :=
  (rejectsOversize_iff (by decide) (by decide +kernel)).2 ⟨by decide +kernel, by decide +kernel⟩

/-- A count of 2^64 + 1: the reader has no line to reject any more. -/
theorem count_overflows :
    maxArgv < value (lit "18446744073709551617") ∧
      parseCommand (lit "*18446744073709551617" ++ (crlf ++ bulk (lit "PING"))) = .undefined ∧
      ¬RejectsOversize (lit "18446744073709551617") := by
  refine ⟨by decide, by decide +kernel, fun h => ?_⟩
  have he := h.count (by decide) (bulk (lit "PING"))
  revert he
  decide +kernel

end Resp
