import AuraRedis.Aura.Resp
import AuraRedis.Lib.Incremental

/-!
# The Aura codec's round trip

`ReadsAt w v` says what the reader does at the index where the word `w` begins: with all of `w` there it
returns `v` and the index after it, and on a strict prefix of `w` it asks for more. A value that is
`WellFormed` is read so from what the writer made of it (`readsAt_encode`), by induction on it; `readsAt_items`
is the loop over an array. `tryParse_fuel` says that the depth `respTryParse` allows is never reached.
-/

set_option autoImplicit false

namespace Aura

/-! ## Lines -/

/-- No line end in it: what `+` and `-` may carry. -/
def Line (s : Bytes) : Prop := ¬ respCrlf <:+: s

theorem line_cons {b : UInt8} {s : Bytes} (h : Line (b :: s)) : Line s := fun hs =>
  h (hs.trans (List.suffix_cons b s).isInfix)

/-- A text without a line feed. -/
theorem line_of_notMem {s : Bytes} (h : 10 ∉ s) : Line s := fun hs => h (hs.subset (by simp [respCrlf]))

theorem line_ofInt (n : Int) : Line (Decimal.ofInt n) := by
  apply line_of_notMem
  intro hm
  have hd : ∀ m : Nat, (10 : UInt8) ∉ Decimal.ofNat m := fun m hm => by
    have := Decimal.isDigit_ofNat hm
    simp [Decimal.isDigit] at this
  unfold Decimal.ofInt at hm
  split at hm
  · rcases List.mem_cons.1 hm with h | h
    · cases h
    · exact hd _ h
  · exact hd _ hm

/-- The end of a line is found where it is. -/
theorem findCrlf_line {l : Bytes} (hl : Line l) (rest : Bytes) (i : Nat) :
    findCrlf (l ++ (respCrlf ++ rest)) i = some (i + l.length) := by
  induction l generalizing i with
  | nil => simp [findCrlf, respCrlf]
  | cons b l ih =>
    have hstep : findCrlf (b :: (l ++ (respCrlf ++ rest))) i = findCrlf (l ++ (respCrlf ++ rest)) (i + 1) := by
      cases l with
      | nil => simp [findCrlf, respCrlf]
      | cons b' l =>
        have hb : ¬ (b = 13 ∧ b' = 10) := fun h => hl ⟨[], l, by simp [respCrlf, h.1, h.2]⟩
        simp [findCrlf, hb]
    rw [List.cons_append, hstep, ih (line_cons hl), List.length_cons]
    congr 1
    omega

/-- A line that is not complete has no end. -/
theorem findCrlf_cut {l p : Bytes} (hl : Line l) (hp : StrictPrefix p (l ++ respCrlf)) (i : Nat) :
    findCrlf p i = none := by
  induction l generalizing p i with
  | nil =>
    rcases hp.of_cons with rfl | ⟨y, rfl, hy⟩
    · rfl
    · rcases hy.of_cons with rfl | ⟨z, rfl, hz⟩
      · rfl
      · exact hz.not_nil.elim
  | cons b l ih =>
    rcases hp.of_cons with rfl | ⟨y, rfl, hy⟩
    · rfl
    · cases y with
      | nil => rfl
      | cons b' y =>
        have hb : ¬ (b = 13 ∧ b' = 10) := by
          rintro ⟨rfl, rfl⟩
          cases l with
          | nil => simpa [respCrlf] using (List.cons_prefix_cons.1 hy.1).1
          | cons b'' l =>
            obtain ⟨rfl, -⟩ := List.cons_prefix_cons.1 hy.1
            exact hl ⟨[], l, by simp [respCrlf]⟩
        simp only [findCrlf, if_neg hb]
        exact ih (line_cons hl) hy (i + 1)

/-! ## The header of a value -/

/-- A value that the writer is handed to send: a status has no line end in it. -/
inductive Wire.WellFormed : Wire → Prop
  | simple {s : Bytes} (h : Line s) : WellFormed (.simple s)
  | error {s : Bytes} (h : Line s) : WellFormed (.error s)
  | int (n : Int) : WellFormed (.int n)
  | bulk (s : Bytes) : WellFormed (.bulk s)
  | null : WellFormed .null
  | array {xs : List Wire} (h : ∀ x ∈ xs, WellFormed x) : WellFormed (.array xs)

section
variable {t : UInt8} {l : Bytes}

theorem respFindCrlf_line (hl : Line l) (pre rest : Bytes) :
    respFindCrlf (pre ++ t :: (l ++ (respCrlf ++ rest))) (pre.length + 1) = some (pre.length + 1 + l.length) := by
  have hd : (pre ++ t :: (l ++ (respCrlf ++ rest))).drop (pre.length + 1) = l ++ (respCrlf ++ rest) := by
    simp [List.drop_append]
  rw [respFindCrlf, hd, findCrlf_line hl]

theorem respFindCrlf_cut (hl : Line l) (pre : Bytes) {p : Bytes} (hp : StrictPrefix p (l ++ respCrlf)) :
    respFindCrlf (pre ++ t :: p) (pre.length + 1) = none := by
  have hd : (pre ++ t :: p).drop (pre.length + 1) = p := by simp [List.drop_append]
  rw [respFindCrlf, hd, findCrlf_cut hl hp]

/-- What follows `n` bytes, up to `m` bytes on. -/
theorem substring_append {a b c : Bytes} {n m : Nat} (hn : n = a.length) (hm : m = n + b.length) :
    substring (a ++ (b ++ c)) n m = b := by
  subst hm hn
  simp [substring]

theorem substring_line (pre rest : Bytes) :
    substring (pre ++ t :: (l ++ rest)) (pre.length + 1) (pre.length + 1 + l.length) = l := by
  have hs : pre ++ t :: (l ++ rest) = (pre ++ [t]) ++ (l ++ rest) := by simp
  rw [hs]
  exact substring_append (by simp) rfl

end

theorem respEncodeInt_eq (n : Int) : respEncodeInt n = 58 :: (Decimal.ofInt n ++ respCrlf) := by
  unfold respEncodeInt
  split
  · rename_i h
    subst h
    decide
  · split
    · rename_i h
      subst h
      decide
    · rfl

/-! ## Where a reader stands -/

theorem le_findCrlf {s : Bytes} {i cr : Nat} (h : findCrlf s i = some cr) : i ≤ cr := by
  induction s generalizing i with
  | nil => cases h
  | cons b s ih =>
    cases s with
    | nil => cases h
    | cons b' s =>
      simp only [findCrlf] at h
      split at h
      · cases h
        exact Nat.le_refl _
      · exact Nat.le_of_succ_le (ih h)

theorem le_respParseItems {parse : Nat → Option (Nat × Wire)} (hp : ∀ p q x, parse p = some (q, x) → p < q)
    {k pos j : Nat} {acc : List Wire} {v : Wire} (h : respParseItems parse k pos acc = some (j, v)) : pos ≤ j := by
  induction k generalizing pos acc with
  | zero =>
    cases h
    exact Nat.le_refl _
  | succ k ih =>
    rw [respParseItems] at h
    split at h
    · cases h
    · rename_i hq
      have := hp _ _ _ hq
      have := ih h
      omega

/-- Readers that agree from `pos` on. -/
theorem respParseItems_congr {f g : Nat → Option (Nat × Wire)} (hf : ∀ p q x, f p = some (q, x) → p < q)
    {pos : Nat} (hfg : ∀ p, pos ≤ p → f p = g p) (k : Nat) (acc : List Wire) :
    respParseItems f k pos acc = respParseItems g k pos acc := by
  induction k generalizing pos acc with
  | zero => rfl
  | succ k ih =>
    rw [respParseItems, respParseItems, ← hfg pos (Nat.le_refl _)]
    cases hx : f pos with
    | none => rfl
    | some x =>
      obtain ⟨q, x⟩ := x
      have hq := hf _ _ _ hx
      exact ih (fun p hp => hfg p (by omega)) _

section
variable [Runtime]

/-- The reader at the first byte of a value. -/
theorem tryParse_at (fuel : Nat) (pre : Bytes) (t : UInt8) (s : Bytes) :
    tryParse (fuel + 1) (pre ++ t :: s) pre.length =
      if t = 43 ∨ t = 45 ∨ t = 58 then respParseLine (pre ++ t :: s) pre.length t
      else if t = 36 then respParseBulk (pre ++ t :: s) pre.length
      else if t = 42 then respParseArray (tryParse fuel (pre ++ t :: s)) (pre ++ t :: s) pre.length
      else some (pre.length + 1, .error (lit "ERR protocol")) := by
  have hget : (pre ++ t :: s)[pre.length]? = some t := by simp
  simp only [tryParse, hget]

theorem tryParse_end (fuel : Nat) (pre : Bytes) : tryParse fuel (pre ++ []) pre.length = none := by
  cases fuel with
  | zero => rfl
  | succ fuel => simp [tryParse]

/-- What the reader does where `w` begins, nested deeply enough. -/
structure ReadsAt (w : Bytes) (v : Wire) : Prop where
  ok : ∀ (fuel : Nat) (pre rest : Bytes), (w ++ rest).length < fuel →
    tryParse fuel (pre ++ (w ++ rest)) pre.length = some (pre.length + w.length, v)
  cut : ∀ (fuel : Nat) (pre p : Bytes), StrictPrefix p w → p.length < fuel →
    tryParse fuel (pre ++ p) pre.length = none

/-- A value that begins with `t`. -/
theorem ReadsAt.of_cons {t : UInt8} {w : Bytes} {v : Wire}
    (hok : ∀ (fuel : Nat) (pre rest : Bytes), (w ++ rest).length < fuel →
      tryParse (fuel + 1) (pre ++ t :: (w ++ rest)) pre.length = some (pre.length + 1 + w.length, v))
    (hcut : ∀ (fuel : Nat) (pre p : Bytes), StrictPrefix p w → p.length < fuel →
      tryParse (fuel + 1) (pre ++ t :: p) pre.length = none) : ReadsAt (t :: w) v := by
  constructor
  · intro fuel pre rest hf
    obtain ⟨fuel, rfl⟩ : ∃ f, fuel = f + 1 := ⟨fuel - 1, by omega⟩
    rw [List.cons_append, hok fuel pre rest (by simpa using hf), List.length_cons]
    congr 2
    omega
  · intro fuel pre p hp hf
    rcases hp.of_cons with rfl | ⟨y, rfl, hy⟩
    · exact tryParse_end fuel pre
    · obtain ⟨fuel, rfl⟩ : ∃ f, fuel = f + 1 := ⟨fuel - 1, by omega⟩
      exact hcut fuel pre y hy (by simpa using hf)

/-! ## Each kind of value -/

/-- A status, an error or a number: a line that `respParseLine` makes `v` of. -/
theorem readsAt_line {t : UInt8} (ht : t = 43 ∨ t = 45 ∨ t = 58) {l : Bytes} (hl : Line l) {v : Wire}
    (hv : ∀ (pre rest : Bytes), respParseLine (pre ++ t :: (l ++ (respCrlf ++ rest))) pre.length t =
      some (pre.length + 1 + l.length + 2, v)) : ReadsAt (t :: (l ++ respCrlf)) v := by
  apply ReadsAt.of_cons
  · intro fuel pre rest _
    rw [tryParse_at, if_pos ht, List.append_assoc, hv]
    simp [respCrlf]
    omega
  · intro fuel pre p hp _
    rw [tryParse_at, if_pos ht, respParseLine, respFindCrlf_cut hl pre hp]

theorem readsAt_simple {s : Bytes} (hs : Line s) : ReadsAt (respEncodeSimple s) (.simple s) := by
  apply readsAt_line (.inl rfl) hs
  intro pre rest
  simp only [respParseLine, respFindCrlf_line hs, substring_line]
  rfl

theorem readsAt_error {s : Bytes} (hs : Line s) : ReadsAt (respEncodeError s) (.error s) := by
  apply readsAt_line (.inr (.inl rfl)) hs
  intro pre rest
  simp only [respParseLine, respFindCrlf_line hs, substring_line]
  rfl

/-- The loop over the items of an array, behind those already read. -/
theorem readsAt_items {xs : List Wire} (h : ∀ x ∈ xs, ReadsAt (respEncode x) x) (fuel : Nat) (acc : List Wire) :
    (∀ pre rest : Bytes, (respEncodeItems xs ++ rest).length < fuel →
      respParseItems (tryParse fuel (pre ++ (respEncodeItems xs ++ rest))) xs.length pre.length acc =
        some (pre.length + (respEncodeItems xs).length, .array (acc.reverse ++ xs))) ∧
    ∀ pre p : Bytes, StrictPrefix p (respEncodeItems xs) → p.length < fuel →
      respParseItems (tryParse fuel (pre ++ p)) xs.length pre.length acc = none := by
  induction xs generalizing acc with
  | nil =>
    constructor
    · intro pre rest _
      simp [respParseItems, respEncodeItems]
    · intro pre p hp _
      exact hp.not_nil.elim
  | cons x xs ih =>
    have hx := h x (.head _)
    obtain ⟨hok, hcut⟩ := ih (fun y hy => h y (.tail _ hy)) (x :: acc)
    constructor
    · intro pre rest hf
      simp only [respEncodeItems, List.append_assoc] at hf ⊢
      have hnext : pre.length + (respEncode x).length = (pre ++ respEncode x).length := by simp
      rw [List.length_cons, respParseItems, hx.ok fuel pre _ hf]
      dsimp only
      rw [hnext, ← List.append_assoc pre]
      rw [hok (pre ++ respEncode x) rest (by simp at hf ⊢; omega)]
      simp
      omega
    · intro pre p hp hf
      rw [List.length_cons, respParseItems]
      rcases hp.of_append with hh | ⟨y, rfl, hy⟩
      · rw [hx.cut fuel pre p hh hf]
      · have hnext : pre.length + (respEncode x).length = (pre ++ respEncode x).length := by simp
        rw [hx.ok fuel pre y hf]
        dsimp only
        rw [hnext, ← List.append_assoc pre]
        exact hcut (pre ++ respEncode x) y hy (by simp at hf; omega)

/-- `string->number` reads back what `string-append` writes. -/
def Runtime.Inverts : Prop := ∀ n, Runtime.stringToNumber (Decimal.ofInt n) = some n

section
variable (hnum : Runtime.Inverts)
include hnum

theorem readsAt_int (n : Int) : ReadsAt (respEncodeInt n) (.int n) := by
  rw [respEncodeInt_eq]
  apply readsAt_line (.inr (.inr rfl)) (line_ofInt n)
  intro pre rest
  simp only [respParseLine, respFindCrlf_line (line_ofInt n), substring_line, hnum n]
  rfl

theorem readsAt_null : ReadsAt respNull .null := by
  have hl := line_ofInt (-1)
  have hw : respNull = 36 :: (Decimal.ofInt (-1) ++ respCrlf) := by decide
  rw [hw]
  apply ReadsAt.of_cons
  · intro fuel pre rest _
    rw [tryParse_at, if_neg (by decide), if_pos rfl, List.append_assoc, respParseBulk]
    simp only [respFindCrlf_line hl, substring_line, hnum (-1)]
    simp [respCrlf]
    omega
  · intro fuel pre p hp _
    rw [tryParse_at, if_neg (by decide), if_pos rfl, respParseBulk, respFindCrlf_cut hl pre hp]

theorem readsAt_bulk (s : Bytes) : ReadsAt (respEncodeBulk s) (.bulk s) := by
  have hl := line_ofInt s.length
  apply ReadsAt.of_cons
  · intro fuel pre rest _
    have hw : Decimal.ofInt s.length ++ respCrlf ++ (s ++ respCrlf) ++ rest =
        Decimal.ofInt s.length ++ (respCrlf ++ (s ++ (respCrlf ++ rest))) := by simp
    rw [tryParse_at, if_neg (by decide), if_pos rfl, hw, respParseBulk]
    simp only [respFindCrlf_line hl, substring_line, hnum s.length]
    have hsub : substring (pre ++ 36 :: (Decimal.ofInt s.length ++ (respCrlf ++ (s ++ (respCrlf ++ rest)))))
        (pre.length + 1 + (Decimal.ofInt s.length).length + 2)
        (pre.length + 1 + (Decimal.ofInt s.length).length + 2 + (s.length : Int).toNat) = s := by
      have hs : pre ++ 36 :: (Decimal.ofInt s.length ++ (respCrlf ++ (s ++ (respCrlf ++ rest)))) =
          (pre ++ 36 :: (Decimal.ofInt s.length ++ respCrlf)) ++ (s ++ (respCrlf ++ rest)) := by simp
      rw [hs]
      exact substring_append (by simp [respCrlf]; omega) (by simp)
    rw [if_neg (by omega), hsub, if_neg (by simp [respCrlf]; omega)]
    simp [respCrlf]
    omega
  · intro fuel pre p hp _
    rw [tryParse_at, if_neg (by decide), if_pos rfl, respParseBulk]
    rcases hp.of_append with hh | ⟨y, rfl, hy⟩
    · rw [respFindCrlf_cut hl pre hh]
    · have hlt := hy.length_lt
      rw [List.append_assoc]
      simp only [respFindCrlf_line hl, substring_line, hnum s.length]
      rw [if_neg (by omega), if_pos (by simp [respCrlf] at hlt ⊢; omega)]

theorem readsAt_array {xs : List Wire} (h : ∀ x ∈ xs, ReadsAt (respEncode x) x) :
    ReadsAt (respEncode (.array xs)) (.array xs) := by
  have hl := line_ofInt xs.length
  have hpos (pre : Bytes) : pre.length + 1 + (Decimal.ofInt xs.length).length + 2 =
      (pre ++ 42 :: (Decimal.ofInt xs.length ++ respCrlf)).length := by
    simp [respCrlf]
    omega
  have hbuf (pre s : Bytes) : pre ++ 42 :: (Decimal.ofInt xs.length ++ (respCrlf ++ s)) =
      (pre ++ 42 :: (Decimal.ofInt xs.length ++ respCrlf)) ++ s := by simp
  rw [respEncode]
  apply ReadsAt.of_cons
  · intro fuel pre rest hf
    have hw : Decimal.ofInt xs.length ++ respCrlf ++ respEncodeItems xs ++ rest =
        Decimal.ofInt xs.length ++ (respCrlf ++ (respEncodeItems xs ++ rest)) := by simp
    rw [tryParse_at, if_neg (by decide), if_neg (by decide), if_pos rfl, hw, respParseArray]
    simp only [respFindCrlf_line hl, substring_line, hnum xs.length]
    rw [if_neg (by omega), Int.toNat_natCast, hpos, hbuf]
    rw [(readsAt_items h fuel []).1 _ rest (by simp at hf ⊢; omega)]
    simp
    omega
  · intro fuel pre p hp hf
    rw [tryParse_at, if_neg (by decide), if_neg (by decide), if_pos rfl, respParseArray]
    rcases hp.of_append with hh | ⟨y, rfl, hy⟩
    · rw [respFindCrlf_cut hl pre hh]
    · rw [List.append_assoc]
      simp only [respFindCrlf_line hl, substring_line, hnum xs.length]
      rw [if_neg (by omega), Int.toNat_natCast, hpos, hbuf]
      exact (readsAt_items h fuel []).2 _ y hy (by simp at hf; omega)

/-! ## Every value -/

theorem readsAt_encode {v : Wire} (hv : v.WellFormed) : ReadsAt (respEncode v) v := by
  induction hv with
  | simple h => exact readsAt_simple h
  | error h => exact readsAt_error h
  | int n => exact readsAt_int hnum n
  | bulk s => exact readsAt_bulk hnum s
  | null => exact readsAt_null hnum
  | array h ih => exact readsAt_array hnum ih

end

/-! ## The depth of a buffer -/

/-- A value has at least one byte. -/
theorem lt_of_tryParse {fuel : Nat} {buf : Bytes} {i j : Nat} {v : Wire} (h : tryParse fuel buf i = some (j, v)) :
    i < j := by
  induction fuel generalizing i j v with
  | zero => cases h
  | succ fuel ih =>
    have hline {cr : Nat} (hcr : respFindCrlf buf (i + 1) = some cr) : i + 1 ≤ cr := le_findCrlf hcr
    rw [tryParse] at h
    split at h
    · cases h
    rename_i t _
    split at h
    · unfold respParseLine at h
      split at h
      · cases h
      · rename_i cr hcr
        have := hline hcr
        dsimp only at h
        split at h
        · cases h
          omega
        · split at h
          · cases h
            omega
          · split at h <;> cases h <;> omega
    split at h
    · unfold respParseBulk at h
      split at h
      · cases h
      · rename_i cr hcr
        have := hline hcr
        split at h
        · cases h
          omega
        · dsimp only at h
          split at h
          · cases h
            omega
          · split at h <;> cases h
            omega
    split at h
    · unfold respParseArray at h
      split at h
      · cases h
      · rename_i cr hcr
        have := hline hcr
        split at h
        · cases h
          omega
        · split at h
          · cases h
            omega
          · have := le_respParseItems (fun p q x hq => ih hq) h
            omega
    · cases h
      omega

/-- **Deep enough.** No reading from `i` on is nested deeper than there are bytes left. -/
theorem tryParse_fuel {buf : Bytes} {i m n : Nat} (hm : buf.length < m + i) (hn : buf.length < n + i) :
    tryParse m buf i = tryParse n buf i := by
  induction m generalizing i n with
  | zero =>
    cases n with
    | zero => rfl
    | succ n =>
      have : buf[i]? = none := List.getElem?_eq_none (by omega)
      rw [tryParse, tryParse, this]
  | succ m ih =>
    cases n with
    | zero =>
      have : buf[i]? = none := List.getElem?_eq_none (by omega)
      rw [tryParse, tryParse, this]
    | succ n =>
      have harr : respParseArray (tryParse m buf) buf i = respParseArray (tryParse n buf) buf i := by
        unfold respParseArray
        split
        · rfl
        · rename_i cr hcr
          have : i + 1 ≤ cr := le_findCrlf hcr
          split
          · rfl
          · split
            · rfl
            · exact respParseItems_congr (fun p q x => lt_of_tryParse) (fun p hp => ih (by omega) (by omega)) _ _
      rw [tryParse, tryParse, harr]

/-- **The round trip.** A value is read back, with the length of what was written, whatever follows it; and
less than the whole of it is not enough. -/
theorem resp_round_trip (hnum : Runtime.Inverts) {v : Wire} (hv : v.WellFormed) (tail : Bytes) :
    respTryParse (respEncode v ++ tail) 0 = some ((respEncode v).length, v) ∧
    ∀ p, StrictPrefix p (respEncode v) → respTryParse p 0 = none := by
  have h := readsAt_encode hnum hv
  constructor
  · have := h.ok ((respEncode v ++ tail).length + 1) [] tail (Nat.lt_succ_self _)
    simpa [respTryParse] using this
  · intro p hp
    exact h.cut (p.length + 1) [] p hp (Nat.lt_succ_self _)

end

/-- A decimal numeral as a number. -/
def decimalNumber (s : Bytes) : Option Int :=
  let ds := if s.head? = some 45 then s.tail else s
  if ds ≠ [] ∧ ds.all Decimal.isDigit = true then
    some (if s.head? = some 45 then - Decimal.value ds else Decimal.value ds)
  else none

/-- A runtime that knows decimal numerals. -/
@[reducible] def decimalRuntime : Runtime := ⟨decimalNumber⟩

theorem inverts_decimalRuntime :
    let _ : Runtime := decimalRuntime
    Runtime.Inverts := by
  intro _ n
  have hall (m : Nat) : (Decimal.ofNat m).all Decimal.isDigit = true :=
    List.all_eq_true.2 fun b hb => Decimal.isDigit_ofNat hb
  have hhead (m : Nat) : (Decimal.ofNat m).head? ≠ some 45 := fun h => by
    have := Decimal.isDigit_ofNat (List.mem_of_head? h)
    simp [Decimal.isDigit] at this
  show decimalNumber _ = _
  unfold decimalNumber Decimal.ofInt
  by_cases hn : n < 0
  · simp only [if_pos hn, List.head?_cons, List.tail_cons, if_true]
    rw [if_pos ⟨Decimal.ofNat_ne_nil _, hall _⟩, Decimal.value_ofNat]
    congr 1
    omega
  · simp only [if_neg hn, if_neg (hhead _)]
    rw [if_pos ⟨Decimal.ofNat_ne_nil _, hall _⟩, Decimal.value_ofNat]
    congr 1
    omega

/-- An array that holds a line end, a type byte, a null and an array of its own. -/
def nested : Wire :=
  .array [.bulk (lit "a\r\n$3"), .null, .array [.int (-7), .simple (lit "O*K")], .error []]

theorem resp_round_trip_nested :
    let _ : Runtime := decimalRuntime
    respTryParse (respEncode nested ++ lit "*1\r\n") 0 = some ((respEncode nested).length, nested) ∧
    ∀ p, StrictPrefix p (respEncode nested) → respTryParse p 0 = none := by
  intro _
  have hl {s : String} (h : (10 : UInt8) ∉ lit s) : Line (lit s) := line_of_notMem h
  refine resp_round_trip inverts_decimalRuntime ?_ (lit "*1\r\n")
  refine .array fun x hx => ?_
  simp only [List.mem_cons, List.not_mem_nil, or_false] at hx
  rcases hx with rfl | rfl | rfl | rfl
  · exact .bulk _
  · exact .null
  · refine .array fun y hy => ?_
    simp only [List.mem_cons, List.not_mem_nil, or_false] at hy
    rcases hy with rfl | rfl
    · exact .int _
    · exact .simple (hl (by decide))
  · exact .error (line_of_notMem List.not_mem_nil)

end Aura
