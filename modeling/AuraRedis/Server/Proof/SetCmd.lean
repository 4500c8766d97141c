import AuraRedis.Server.Proof.Writes
import AuraRedis.Server.Proof.Deadline
import AuraRedis.Server.Proof.Propagate

/-!
# `SET` and its options

What the option words of `SET` ask for is a list of `SetWord`s of which no two clash (`setOptions`). The loop
over the words keeps five flags; `setOpts_eq` says that they are those of the list so far, and that the loop
refuses what clashes or cannot be read. `set_options`: a command is refused with nothing changed, or declined
with no key changed, or it writes the one string with the deadline that is asked for.
-/

set_option autoImplicit false

namespace AuraRedis

open Code Dispatch CString

/-! ## Option words -/

inductive SetTime
  | ex | px | exat | pxat
  deriving DecidableEq

inductive SetWord
  | nx | xx | keepttl
  | time (k : SetTime) (n : Int)
  deriving DecidableEq

namespace SetWord

/-- The word is about the deadline. -/
def dates : SetWord → Bool
  | keepttl | time _ _ => true
  | _ => false

/-- Two words that may not stand together. -/
def clash : SetWord → SetWord → Bool
  | nx, xx | xx, nx => true
  | keepttl, keepttl => false
  | a, b => a.dates && b.dates

/-- The argument of a time option. -/
def arg? (k : SetTime) : SetWord → Option Int
  | time k' n => if k' = k then some n else none
  | _ => none

end SetWord

def timeWord (a : Bytes) : Option SetTime :=
  if cmdEq a "ex" then some .ex
  else if cmdEq a "px" then some .px
  else if cmdEq a "exat" then some .exat
  else if cmdEq a "pxat" then some .pxat
  else none

def timeArg (v : Bytes) : Option Int := (nbuf v).bind fun v => if atoll v ≤ 0 then none else some (atoll v)

/-- The words, when each is an option and each time option has its positive number. -/
def readWords : List Bytes → Option (List SetWord)
  | [] => some []
  | a :: rest =>
    if cmdEq a "nx" then (readWords rest).map (.nx :: ·)
    else if cmdEq a "xx" then (readWords rest).map (.xx :: ·)
    else if cmdEq a "keepttl" then (readWords rest).map (.keepttl :: ·)
    else
      match rest with
      | [] => none
      | v :: rest => (timeWord a).bind fun k => (timeArg v).bind fun n => (readWords rest).map (.time k n :: ·)

/-- No two of the words clash. -/
def Agree (ws : List SetWord) : Prop := ws.Pairwise fun a b => a.clash b = false

instance (ws : List SetWord) : Decidable (Agree ws) := inferInstanceAs (Decidable (ws.Pairwise _))

/-- What the option words ask for, when they ask for something. -/
def setOptions (words : List Bytes) : Option (List SetWord) :=
  (readWords words).bind fun ws => if Agree ws then some ws else none

/-! ## The flags of the loop -/

/-- The last argument of a time option. -/
def timeOf (k : SetTime) (ws : List SetWord) : Int := (ws.filterMap (·.arg? k)).getLastD (-1)

/-- The flags that some words have set. -/
def optsOf (ws : List SetWord) : SetOpts where
  nx := decide (.nx ∈ ws)
  xx := decide (.xx ∈ ws)
  keepttl := decide (.keepttl ∈ ws)
  exSec := timeOf .ex ws
  pxMs := timeOf .px ws
  exatSec := timeOf .exat ws
  pxatMs := timeOf .pxat ws

/-- The times are positive. -/
def Positive (ws : List SetWord) : Prop := ∀ k n, .time k n ∈ ws → 0 < n

variable {ws pre : List SetWord} {w : SetWord} {k : SetTime} {n : Int}

theorem timeOf_snoc : timeOf k (pre ++ [w]) = ((w.arg? k).getD (timeOf k pre)) := by
  unfold timeOf
  rw [List.filterMap_append]
  cases h : w.arg? k with
  | none => simp [h]
  | some n => simp [h]

theorem arg?_eq_some : w.arg? k = some n ↔ w = .time k n := by
  cases w with
  | time k' n' =>
    unfold SetWord.arg?
    by_cases hk : k' = k
    · simp [hk]
    · simp [hk]
  | _ => simp [SetWord.arg?]

theorem mem_args : n ∈ ws.filterMap (·.arg? k) ↔ .time k n ∈ ws := by
  rw [List.mem_filterMap]
  constructor
  · rintro ⟨w, hw, hn⟩
    rwa [← arg?_eq_some.1 hn]
  · exact fun h => ⟨_, h, arg?_eq_some.2 rfl⟩

theorem timeOf_nonneg (hp : Positive ws) : 0 ≤ timeOf k ws ↔ ∃ n, .time k n ∈ ws := by
  unfold timeOf
  rw [List.getLastD_eq_getLast?]
  cases hl : (ws.filterMap (·.arg? k)).getLast? with
  | none =>
    rw [List.getLast?_eq_none_iff] at hl
    refine ⟨(fun h => by cases h), fun ⟨n, hn⟩ => ?_⟩
    rw [← mem_args, hl] at hn
    cases hn
  | some n =>
    have hn : .time k n ∈ ws := mem_args.1 (List.mem_of_getLast? hl)
    exact ⟨fun _ => ⟨n, hn⟩, fun _ => (hp k n hn).le⟩

theorem timed_optsOf (hp : Positive ws) : (optsOf ws).timed = true ↔ ∃ k n, .time k n ∈ ws := by
  unfold SetOpts.timed optsOf
  simp only [Bool.or_eq_true, decide_eq_true_eq, ge_iff_le, timeOf_nonneg hp]
  constructor
  · rintro (((⟨n, hn⟩ | ⟨n, hn⟩) | ⟨n, hn⟩) | ⟨n, hn⟩) <;> exact ⟨_, n, hn⟩
  · rintro ⟨k, n, hn⟩
    cases k with
    | ex => exact .inl (.inl (.inl ⟨n, hn⟩))
    | px => exact .inl (.inl (.inr ⟨n, hn⟩))
    | exat => exact .inl (.inr ⟨n, hn⟩)
    | pxat => exact .inr ⟨n, hn⟩

/-! ## The loop -/

/-- What the loop comes to behind the words `pre`. -/
def accepted (pre : List SetWord) (o : Option (List SetWord)) : Option SetOpts :=
  o.bind fun ws => if Agree (pre ++ ws) then some (optsOf (pre ++ ws)) else none

/-- One more word. -/
theorem accepted_cons (o : Option (List SetWord)) :
    accepted pre (o.map (w :: ·)) = if pre.any (·.clash w) then none else accepted (pre ++ [w]) o := by
  cases o with
  | none => simp [accepted]
  | some ws =>
    have happ : pre ++ w :: ws = pre ++ [w] ++ ws := by rw [List.append_assoc, List.singleton_append]
    show (if Agree (pre ++ w :: ws) then some (optsOf (pre ++ w :: ws)) else none) =
      if pre.any (·.clash w) then none else if Agree (pre ++ [w] ++ ws) then some (optsOf (pre ++ [w] ++ ws)) else none
    rw [happ]
    split_ifs with hagree hany
    · obtain ⟨a, ha, hc⟩ := List.any_eq_true.1 hany
      rw [← happ] at hagree
      have hfree := (List.pairwise_append.1 hagree).2.2 a ha w (.head _)
      rw [hc] at hfree
      cases hfree
    · rfl
    · rfl
    · rfl

theorem clash_nx : w.clash .nx = true ↔ w = .xx := by
  cases w <;> simp [SetWord.clash, SetWord.dates]

theorem clash_xx : w.clash .xx = true ↔ w = .nx := by
  cases w <;> simp [SetWord.clash, SetWord.dates]

theorem clash_keepttl : w.clash .keepttl = true ↔ ∃ k n, w = .time k n := by
  cases w <;> simp [SetWord.clash, SetWord.dates]

theorem clash_time : w.clash (.time k n) = true ↔ (∃ k n, w = .time k n) ∨ w = .keepttl := by
  cases w <;> simp [SetWord.clash, SetWord.dates]

theorem any_clash_nx : pre.any (·.clash .nx) = (optsOf pre).xx := by
  rw [Bool.eq_iff_iff, List.any_eq_true]
  simp [clash_nx, optsOf]

theorem any_clash_xx : pre.any (·.clash .xx) = (optsOf pre).nx := by
  rw [Bool.eq_iff_iff, List.any_eq_true]
  simp [clash_xx, optsOf]

theorem any_clash_keepttl (hp : Positive pre) : pre.any (·.clash .keepttl) = (optsOf pre).timed := by
  rw [Bool.eq_iff_iff, List.any_eq_true, timed_optsOf hp]
  simp only [clash_keepttl]
  exact ⟨fun ⟨w, hw, k, n, h⟩ => ⟨k, n, h ▸ hw⟩, fun ⟨k, n, h⟩ => ⟨_, h, k, n, rfl⟩⟩

theorem any_clash_time (hp : Positive pre) :
    pre.any (·.clash (.time k n)) = ((optsOf pre).timed || (optsOf pre).keepttl) := by
  rw [Bool.eq_iff_iff, List.any_eq_true, Bool.or_eq_true, timed_optsOf hp]
  simp only [clash_time, optsOf, decide_eq_true_eq]
  constructor
  · rintro ⟨w, hw, ⟨k, n, rfl⟩ | rfl⟩
    · exact .inl ⟨k, n, hw⟩
    · exact .inr hw
  · rintro (⟨k, n, h⟩ | h)
    · exact ⟨_, h, .inl ⟨k, n, rfl⟩⟩
    · exact ⟨_, h, .inr rfl⟩

/-- One more word sets its flag. -/
theorem optsOf_snoc : optsOf (pre ++ [w]) =
    match w with
    | .nx => { optsOf pre with nx := true }
    | .xx => { optsOf pre with xx := true }
    | .keepttl => { optsOf pre with keepttl := true }
    | .time .ex n => { optsOf pre with exSec := n }
    | .time .px n => { optsOf pre with pxMs := n }
    | .time .exat n => { optsOf pre with exatSec := n }
    | .time .pxat n => { optsOf pre with pxatMs := n } := by
  unfold optsOf
  simp only [timeOf_snoc, List.mem_append, List.mem_singleton]
  match w with
  | .nx | .xx | .keepttl => simp [SetWord.arg?]
  | .time k n => cases k <;> simp [SetWord.arg?]

theorem positive_snoc (hp : Positive pre) (hw : ∀ k n, w = .time k n → 0 < n) : Positive (pre ++ [w]) := by
  intro k n h
  rcases List.mem_append.1 h with h | h
  · exact hp k n h
  · exact hw k n (List.mem_singleton.1 h).symm

theorem setTime_toOption (hp : Positive pre) (v : Bytes) : (setTime (optsOf pre) v).toOption =
    if pre.any (·.clash (.time k 0)) then none else timeArg v := by
  rw [any_clash_time hp]
  unfold setTime timeArg
  split
  · rfl
  · cases nbuf v with
    | none => rfl
    | some v =>
      show (if atoll v ≤ 0 then _ else _ : Except String Int).toOption = if atoll v ≤ 0 then none else some (atoll v)
      split <;> rfl

theorem agree_snoc (ha : Agree pre) (hc : ¬pre.any (·.clash w) = true) : Agree (pre ++ [w]) := by
  refine List.pairwise_append.2 ⟨ha, List.pairwise_singleton _ _, fun a hmem b hb => ?_⟩
  rw [List.mem_singleton.1 hb, ← Bool.not_eq_true]
  exact fun h => hc (List.any_eq_true.2 ⟨a, hmem, h⟩)

/-- The loop goes on behind a word, unless it clashes. -/
theorem accepted_step {rest : List Bytes} {b : Bool} {o : SetOpts} (hb : pre.any (·.clash w) = b)
    (ho : optsOf (pre ++ [w]) = o) (ha : Agree pre)
    (ih : Agree (pre ++ [w]) → (setOpts rest (optsOf (pre ++ [w]))).toOption = accepted (pre ++ [w]) (readWords rest)) :
    (if b then .error syntaxError else setOpts rest o : Except String SetOpts).toOption =
      accepted pre ((readWords rest).map (w :: ·)) := by
  rw [accepted_cons, hb]
  split
  · rfl
  · rename_i hc
    rw [← ho]
    exact ih (agree_snoc ha (hb ▸ hc))

theorem toOption_bind {α β : Type} (x : Except String α) (f : α → Except String β) :
    (x >>= f).toOption = x.toOption.bind fun a => (f a).toOption := by
  cases x <;> rfl

theorem timeArg_pos {v : Bytes} (h : timeArg v = some n) : 0 < n := by
  obtain ⟨v, -, h⟩ := Option.bind_eq_some_iff.1 h
  split at h
  · cases h
  · cases h
    omega

/-- The loop goes on behind a time option. -/
theorem accepted_time {rest : List Bytes} {f : Int → SetOpts} (hf : ∀ n : Int, optsOf (pre ++ [SetWord.time k n]) = f n)
    (hp : Positive pre) (ha : Agree pre) (v : Bytes)
    (ih : ∀ n : Int, Positive (pre ++ [SetWord.time k n]) → Agree (pre ++ [SetWord.time k n]) →
      (setOpts rest (optsOf (pre ++ [SetWord.time k n]))).toOption = accepted (pre ++ [SetWord.time k n]) (readWords rest)) :
    (setTime (optsOf pre) v >>= fun n => setOpts rest (f n)).toOption =
      accepted pre ((timeArg v).bind fun n => (readWords rest).map (.time k n :: ·)) := by
  have hany : ∀ m, pre.any (·.clash (.time k 0)) = pre.any (·.clash (.time k m)) := fun m => by
    rw [any_clash_time hp, any_clash_time hp]
  rw [toOption_bind, setTime_toOption (k := k) hp]
  cases hv : timeArg v with
  | none => simp [accepted]
  | some n =>
    rw [Option.bind_some, accepted_cons, hany n]
    split
    · rfl
    · rename_i hc
      rw [Option.bind_some, ← hf]
      refine ih n (positive_snoc hp fun k' m h => ?_) (agree_snoc ha hc)
      cases h
      exact timeArg_pos hv

/-- **The loop over the options**: it accepts the words that can be read and of which no two clash. -/
theorem setOpts_eq (words : List Bytes) (hp : Positive pre) (ha : Agree pre) :
    (setOpts words (optsOf pre)).toOption = accepted pre (readWords words) := by
  induction words using readWords.induct generalizing pre with
  | case1 =>
    show some (optsOf pre) = if Agree (pre ++ []) then some (optsOf (pre ++ [])) else none
    rw [List.append_nil, if_pos ha]
  | case2 a rest hnx ih =>
    rw [setOpts.eq_def, readWords.eq_def]
    simp only [if_pos hnx]
    exact accepted_step any_clash_nx optsOf_snoc ha fun ha => ih (positive_snoc hp nofun) ha
  | case3 a rest hnx hxx ih =>
    rw [setOpts.eq_def, readWords.eq_def]
    simp only [if_neg hnx, if_pos hxx]
    exact accepted_step any_clash_xx optsOf_snoc ha fun ha => ih (positive_snoc hp nofun) ha
  | case4 a rest hnx hxx hkeep ih =>
    rw [setOpts.eq_def, readWords.eq_def]
    simp only [if_neg hnx, if_neg hxx, if_pos hkeep]
    exact accepted_step (any_clash_keepttl hp) optsOf_snoc ha fun ha => ih (positive_snoc hp nofun) ha
  | case5 a hnx hxx hkeep =>
    rw [setOpts.eq_def, readWords.eq_def]
    simp only [if_neg hnx, if_neg hxx, if_neg hkeep]
    rfl
  | case6 a hnx hxx hkeep v rest ih =>
    rw [setOpts.eq_def, readWords.eq_def]
    simp only [if_neg hnx, if_neg hxx, if_neg hkeep]
    unfold timeWord
    by_cases hex : cmdEq a "ex" = true
    · simp only [if_pos hex]
      exact accepted_time (k := .ex) (f := fun n => { optsOf pre with exSec := n }) (fun _ => optsOf_snoc) hp ha v
        fun n hp ha => ih hp ha
    by_cases hpx : cmdEq a "px" = true
    · simp only [if_neg hex, if_pos hpx]
      exact accepted_time (k := .px) (f := fun n => { optsOf pre with pxMs := n }) (fun _ => optsOf_snoc) hp ha v
        fun n hp ha => ih hp ha
    by_cases hexat : cmdEq a "exat" = true
    · simp only [if_neg hex, if_neg hpx, if_pos hexat]
      exact accepted_time (k := .exat) (f := fun n => { optsOf pre with exatSec := n }) (fun _ => optsOf_snoc) hp ha v
        fun n hp ha => ih hp ha
    by_cases hpxat : cmdEq a "pxat" = true
    · simp only [if_neg hex, if_neg hpx, if_neg hexat, if_pos hpxat]
      exact accepted_time (k := .pxat) (f := fun n => { optsOf pre with pxatMs := n }) (fun _ => optsOf_snoc) hp ha v
        fun n hp ha => ih hp ha
    · simp only [if_neg hex, if_neg hpx, if_neg hexat, if_neg hpxat]
      rfl

theorem positive_of_readWords {words : List Bytes} (h : readWords words = some ws) : Positive ws := by
  have hcons : ∀ {o : Option (List SetWord)} {w : SetWord}, (∀ vs, o = some vs → Positive vs) →
      (∀ k n, w = .time k n → 0 < n) → ∀ ws, o.map (w :: ·) = some ws → Positive ws := by
    intro o w ho hw ws h k n hmem
    obtain ⟨vs, hvs, rfl⟩ := Option.map_eq_some_iff.1 h
    rcases List.mem_cons.1 hmem with h | h
    · exact hw k n h.symm
    · exact ho vs hvs k n h
  induction words using readWords.induct generalizing ws with
  | case1 =>
    cases h
    exact fun k n h => by cases h
  | case2 a rest hnx ih =>
    rw [readWords.eq_def] at h
    simp only [if_pos hnx] at h
    exact hcons (fun _ => ih) (fun _ _ h => by cases h) ws h
  | case3 a rest hnx hxx ih =>
    rw [readWords.eq_def] at h
    simp only [if_neg hnx, if_pos hxx] at h
    exact hcons (fun _ => ih) (fun _ _ h => by cases h) ws h
  | case4 a rest hnx hxx hkeep ih =>
    rw [readWords.eq_def] at h
    simp only [if_neg hnx, if_neg hxx, if_pos hkeep] at h
    exact hcons (fun _ => ih) (fun _ _ h => by cases h) ws h
  | case5 a hnx hxx hkeep =>
    rw [readWords.eq_def] at h
    simp only [if_neg hnx, if_neg hxx, if_neg hkeep] at h
    cases h
  | case6 a hnx hxx hkeep v rest ih =>
    rw [readWords.eq_def] at h
    simp only [if_neg hnx, if_neg hxx, if_neg hkeep] at h
    obtain ⟨k, -, h⟩ := Option.bind_eq_some_iff.1 h
    obtain ⟨n, hn, h⟩ := Option.bind_eq_some_iff.1 h
    refine hcons (fun _ => ih) (fun k' m h => ?_) ws h
    cases h
    exact timeArg_pos hn

/-- What the loop comes to in all. -/
theorem setOpts_words (words : List Bytes) : (setOpts words {}).toOption = (setOptions words).map optsOf := by
  have hnil : Positive [] := fun k n h => by cases h
  refine (setOpts_eq words hnil .nil).trans ?_
  unfold accepted setOptions
  rw [Option.map_bind]
  refine congrArg _ (funext fun ws => ?_)
  rw [List.nil_append]
  dsimp only [Function.comp_apply]
  split <;> rfl

/-! ## The deadline -/

/-- The point in time that a time option names at time `t`. -/
def SetTime.point (t : Nat) (n : Int) : SetTime → Nat
  | ex => t + 1000 * n.toNat
  | px => t + n.toNat
  | exat => 1000 * n.toNat
  | pxat => n.toNat

/-- The deadline that the words ask for, on a key whose deadline is `old`. -/
def deadlineOf (t old : Nat) (ws : List SetWord) : Nat :=
  match ws.find? (·.dates) with
  | some (.time k n) => k.point t n
  | some _ => old
  | none => 0

theorem clash_symm {a b : SetWord} : a.clash b = b.clash a := by
  cases a <;> cases b <;> rfl

/-- What the words say of the deadline: nothing, to keep it, or one time. -/
inductive Dates (ws : List SetWord) : Option SetWord → Prop
  | none (h : ∀ w ∈ ws, w.dates = false) : Dates ws none
  | keep (h : .keepttl ∈ ws) (hn : ∀ k n, .time k n ∉ ws) : Dates ws (some .keepttl)
  | time {k : SetTime} {n : Int} (h : .time k n ∈ ws) (hu : ∀ k' m, .time k' m ∈ ws → k' = k ∧ m = n) :
    Dates ws (some (.time k n))

/-- Two words that do not clash are the same, or at most one is about the deadline, or both keep it. -/
theorem eq_keepttl_of_clash {a b : SetWord} (h : a.clash b = false) (ha : a.dates = true) (hb : b.dates = true) :
    a = .keepttl ∧ b = .keepttl := by
  cases a with
  | nx | xx => cases ha
  | keepttl =>
    cases b with
    | nx | xx => cases hb
    | keepttl => exact ⟨rfl, rfl⟩
    | time k n => cases h
  | time k n =>
    cases b with
    | nx | xx => cases hb
    | keepttl | time k' n' => cases h

theorem dates_of_agree (ha : Agree ws) : Dates ws (ws.find? (·.dates)) := by
  have hsymm : Std.Symm fun a b : SetWord => a.clash b = false := ⟨fun a b h => clash_symm.trans h⟩
  cases hf : ws.find? (·.dates) with
  | none =>
    rw [List.find?_eq_none] at hf
    exact .none fun w hw => by simpa using hf w hw
  | some w =>
    have hmem := List.mem_of_find?_eq_some hf
    have hdates : w.dates = true := List.find?_some hf
    -- words that are not the same do not clash
    have hother : ∀ v ∈ ws, v.dates = true → w ≠ v → w = .keepttl ∧ v = .keepttl := fun v hv hd hne =>
      eq_keepttl_of_clash (List.Pairwise.forall ha hmem hv hne) hdates hd
    cases w with
    | nx | xx => cases hdates
    | keepttl => exact .keep hmem fun k n h => by cases (hother _ h rfl nofun).2
    | time k n =>
      refine .time hmem fun k' m h => ?_
      by_cases he : SetWord.time k n = .time k' m
      · cases he
        exact ⟨rfl, rfl⟩
      · cases (hother _ h rfl he).2

theorem timeOf_none (h : ∀ n, .time k n ∉ ws) : timeOf k ws = -1 := by
  unfold timeOf
  rw [List.filterMap_eq_nil_iff.2]
  · rfl
  · intro w hw
    cases he : w.arg? k with
    | none => rfl
    | some n => exact absurd (arg?_eq_some.1 he ▸ hw) (h n)

theorem timeOf_some (h : .time k n ∈ ws) (hu : ∀ m, .time k m ∈ ws → m = n) : timeOf k ws = n := by
  unfold timeOf
  rw [List.getLastD_eq_getLast?]
  cases hl : (ws.filterMap (·.arg? k)).getLast? with
  | none =>
    rw [List.getLast?_eq_none_iff] at hl
    have hn := mem_args.2 h
    rw [hl] at hn
    cases hn
  | some m => exact hu m (mem_args.1 (List.mem_of_getLast? hl))

/-! ## The write -/

/-- The key has the string `val` with the deadline `d`, unless that has passed, and the others are as they were. -/
structure Wrote (t : Nat) (key val : Bytes) (d : Nat) (c c' : ArCore) : Prop where
  written : if Due t d then c'.peek t key = none
    else ∃ i, c'.peek t key = some i ∧ i.obj = .string val ∧ i.expireAt = d
  others : ∀ k, k ≠ key → c'.peek t k = c.peek t k

theorem Wrote.after {t d : Nat} {key val : Bytes} {c c₁ c' : ArCore} (h : Wrote t key val d c₁ c')
    (hpeek : ∀ k, c₁.peek t k = c.peek t k) : Wrote t key val d c c' :=
  ⟨h.written, fun k hk => (h.others k hk).trans (hpeek k)⟩

section
variable {E : Env} {t : Nat} {c : ArCore} (hE : E.Frozen t) (hwf : c.WF) (ha : E.AllocOk)
  (hnoop : c.cfg.evict = .noop) (key val : Bytes)

include hE hwf hnoop

/-- A look leaves every key. -/
theorem peek_look (k : Bytes) : (c.arFindEntryEx E key).1.peek t k = c.peek t k := by
  rcases find_cases (B := .plain) hE hwf key with ⟨-, hev, -, -⟩ | ⟨r, -, hq, -, -, -⟩
  · exact hev.peek hwf hnoop (Set.notMem_empty k)
  · exact hq.peek hwf k

include ha

theorem wrote_arEntrySetEx (d : Nat) : (c.arEntrySetEx E key val d).2 = true ∧
    Wrote t key val d c (c.arEntrySetEx E key val d).1 := by
  rcases arEntrySetEx_leaves (B := .asks key d) (W := ∅) hE hwf key val (.asked rfl) with
    ⟨ho, i, hobj, rfl, hl⟩ | ⟨-, hna, -⟩
  · refine ⟨ho, ?_, fun k hk => hl.ev.peek hwf hnoop hk⟩
    have hwf' := hl.ev.wf hwf
    split
    · rename_i hd
      rcases hl.now with h | ⟨h, -⟩
      · rw [peek_of_has hwf' h]
        simp [hd]
      · rw [peek_of_has hwf' h]
        rfl
    · rename_i hd
      exact ⟨i, hl.peek hwf hnoop hd, hobj, rfl⟩
  · exact absurd ha hna

/-- A deadline off the clock. -/
theorem wrote_setFromNow (f : Nat → Nat) :
    ((c.countSet.arNowMs E).1.arEntrySetEx E key val (f (c.countSet.arNowMs E).2)).2 = true ∧
      Wrote t key val (f t) c
        ((c.countSet.arNowMs E).1.arEntrySetEx E key val (f (c.countSet.arNowMs E).2)).1 := by
  have hq : Quiet c (c.countSet.arNowMs E).1 := (Quiet.count c _ (Nat.le_refl _)).trans (.arNowMs E _)
  rw [show (c.countSet.arNowMs E).2 = t from hE _]
  obtain ⟨ho, h⟩ := wrote_arEntrySetEx hE (hq.wf hwf) ha (hq.cfg ▸ hnoop) key val (f t)
  exact ⟨ho, h.after (hq.peek hwf)⟩

theorem wrote_arSetBinEx (hn : 0 < n) (hfit : t + 1000 * n.toNat < 2 ^ 63) :
    (c.arSetBinEx E key val n).2 = true ∧ Wrote t key val (t + 1000 * n.toNat) c (c.arSetBinEx E key val n).1 := by
  have h := wrote_setFromNow hE hwf ha hnoop key val fun now => (now + uint64 n * 1000) % 2 ^ 64
  unfold ArCore.arSetBinEx
  simp only [if_pos hn]
  rwa [show (t + uint64 n * 1000) % 2 ^ 64 = t + 1000 * n.toNat by rw [uint64_of_pos hn (by omega)]; omega] at h

theorem wrote_arSetBinPx (hn : 0 < n) (hfit : t + n.toNat < 2 ^ 63) :
    (c.arSetBinPx E key val n).2 = true ∧ Wrote t key val (t + n.toNat) c (c.arSetBinPx E key val n).1 := by
  have h := wrote_setFromNow hE hwf ha hnoop key val fun now => (now + uint64 n) % 2 ^ 64
  unfold ArCore.arSetBinPx
  simp only [if_pos hn]
  rwa [show (t + uint64 n) % 2 ^ 64 = t + n.toNat by rw [uint64_of_pos hn (by omega)]; omega] at h

end

section
variable {O : Outside} {w : World} {t : Nat} {key val : Bytes}

/-- The code writes the key and says so. -/
def Sets (O : Outside) (w : World) (t : Nat) (key val : Bytes) (d : Nat) (p : Code Bool) : Prop :=
  ∃ w', p.exec O w = (w', some true) ∧ Wrote t key val d w.core w'.core

/-- One call. -/
theorem sets_call {p : Code Bool} {core : ArCore} {ok : Bool} {d : Nat}
    (hp : ((p.exec O w).1.core, (p.exec O w).2) = (core, some ok)) (h : ok = true ∧ Wrote t key val d w.core core) :
    Sets O w t key val d p := by
  obtain ⟨rfl, h⟩ := h
  obtain ⟨rfl, ho⟩ := Prod.mk.inj hp
  exact ⟨_, Prod.ext rfl ho, h⟩

variable (hO : ∀ k, (O.env k).Frozen t) (ha : O.AllocOk) (hwf : w.core.WF) (hnoop : w.core.cfg.evict = .noop)

include hO ha hwf hnoop

theorem sets_entrySet (d : Nat) : Sets O w t key val d (entrySet key val d) := by
  have hq : Quiet w.core (w.core.count fun s => { s with ops := s.ops + 1, sets := s.sets + 1 }) :=
    .count _ _ (Nat.le_refl _)
  obtain ⟨ho, h⟩ := wrote_arEntrySetEx (hO (w.calls + 1)) (hq.wf hwf) (ha _) (hq.cfg ▸ hnoop) key val d
  exact sets_call (p := entrySet key val d) rfl ⟨ho, h.after (hq.peek hwf)⟩

/-- The deadline is looked up and kept. -/
theorem sets_keep : Sets O w t key val (((w.core.peek t key).map Item.expireAt).getD 0)
    (call (.find key) >>= fun e₀ => entrySet key val ((e₀.map (·.2)).getD 0)) := by
  obtain ⟨hwf', hcfg, hfound⟩ : (w.core.arFindEntryEx (O.env w.calls) key).1.WF ∧
      (w.core.arFindEntryEx (O.env w.calls) key).1.cfg = w.core.cfg ∧
      (w.core.arFindEntryEx (O.env w.calls) key).2.map (·.e.toItem) = w.core.peek t key := by
    rcases find_cases (B := .plain) (hO w.calls) hwf key with ⟨hn, hev, -, hp⟩ | ⟨r, hs, hq, -, -, hp⟩
    · exact ⟨hev.wf hwf, hev.cfg, by rw [hn, hp]; rfl⟩
    · exact ⟨hq.wf hwf, hq.cfg, by rw [hs, hp]; rfl⟩
  have hpeek := peek_look (hO w.calls) hwf hnoop key
  rw [← hfound]
  have hset : ∀ d, Sets O (Eff.perform O (.op (.find key)) w).1 t key val d (entrySet key val d) :=
    sets_entrySet hO ha hwf' (hcfg ▸ hnoop)
  obtain ⟨w', hrun, h⟩ := hset ((((Eff.perform O (.op (.find key)) w).2).map (·.2)).getD 0)
  refine ⟨w', hrun, ?_⟩
  have hold : (((Eff.perform O (.op (.find key)) w).2).map (·.2)).getD 0 =
      (((w.core.arFindEntryEx (O.env w.calls) key).2.map (·.e.toItem)).map Item.expireAt).getD 0 := by
    show (((w.core.arFindEntryEx (O.env w.calls) key).2.map fun r => (r.e.obj.type, r.e.expireAt)).map (·.2)).getD 0 = _
    rw [Option.map_map, Option.map_map]
    rfl
  rw [← hold]
  exact h.after hpeek

/-- **The write of the command**: the value, with the deadline that the words ask for. -/
theorem sets_setWrite (hagree : Agree ws) (hp : Positive ws) (hfit : ∀ k n, .time k n ∈ ws → k.point t n < 2 ^ 63) :
    Sets O w t key val (deadlineOf t (((w.core.peek t key).map Item.expireAt).getD 0) ws)
      (setWrite key val (optsOf ws)) := by
  have hoff : ∀ {k : SetTime}, (∀ n, .time k n ∉ ws) → ¬timeOf k ws > 0 := fun h => by
    rw [timeOf_none h]
    decide
  unfold deadlineOf setWrite
  simp only [optsOf, decide_eq_true_eq]
  have hdates := dates_of_agree hagree
  generalize ws.find? (·.dates) = o at hdates
  cases hdates with
  | none h =>
    have hno : ∀ k n, .time k n ∉ ws := fun k n hm => by cases h _ hm
    rw [if_neg (hoff (hno .ex)), if_neg (hoff (hno .px)), if_neg (hoff (hno .exat)), if_neg (hoff (hno .pxat)),
      if_neg fun hm => by cases h _ hm]
    exact sets_entrySet hO ha hwf hnoop 0
  | keep h hno =>
    rw [if_neg (hoff (hno .ex)), if_neg (hoff (hno .px)), if_neg (hoff (hno .exat)), if_neg (hoff (hno .pxat)),
      if_pos h]
    exact sets_keep hO ha hwf hnoop
  | time h hu =>
    rename_i k n
    have hn := hp k n h
    have hn' := hfit k n h
    have hval : timeOf k ws = n := timeOf_some h fun m hm => (hu k m hm).2
    have hno : ∀ j, j ≠ k → ¬timeOf j ws > 0 := fun j hne => hoff fun m hm => hne (hu j m hm).1
    cases k with
    | ex =>
      rw [hval, if_pos hn]
      exact sets_call (p := call (.arSetBinEx key val n)) rfl (wrote_arSetBinEx (hO _) hwf (ha _) hnoop key val hn hn')
    | px =>
      rw [hval, if_neg (hno .ex (by decide)), if_pos hn]
      exact sets_call (p := call (.arSetBinPx key val n)) rfl (wrote_arSetBinPx (hO _) hwf (ha _) hnoop key val hn hn')
    | exat =>
      have hlt : 1000 * n.toNat < 2 ^ 63 := hn'
      rw [hval, if_neg (hno .ex (by decide)), if_neg (hno .px (by decide)), if_pos hn, uint64_of_pos hn (by omega),
        Nat.mod_eq_of_lt (by omega), Nat.mul_comm]
      exact sets_entrySet hO ha hwf hnoop _
    | pxat =>
      have hlt : n.toNat < 2 ^ 63 := hn'
      rw [hval, if_neg (hno .ex (by decide)), if_neg (hno .px (by decide)), if_neg (hno .exat (by decide)), if_pos hn,
        uint64_of_pos hn (by omega)]
      exact sets_entrySet hO ha hwf hnoop _

end

/-! ## The command -/

/-- What a command comes to. -/
inductive SetOutcome
  | refused | declined
  | written (deadline : Nat)

/-- What it should come to, on a key that has been `old`. -/
def setOutcome (t : Nat) (old : Option Item) (words : List Bytes) : SetOutcome :=
  match setOptions words with
  | none => .refused
  | some ws =>
    if (.nx ∈ ws ∧ old.isSome) ∨ (.xx ∈ ws ∧ old.isNone) then .declined
    else .written (deadlineOf t ((old.map Item.expireAt).getD 0) ws)

/-- `"+OK"`. -/
def okReply : Bytes := 43 :: (lit "OK" ++ Resp.crlf)

/-- The outcome, in the worlds before and after: an error and nothing else, a null reply and no key changed, or
`OK` and the one key written. -/
def SetDone (t c : Nat) (key val : Bytes) (w w' : World) : SetOutcome → Prop
  | .refused => ∃ e : String, Appended c (45 :: (lit e ++ Resp.crlf)) w w'
  | .declined => (∀ k, w'.core.peek t k = w.core.peek t k) ∧
      (w'.conn c).wbuf = (w.conn c).wbuf ++ 36 :: (Resp.nullLen ++ Resp.crlf)
  | .written d => Wrote t key val d w.core w'.core ∧ okReply <:+ (w'.conn c).wbuf ∧
      ((w.conn c).isReplica = false → (w'.conn c).wbuf = (w.conn c).wbuf ++ okReply)

theorem Appended.peek {c : Nat} {data : Bytes} {w w' : World} (h : Appended c data w w') (t : Nat) (k : Bytes) :
    w'.core.peek t k = w.core.peek t k := by
  have hb : w.core.Beside w'.core := h.core
  exact peek_of_dict hb.dict t k

/-- A call of the core that is no setting. -/
def Calls (e : Eff) : Prop := ∃ o : ArOp, e = .op o ∧ o.isKnob = false

theorem calls_entrySet (key val : Bytes) (d : Nat) : (entrySet key val d).Only Calls :=
  .step ⟨_, rfl, rfl⟩ fun _ => .perform ⟨_, rfl, rfl⟩

theorem calls_setWrite (key val : Bytes) (o : SetOpts) : (setWrite key val o).Only Calls := by
  unfold setWrite
  refine .ite (.perform ⟨_, rfl, rfl⟩) (.ite (.perform ⟨_, rfl, rfl⟩) (.ite (calls_entrySet ..) ?_))
  refine .ite (calls_entrySet ..) (.ite (.step ⟨_, rfl, rfl⟩ fun _ => ?_) (calls_entrySet ..))
  exact calls_entrySet ..

section
variable {O : Outside} {w : World} {t c : Nat} {key val : Bytes}

/-- Calls of the core tell the connections no more than that keys have changed. -/
theorem touched_calls {α : Type} {p : Code α} (hO : ∀ k, (O.env k).Frozen t) (hp : p.Only Calls) (hwf : w.core.WF) :
    ConnsTouched w.core.conns (p.exec O w).1.core.conns := by
  refine (hp.run_invariant (I := fun w' : World => w'.core.WF ∧ ConnsTouched w.core.conns w'.core.conns) ?_
    ⟨hwf, .refl _⟩).2
  rintro e w' ⟨o, rfl, hknob⟩ ⟨hwf', ht⟩
  have hev := (o.sound (hO w'.calls) hwf' hknob).evolves
  exact ⟨hev.wf hwf', ht.trans hev.conns⟩

/-- A command that has written: it is passed on, and `OK`. -/
theorem written_reply {d : Nat} {p : Code Bool} {argv : List Bytes} (ha : O.AllocOk) {w₀ : World}
    (hw : ∀ k, w.core.peek t k = w₀.core.peek t k) (hconn : ArConn.Touched (w₀.conn c) (w.conn c))
    (hc : c < w.core.conns.length) (hp : Sets O w t key val d p)
    (ht : ConnsTouched w.core.conns (p.exec O w).1.core.conns) :
    ∃ w', (p >>= fun ok => if ok then (do replPropagate argv; replyOk c) else replyErr c "ERR OOM").exec O w =
      (w', some ()) ∧ SetDone t c key val w₀ w' (.written d) := by
  obtain ⟨w₁, hrun, hwrote⟩ := hp
  rw [hrun] at ht
  obtain ⟨w₂, hprop, hdict, hlen, hsame⟩ := exec_replPropagate O w₁ argv c
  obtain ⟨w₃, hok, happ⟩ := Writes.append c okReply O w₂ ha (by rw [hlen, ← ht.length_eq]; exact hc)
  refine ⟨w₃, ?_, ⟨?_, fun k hk => ?_⟩, ⟨_, happ.wbuf.symm⟩, fun hr => ?_⟩
  · rw [exec_seq hrun]
    exact (exec_seq hprop).trans hok
  · rw [happ.peek, peek_of_dict hdict]
    exact hwrote.written
  · rw [happ.peek, peek_of_dict hdict, hwrote.others k hk, hw]
  · have hconn₁ : ArConn.Touched (w₀.conn c) (w₁.conn c) := hconn.trans (touched_conn ht c)
    rw [happ.wbuf, hsame (hconn₁.same.isReplica.trans hr), hconn₁.wbuf]

/-- The look for the key that comes first. -/
theorem exec_exists (hO : ∀ k, (O.env k).Frozen t) (hwf : w.core.WF) (hnoop : w.core.cfg.evict = .noop)
    (key : Bytes) :
    ∃ w₁ : World, (∀ f : Bool → Code Unit, (call (.arExistsBin key) >>= f).exec O w =
        (f (w.core.peek t key).isSome).exec O w₁) ∧
      w₁.core.WF ∧ w₁.core.cfg = w.core.cfg ∧ (∀ k, w₁.core.peek t k = w.core.peek t k) ∧
      ConnsTouched w.core.conns w₁.core.conns := by
  have hev := ((ArOp.arExistsBin key).sound (hO w.calls) hwf rfl).evolves
  have hexist : (w.core.arExistsBin (O.env w.calls) key).2 = (w.core.peek t key).isSome := by
    unfold ArCore.arExistsBin
    rcases find_cases (B := .plain) (hO w.calls) hwf key with ⟨hn, -, -, hp⟩ | ⟨r, hs, -, -, -, hp⟩
    · simp only [hn, hp, Option.isSome_none]
    · simp only [hs, hp, Option.isSome_some]
  refine ⟨(Eff.perform O (.op (.arExistsBin key)) w).1, fun f => ?_, hev.wf hwf, hev.cfg,
    peek_look (hO w.calls) hwf hnoop key, hev.conns⟩
  rw [← hexist]
  rfl

/-- **The options of `SET`**: with one value of the clock, memory and no kernel to take keys, the command comes to
what its option words ask for, whatever is under the key. -/
theorem set_options (hO : ∀ k, (O.env k).Frozen t) (ha : O.AllocOk) (hwf : w.core.WF)
    (hnoop : w.core.cfg.evict = .noop) (hc : c < w.core.conns.length) (name : Bytes) {words : List Bytes}
    (hfit : ∀ ws, setOptions words = some ws → ∀ k n, .time k n ∈ ws → k.point t n < 2 ^ 63) :
    ∃ w', (Dispatch.set c (name :: key :: val :: words)).exec O w = (w', some ()) ∧
      SetDone t c key val w w' (setOutcome t (w.core.peek t key) words) := by
  have hopts := setOpts_words words
  unfold Dispatch.set
  rw [if_neg (by simp), show (name :: key :: val :: words).drop 3 = words from rfl]
  unfold setOutcome
  cases hrun : setOpts words {} with
  | error e =>
    rw [hrun] at hopts
    rw [Option.map_eq_none_iff.1 hopts.symm]
    obtain ⟨w', hexec, happ⟩ := Writes.append c (45 :: (lit e ++ Resp.crlf)) O w ha hc
    exact ⟨w', hexec, e, happ⟩
  | ok o =>
    rw [hrun] at hopts
    obtain ⟨ws, hws, rfl⟩ := Option.map_eq_some_iff.1 hopts.symm
    obtain ⟨vs, hvs, hagree⟩ := Option.bind_eq_some_iff.1 hws
    split at hagree
    swap
    · cases hagree
    rename_i hag
    cases hagree
    have hpos := positive_of_readWords hvs
    obtain ⟨w₁, hstep, hwf₁, hcfg, hpeek, hconns⟩ := exec_exists hO hwf hnoop key
    have hc₁ : c < w₁.core.conns.length := hconns.length_eq ▸ hc
    have hnull : ∃ w', (replyNullBulk c).exec O w₁ = (w', some ()) ∧ SetDone t c key val w w' .declined := by
      obtain ⟨w', hexec, happ⟩ := Writes.append c (36 :: (Resp.nullLen ++ Resp.crlf)) O w₁ ha hc₁
      refine ⟨w', hexec, fun k => (happ.peek t k).trans (hpeek k), ?_⟩
      rw [happ.wbuf]
      exact congrArg (· ++ _) (touched_conn hconns c).wbuf
    rw [hws]
    show ∃ w', (call (.arExistsBin key) >>= fun exist => if (optsOf ws).nx && exist then replyNullBulk c
      else if (optsOf ws).xx && !exist then replyNullBulk c
      else setWrite key val (optsOf ws) >>= fun ok => if ok then (do replPropagate (name :: key :: val :: words); replyOk c)
        else replyErr c "ERR OOM").exec O w = (w', some ()) ∧ SetDone t c key val w w'
          (if (.nx ∈ ws ∧ (w.core.peek t key).isSome) ∨ (.xx ∈ ws ∧ (w.core.peek t key).isNone) then .declined
            else .written (deadlineOf t (((w.core.peek t key).map Item.expireAt).getD 0) ws))
    rw [hstep]
    have hnx : (optsOf ws).nx = decide (.nx ∈ ws) := rfl
    have hxx : (optsOf ws).xx = decide (.xx ∈ ws) := rfl
    rw [hnx, hxx]
    by_cases h₁ : .nx ∈ ws ∧ (w.core.peek t key).isSome
    · rw [if_pos (by simpa using h₁), if_pos (.inl h₁)]
      exact hnull
    by_cases h₂ : .xx ∈ ws ∧ (w.core.peek t key).isNone
    · rw [if_neg (by simpa using h₁), if_pos (by simpa using h₂), if_pos (.inr h₂)]
      exact hnull
    rw [if_neg (by simpa using h₁), if_neg (by simpa using h₂), if_neg (fun h => h.elim h₁ h₂)]
    have hsets : Sets O w₁ t key val _ _ := sets_setWrite hO ha hwf₁ (hcfg ▸ hnoop) hag hpos (hfit ws hws)
    rw [hpeek] at hsets
    exact written_reply ha hpeek (touched_conn hconns c) hc₁ hsets (touched_calls hO (calls_setWrite ..) hwf₁)

end

/-- `XX EX 60`. -/
theorem setOptions_xx_ex :
    setOptions [lit "XX", lit "EX", lit "60"] = some [.xx, .time .ex 60] := by decide

theorem set_options_sample :
    ∃ w', (Dispatch.set 0 [lit "SET", lit "k", lit "new", lit "XX", lit "EX", lit "60"]).exec (.steady 1000)
        (oneKeyWorld 1000) = (w', some ()) ∧
      SetDone 1000 0 (lit "k") (lit "new") (oneKeyWorld 1000) w'
        (setOutcome 1000 ((oneKeyWorld 1000).core.peek 1000 (lit "k")) [lit "XX", lit "EX", lit "60"]) :=
  set_options (O := .steady 1000) (w := oneKeyWorld 1000) (fun _ _ => rfl) (fun _ _ => rfl) (wf_oneKeyWorld 1000)
    (by decide +kernel) (by decide +kernel) (lit "SET") fun ws hws k n hmem => by
      rw [setOptions_xx_ex] at hws
      cases hws
      obtain ⟨rfl, rfl⟩ : k = .ex ∧ n = 60 := by simpa using hmem
      decide

end AuraRedis
