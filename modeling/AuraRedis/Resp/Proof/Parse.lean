import AuraRedis.Resp.Parse

/-!
# The RESP reader on a command that was written

`parseCommand_command`: the reader takes back the argument vector that was written, and leaves what
follows it alone. On a strict prefix of it the reader asks for more, unless the prefix ends exactly
where a bulk begins (`Cut`), where `parseBulk` answers with an error (`reads_parseCommand`).
-/

set_option autoImplicit false

namespace Resp

open Decimal

/-! ## Lines -/

/-- A numeral and a line end, for any reader `D` of the numeral's digits that stops at the line
end and has nothing to say before it. -/
theorem reads_line {α : Type} {D : Bytes → Parsed UInt8 α} {ds : Bytes} {n : α}
    (hi : ∀ p, p <+: ds → D p = .incomplete) (ho : ∀ s, D (ds ++ 13 :: s) = .ok n (13 :: s)) :
    Reads (fun s => (D s).andThen fun n s => (expectCrlf s).andThen fun _ s => .ok n s)
      (ds ++ crlf) n ∅ := by
  refine ⟨fun rest => ?_, fun p hp => ⟨fun h => h.elim, fun _ => ?_⟩, fun _ h => h.elim⟩
  · simp [crlf, ho, expectCrlf]
  · rcases hp.of_append with hd | ⟨y, rfl, hy⟩
    · simp [hi p hd.1]
    · rcases hy.of_cons with rfl | ⟨z, rfl, hz⟩
      · simp [hi]
      · rcases hz.of_cons with rfl | ⟨u, rfl, hu⟩
        · simp [ho, expectCrlf]
        · exact hu.not_nil.elim

theorem bulkDigits_run (ds : Bytes) (hd : ∀ b ∈ ds, isDigit b = true) (n k : Nat)
    (hk : k + ds.length ≤ 10) (hn : valueFrom n ds ≤ maxBulk) (s : Bytes) :
    bulkDigits n k (ds ++ s) = bulkDigits (valueFrom n ds) (k + ds.length) s := by
  induction ds generalizing n k with
  | nil => rfl
  | cons b ds ih =>
    rw [List.length_cons] at hk
    have hle : n * 10 + digit b ≤ valueFrom n (b :: ds) := le_valueFrom ds _
    rw [List.cons_append, bulkDigits, if_pos (hd b (.head _)), if_neg (by omega),
      ih (fun c hc => hd c (.tail _ hc)) _ _ (by omega) hn, valueFrom_cons, List.length_cons,
      Nat.add_right_comm, Nat.add_assoc]

theorem argcDigits_run (ds : Bytes) (hd : ∀ b ∈ ds, isDigit b = true) (n k : Nat)
    (hn : valueFrom n ds < 2 ^ 63) (hk : k + ds.length < 2 ^ 31) (s : Bytes) :
    argcDigits n k (ds ++ s) = argcDigits (valueFrom n ds : Nat) (k + ds.length) s := by
  induction ds generalizing n k with
  | nil => rfl
  | cons b ds ih =>
    rw [List.length_cons] at hk
    have hle : n * 10 + digit b ≤ valueFrom n (b :: ds) := le_valueFrom ds _
    have hc : (n : Int) * 10 + (digit b : Nat) = (n * 10 + digit b : Nat) := by omega
    have hfits : ((n * 10 + digit b : Nat) : Int) < 2 ^ 63 ∧ k + 1 < 2 ^ 31 := by omega
    rw [List.cons_append, argcDigits, if_pos (hd b (.head _)), hc, if_pos hfits,
      ih (fun c hc => hd c (.tail _ hc)) _ _ hn (by omega), valueFrom_cons, List.length_cons,
      Nat.add_right_comm, Nat.add_assoc]

/-- A prefix of a numeral is a run of digits with no larger value. -/
theorem valueFrom_prefix {p ds : Bytes} (h : p <+: ds) (n : Nat) :
    valueFrom n p ≤ valueFrom n ds := by
  obtain ⟨t, rfl⟩ := h
  rw [valueFrom, valueFrom, List.foldl_append]
  exact le_valueFrom t _

theorem reads_bulkLen {n : Nat} (h : n ≤ maxBulk) :
    Reads bulkLen (ofNat n ++ crlf) n ∅ := by
  have hlen : (ofNat n).length ≤ 10 :=
    length_ofNat_le (by decide) (Nat.lt_of_le_of_lt h (by decide))
  have hval : valueFrom 0 (ofNat n) = n := value_ofNat n
  refine reads_line (fun p hp => ?_) fun s => ?_
  · have := hp.length_le
    have hv := valueFrom_prefix hp 0
    rw [← List.append_nil p, bulkDigits_run p (fun b hb => isDigit_ofNat (hp.subset hb)) 0 0
      (by omega) (by omega)]
    rfl
  · rw [bulkDigits_run _ (fun b hb => isDigit_ofNat hb) 0 0 (by omega) (by omega), hval]
    have := List.length_pos_iff.2 (ofNat_ne_nil n)
    rw [bulkDigits, if_neg (by decide), if_neg (by omega)]

theorem reads_argcLine {n : Nat} (h : n < 2 ^ 63) :
    Reads argcLine (ofNat n ++ crlf) n ∅ := by
  have hlen : (ofNat n).length ≤ 19 := length_ofNat_le (by decide) (by omega)
  have hval : valueFrom 0 (ofNat n) = n := value_ofNat n
  refine reads_line (fun p hp => ?_) fun s => ?_
  · have hv := valueFrom_prefix hp 0
    rw [← List.append_nil p, ← Int.natCast_zero,
      argcDigits_run p (fun b hb => isDigit_ofNat (hp.subset hb)) 0 0 (by omega)
        (by have := hp.length_le; omega)]
    rfl
  · rw [← Int.natCast_zero, argcDigits_run _ (fun b hb => isDigit_ofNat hb) 0 0 (by omega) (by omega), hval]
    have := List.length_pos_iff.2 (ofNat_ne_nil n)
    rw [argcDigits, if_neg (by decide), if_neg (by omega)]

/-! ## Bulks -/

theorem reads_bulkPayload {p : Bytes} (h : p.length ≤ maxBulk) :
    Reads (bulkPayload p.length) (p ++ crlf) (some p) ∅ := by
  refine ⟨fun rest => ?_, fun q hq => ⟨fun h => h.elim, fun _ => ?_⟩, fun _ h => h.elim⟩
  · have hc : ((p ++ crlf ++ rest).drop p.length).take 2 = crlf := by simp [crlf]
    have hl : ¬ (p ++ crlf ++ rest).length < p.length + 2 := by simp [crlf]
    rw [bulkPayload, if_neg (by omega), if_neg hl, if_neg (by rw [hc]; simp)]
    simp [crlf, List.drop_append]
  · have := hq.length_lt
    rw [List.length_append, show crlf.length = 2 from rfl] at this
    rw [bulkPayload, if_neg (by omega), if_pos this]

/-- A numeral does not begin with a sign. -/
theorem head_ofNat_append (n : Nat) (s : Bytes) : (ofNat n ++ s).head? ≠ some 45 := by
  obtain ⟨b, ds, hds⟩ := List.exists_cons_of_ne_nil (ofNat_ne_nil n)
  have hb : isDigit b = true := isDigit_ofNat (n := n) (by rw [hds]; exact .head _)
  rw [hds, List.cons_append, List.head?_cons]
  rintro ⟨⟩
  exact absurd hb (by decide)

/-- **One bulk: its only bad prefix is the empty one.** -/
theorem reads_parseBulk {p : Bytes} (h : p.length ≤ maxBulk) :
    Reads parseBulk (bulk p) (some p) {[]} := by
  have hR := (reads_bulkLen h).seq_clean (Q := bulkPayload) (reads_bulkPayload h)
  have hs : ∀ s : Bytes, s.head? ≠ some 45 →
      parseBulk (36 :: s) = (bulkLen s).andThen bulkPayload := fun s hs => by
    rw [parseBulk, if_neg (by decide), if_neg hs]
  refine ⟨fun rest => ?_, fun q hq => ?_, ?_⟩
  · rw [bulk, List.cons_append, hs, hR.ok]
    simpa only [List.append_assoc] using head_ofNat_append _ _
  · rcases hq.of_cons with rfl | ⟨y, rfl, hy⟩
    · exact ⟨fun _ => rfl, fun hn => absurd rfl hn⟩
    · refine ⟨fun hn => (by cases hn), fun _ => ?_⟩
      rw [hs, (hR.cut y hy).2 (by simp)]
      cases y with
      | nil => simp
      | cons b y =>
        have := head_ofNat_append p.length (crlf ++ (p ++ crlf))
        obtain ⟨t, ht⟩ := hy.1
        rw [← List.append_assoc, ← ht] at this
        exact this
  · rintro q rfl
    exact ⟨List.nil_prefix, by simp [bulk]⟩

/-! ## Argument vectors -/

/-- The bad prefixes of an argument vector. -/
def cuts : List Bytes → Set Bytes
  | [] => ∅
  | p :: argv => {[]} ∪ (bulk p ++ ·) '' cuts argv

theorem mem_cuts {argv : List Bytes} {q : Bytes} :
    q ∈ cuts argv ↔ ∃ j < argv.length, q = (argv.take j).flatMap bulk := by
  induction argv generalizing q with
  | nil => simp [cuts]
  | cons p argv ih =>
    constructor
    · rintro (rfl | ⟨y, hy, rfl⟩)
      · exact ⟨0, by simp, rfl⟩
      · obtain ⟨j, hj, rfl⟩ := ih.1 hy
        exact ⟨j + 1, by simpa using hj, by simp⟩
    · rintro ⟨j, hj, rfl⟩
      cases j with
      | zero => exact .inl rfl
      | succ j => exact .inr ⟨_, ih.2 ⟨j, by simpa using hj, rfl⟩, by simp⟩

theorem reads_parseArgv (argv : List Bytes) (h : ∀ p ∈ argv, p.length ≤ maxBulk) :
    Reads (parseArgv argv.length) (argv.flatMap bulk) argv (cuts argv) := by
  induction argv with
  | nil => exact Reads.pure []
  | cons p argv ih =>
    have hrest := (ih fun q hq => h q (.tail _ hq)).map (p :: ·)
    exact (reads_parseBulk (h p (.head _))).seq hrest

theorem WellFormed.length_lt {argv : List Bytes} (h : WellFormed argv) : argv.length < 2 ^ 31 :=
  Nat.lt_of_le_of_lt h.argc (by decide)

theorem command_eq {argv : List Bytes} (h : argv.length < 2 ^ 31) :
    command argv = 42 :: (ofNat argv.length ++ crlf ++ argv.flatMap bulk) := by
  rw [command, int32_natCast h, arrayHdr, ofInt_natCast, List.cons_append]

theorem WellFormed.length_command_pos {argv : List Bytes} (h : WellFormed argv) :
    0 < (command argv).length := by
  rw [command_eq h.length_lt]
  simp

theorem cut_cons_iff {argv : List Bytes} (h : argv.length < 2 ^ 31) {b : UInt8} {q : Bytes} :
    Cut argv (b :: q) ↔ b = 42 ∧ q ∈ (fun x => ofNat argv.length ++ crlf ++ x) '' cuts argv := by
  rw [Cut, int32_natCast h, arrayHdr, ofInt_natCast, Set.mem_image]
  constructor
  · rintro ⟨j, hj, hq⟩
    obtain ⟨hb, hq⟩ := List.cons.inj hq
    exact ⟨hb, _, mem_cuts.2 ⟨j, hj, rfl⟩, hq.symm⟩
  · rintro ⟨rfl, x, hx, rfl⟩
    obtain ⟨j, hj, rfl⟩ := mem_cuts.1 hx
    exact ⟨j, hj, rfl⟩

theorem arrayHdr_append_ne_nil (n : Int) (s : Bytes) : arrayHdr n ++ s ≠ [] := by
  rw [arrayHdr]
  exact List.cons_ne_nil _ _

theorem not_cut_nil {argv : List Bytes} : ¬ Cut argv [] := by
  intro h
  obtain ⟨j, -, hj⟩ := h
  exact arrayHdr_append_ne_nil _ _ hj.symm

/-- What follows the `*` of a command. -/
theorem reads_parseCommand_tail {argv : List Bytes} (h : WellFormed argv) :
    Reads (fun s => (argcLine s).andThen fun n s =>
      if n < 0 ∨ n > maxArgv then .error else parseArgv n.toNat s)
      (ofNat argv.length ++ crlf ++ argv.flatMap bulk) argv
      (∅ ∪ (fun x => ofNat argv.length ++ crlf ++ x) '' cuts argv) := by
  have hle : ¬ ((argv.length : Int) < 0 ∨ (argv.length : Int) > maxArgv) := by
    have := h.argc
    omega
  have hlt : argv.length < 2 ^ 63 := by
    have := h.length_lt
    omega
  refine (reads_argcLine hlt).seq ?_
  simpa only [if_neg hle, Int.toNat_natCast] using reads_parseArgv argv h.arg

/-- **A whole command**: its bad prefixes are those that end where a bulk begins. -/
theorem reads_parseCommand {argv : List Bytes} (h : WellFormed argv) :
    Reads parseCommand (command argv) argv {p | Cut argv p} := by
  have hR := reads_parseCommand_tail h
  rw [Set.empty_union] at hR
  rw [command_eq h.length_lt]
  refine ⟨fun rest => ?_, fun q hq => ?_, fun q hq => ?_⟩
  · rw [List.cons_append, parseCommand, if_neg (by decide)]
    exact hR.ok rest
  · rcases hq.of_cons with rfl | ⟨y, rfl, hy⟩
    · exact ⟨fun hn => (not_cut_nil hn).elim, fun _ => rfl⟩
    · rw [Set.mem_ofPred_eq, cut_cons_iff h.length_lt, parseCommand, if_neg (by decide),
        and_iff_right rfl]
      exact hR.cut y hy
  · cases q with
    | nil => exact (not_cut_nil hq).elim
    | cons b q =>
      obtain ⟨rfl, hy⟩ := (cut_cons_iff h.length_lt).1 hq
      exact (hR.sub q hy).append_left [42]

theorem parseCommand_command {argv : List Bytes} (h : WellFormed argv) (rest : Bytes) :
    parseCommand (command argv ++ rest) = .ok argv rest := (reads_parseCommand h).ok rest

end Resp
