import AuraRedis.Lib.Numeral
import AuraRedis.Server.Typed
import AuraRedis.Server.Proof.Deadline

/-!
# Counters

`INCR` and its siblings read what is stored with `strtoll` and add in the signed type, without a look at the
result. `counters_exact` says where they count as they should: where the stored bytes are no number to
`strtoll`, or are the decimal form of one and the sum and its addend fit.
-/

set_option autoImplicit false

namespace AuraRedis

open CString (cstr Numeral signed clamp strtoll_whole_iff strtoll_numeral strtoll_ofInt length_ofInt_le)
open Code Decimal

/-! ## The integer that bytes hold -/

/-- The decimal form of an `int64_t`. -/
def Canonical (s : Bytes) (n : Int) : Prop := Fits64 n ∧ s = ofInt n

/-- The bytes are a number to `strtoll`, in a buffer of 64 bytes. -/
def Numerical (s : Bytes) : Prop := s.length < 64 ∧ ∃ neg ds, Numeral (cstr s) neg ds

/-- `strtoll` takes the whole string and something of it. -/
theorem parseInteger_eq_none_iff (s : Bytes) : ArCore.parseInteger s = none ↔ ¬Numerical s := by
  have hle : (CString.strtoll s).2 ≤ (cstr s).length := CString.scan_le (cstr s)
  unfold ArCore.parseInteger Numerical
  rw [← strtoll_whole_iff, ← CString.getElem?_eq_nul_iff s hle]
  by_cases hlen : s.length ≥ 64
  · simp only [if_pos hlen, true_iff]
    exact fun h => absurd h.1 (Nat.not_lt.2 hlen)
  · simp only [if_neg hlen]
    split
    · rename_i h
      refine ⟨fun _ hn => ?_, fun _ => rfl⟩
      exact h.elim hn.2.1 fun h => h hn.2.2
    · rename_i h
      rw [not_or, not_not] at h
      exact ⟨nofun, fun hn => absurd ⟨Nat.lt_of_not_le hlen, h⟩ hn⟩

/-- A decimal form is read as its number. -/
theorem Canonical.parseInteger {s : Bytes} {n : Int} (h : Canonical s n) : ArCore.parseInteger s = some n := by
  obtain ⟨hn, rfl⟩ := h
  obtain ⟨hpos, hlen⟩ := length_ofInt_le hn
  unfold ArCore.parseInteger
  have hend := (CString.getElem?_eq_nul_iff (ofInt n) (k := (ofInt n).length)
    (by rw [CString.cstr_ofInt])).2 (by rw [CString.cstr_ofInt])
  rw [if_neg (by omega)]
  simp only [strtoll_ofInt hn]
  rw [if_neg (by
    rintro (h | h)
    · omega
    · exact h hend)]

theorem Canonical.unique {s : Bytes} {m n : Int} (h : Canonical s m) (h' : Canonical s n) : m = n :=
  Option.some.inj (h.parseInteger.symm.trans h'.parseInteger)

/-- The text of a number is an argument. -/
theorem intArg_ofInt {n : Int} (h : Fits64 n) : intArg (ofInt n) = some n := by
  obtain ⟨hpos, hlen⟩ := length_ofInt_le h
  unfold intArg nbuf
  rw [if_neg (by omega), Option.bind_some]
  unfold wholeNumber
  simp only [strtoll_ofInt h, CString.cstr_ofInt]
  rw [if_neg (by omega)]

/-! ## What a counter should do -/

/-- **Exact counting**: with `delta` added to the number that `s` is the decimal form of, `sum` holds of the
result if addend and result fit; in every other case it is an error. -/
structure Counts (s : Bytes) (delta : Int) (sum : Int → Prop) (err : Prop) : Prop where
  exact : ∀ n, Canonical s n → Fits64 delta → Fits64 (n + delta) → sum (n + delta)
  error : (¬∃ n, Canonical s n ∧ Fits64 delta ∧ Fits64 (n + delta)) → err

/-- Where counting is exact. -/
def CountsAt (s : Bytes) (delta : Int) : Prop :=
  ¬Numerical s ∨ ∃ n, Canonical s n ∧ Fits64 delta ∧ Fits64 (n + delta)

/-- Counting by what `strtoll` reads, in the signed type. -/
theorem counts_iff {s : Bytes} {delta delta' : Int} {sum : Int → Prop} {err : Prop}
    (hdelta : Fits64 delta → delta' = delta) (herr : ArCore.parseInteger s = none → err)
    (hsum : ∀ v, ArCore.parseInteger s = some v → sum (int64 (v + delta')) ∧ ¬err) :
    Counts s delta sum err ↔ CountsAt s delta := by
  constructor
  · intro h
    by_cases hat : ∃ n, Canonical s n ∧ Fits64 delta ∧ Fits64 (n + delta)
    · exact .inr hat
    · refine .inl ?_
      rw [← parseInteger_eq_none_iff]
      cases hp : ArCore.parseInteger s with
      | none => rfl
      | some v => exact absurd (h.error hat) (hsum v hp).2
  · rintro (hnot | ⟨n, hc, hd, hf⟩)
    · rw [← parseInteger_eq_none_iff] at hnot
      exact ⟨fun n hc => (by cases hnot.symm.trans hc.parseInteger), fun _ => herr hnot⟩
    · refine ⟨fun m hm _ _ => ?_, fun hno => absurd ⟨n, hc, hd, hf⟩ hno⟩
      have hs := (hsum n hc.parseInteger).1
      rwa [hdelta hd, int64_eq hf.1 hf.2, hc.unique hm] at hs

/-! ## INCR and its siblings -/

/-- A key has the value `obj` and the deadline `d`, unless a kernel has taken it since. -/
def Stored (c c' : ArCore) (key : Bytes) (obj : ArObj → Prop) (d : Nat) : Prop :=
  (∃ i, c'.Has key (some i) ∧ obj i.obj ∧ i.expireAt = d) ∨ (c'.Has key none ∧ c.cfg.evict ≠ .noop)

section
variable {E : Env} {t : Nat} {B : Terms} {W : Set Bytes} {c c' : ArCore} {key field s : Bytes} {i : Item}

theorem Leaves.stored {j : Item} (h : Leaves t B W key (some j) c c') {obj : ArObj → Prop} (ho : obj j.obj)
    (hd : ¬Due t j.expireAt) : Stored c c' key obj j.expireAt := by
  rcases h.now with hh | ⟨hz, hdue⟩
  · exact .inl ⟨j, hh, ho, rfl⟩
  · exact .inr ⟨hz, fun hn => hd (hdue hn j rfl)⟩

/-- `INCR` on a string. -/
theorem arIncr_spec (hE : E.Frozen t) (hwf : c.WF) (ha : E.AllocOk) (hp : c.peek t key = some i)
    (ho : i.obj = .string s) (delta : Int) :
    (ArCore.parseInteger s = none → (c.arIncr E key delta).2 = none ∧
      (c.arIncr E key delta).1.peek t key = c.peek t key) ∧
    ∀ v, ArCore.parseInteger s = some v → (c.arIncr E key delta).2 = some (int64 (v + delta)) ∧
      Stored c (c.arIncr E key delta).1 key (· = .string (ofInt (int64 (v + delta)))) i.expireAt := by
  have hq₀ : Quiet c c.countSet := .count c _ (Nat.le_refl _)
  have hwf₀ := hq₀.wf hwf
  have hp₀ : c.countSet.peek t key = some i := (hq₀.peek hwf key).trans hp
  have hfind := peek_find hE hwf₀ key
  have hd : ¬Due t i.expireAt := ((peek_eq_some_iff hwf).1 hp).2.2
  unfold ArCore.arIncr
  rcases find_cases (B := .plain) hE hwf₀ key with ⟨-, -, -, hn⟩ | ⟨r, hs, hq, hr, hk, hi⟩
  · cases hn.symm.trans hp₀
  · cases hi.symm.trans hp₀
    have hwf₁ := hq.wf hwf₀
    simp only [hs, ArCore.incrFrom]
    rw [ho]
    refine ⟨fun hnone => ?_, fun v hv => ?_⟩
    · simp only [hnone, Option.map_none]
      exact ⟨trivial, hfind.trans (hq₀.peek hwf key)⟩
    · simp only [hv, Option.map_some]
      have hask : (Terms.plain).Allows key
          ((((c.countSet.arFindEntryEx E key).1.peek t key).map Item.expireAt).getD 0) r.e.expireAt := by
        rw [hfind, hi]
        exact .inr (.inl rfl)
      rcases arEntrySetEx_leaves (W := ∅) hE hwf₁ key (ofInt (int64 (v + delta))) hask with
        ⟨hok, j, hobj, hexp, hl⟩ | ⟨-, hna, -⟩
      · rw [hok]
        refine ⟨if_pos rfl, ?_⟩
        have hev : Evolves t .plain ∅ ∅ c (c.countSet.arFindEntryEx E key).1 := .of_quiet (hq₀.trans hq)
        have hst : Stored c _ key (· = .string (ofInt (int64 (v + delta)))) j.expireAt :=
          (hl.after hev).stored hobj (by rwa [hexp])
        rwa [hexp] at hst
      · exact absurd ha hna

/-- `HINCRBY` on a field that is there. -/
theorem arHashHincrby_spec (hE : E.Frozen t) (hwf : c.WF) (ha : E.AllocOk) (hp : c.peek t key = some i)
    {h : ArHash} (ho : i.obj = .hash h) (hf : h.find field = some s) (delta : Int) :
    (ArCore.parseInteger s = none → (c.arHashHincrby E key field delta).2 = .notInt ∧
      (c.arHashHincrby E key field delta).1.peek t key = c.peek t key) ∧
    ∀ v, ArCore.parseInteger s = some v →
      (c.arHashHincrby E key field delta).2 = .value (int64 (v + delta)) ∧
      Stored c (c.arHashHincrby E key field delta).1 key
        (fun o => ∃ h', o = .hash h' ∧ h'.fields = h.fields.insert field (ofInt (int64 (v + delta))))
        i.expireAt := by
  have hd : ¬Due t i.expireAt := ((peek_eq_some_iff hwf).1 hp).2.2
  unfold ArCore.arHashHincrby ArCore.arEntryGetOrCreate
  rcases find_cases (B := .plain) hE hwf key with ⟨-, -, -, hn⟩ | ⟨r, hs, hq, hr, hk, hi⟩
  · cases hn.symm.trans hp
  · cases hi.symm.trans hp
    subst hk
    have hwf₁ := hq.wf hwf
    have ht : r.e.obj.type = .hash := by rw [ho]; rfl
    simp only [hs, if_pos ht]
    rw [ho]
    simp only [ArCore.hincrField, hf]
    have hpeek := hq.peek (t := t) hwf r.e.key
    generalize (c.arFindEntryEx E r.e.key).1 = c₁ at hq hr hwf₁ hpeek ⊢
    refine ⟨fun hnone => ?_, fun v hv => ?_⟩
    · simp only [hnone]
      exact ⟨trivial, hpeek⟩
    · have hw := hash_wf hwf₁ hr ho
      have hm : (c₁.malloc E).2 = true := malloc_ok ha
      simp only [hv, hm, Bool.not_true, Bool.false_eq_true, if_false]
      have hset := hw.setVal field (ofInt (int64 (v + delta)))
      have hl := Leaves.writeBack (t := t) (B := .plain) (W := ∅) hE ((Quiet.malloc E c₁).wf hwf₁)
        (show (c₁.malloc E).1.Holds r from hr) (show ArObj.WF (.hash _) from hset) (by rw [ho]; rfl)
      refine ⟨trivial, (hl.after (.of_quiet (hq.trans (.malloc E c₁)))).stored ?_ hd⟩
      exact ⟨_, rfl, hw.fields_setVal hf _⟩

end

/-! ## The commands -/

inductive IncrCmd
  | incr | decr | incrby (n : Int) | decrby (n : Int)

namespace IncrCmd

/-- What the command adds. -/
def delta : IncrCmd → Int
  | incr => 1
  | decr => -1
  | incrby n => n
  | decrby n => -n

/-- Its argument. -/
def Given : IncrCmd → Prop
  | incr | decr => True
  | incrby n | decrby n => Fits64 n

def argv (key : Bytes) : IncrCmd → List Bytes
  | incr => [lit "INCR", key]
  | decr => [lit "DECR", key]
  | incrby n => [lit "INCRBY", key, ofInt n]
  | decrby n => [lit "DECRBY", key, ofInt n]

def handler : IncrCmd → Nat → List Bytes → Code Unit
  | incr => Dispatch.incr
  | decr => Dispatch.decr
  | incrby _ => Dispatch.incrby
  | decrby _ => Dispatch.decrby

/-- The handler calls `ar_incr` with the addend, as a signed number. -/
theorem handler_eq {cmd : IncrCmd} (h : cmd.Given) (c : Nat) (key : Bytes) :
    cmd.handler c (cmd.argv key) = Dispatch.incrWith c (cmd.argv key) (int64 cmd.delta) := by
  cases cmd with
  | incr => rfl
  | decr => rfl
  | incrby n =>
    have hn : intArg (arg (argv key (.incrby n)) 2) = some n := intArg_ofInt h
    show Dispatch.incrBy "incrby" id c (argv key (.incrby n)) = _
    unfold Dispatch.incrBy
    rw [if_neg (by simp [argv]), hn, delta, int64_eq h.1 h.2]
    rfl
  | decrby n =>
    have hn : intArg (arg (argv key (.decrby n)) 2) = some n := intArg_ofInt h
    show Dispatch.incrBy "decrby" (fun delta => int64 (-delta)) c (argv key (.decrby n)) = _
    unfold Dispatch.incrBy
    rw [if_neg (by simp [argv]), hn]
    rfl

end IncrCmd

/-- What `HINCRBY` replies. -/
def hincrbyReply (c : Nat) (argv : List Bytes) : ArCore.HincrResult → Code Unit
  | .wrongType => replyWrongType c
  | .notInt => replyErr c "ERR hash value is not an integer"
  | .value v => replPropagate argv >>= fun _ => replyInt c v

/-- `HINCRBY` calls `ar_hash_hincrby` with its argument. -/
theorem hincrby_eq {n : Int} (h : Fits64 n) (c : Nat) (key field : Bytes) :
    Dispatch.hincrby c [lit "HINCRBY", key, field, ofInt n] =
      call (.arHashHincrby key field n) >>= hincrbyReply c [lit "HINCRBY", key, field, ofInt n] := by
  have hn : intArg (arg [lit "HINCRBY", key, field, ofInt n] 3) = some n := intArg_ofInt h
  unfold Dispatch.hincrby
  rw [if_neg (by simp), hn]
  refine congrArg (call (.arHashHincrby key field n) >>= ·) (funext fun a => ?_)
  cases a <;> rfl

/-- **Where counting is exact.** -/
theorem counters_exact {E : Env} {t : Nat} {c : ArCore} (hE : E.Frozen t) (hwf : c.WF) (ha : E.AllocOk)
    (key : Bytes) (i : Item) (hp : c.peek t key = some i) :
    (∀ s, i.obj = .string s → ∀ cmd : IncrCmd, cmd.Given →
      (∀ conn, cmd.handler conn (cmd.argv key) = Dispatch.incrWith conn (cmd.argv key) (int64 cmd.delta)) ∧
      (Counts s cmd.delta
        (fun v => (c.arIncr E key (int64 cmd.delta)).2 = some v ∧
          Stored c (c.arIncr E key (int64 cmd.delta)).1 key (· = .string (ofInt v)) i.expireAt)
        ((c.arIncr E key (int64 cmd.delta)).2 = none ∧
          (c.arIncr E key (int64 cmd.delta)).1.peek t key = c.peek t key) ↔ CountsAt s cmd.delta)) ∧
    ∀ h, i.obj = .hash h → ∀ field s n, h.find field = some s → Fits64 n →
      (∀ conn, Dispatch.hincrby conn [lit "HINCRBY", key, field, ofInt n] =
        call (.arHashHincrby key field n) >>= hincrbyReply conn [lit "HINCRBY", key, field, ofInt n]) ∧
      (Counts s n
        (fun v => (c.arHashHincrby E key field n).2 = .value v ∧
          Stored c (c.arHashHincrby E key field n).1 key
            (fun o => ∃ h', o = .hash h' ∧ h'.fields = h.fields.insert field (ofInt v)) i.expireAt)
        ((c.arHashHincrby E key field n).2 = .notInt ∧
          (c.arHashHincrby E key field n).1.peek t key = c.peek t key) ↔ CountsAt s n) := by
  refine ⟨fun s ho cmd hg => ⟨fun conn => IncrCmd.handler_eq hg conn key, ?_⟩, fun h ho field s n hf hn => ?_⟩
  · obtain ⟨hnone, hsome⟩ := arIncr_spec hE hwf ha hp ho (int64 cmd.delta)
    refine counts_iff (fun hd => int64_eq hd.1 hd.2) hnone fun v hv => ⟨hsome v hv, fun herr => ?_⟩
    cases herr.1.symm.trans (hsome v hv).1
  · obtain ⟨hnone, hsome⟩ := arHashHincrby_spec hE hwf ha hp ho hf n
    refine ⟨fun conn => hincrby_eq hn conn key field, ?_⟩
    refine counts_iff (fun _ => rfl) hnone fun v hv => ⟨hsome v hv, fun herr => ?_⟩
    cases herr.1.symm.trans (hsome v hv).1

/-- At 1000 the key `k` gets a value. -/
def counterCalls (val : Bytes) : List Call := [.steady 1000 (.arEntrySetEx (lit "k") val 0)]

/-- The core of these calls. -/
def counterCore (val : Bytes) : ArCore := ArCore.arCoreCreate.runCalls (counterCalls val)

theorem wf_counterCore (val : Bytes) : (counterCore val).WF := by
  have h := ArCore.Reachable.create.runCalls (counterCalls val)
  exact h.wf

theorem peek_counterCore :
    (counterCore (lit "41")).peek 1000 (lit "k") = some ⟨lit "k", .string (lit "41"), false, 0⟩ := by
  decide +kernel

theorem counters_exact_sample :
    ((counterCore (lit "41")).arIncr (.steady 1000) (lit "k") 1).2 = some 42 ∧
      Stored (counterCore (lit "41")) ((counterCore (lit "41")).arIncr (.steady 1000) (lit "k") 1).1 (lit "k")
        (· = .string (ofInt 42)) 0 := by
  have h := ((counters_exact (E := .steady 1000) (t := 1000) (fun _ => rfl) (wf_counterCore (lit "41"))
    (fun _ => rfl) (lit "k") _ peek_counterCore).1 _ rfl .incr trivial).2.2
    (.inr ⟨41, ⟨by decide, by decide⟩, by decide, by decide⟩)
  exact h.exact 41 ⟨by decide, by decide⟩ (by decide) (by decide)

/-- `INCR` of the greatest `int64_t` replies the least one. -/
theorem incr_wraps :
    ((counterCore (lit "9223372036854775807")).arIncr (.steady 1000) (lit "k") 1).2 =
        some (-9223372036854775808) ∧
      Canonical (lit "9223372036854775807") 9223372036854775807 ∧
      ¬Fits64 (9223372036854775807 + 1) := by
  refine ⟨by decide +kernel, ⟨by decide, by decide⟩, by decide⟩

end AuraRedis
