import AuraRedis.Server.Strings
import AuraRedis.Server.Proof.Frame
import Mathlib.Algebra.Order.Floor.Div

/-!
# Deadlines

The commands that give a key a deadline compute it in the unsigned type, without a look at its size
(`DeadlineCmd.stored_eq`), and `PTTL` converts what is left of it to the signed one. `deadlines_exact` says
where that is exact: a deadline below 2^64, and less than 2^63 milliseconds left of it.
-/

set_option autoImplicit false

namespace AuraRedis

open Code

/-! ## What is left under a key -/

section
variable {E : Env} {t : Nat} {B : Terms} {W : Set Bytes} {c c' : ArCore} {key : Bytes}

theorem Quiet.peek (h : Quiet c c') (hwf : c.WF) (key : Bytes) : c'.peek t key = c.peek t key := by
  obtain ⟨o, ho⟩ := exists_has hwf key
  have ho' : c'.Has key o := (h.itemsAt key).trans ho
  rw [peek_of_has (h.wf hwf) ho', peek_of_has hwf ho]

/-- **`SET`, whatever the kernel and the memory**: a string with its deadline, or nothing done. -/
theorem arEntrySetEx_leaves (hE : E.Frozen t) (hwf : c.WF) (key val : Bytes) {d : Nat}
    (ha : B.Allows key (((c.peek t key).map Item.expireAt).getD 0) d) :
    ((c.arEntrySetEx E key val d).2 = true ∧ ∃ i : Item, i.obj = .string val ∧ i.expireAt = d ∧
        Leaves t B W key (some i) c (c.arEntrySetEx E key val d).1) ∨
      ((c.arEntrySetEx E key val d).2 = false ∧ ¬E.AllocOk ∧
        (c.arEntrySetEx E key val d).1.peek t key = c.peek t key) := by
  unfold ArCore.arEntrySetEx
  rcases find_cases (B := B) hE hwf key with ⟨hn, hev, h0, hp⟩ | ⟨r, hs, hq, hr, hk, hp⟩
  · simp only [hn]
    rw [hp] at ha
    have hwf' := hev.wf hwf
    generalize (c.arFindEntryEx E key).1 = c₁ at hev h0 hwf' ⊢
    by_cases hm : (c₁.malloc E).2 = true ∧ ((c₁.malloc E).1.malloc E).2 = true ∧
        (((c₁.malloc E).1.malloc E).1.malloc E).2 = true
    · obtain ⟨h₁, h₂, h₃⟩ := hm
      refine .inl ⟨?_, _, rfl, rfl, (Leaves.setNew hE hwf' h0 val ha h₁ h₂ h₃).after hev⟩
      unfold ArCore.setNew
      simp only [h₁, h₂, h₃, Bool.not_true, Bool.or_false, Bool.false_eq_true, if_false]
    · have hq := setNew_fail key hm val d
      refine .inr ⟨?_, fun ha => hm ⟨ha _, ha _, ha _⟩, ?_⟩
      · unfold ArCore.setNew
        simp only
        split
        · rfl
        · rename_i h₁
          rw [if_pos]
          by_contra h₂
          exact hm ⟨by simpa using h₁, by simpa using h₂⟩
      · rw [hq.peek hwf', peek_of_has hwf' h0, hp]
        rfl
  · simp only [hs]
    have hwf' := hq.wf hwf
    have hpeek := hq.peek (t := t) hwf key
    subst hk
    rw [hp] at ha
    generalize (c.arFindEntryEx E r.e.key).1 = c₁ at hq hr hwf' hpeek ⊢
    by_cases hm : (c₁.malloc E).2 = true
    · exact .inl ⟨setExisting_ok hm val d, _, rfl, rfl,
        (Leaves.setExisting hE hwf' hr val ha hm).after (.of_quiet hq)⟩
    · refine .inr ⟨?_, fun ha => hm (ha _), ?_⟩
      · unfold ArCore.setExisting
        simp [hm]
      · rw [(setExisting_fail (by simpa using hm) val d).peek hwf', hpeek]

/-- A command that gives a deadline to a key that is there gives it, and leaves one that is not alone. -/
theorem expireWith_leaves (hE : E.Frozen t) (hwf : c.WF) (key : Bytes) {n : Int} (hn : 0 < n)
    {deadline : ArCore → ArCore × Nat} {d : Nat} (hd : Deadline deadline d) (hB : B.asked = some (key, d)) :
    (c.peek t key = none ∧ (c.expireWith E key n deadline).2 = false ∧
        (c.expireWith E key n deadline).1.peek t key = none) ∨
      ((c.expireWith E key n deadline).2 = true ∧ ∃ i : Item, c.peek t key = some i ∧
        Leaves t B W key (some { i with expireAt := d }) c (c.expireWith E key n deadline).1) := by
  unfold ArCore.expireWith
  rcases find_cases (B := B) hE hwf key with ⟨hn, hev, h0, hp⟩ | ⟨r, hs, hq, hr, hk, hp⟩
  · simp only [hn]
    exact .inl ⟨hp, trivial, by rw [peek_of_has (hev.wf hwf) h0]; rfl⟩
  · simp only [hs, if_neg (Int.not_le.2 hn)]
    subst hk
    have hwf' := hq.wf hwf
    generalize (c.arFindEntryEx E r.e.key).1 = c₁ at hq hr hwf' ⊢
    have hq' := hq.trans (hd.quiet c₁)
    have hr' : (deadline c₁).1.Holds r := holds_of_dict (hd.dict c₁) hr
    have hl : Leaves t B {r.e.key} r.e.key (some { r.e.toItem with expireAt := d }) (deadline c₁).1
        ((deadline c₁).1.entrySetExpireAt r.e.key r.e.expireAt (deadline c₁).2) := by
      rw [hd.value]
      exact .entrySetExpireAt ((hd.quiet c₁).wf hwf') (mem_items_of_holds hr') (.asked hB)
    exact .inr ⟨trivial, _, hp, hl.settle.after (.of_quiet hq')⟩

/-- What is left of the deadline of a key that is there. -/
theorem ttlWith_answer (hE : E.Frozen t) (hwf : c.WF) {i : Item} (hp : c.peek t key = some i)
    (hd : i.expireAt ≠ 0) (left : Nat → Nat → Int) : (c.ttlWith E key left).2 = left i.expireAt t := by
  unfold ArCore.ttlWith
  rcases find_cases (B := .plain) hE hwf key with ⟨-, -, -, hp'⟩ | ⟨r, hs, -, -, -, hp'⟩
  · cases hp'.symm.trans hp
  · simp only [hs]
    cases hp'.symm.trans hp
    have hlt : ¬E.time (c.arFindEntryEx E key).1.pos.tick ≥ r.e.expireAt := by
      intro hge
      rw [hE] at hge
      exact ((peek_eq_some_iff hwf).1 hp').2.2 ⟨hd, hge⟩
    rw [if_neg hd]
    show (if E.time _ ≥ r.e.expireAt then _ else _ : ArCore × Int).2 = _
    rw [if_neg hlt, ← hE (c.arFindEntryEx E key).1.pos.tick]
    rfl

end

/-! ## The commands -/

/-- The commands that give a key a deadline; `SET` and its siblings write a value as well. -/
inductive DeadlineCmd
  | expire | pexpire | expireat | pexpireat
  | setex (val : Bytes) | psetex (val : Bytes)
  | setEx (val : Bytes) | setPx (val : Bytes) | setExat (val : Bytes) | setPxat (val : Bytes)

namespace DeadlineCmd

/-- What the handler calls for a time `n`. -/
def write : DeadlineCmd → Bytes → Int → Code Bool
  | expire, key, n => call (.arExpire key n)
  | pexpire, key, n => call (.arPexpire key n)
  | expireat, key, n => call (.arExpireat key n)
  | pexpireat, key, n => call (.arPexpireat key n)
  | setex val, key, n => call (.arSetBinEx key val n)
  | psetex val, key, n => call (.arSetBinPx key val n)
  | setEx val, key, n => Dispatch.setWrite key val { exSec := n }
  | setPx val, key, n => Dispatch.setWrite key val { pxMs := n }
  | setExat val, key, n => Dispatch.setWrite key val { exatSec := n }
  | setPxat val, key, n => Dispatch.setWrite key val { pxatMs := n }

/-- The deadline that is asked for at time `t`. -/
def deadline (t : Nat) (n : Int) : DeadlineCmd → Nat
  | expire | setex _ | setEx _ => t + 1000 * n.toNat
  | pexpire | psetex _ | setPx _ => t + n.toNat
  | expireat | setExat _ => 1000 * n.toNat
  | pexpireat | setPxat _ => n.toNat

/-- The command needs a key that is there. -/
def NeedsKey : DeadlineCmd → Prop
  | expire | pexpire | expireat | pexpireat => True
  | _ => False

end DeadlineCmd

/-- A command has been refused and the key is what it was, or the key has the deadline `d`, unless it has gone
since: taken by the kernel, or because `d` has passed. -/
def Dated (t d : Nat) (key : Bytes) (c c' : ArCore) (ok : Option Bool) : Prop :=
  (ok = some false ∧ c'.peek t key = c.peek t key) ∨
    (ok = some true ∧ ((∃ i, c'.Has key (some i) ∧ i.expireAt = d) ∨
      (c'.Has key none ∧ (c.cfg.evict = .noop → Due t d))))

section
variable {O : Outside} {w : World} {t : Nat} {key : Bytes} {n : Int}

/-- What one call has come to: the key has the deadline `d`, or is as it was. -/
structure Outcome (t d : Nat) (key : Bytes) (needsKey allocOk : Prop) (c c' : ArCore) (ok : Bool) : Prop where
  refused : ok = false → c'.peek t key = c.peek t key ∧ (needsKey ∧ c.peek t key = none ∨ ¬allocOk)
  given : ok = true → (needsKey → c.peek t key ≠ none) ∧
    ((∃ i, c'.Has key (some i) ∧ i.expireAt = d) ∨ (c'.Has key none ∧ (c.cfg.evict = .noop → Due t d)))

theorem Outcome.of_leaves {B : Terms} {W : Set Bytes} {c c' : ArCore} {i : Item} {needsKey allocOk : Prop}
    (hl : Leaves t B W key (some i) c c') (hk : needsKey → c.peek t key ≠ none) :
    Outcome t i.expireAt key needsKey allocOk c c' true := by
  refine ⟨nofun, fun _ => ⟨hk, ?_⟩⟩
  rcases hl.now with h | ⟨h, hd⟩
  · exact .inl ⟨i, h, rfl⟩
  · exact .inr ⟨h, fun hn => hd hn i rfl⟩

/-- The terms on which a key gets a deadline. -/
def Terms.asks (key : Bytes) (d : Nat) : Terms := { Terms.plain with asked := some (key, d) }

variable {E : Env} {c : ArCore}

theorem outcome_arEntrySetEx (hE : E.Frozen t) (hwf : c.WF) (key val : Bytes) (d : Nat) :
    Outcome t d key False E.AllocOk c (c.arEntrySetEx E key val d).1 (c.arEntrySetEx E key val d).2 := by
  rcases arEntrySetEx_leaves (B := .asks key d) (W := ∅) hE hwf key val (.asked rfl) with
    ⟨ho, i, -, rfl, hl⟩ | ⟨ho, ha, hp⟩
  · rw [ho]
    exact .of_leaves hl fun h => h.elim
  · rw [ho]
    exact ⟨fun _ => ⟨hp, .inr ha⟩, nofun⟩

theorem outcome_expireWith (hE : E.Frozen t) (hwf : c.WF) (key : Bytes) (hn : 0 < n)
    {deadline : ArCore → ArCore × Nat} {d : Nat} (hd : Deadline deadline d) :
    Outcome t d key True E.AllocOk c (c.expireWith E key n deadline).1 (c.expireWith E key n deadline).2 := by
  rcases expireWith_leaves (B := .asks key d) (W := ∅) hE hwf key hn hd rfl with
    ⟨hp, ho, hp'⟩ | ⟨ho, i, hp, hl⟩
  · rw [ho]
    exact ⟨fun _ => ⟨hp'.trans hp.symm, .inl ⟨trivial, hp⟩⟩, nofun⟩
  · rw [ho]
    exact .of_leaves hl fun _ h => by cases h.symm.trans hp

/-- A look that changes nothing comes first. -/
theorem Outcome.after {d : Nat} {needsKey allocOk : Prop} {c₁ c' : ArCore} {ok : Bool} (hwf : c.WF)
    (hq : Quiet c c₁) (h : Outcome t d key needsKey allocOk c₁ c' ok) :
    Outcome t d key needsKey allocOk c c' ok := by
  obtain ⟨h₁, h₂⟩ := h
  rw [hq.peek hwf] at h₁ h₂
  rw [hq.cfg] at h₂
  exact ⟨h₁, h₂⟩

theorem uint64_of_pos (hn : 0 < n) (hn' : n < 2 ^ 63) : uint64 n = n.toNat := by
  rw [uint64, Int.emod_eq_of_lt (by omega) (by omega)]

/-- `SET` with a deadline off the clock. -/
theorem outcome_setFromNow (hE : E.Frozen t) (hwf : c.WF) (key val : Bytes) (f : Nat → Nat) :
    Outcome t (f t) key False E.AllocOk c
      ((c.countSet.arNowMs E).1.arEntrySetEx E key val (f (c.countSet.arNowMs E).2)).1
      ((c.countSet.arNowMs E).1.arEntrySetEx E key val (f (c.countSet.arNowMs E).2)).2 := by
  have hq : Quiet c (c.countSet.arNowMs E).1 := (Quiet.count c _ (Nat.le_refl _)).trans (.arNowMs E _)
  rw [show (c.countSet.arNowMs E).2 = t from hE _]
  exact (outcome_arEntrySetEx hE (hq.wf hwf) key val (f t)).after hwf hq

theorem outcome_arSetBinEx (hE : E.Frozen t) (hwf : c.WF) (key val : Bytes) (hn : 0 < n) :
    Outcome t ((t + uint64 n * 1000) % 2 ^ 64) key False E.AllocOk c (c.arSetBinEx E key val n).1
      (c.arSetBinEx E key val n).2 := by
  unfold ArCore.arSetBinEx
  simp only [if_pos hn]
  exact outcome_setFromNow hE hwf key val fun now => (now + uint64 n * 1000) % 2 ^ 64

theorem outcome_arSetBinPx (hE : E.Frozen t) (hwf : c.WF) (key val : Bytes) (hn : 0 < n) :
    Outcome t ((t + uint64 n) % 2 ^ 64) key False E.AllocOk c (c.arSetBinPx E key val n).1
      (c.arSetBinPx E key val n).2 := by
  unfold ArCore.arSetBinPx
  simp only [if_pos hn]
  exact outcome_setFromNow hE hwf key val fun now => (now + uint64 n) % 2 ^ 64

theorem outcome_arExpire (hE : E.Frozen t) (hwf : c.WF) (key : Bytes) (hn : 0 < n) :
    Outcome t ((t + uint64 n * 1000) % 2 ^ 64) key True E.AllocOk c (c.arExpire E key n).1
      (c.arExpire E key n).2 :=
  outcome_expireWith hE hwf key hn ⟨fun c => .arNowMs E c, fun _ => rfl,
    fun _ => congrArg (fun now => (now + uint64 n * 1000) % 2 ^ 64) (hE _)⟩

theorem outcome_arPexpire (hE : E.Frozen t) (hwf : c.WF) (key : Bytes) (hn : 0 < n) :
    Outcome t ((t + uint64 n) % 2 ^ 64) key True E.AllocOk c (c.arPexpire E key n).1 (c.arPexpire E key n).2 :=
  outcome_expireWith hE hwf key hn ⟨fun c => .arNowMs E c, fun _ => rfl,
    fun _ => congrArg (fun now => (now + uint64 n) % 2 ^ 64) (hE _)⟩

theorem outcome_arExpireat (hE : E.Frozen t) (hwf : c.WF) (key : Bytes) (hn : 0 < n) :
    Outcome t (uint64 n * 1000 % 2 ^ 64) key True E.AllocOk c (c.arExpireat E key n).1 (c.arExpireat E key n).2 :=
  outcome_expireWith hE hwf key hn ⟨.refl, fun _ => rfl, fun _ => rfl⟩

theorem outcome_arPexpireat (hE : E.Frozen t) (hwf : c.WF) (key : Bytes) (hn : 0 < n) :
    Outcome t (uint64 n) key True E.AllocOk c (c.arPexpireat E key n).1 (c.arPexpireat E key n).2 :=
  outcome_expireWith hE hwf key hn ⟨.refl, fun _ => rfl, fun _ => rfl⟩

end

/-! ## In a world -/

section
variable {O : Outside} {w : World} {t : Nat} {key : Bytes} {n : Int}

/-- What a command has come to in a world. -/
def Comes (t d : Nat) (key : Bytes) (needsKey : Prop) (O : Outside) (w : World) (p : Code Bool) : Prop :=
  ∃ ok, (p.exec O w).2 = some ok ∧ Outcome t d key needsKey O.AllocOk w.core (p.exec O w).1.core ok

/-- One call. -/
theorem comes_call {d d' : Nat} {needsKey : Prop} {core : ArCore} {ok : Bool}
    {p : Code Bool} (hp : ((p.exec O w).1.core, (p.exec O w).2) = (core, some ok)) {k : Nat}
    (h : Outcome t d key needsKey (O.env k).AllocOk w.core core ok) (hd : d = d') :
    Comes t d' key needsKey O w p := by
  obtain ⟨hc, ho⟩ := Prod.mk.inj hp
  subst hd
  rw [Comes, hc]
  exact ⟨ok, ho, fun hf => ⟨(h.refused hf).1, (h.refused hf).2.imp_right fun ha hb => ha (hb k)⟩, h.given⟩

/-- `SET` with a deadline of its own. -/
theorem comes_entrySet (hO : ∀ k, (O.env k).Frozen t) (hwf : w.core.WF) (key val : Bytes) (d : Nat) :
    Comes t d key False O w (Dispatch.entrySet key val d) := by
  have hq : Quiet w.core (w.core.count fun s => { s with ops := s.ops + 1, sets := s.sets + 1 }) :=
    .count _ _ (Nat.le_refl _)
  have h := (outcome_arEntrySetEx (hO (w.calls + 1)) (hq.wf hwf) key val d).after hwf hq
  exact comes_call (p := Dispatch.entrySet key val d) rfl h rfl

/-- **What a command stores is its deadline modulo 2^64.** -/
theorem comes_write (hO : ∀ k, (O.env k).Frozen t) (hwf : w.core.WF) (cmd : DeadlineCmd) (key : Bytes)
    (hn : 0 < n) (hn' : n < 2 ^ 63) :
    Comes t (cmd.deadline t n % 2 ^ 64) key cmd.NeedsKey O w (cmd.write key n) := by
  have hu : uint64 n = n.toNat := uint64_of_pos hn hn'
  have hsec : uint64 n * 1000 = 1000 * n.toNat := by rw [hu, Nat.mul_comm]
  have hE := hO w.calls
  have hneg : ¬(-1 : Int) > 0 := by decide
  cases cmd with
  | expire =>
    exact comes_call (p := call (.arExpire key n)) rfl (outcome_arExpire hE hwf key hn) (by rw [hsec]; rfl)
  | pexpire =>
    exact comes_call (p := call (.arPexpire key n)) rfl (outcome_arPexpire hE hwf key hn) (by rw [hu]; rfl)
  | expireat =>
    exact comes_call (p := call (.arExpireat key n)) rfl (outcome_arExpireat hE hwf key hn)
      (by rw [hsec]; rfl)
  | pexpireat =>
    refine comes_call (p := call (.arPexpireat key n)) rfl (outcome_arPexpireat hE hwf key hn) ?_
    rw [hu, DeadlineCmd.deadline, Nat.mod_eq_of_lt (by omega)]
  | setex val =>
    exact comes_call (p := call (.arSetBinEx key val n)) rfl (outcome_arSetBinEx hE hwf key val hn)
      (by rw [hsec]; rfl)
  | psetex val =>
    exact comes_call (p := call (.arSetBinPx key val n)) rfl (outcome_arSetBinPx hE hwf key val hn)
      (by rw [hu]; rfl)
  | setEx val =>
    rw [DeadlineCmd.write, Dispatch.setWrite, if_pos hn]
    exact comes_call (p := call (.arSetBinEx key val n)) rfl (outcome_arSetBinEx hE hwf key val hn)
      (by rw [hsec]; rfl)
  | setPx val =>
    rw [DeadlineCmd.write, Dispatch.setWrite, if_neg hneg, if_pos hn]
    exact comes_call (p := call (.arSetBinPx key val n)) rfl (outcome_arSetBinPx hE hwf key val hn)
      (by rw [hu]; rfl)
  | setExat val =>
    rw [DeadlineCmd.write, Dispatch.setWrite, if_neg hneg, if_neg hneg, if_pos hn, hsec]
    exact comes_entrySet hO hwf key val _
  | setPxat val =>
    rw [DeadlineCmd.write, Dispatch.setWrite, if_neg hneg, if_neg hneg, if_neg hneg,
      if_pos hn, hu, DeadlineCmd.deadline, Nat.mod_eq_of_lt (by omega)]
    exact comes_entrySet hO hwf key val _

/-- Where the deadline that is asked for fits, or there is no key to give it to, a command is settled. -/
theorem settled_of_fits {d : Nat} {needsKey : Prop} {p : Code Bool} (h : Comes t (d % 2 ^ 64) key needsKey O w p)
    (hf : d < 2 ^ 64 ∨ (needsKey ∧ w.core.peek t key = none)) :
    Dated t d key w.core (p.exec O w).1.core (p.exec O w).2 := by
  obtain ⟨ok, ho, h⟩ := h
  rw [Dated, ho]
  cases ok with
  | false => exact .inl ⟨rfl, (h.refused rfl).1⟩
  | true =>
    obtain ⟨hk, hg⟩ := h.given rfl
    rcases hf with hd | ⟨hn, hp⟩
    · rw [Nat.mod_eq_of_lt hd] at hg
      exact .inr ⟨rfl, hg⟩
    · exact absurd hp (hk hn)

/-- With memory, and no kernel to take the key, no other command is. -/
theorem fits_of_settled {d : Nat} {needsKey : Prop} {p : Code Bool} (h : Comes t (d % 2 ^ 64) key needsKey O w p)
    (ht : t < 2 ^ 62) (ha : O.AllocOk) (hn : w.core.cfg.evict = .noop)
    (hs : Dated t d key w.core (p.exec O w).1.core (p.exec O w).2) :
    d < 2 ^ 64 ∨ (needsKey ∧ w.core.peek t key = none) := by
  obtain ⟨ok, ho, h⟩ := h
  rw [Dated, ho] at hs
  rcases hs with ⟨hf, -⟩ | ⟨ht', hs⟩
  · cases hf
    exact .inr ((h.refused rfl).2.resolve_right fun hna => hna ha)
  · cases ht'
    refine .inl ?_
    by_contra hge
    have hmod : d % 2 ^ 64 ≠ d := fun he => hge (he ▸ Nat.mod_lt d (by decide))
    have hdue : ¬Due t d := fun hd => by
      have := hd.2
      omega
    rcases hs with ⟨i, hi, rfl⟩ | ⟨-, hd⟩
    · rcases (h.given rfl).2 with ⟨j, hj, hd⟩ | ⟨h0, -⟩
      · have hij : ({j} : Multiset Item) = {i} := hj.symm.trans hi
        rw [Multiset.singleton_inj.1 hij] at hd
        exact hmod hd.symm
      · have hi0 : (0 : Multiset Item) = {i} := h0.symm.trans hi
        exact absurd hi0.symm (Multiset.singleton_ne_zero i)
    · exact hdue (hd hn)

/-- `TTL` and `PTTL` tell what is left of a deadline. -/
structure LeftExact (E : Env) (c : ArCore) (key : Bytes) (left : Nat) : Prop where
  ttl : (c.arTtl E key).2 = (left ⌈/⌉ 1000 : Nat)
  pttl : (c.arPttl E key).2 = left
  ttlPos : 1 ≤ (c.arTtl E key).2
  pttlPos : 1 ≤ (c.arPttl E key).2

theorem leftExact_iff {E : Env} {c : ArCore} (hE : E.Frozen t) (hwf : c.WF) {i : Item}
    (hp : c.peek t key = some i) (hd : i.expireAt ≠ 0) :
    LeftExact E c key (i.expireAt - t) ↔ i.expireAt - t < 2 ^ 63 := by
  have hlt : t < i.expireAt := Nat.lt_of_not_le fun hle => ((peek_eq_some_iff hwf).1 hp).2.2 ⟨hd, hle⟩
  have hpttl : (c.arPttl E key).2 = int64 (i.expireAt - t : Nat) := by
    rw [Int.ofNat_sub hlt.le]
    exact ttlWith_answer hE hwf hp hd _
  have httl : (c.arTtl E key).2 = int64 (((i.expireAt - t + 999) % 2 ^ 64 / 1000 : Nat)) := by
    refine (ttlWith_answer hE hwf hp hd _).trans (congrArg int64 ?_)
    push_cast [hlt.le]
    rfl
  generalize hl : i.expireAt - t = left at hpttl httl ⊢
  have hpos : 0 < left := by omega
  constructor
  · intro h
    have h₁ := hpttl.symm.trans h.pttl
    have h₂ := (int64_range (left : Int)).2
    omega
  · intro h
    have h₁ : (c.arPttl E key).2 = left := hpttl.trans (int64_natCast h)
    have h₂ : (c.arTtl E key).2 = (left ⌈/⌉ 1000 : Nat) := by
      rw [httl, Nat.mod_eq_of_lt (by omega), Nat.ceilDiv_eq_add_pred_div, int64_natCast (by omega)]
      rfl
    refine ⟨h₂, h₁, ?_, ?_⟩
    · rw [h₂, Nat.ceilDiv_eq_add_pred_div]
      omega
    · rw [h₁]
      omega

/-- **Where deadlines are exact**: a command is refused or gives the deadline asked for, as long as that is below
2^64, and what is left of a deadline is told exactly as long as it is below 2^63. -/
theorem deadlines_exact (hO : ∀ k, (O.env k).Frozen t) (hwf : w.core.WF) (ht : t < 2 ^ 62) (key : Bytes) :
    (∀ (cmd : DeadlineCmd) (n : Int), 0 < n → n < 2 ^ 63 →
      (cmd.deadline t n < 2 ^ 64 ∨ (cmd.NeedsKey ∧ w.core.peek t key = none) →
        Dated t (cmd.deadline t n) key w.core ((cmd.write key n).exec O w).1.core
          ((cmd.write key n).exec O w).2) ∧
      (O.AllocOk → w.core.cfg.evict = .noop →
        Dated t (cmd.deadline t n) key w.core ((cmd.write key n).exec O w).1.core
          ((cmd.write key n).exec O w).2 →
        cmd.deadline t n < 2 ^ 64 ∨ (cmd.NeedsKey ∧ w.core.peek t key = none))) ∧
    ∀ i, w.core.peek t key = some i → i.expireAt ≠ 0 →
      (LeftExact (O.env w.calls) w.core key (i.expireAt - t) ↔ i.expireAt - t < 2 ^ 63) := by
  refine ⟨fun cmd n hn hn' => ?_, fun i hp hd => leftExact_iff (hO _) hwf hp hd⟩
  have h := comes_write hO hwf cmd key hn hn'
  exact ⟨settled_of_fits h, fun ha he => fits_of_settled h ht ha he⟩

end

def oneKeyCalls (t : Nat) : List Call := [.steady t (.arEntrySetEx (lit "k") (lit "v") 0)]

/-- A key that is there. -/
def oneKeyWorld (t : Nat) : World := { core := ArCore.arCoreCreate.runCalls (oneKeyCalls t) }

theorem wf_oneKeyWorld (t : Nat) : (oneKeyWorld t).core.WF := by
  have h := ArCore.Reachable.create.runCalls (oneKeyCalls t)
  dsimp only [oneKeyWorld]
  exact h.wf

theorem deadlines_exact_sample :
    Dated 1000 61000 (lit "k") (oneKeyWorld 1000).core
      ((DeadlineCmd.expire.write (lit "k") 60).exec (.steady 1000) (oneKeyWorld 1000)).1.core
      ((DeadlineCmd.expire.write (lit "k") 60).exec (.steady 1000) (oneKeyWorld 1000)).2 :=
  ((deadlines_exact (O := .steady 1000) (w := oneKeyWorld 1000) (fun _ _ => rfl) (wf_oneKeyWorld 1000)
    (by decide) (lit "k")).1 .expire 60 (by decide) (by decide)).1 (.inl (by decide))

/-- `EXPIRE k 18446744073709552` at time 1000 leaves the key 384 milliseconds. -/
theorem expire_wraps :
    ((DeadlineCmd.expire.write (lit "k") 18446744073709552).exec (.steady 1000) (oneKeyWorld 1000)).2 =
        some true ∧
      (((DeadlineCmd.expire.write (lit "k") 18446744073709552).exec (.steady 1000)
        (oneKeyWorld 1000)).1.core.peek 1000 (lit "k")).map (·.expireAt) = some 1384 ∧
      DeadlineCmd.expire.deadline 1000 18446744073709552 = 18446744073709553000 := by
  refine ⟨by decide +kernel, by decide +kernel, by decide⟩

end AuraRedis
