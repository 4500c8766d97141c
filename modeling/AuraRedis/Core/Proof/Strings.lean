import AuraRedis.Core.Proof.Key

/-!
# Operations on keys and strings

Each operation of `Core.Strings` on one key is a `KeyStep` of its meaning; `Evolves.arRename` is the one
on two keys.
-/

set_option autoImplicit false

namespace AuraRedis

open ArCore (Typed)

section
variable {E : Env} {t : Nat} {B : Terms} {W : Set Bytes} {c c' : ArCore} {key : Bytes} {r : Ref}

theorem malloc_ok (ha : E.AllocOk) : (c.malloc E).2 = true := ha _

/-- A lookup leaves what the next lookup finds. -/
theorem peek_find (hE : E.Frozen t) (hwf : c.WF) (key : Bytes) :
    (c.arFindEntryEx E key).1.peek t key = c.peek t key := by
  rcases find_cases (B := .plain) hE hwf key with ⟨-, hev, h0, hp⟩ | ⟨r, -, hq, hr, hk, hp⟩
  · rw [peek_of_has (hev.wf hwf) h0, hp]
    rfl
  · rw [hp]
    obtain ⟨-, -, hd⟩ := (peek_eq_some_iff hwf).1 hp
    exact (peek_eq_some_iff (hq.wf hwf)).2 ⟨mem_items_of_holds hr, hk, hd⟩

/-- An operation goes on with another one on the same key. -/
theorem KeyStep.transfer {β γ : Type} {f : Option Slot → Option Slot × β}
    {g : Option Slot → Option Slot × γ} {y : ArCore × γ} {x : ArCore × β}
    (h : KeyStep E t B W key g c' y) (hev : Evolves t B ∅ ∅ c c')
    (hp : c'.peek t key = c.peek t key) (hx : x.1 = y.1)
    (hf : E.AllocOk → c.cfg.evict = .noop → y.2 = (g ((c.peek t key).map Item.slot)).2 →
      (f ((c.peek t key).map Item.slot)).1 = (g ((c.peek t key).map Item.slot)).1 ∧
        x.2 = (f ((c.peek t key).map Item.slot)).2) : KeyStep E t B W key f c x := by
  obtain ⟨o, hl, hc, hfull⟩ := h
  refine ⟨o, hx ▸ hl.after hev, fun ha hn => ?_, fun hB ha hf => hfull hB ha (hf.evolves hev (by simp))⟩
  obtain ⟨hs, hb⟩ := hc ha (hev.cfg ▸ hn)
  rw [hp] at hs hb
  obtain ⟨h₁, h₂⟩ := hf ha hn hb
  rw [h₁]
  exact ⟨hs, h₂⟩

/-- Counting first. -/
theorem KeyStep.counted {β : Type} {f : Option Slot → Option Slot × β} {x : ArCore × β}
    {g : Stats → Stats} (h : KeyStep E t B W key f (c.count g) x)
    (hk : c.stats.clock ≤ (g c.stats).clock) : KeyStep E t B W key f c x :=
  h.transfer (.of_quiet (.count c g hk)) rfl rfl fun _ _ hb => ⟨rfl, hb⟩

/-! ## SET -/

/-- The end of a write to a string: a promotion, the note of the kernel, room for it, the watchers. -/
theorem Leaves.accessed {o : Option Item} (hE : E.Frozen t) (h : Leaves t B {key} key o c c')
    (hwf : c'.WF) {e : ArEntry} (hr : c'.Holds (r.with e)) :
    Leaves t B W key o c ((((if c'.dict.layout = .hotCold ∧ r.tier = .cold
      then c'.arTouchGet E (r.with e) else c').onSet key).maybeEvict E).arWatchTouch key) := by
  have hq : Quiet c'
      (if c'.dict.layout = .hotCold ∧ r.tier = .cold then c'.arTouchGet E (r.with e) else c') := by
    split
    · exact .arTouchGet E hwf.dict hr
    · exact .refl c'
  have hq' := hq.trans (.onSet _ key)
  exact ((h.quiet hq').andThen (.maybeEvict hE (hq'.wf hwf))).settle

/-- The value of an entry is replaced. -/
theorem Leaves.setExisting (hE : E.Frozen t) (hwf : c.WF) (hr : c.Holds r) (val : Bytes)
    {expireAt : Nat} (ha : B.Allows r.e.key r.e.expireAt expireAt) (hm : (c.malloc E).2 = true) :
    Leaves t B W r.e.key (some { r.e.toItem with obj := .string val, expireAt := expireAt }) c
      (c.setExisting E r val expireAt).1 := by
  unfold ArCore.setExisting
  simp only [hm, Bool.not_true, Bool.false_eq_true, if_false]
  have hq : Quiet c (c.malloc E).1 := .malloc E c
  have hwf₁ := hq.wf hwf
  have hr₁ : (c.malloc E).1.Holds r := hr
  generalize (c.malloc E).1 = c₁ at hq hwf₁ hr₁ ⊢
  have hclock : (Stats.noteBigkey (if decide (r.e.obj.type ≠ .string) = true
      then c₁.stats.noteBigkey .string r.e.key.length else c₁.stats) .string val.length).clock =
      c₁.stats.clock := by
    rw [clock_noteBigkey]
    split
    · exact clock_noteBigkey ..
    · rfl
  generalize (Stats.noteBigkey (if decide (r.e.obj.type ≠ .string) = true
    then c₁.stats.noteBigkey .string r.e.key.length else c₁.stats) .string val.length) = stats at hclock ⊢
  generalize hmem : Mem.setExpireAt _ r.e.expireAt expireAt = mem
  generalize hc₂ : ArCore.updEntry _ r.e.key _ = c₂
  have hput : Leaves t B {r.e.key} r.e.key
      (some { r.e.toItem with obj := .string val, expireAt := expireAt }) c₁ c₂ := by
    refine .put (f := fun e => { e with obj := .string val, lastAccess := stats.clock + 1,
                                        expireAt := expireAt })
      hwf₁ hr₁ (fun _ => rfl) trivial (by rw [← hc₂]; rfl) (fun s hne => ?_)
      (by rw [← hc₂]; rfl) (by rw [← hc₂]; rfl) (by rw [← hc₂]; rfl)
      (by rw [← hclock, ← hc₂]; exact Nat.le_succ _)
      (fun _ _ h => ⟨by rw [← hc₂]; exact Nat.le_refl _, h⟩)
    rw [← hc₂]
    show Journal B _ (mem, _)
    rw [← hmem]
    have hexp : ∀ m, Posting B (m, { r.e.toItem with obj := .string val } ::ₘ s)
        (m.setExpireAt r.e.expireAt expireAt,
          { r.e.toItem with obj := .string val, expireAt := expireAt } ::ₘ s) := fun m => .deadline hne ha
    by_cases ht : r.e.obj.type = .string
    · simp only [ht, ne_eq, not_true_eq_false, decide_false, Bool.false_eq_true, if_false]
      exact (Journal.post (.setString (i := r.e.toItem) ht)).tail (hexp _)
    · simp only [ne_eq, ht, not_false_eq_true, decide_true, if_true]
      exact ((Journal.post (.retype (i := r.e.toItem))).tail (.setString rfl)).tail (hexp _)
  have hr₂ : c₂.Holds (r.with { r.e with obj := .string val, lastAccess := stats.clock + 1,
                                         expireAt := expireAt }) := by
    refine holds_update (c := c₁) (f := fun e => { e with
      obj := .string val, lastAccess := stats.clock + 1, expireAt := expireAt }) hr₁ ?_
    rw [← hc₂]
    rfl
  exact (hput.after (.of_quiet hq)).accessed hE (hput.ev.wf hwf₁) hr₂

/-- An item is that of a held entry. -/
theorem exists_holds {i : Item} (hi : i ∈ c.items) : ∃ r, c.Holds r ∧ r.e.toItem = i := by
  obtain ⟨e, he, rfl⟩ := Multiset.mem_map.1 hi
  rcases Multiset.mem_add.1 he with hm | hm
  · obtain ⟨b, hb⟩ := Chains.mem_entries.1 hm
    exact ⟨⟨.hot, b, e⟩, hb, rfl⟩
  · obtain ⟨b, hb⟩ := Chains.mem_entries.1 hm
    exact ⟨⟨.cold, b, e⟩, hb, rfl⟩

/-- A deadline is set, or cleared. -/
theorem Leaves.entrySetExpireAt (hwf : c.WF) {i : Item} (hi : i ∈ c.items) {new : Nat}
    (ha : B.Allows i.key i.expireAt new) :
    Leaves t B {i.key} i.key (some { i with expireAt := new }) c
      (c.entrySetExpireAt i.key i.expireAt new) := by
  obtain ⟨r, hr, rfl⟩ := exists_holds hi
  exact .put (f := fun e => { e with expireAt := new }) hwf hr (fun _ => rfl)
    (hwf.objs r.e.toItem (mem_items_of_holds hr)) rfl
    (fun s hne => .post (.deadline (i := r.e.toItem) hne ha)) rfl rfl rfl (Nat.le_refl _) fun _ h h' => ⟨h, h'⟩

/-- A key that is not there gets a string. -/
theorem Leaves.setNew (hE : E.Frozen t) (hwf : c.WF) (hk : c.Has key none) (val : Bytes)
    {expireAt : Nat} (ha : B.Allows key 0 expireAt) (h₁ : (c.malloc E).2 = true)
    (h₂ : ((c.malloc E).1.malloc E).2 = true) (h₃ : (((c.malloc E).1.malloc E).1.malloc E).2 = true) :
    Leaves t B W key (some ⟨key, .string val, false, expireAt⟩) c (c.setNew E key val expireAt).1 := by
  unfold ArCore.setNew
  simp only [h₁, h₂, h₃, Bool.not_true, Bool.or_false, Bool.false_eq_true, if_false]
  have hq : Quiet c (((c.malloc E).1.malloc E).1.malloc E).1 :=
    ((Quiet.malloc E c).trans (.malloc E _)).trans (.malloc E _)
  have hk₁ : ∀ i ∈ (((c.malloc E).1.malloc E).1.malloc E).1.items, i.key ≠ key := by
    rw [hq.items]
    exact has_none_iff.1 hk
  have hwf₁ := hq.wf hwf
  generalize (((c.malloc E).1.malloc E).1.malloc E).1 = c₁ at hq hwf₁ hk₁ ⊢
  have hlink : Leaves t B {key} key (some (newItem key (.string val))) c₁
      (c₁.linkNew (hashBin key &&& (c₁.dict.hot.length - 1)) key (.string val)) :=
    .linkNew hwf₁ hk₁ rfl trivial
  have hmem : newItem key (.string val) ∈
      (c₁.linkNew (hashBin key &&& (c₁.dict.hot.length - 1)) key (.string val)).items := by
    have := (items_linkNew hwf₁ (.string val) hk₁ (b := hashBin key &&& (c₁.dict.hot.length - 1))
      rfl).2
    rw [this]
    exact Multiset.mem_cons_self _ _
  generalize c₁.linkNew (hashBin key &&& (c₁.dict.hot.length - 1)) key (.string val) = c₂ at hlink hmem ⊢
  have hlink := hlink.quiet (.count c₂ (fun s => { s with uniqueSets := s.uniqueSets + 1 }) (Nat.le_refl _))
  have hwf₂ := hlink.ev.wf hwf₁
  have hexp : Leaves t B {key} key (some ⟨key, .string val, false, expireAt⟩)
      (c₂.count fun s => { s with uniqueSets := s.uniqueSets + 1 })
      ((c₂.count fun s => { s with uniqueSets := s.uniqueSets + 1 }).entrySetExpireAt key 0 expireAt) :=
    .entrySetExpireAt (i := newItem key (.string val)) hwf₂ hmem ha
  have hset := hlink.trans hexp
  have hwf₃ := hset.ev.wf hwf₁
  generalize (c₂.count fun s => { s with uniqueSets := s.uniqueSets + 1 }).entrySetExpireAt key 0
    expireAt = c₃ at hset hwf₃ ⊢
  have hq₄ : Quiet c₃ ((c₃.onSet key).maybeDemoteHot E) :=
    (Quiet.onSet c₃ key).trans (.maybeDemoteHot E ((Quiet.onSet c₃ key).dict hwf₃.dict))
  have hq₅ := hq₄.trans (.arRehashIfNeeded E (hq₄.dict hwf₃.dict))
  exact (((hset.after (.of_quiet hq)).quiet hq₅).andThen (.maybeEvict hE (hq₅.wf hwf₃))).settle

/-- Where an allocation fails nothing changes that can be seen. -/
theorem setExisting_fail (hm : (c.malloc E).2 = false) (val : Bytes) (expireAt : Nat) :
    Quiet c (c.setExisting E r val expireAt).1 := by
  unfold ArCore.setExisting
  simp only [hm, Bool.not_false, if_true]
  exact .malloc E c

theorem setNew_fail (key : Bytes) (hm : ¬((c.malloc E).2 = true ∧ ((c.malloc E).1.malloc E).2 = true ∧
    (((c.malloc E).1.malloc E).1.malloc E).2 = true)) (val : Bytes) (expireAt : Nat) :
    Quiet c (c.setNew E key val expireAt).1 := by
  have hq₁ : Quiet c (c.malloc E).1 := .malloc E c
  have hq₃ := (hq₁.trans (.malloc E _)).trans (.malloc E (((c.malloc E).1.malloc E).1))
  unfold ArCore.setNew
  simp only
  split
  · exact hq₁
  · rename_i h₁
    split
    · exact hq₃
    · rename_i h₂
      refine absurd ⟨by simpa using h₁, ?_⟩ hm
      simpa using h₂

/-- What `SET` answers when it has the memory. -/
theorem setExisting_ok (hm : (c.malloc E).2 = true) (val : Bytes) (expireAt : Nat) :
    (c.setExisting E r val expireAt).2 = true := by
  unfold ArCore.setExisting
  simp only [hm, Bool.not_true, Bool.false_eq_true, if_false]

theorem setNew_ok (ha : E.AllocOk) (val : Bytes) (expireAt : Nat) :
    (c.setNew E key val expireAt).2 = true := by
  unfold ArCore.setNew
  simp only [malloc_ok ha, Bool.not_true, Bool.or_false, Bool.false_eq_true, if_false]

/-- **`SET`.** -/
theorem KeyStep.arEntrySetEx (hE : E.Frozen t) (hwf : c.WF) (key val : Bytes) {expireAt : Nat}
    (ha : B.Allows key (((c.peek t key).map Item.expireAt).getD 0) expireAt) :
    KeyStep E t B W key (Spec.set val expireAt) c (c.arEntrySetEx E key val expireAt) := by
  unfold ArCore.arEntrySetEx
  rcases find_cases (B := B) hE hwf key with ⟨hn, hev, h0, hp⟩ | ⟨r, hs, hq, hr, hk, hp⟩
  · simp only [hn]
    rw [hp] at ha
    have hwf' := hev.wf hwf
    generalize (c.arFindEntryEx E key).1 = c₁ at hev h0 hwf' ⊢
    by_cases hm : (c₁.malloc E).2 = true ∧ ((c₁.malloc E).1.malloc E).2 = true ∧
        (((c₁.malloc E).1.malloc E).1.malloc E).2 = true
    · obtain ⟨h₁, h₂, h₃⟩ := hm
      refine .created hp ((Leaves.setNew hE hwf' h0 val ha h₁ h₂ h₃).after hev) (fun ha _ => ?_)
        fun _ _ i hi => ?_
      · rw [setNew_ok ha]
        rfl
      · cases hi
        trivial
    · have hq := setNew_fail key hm val expireAt
      refine .missing (hev.quiet hq) ?_ hp fun ha _ => absurd ⟨ha _, ha _, ha _⟩ hm
      unfold ArCore.Has
      rw [hq.itemsAt]
      exact h0
  · simp only [hs]
    have hwf' := hq.wf hwf
    subst hk
    rw [hp] at ha
    generalize (c.arFindEntryEx E r.e.key).1 = c₁ at hq hr hwf' ⊢
    by_cases hm : (c₁.malloc E).2 = true
    · refine .found hwf hp ((Leaves.setExisting hE hwf' hr val ha hm).after (.of_quiet hq))
        (fun _ _ => ?_) fun _ _ _ i hi => ?_
      · rw [setExisting_ok hm]
        rfl
      · cases hi
        trivial
    · refine .kept hwf (hq.trans (setExisting_fail (by simpa using hm) val expireAt)) rfl hp
        fun ha _ => absurd (ha _) hm

theorem KeyStep.arEntrySet (hE : E.Frozen t) (hwf : c.WF) (key val : Bytes) :
    KeyStep E t B W key (Spec.set val 0) c (c.arEntrySet E key val) := .arEntrySetEx hE hwf key val .zero

theorem KeyStep.arSetBin (hE : E.Frozen t) (hwf : c.WF) (key val : Bytes) :
    KeyStep E t B W key (Spec.set val 0) c (c.arSetBin E key val) :=
  .counted (.arEntrySet (c := c.countSet) hE ((Quiet.count c _ (Nat.le_refl _)).wf hwf) key val) (Nat.le_refl _)

/-- A write that reads the clock first when it has a deadline. -/
theorem KeyStep.setFromNow (hE : E.Frozen t) (hwf : c.WF) (key val : Bytes) (n : Int) (d : Nat → Nat)
    (hB : n > 0 → B.asked = some (key, d t)) :
    KeyStep E t B W key (Spec.set val (if n > 0 then d t else 0)) c
      (if n > 0 then (c.arNowMs E).1.arEntrySetEx E key val (d (c.arNowMs E).2)
        else c.arEntrySetEx E key val 0) := by
  have hq : Quiet c (c.arNowMs E).1 := .arNowMs E c
  split
  · rename_i hn
    rw [show (c.arNowMs E).2 = t from hE _]
    exact (KeyStep.arEntrySetEx hE (hq.wf hwf) key val (.asked (hB hn))).transfer (.of_quiet hq) rfl rfl
      fun _ _ hb => ⟨rfl, hb⟩
  · exact .arEntrySetEx hE hwf key val .zero

theorem KeyStep.arSetBinEx (hE : E.Frozen t) (hwf : c.WF) (key val : Bytes) (sec : Int)
    (hB : sec > 0 → B.asked = some (key, (t + uint64 sec * 1000) % 2 ^ 64)) :
    KeyStep E t B W key
      (Spec.set val (if sec > 0 then (t + uint64 sec * 1000) % 2 ^ 64 else 0)) c
      (c.arSetBinEx E key val sec) :=
  .counted (.setFromNow (c := c.countSet) hE ((Quiet.count c _ (Nat.le_refl _)).wf hwf) key val sec
    (fun now => (now + uint64 sec * 1000) % 2 ^ 64) hB) (Nat.le_refl _)

theorem KeyStep.arSetBinPx (hE : E.Frozen t) (hwf : c.WF) (key val : Bytes) (ms : Int)
    (hB : ms > 0 → B.asked = some (key, (t + uint64 ms) % 2 ^ 64)) :
    KeyStep E t B W key (Spec.set val (if ms > 0 then (t + uint64 ms) % 2 ^ 64 else 0)) c
      (c.arSetBinPx E key val ms) :=
  .counted (.setFromNow (c := c.countSet) hE ((Quiet.count c _ (Nat.le_refl _)).wf hwf) key val ms
    (fun now => (now + uint64 ms) % 2 ^ 64) hB) (Nat.le_refl _)

/-! ## Deadlines -/

/-- A function that reads the deadline off the clock, if it does. -/
structure Deadline (deadline : ArCore → ArCore × Nat) (d : Nat) : Prop where
  quiet : ∀ c, Quiet c (deadline c).1
  dict : ∀ c, (deadline c).1.dict = c.dict
  value : ∀ c, (deadline c).2 = d

/-- **The commands that set a deadline.** -/
theorem KeyStep.expireWith (hE : E.Frozen t) (hwf : c.WF) (key : Bytes) (n : Int)
    {deadline : ArCore → ArCore × Nat} {d : Nat} (hd : Deadline deadline d)
    (hB : 0 < n → (c.view t key).isSome = true → B.asked = some (key, d)) :
    KeyStep E t B W key (Spec.expire n d) c (c.expireWith E key n deadline) := by
  unfold ArCore.expireWith
  rcases find_cases (B := B) hE hwf key with ⟨hn, hev, h0, hp⟩ | ⟨r, hs, hq, hr, hk, hp⟩
  · simp only [hn]
    exact .missing hev h0 hp fun _ _ => rfl
  · simp only [hs]
    have hwf' := hq.wf hwf
    subst hk
    have hsome : (c.view t r.e.key).isSome = true := by
      unfold ArCore.view
      rw [hp]
      rfl
    generalize (c.arFindEntryEx E r.e.key).1 = c₁ at hq hr hwf' ⊢
    split
    · rename_i hneg
      have hl : Leaves t B {r.e.key} r.e.key (some { r.e.toItem with expireAt := 0 }) c₁
          ({ c₁ with mem := c₁.mem.clearExpire r.e.expireAt }.updEntry r.e.key
            fun e => { e with expireAt := 0 }) :=
        .put (f := fun e => { e with expireAt := 0 }) hwf' hr (fun _ => rfl)
          (hwf'.objs r.e.toItem (mem_items_of_holds hr)) rfl
          (fun s hne => .post (.deadline (i := r.e.toItem) hne .zero)) rfl rfl rfl (Nat.le_refl _)
          fun _ h h' => ⟨h, h'⟩
      refine .found hwf hp (hl.settle.after (.of_quiet hq)) (fun _ _ => ?_) fun _ _ hfull i hi => ?_
      · simp only [Spec.expire, Item.slot, hneg, if_true]
        rfl
      · cases hi
        exact hfull
    · rename_i hpos
      have hq' := hq.trans (hd.quiet c₁)
      have hr' : (deadline c₁).1.Holds r := holds_of_dict (hd.dict c₁) hr
      have hl : Leaves t B {r.e.key} r.e.key (some { r.e.toItem with expireAt := d }) (deadline c₁).1
          ((deadline c₁).1.entrySetExpireAt r.e.key r.e.expireAt (deadline c₁).2) := by
        rw [hd.value]
        exact .entrySetExpireAt ((hd.quiet c₁).wf hwf') (mem_items_of_holds hr')
          (.asked (hB (by omega) hsome))
      refine .found hwf hp (hl.settle.after (.of_quiet hq')) (fun _ _ => ?_) fun _ _ hfull i hi => ?_
      · simp only [Spec.expire, Item.slot, hpos, if_false]
        rfl
      · cases hi
        exact hfull

theorem KeyStep.arExpire (hE : E.Frozen t) (hwf : c.WF) (key : Bytes) (seconds : Int)
    (hB : 0 < seconds → (c.view t key).isSome = true →
      B.asked = some (key, (t + uint64 seconds * 1000) % 2 ^ 64)) :
    KeyStep E t B W key (Spec.expire seconds ((t + uint64 seconds * 1000) % 2 ^ 64)) c
      (c.arExpire E key seconds) :=
  .expireWith hE hwf key seconds
    ⟨fun c => .arNowMs E c, fun _ => rfl,
      fun _ => congrArg (fun now => (now + uint64 seconds * 1000) % 2 ^ 64) (hE _)⟩ hB

theorem KeyStep.arPexpire (hE : E.Frozen t) (hwf : c.WF) (key : Bytes) (ms : Int)
    (hB : 0 < ms → (c.view t key).isSome = true →
      B.asked = some (key, (t + uint64 ms) % 2 ^ 64)) :
    KeyStep E t B W key (Spec.expire ms ((t + uint64 ms) % 2 ^ 64)) c (c.arPexpire E key ms) :=
  .expireWith hE hwf key ms
    ⟨fun c => .arNowMs E c, fun _ => rfl,
      fun _ => congrArg (fun now => (now + uint64 ms) % 2 ^ 64) (hE _)⟩ hB

theorem KeyStep.arExpireat (hE : E.Frozen t) (hwf : c.WF) (key : Bytes) (unixSec : Int)
    (hB : 0 < unixSec → (c.view t key).isSome = true →
      B.asked = some (key, uint64 unixSec * 1000 % 2 ^ 64)) :
    KeyStep E t B W key (Spec.expire unixSec (uint64 unixSec * 1000 % 2 ^ 64)) c
      (c.arExpireat E key unixSec) :=
  .expireWith hE hwf key unixSec ⟨.refl, fun _ => rfl, fun _ => rfl⟩ hB

theorem KeyStep.arPexpireat (hE : E.Frozen t) (hwf : c.WF) (key : Bytes) (unixMs : Int)
    (hB : 0 < unixMs → (c.view t key).isSome = true →
      B.asked = some (key, uint64 unixMs)) :
    KeyStep E t B W key (Spec.expire unixMs (uint64 unixMs)) c (c.arPexpireat E key unixMs) :=
  .expireWith hE hwf key unixMs ⟨.refl, fun _ => rfl, fun _ => rfl⟩ hB

theorem KeyStep.ttlWith (hE : E.Frozen t) (hwf : c.WF) (key : Bytes) (left : Nat → Nat → Int) :
    KeyStep E t B W key (Spec.ttl t left) c (c.ttlWith E key left) := by
  unfold ArCore.ttlWith
  rcases find_cases (B := B) hE hwf key with ⟨hn, hev, h0, hp⟩ | ⟨r, hs, hq, hr, hk, hp⟩
  · simp only [hn]
    exact .missing hev h0 hp fun _ _ => rfl
  · simp only [hs]
    have hd := ((peek_eq_some_iff hwf).1 hp).2.2
    generalize (c.arFindEntryEx E key).1 = c₁ at hq hr ⊢
    split
    · rename_i hz
      refine .kept hwf hq hk hp fun _ _ => ?_
      simp only [Spec.ttl, Item.slot, hz]
    · rename_i hnz
      have hn : (c₁.arNowMs E).2 = t := hE _
      have hlt : ¬(c₁.arNowMs E).2 ≥ r.e.expireAt := fun h => hd ⟨hnz, hn ▸ h⟩
      rw [if_neg hlt]
      refine .kept hwf (hq.trans (.arNowMs E c₁)) hk hp fun _ _ => ?_
      simp only [Spec.ttl, Item.slot, hn]

/-! ## Reads -/

theorem Quiet.shadowSample (c : ArCore) (hit : Bool) : Quiet c (c.shadowSample E hit) := by
  unfold ArCore.shadowSample
  split
  · simp only
    split
    · refine (Quiet.rand E c).trans (.count _ _ ?_)
      split
      · exact Nat.le_refl _
      · exact Nat.le_refl _
    · exact .rand E c
  · exact .refl c

theorem dict_shadowSample (c : ArCore) (hit : Bool) : (c.shadowSample E hit).dict = c.dict := by
  unfold ArCore.shadowSample
  split
  · simp only
    split
    · rfl
    · rfl
  · rfl

/-- **`GET`**, with its promotion. -/
theorem KeyStep.getPtr (hE : E.Frozen t) (hwf : c.WF) (key : Bytes) :
    KeyStep E t B W key Spec.get c (c.getPtr E key) := by
  refine KeyStep.counted (g := fun s => { s with ops := s.ops + 1, gets := s.gets + 1 }) ?_ (Nat.le_refl _)
  have hwf₀ : c.countGet.WF := (Quiet.count c _ (Nat.le_refl _)).wf hwf
  unfold ArCore.getPtr
  show KeyStep E t B W key Spec.get c.countGet _
  generalize c.countGet = c₀ at hwf₀ ⊢
  rcases find_cases (B := B) hE hwf₀ key with ⟨hn, hev, h0, hp⟩ | ⟨r, hs, hq, hr, hk, hp⟩
  · simp only [hn]
    have hq' : Quiet (c₀.arFindEntryEx E key).1
        ((c₀.arFindEntryEx E key).1.countMiss.shadowSample E false) :=
      (Quiet.count _ _ (Nat.le_refl _)).trans (.shadowSample _ _)
    refine .missing (hev.quiet hq') ?_ hp fun _ _ => rfl
    unfold ArCore.Has
    rw [hq'.itemsAt]
    exact h0
  · simp only [hs]
    have hwf' := hq.wf hwf₀
    generalize (c₀.arFindEntryEx E key).1 = c₁ at hq hr hwf' ⊢
    have hq₂ : Quiet c₁ (c₁.countHit.shadowSample E true) :=
      (Quiet.count c₁ _ (Nat.le_refl _)).trans (.shadowSample _ _)
    have hr₂ : (c₁.countHit.shadowSample E true).Holds r :=
      holds_of_dict (dict_shadowSample _ _) hr
    have hq₃ := hq₂.trans (.arTouchGet E (hq₂.dict hwf'.dict) hr₂)
    split
    · rename_i val hobj
      refine .kept hwf₀ ((hq.trans hq₃).trans (.onGet _ key)) hk hp fun _ _ => ?_
      simp only [Spec.get, Item.slot, hobj, ArObj.abs]
    · rename_i hobj
      refine .kept hwf₀ hq hk hp fun _ _ => ?_
      cases ho : r.e.obj with
      | string val => exact absurd ho (hobj val)
      | hash h => simp only [Spec.get, Item.slot, ho, ArObj.abs]
      | list l => simp only [Spec.get, Item.slot, ho, ArObj.abs]
      | zset z => simp only [Spec.get, Item.slot, ho, ArObj.abs]

theorem KeyStep.arStrlen (hE : E.Frozen t) (hwf : c.WF) (key : Bytes) :
    KeyStep E t B W key Spec.strlen c (c.arStrlen E key) := by
  refine KeyStep.counted (g := fun s => { s with ops := s.ops + 1 }) ?_ (Nat.le_refl _)
  have hwf₀ : (c.count fun s => { s with ops := s.ops + 1 }).WF := (Quiet.count c _ (Nat.le_refl _)).wf hwf
  unfold ArCore.arStrlen
  simp only
  generalize (c.count fun s => { s with ops := s.ops + 1 }) = c₀ at hwf₀ ⊢
  rcases find_cases (B := B) hE hwf₀ key with ⟨hn, hev, h0, hp⟩ | ⟨r, hs, hq, hr, hk, hp⟩
  · simp only [hn]
    exact .missing hev h0 hp fun _ _ => rfl
  · simp only [hs]
    cases ho : r.e.obj with
    | string val => exact .kept hwf₀ hq hk hp fun _ _ => by simp only [Spec.strlen, Item.slot, ho, ArObj.abs]
    | hash h => exact .kept hwf₀ hq hk hp fun _ _ => by simp only [Spec.strlen, Item.slot, ho, ArObj.abs]
    | list l => exact .kept hwf₀ hq hk hp fun _ _ => by simp only [Spec.strlen, Item.slot, ho, ArObj.abs]
    | zset z => exact .kept hwf₀ hq hk hp fun _ _ => by simp only [Spec.strlen, Item.slot, ho, ArObj.abs]

theorem KeyStep.arExistsBin (hE : E.Frozen t) (hwf : c.WF) (key : Bytes) :
    KeyStep E t B W key Spec.exist c (c.arExistsBin E key) := by
  unfold ArCore.arExistsBin
  rcases find_cases (B := B) hE hwf key with ⟨hn, hev, h0, hp⟩ | ⟨r, hs, hq, hr, hk, hp⟩
  · simp only [hn]
    exact .missing hev h0 hp fun _ _ => rfl
  · simp only [hs]
    exact .kept hwf hq hk hp fun _ _ => rfl

/-! ## Writes -/

theorem KeyStep.arDelBin (hE : E.Frozen t) (hwf : c.WF) (key : Bytes) :
    KeyStep E t B W key Spec.del c (c.arDelBin E key) := by
  unfold ArCore.arDelBin
  rcases find_cases (B := B) hE hwf key with ⟨hn, hev, h0, hp⟩ | ⟨r, hs, hq, hr, hk, hp⟩
  · simp only [hn]
    exact .missing hev h0 hp fun _ _ => rfl
  · simp only [hs]
    subst hk
    have hl : Leaves t B W r.e.key none c _ := (Leaves.free (hq.wf hwf) hr).after (.of_quiet hq)
    exact .found hwf hp (hl.quiet (.count _ (fun s => { s with ops := s.ops + 1 }) (Nat.le_refl _))) (fun _ _ => rfl)
      fun _ _ _ i hi => by cases hi

/-- A string is what its slot says. -/
theorem obj_of_abs {o : ArObj} {val : Bytes} (h : o.abs = .string val) : o = .string val := by
  cases o with
  | string v => exact congrArg ArObj.string (AVal.string.inj h)
  | hash h' => cases h
  | list l => cases h
  | zset z => cases h

/-- **`APPEND`.** -/
theorem KeyStep.arAppend (hE : E.Frozen t) (hwf : c.WF) (key val : Bytes) :
    KeyStep E t B W key (Spec.append val) c (c.arAppend E key val) := by
  refine KeyStep.counted (g := fun s => { s with ops := s.ops + 1, sets := s.sets + 1 }) ?_ (Nat.le_refl _)
  have hwf₀ : c.countSet.WF := (Quiet.count c _ (Nat.le_refl _)).wf hwf
  unfold ArCore.arAppend
  show KeyStep E t B W key (Spec.append val) c.countSet _
  generalize c.countSet = c₀ at hwf₀ ⊢
  rcases find_cases (B := B) hE hwf₀ key with ⟨hn, hev, h0, hp⟩ | ⟨r, hs, hq, hr, hk, hp⟩
  · simp only [hn]
    have hwf' := hev.wf hwf₀
    have hp' : (c₀.arFindEntryEx E key).1.peek t key = none := (peek_find hE hwf₀ key).trans hp
    generalize (c₀.arFindEntryEx E key).1 = c₁ at hev h0 hwf' hp' ⊢
    obtain ⟨o, hl, hspec, hfull⟩ := KeyStep.arEntrySet (B := B) (W := W) hE hwf' key val
    rw [hp'] at hspec
    have hwf₂ := hl.ev.wf hwf'
    -- the answer is what the next lookup finds
    have hpeek : E.AllocOk → c₀.cfg.evict = .noop →
        ((c₁.arEntrySet E key val).1.peek t key).map Item.slot = some (.string val, 0) ∧
          (c₁.arEntrySet E key val).2 = true := by
      intro ha hno
      have := (KeyStep.arEntrySet (B := B) (W := W) hE hwf' key val).slot hwf' ha (hev.cfg ▸ hno)
      exact ⟨this.1.trans (by simp [Spec.set, Store.alive, Due, Option.filter]), this.2⟩
    have ho : ∀ {x : ArCore × Typed Nat}, Leaves t B W key o c₀ x.1 →
        (E.AllocOk → c₀.cfg.evict = .noop → x.2 = .found val.length) →
        KeyStep E t B W key (Spec.append val) c₀ x := by
      intro x hx hr
      refine ⟨o, hx, fun ha hno => ?_, fun hB ha hf => hfull hB ha (hf.evolves hev (by simp))⟩
      rw [hp]
      exact ⟨(hspec ha (hev.cfg ▸ hno)).1, hr ha hno⟩
    split
    · rename_i hf
      exact ho (hl.after hev) fun ha hno => by
        rw [(hpeek ha hno).2] at hf
        cases hf
    · rcases find_cases (B := B) hE hwf₂ key with ⟨hn, hev₂, -, hp₂⟩ | ⟨r, hs, hq, -, -, hp₂⟩
      · simp only [hn]
        exact ho ((hl.andThen hev₂).after hev) fun ha hno => by
          have := (hpeek ha hno).1
          rw [hp₂] at this
          cases this
      · simp only [hs]
        refine ho ((hl.quiet hq).after hev) fun ha hno => ?_
        have hsl := (hpeek ha hno).1
        rw [hp₂] at hsl
        have hobj : r.e.obj = .string val :=
          obj_of_abs (congrArg Prod.fst (Option.some.inj hsl))
        rw [hobj]
        rfl
  · simp only [hs]
    have hwf' := hq.wf hwf₀
    subst hk
    generalize (c₀.arFindEntryEx E r.e.key).1 = c₁ at hq hr hwf' ⊢
    split
    · rename_i old hobj
      by_cases hv : val.length = 0
      · rw [if_pos hv]
        refine .kept hwf₀ hq rfl hp fun _ _ => ?_
        rw [List.length_eq_zero_iff.1 hv]
        simp only [Spec.append, Item.slot, hobj, ArObj.abs, List.append_nil, List.length_nil,
          Nat.add_zero]
      · rw [if_neg hv]
        by_cases hm : (c₁.malloc E).2 = true
        · simp only [hm, Bool.not_true, Bool.false_eq_true, if_false]
          have hq₂ : Quiet c₁ (c₁.malloc E).1 := .malloc E c₁
          have hwf₂ := hq₂.wf hwf'
          have hr₂ : (c₁.malloc E).1.Holds r := hr
          have hqq := hq.trans hq₂
          generalize (c₁.malloc E).1 = c₂ at hqq hwf₂ hr₂ ⊢
          have hclock : (c₂.stats.noteBigkey .string (old ++ val).length).clock = c₂.stats.clock :=
            clock_noteBigkey ..
          generalize c₂.stats.noteBigkey .string (old ++ val).length = stats at hclock ⊢
          generalize hc₃ : ArCore.updEntry _ r.e.key _ = c₃
          have hput : Leaves t B {r.e.key} r.e.key
              (some { r.e.toItem with obj := .string (old ++ val) }) c₂ c₃ := by
            refine .put (f := fun e => { e with obj := .string (old ++ val),
                                                lastAccess := stats.clock + 1 })
              hwf₂ hr₂ (fun _ => rfl) trivial (by rw [← hc₃]; rfl) (fun s _ => ?_)
              (by rw [← hc₃]; rfl) (by rw [← hc₃]; rfl) (by rw [← hc₃]; rfl)
              (by rw [← hclock, ← hc₃]; exact Nat.le_succ _)
              (fun _ _ h => ⟨by rw [← hc₃]; exact Nat.le_refl _, h⟩)
            rw [← hc₃]
            have htot : Item.total { r.e.toItem with obj := .string (old ++ val) } =
                r.e.toItem.total + val.length := by
              simp only [Item.total, ArObj.payloadBytes, hobj, List.length_append]
              omega
            have := Posting.grow (B := B) (m := c₂.mem) (s := s)
              (i := r.e.toItem) (j := { r.e.toItem with obj := .string (old ++ val) })
              ⟨by rw [hobj]; rfl, rfl, rfl⟩ (.inl rfl) htot
            rw [show r.e.toItem.obj.type = .string from congrArg ArObj.type hobj] at this
            exact .post this
          have hr₃ : c₃.Holds (r.with
              { r.e with obj := .string (old ++ val), lastAccess := stats.clock + 1 }) := by
            refine holds_update (c := c₂) (f := fun e =>
              { e with obj := .string (old ++ val), lastAccess := stats.clock + 1 }) hr₂ ?_
            rw [← hc₃]
            rfl
          refine .found hwf₀ hp ((hput.after (.of_quiet hqq)).accessed hE (hput.ev.wf hwf₂) hr₃)
            (fun _ _ => ?_) fun _ _ _ i hi => ?_
          · simp only [Spec.append, Item.slot, hobj, ArObj.abs, List.length_append, Option.map_some]
          · cases hi
            trivial
        · rw [if_pos (by simpa using hm)]
          exact .kept hwf₀ (hq.trans (.malloc E c₁)) rfl hp fun ha _ => absurd (ha _) hm
    · rename_i hobj
      refine .kept hwf₀ hq rfl hp fun _ _ => ?_
      cases ho : r.e.obj with
      | string val => exact absurd ho (hobj val)
      | hash h => simp only [Spec.append, Item.slot, ho, ArObj.abs]
      | list l => simp only [Spec.append, Item.slot, ho, ArObj.abs]
      | zset z => simp only [Spec.append, Item.slot, ho, ArObj.abs]

/-- What counts keeps its deadline. -/
theorem deadline_of_integer {i : Item} {v : Int} {d : Nat}
    (h : Spec.integer (some i.slot) = some (v, d)) : i.expireAt = d := by
  unfold Spec.integer Item.slot at h
  cases ho : i.obj with
  | string val =>
    rw [ho] at h
    obtain ⟨n, -, hn⟩ := Option.map_eq_some_iff.1 h
    exact congrArg Prod.snd hn
  | hash _ | list _ | zset _ =>
    rw [ho] at h
    cases h

/-- **`INCR`** and its siblings. -/
theorem KeyStep.arIncr (hE : E.Frozen t) (hwf : c.WF) (key : Bytes) (delta : Int) :
    KeyStep E t B W key (Spec.incr delta) c (c.arIncr E key delta) := by
  refine KeyStep.counted (g := fun s => { s with ops := s.ops + 1, sets := s.sets + 1 }) ?_ (Nat.le_refl _)
  have hwf₀ : c.countSet.WF := (Quiet.count c _ (Nat.le_refl _)).wf hwf
  unfold ArCore.arIncr
  show KeyStep E t B W key (Spec.incr delta) c.countSet _
  generalize c.countSet = c₀ at hwf₀ ⊢
  have hev : Evolves t B ∅ ∅ c₀ (c₀.arFindEntryEx E key).1 :=
    (Expires.arFindEntryEx hE.until hwf₀ key).toEvolves
  have hpk := peek_find hE hwf₀ key
  have hwf' := hev.wf hwf₀
  -- what the lookup gives is the integer of the slot
  have hint : Spec.integer ((c₀.peek t key).map Item.slot) =
      ArCore.incrFrom (c₀.arFindEntryEx E key).2 := by
    rcases find_cases (B := B) hE hwf₀ key with ⟨hn, -, -, hp⟩ | ⟨r, hs, -, -, -, hp⟩
    · rw [hn, hp]
      rfl
    · rw [hs, hp]
      cases ho : r.e.obj <;>
        simp only [Option.map_some, Item.slot, ho, ArObj.abs, Spec.integer, ArCore.incrFrom]
  simp only
  split
  · rename_i hnone
    rw [hnone] at hint
    rcases find_cases (B := B) hE hwf₀ key with ⟨-, -, h0, hp⟩ | ⟨r, hs, hq, -, hk, hp⟩
    · exact .missing hev h0 hp fun _ _ => by
        rw [hp] at hint
        cases hint
    · refine .kept hwf₀ hq hk hp fun _ _ => ?_
      rw [hp] at hint
      unfold Spec.incr
      rw [show Spec.integer (some r.e.slot) = none from hint]
  · rename_i v d hsome
    rw [hsome] at hint
    have hask : B.Allows key (((c₀.peek t key).map Item.expireAt).getD 0) d := by
      cases hp : c₀.peek t key with
      | none =>
        rw [hp] at hint
        cases hint
        exact .zero
      | some i => exact .inr (.inl (deadline_of_integer (hp ▸ hint)).symm)
    refine (KeyStep.arEntrySetEx hE hwf' key (Decimal.ofInt (int64 (v + delta)))
      (by rwa [hpk])).transfer hev hpk rfl fun _ _ hb => ?_
    unfold Spec.incr
    rw [hint]
    refine ⟨rfl, ?_⟩
    simp only [hb]
    rfl

/-! ## RENAME -/

/-- The entry of one key gets the name of another that is not there. -/
theorem Evolves.rekey (hwf : c.WF) (hr : c.Holds r) {newkey : Bytes}
    (hno : ∀ i ∈ c.items, i.key ≠ newkey) (hB : B.asked = none) {d : Dict} {m n : Nat} (hclock : c.stats.clock ≤ m)
    (hd : d = (c.dict.unlink (c.dict.owner r.tier) r.bucket r.e.key).decTier r.tier)
    (hc' : c' = { c with
      dict := (d.link .hot { r.e with key := newkey, lastAccess := m }).incHot
      mem := c.mem.rekey r.e.obj.type r.e.key.length newkey.length
      stats := { c.stats with clock := m, sets := n } }) :
    Evolves t B {r.e.key, newkey} {r.e.key, newkey} c c' ∧
      c'.Has r.e.key none ∧ c'.Has newkey (some { r.e.toItem with key := newkey }) := by
  obtain ⟨s, he, hd', he'⟩ := hwf.dict.rename { r.e with key := newkey, lastAccess := m } hr
    (keys_ne_of_entries hno) hd rfl
  have hst : Stamps c c' := by
    refine ⟨by rw [hc']; exact hclock, fun hall e hm => ?_⟩
    rw [hc'] at hm ⊢
    rcases Multiset.mem_cons.1 (he' ▸ hm) with rfl | hm
    · exact ⟨Nat.le_refl _, (hall r.e (Dict.mem_entries_of_chain hr)).2⟩
    · have h := hall e (by rw [he]; exact Multiset.mem_cons_of_mem hm)
      exact ⟨h.1.trans hclock, h.2⟩
  have hi : c.items = r.e.toItem ::ₘ s.map (·.toItem) := by
    rw [ArCore.items, he, Multiset.map_cons]
  have hi' : c'.items = { r.e.toItem with key := newkey } ::ₘ s.map (·.toItem) := by
    rw [hc']
    show Multiset.map _ _ = _
    rw [he', Multiset.map_cons]
  generalize s.map (·.toItem) = s at hi hi'
  have hs : ∀ i ∈ s, i.key ≠ r.e.key := by
    obtain ⟨s', hs', hne⟩ := items_of_mem hwf (mem_items_of_holds hr)
    rw [hi] at hs'
    rw [(Multiset.cons_inj_right _).1 hs']
    exact hne
  have hw : c'.WF := by
    refine ⟨hc' ▸ hd', fun i hm => ?_⟩
    rw [hi'] at hm
    rcases Multiset.mem_cons.1 hm with rfl | hm
    · exact hwf.objs r.e.toItem (mem_items_of_holds hr)
    · exact hwf.objs i (by rw [hi]; exact Multiset.mem_cons_of_mem hm)
  have hne : newkey ≠ r.e.key := fun h => hno _ (mem_items_of_holds hr) h.symm
  refine ⟨.of_items (a := {r.e.toItem}) (b := {({ r.e.toItem with key := newkey } : Item)}) (s := s)
    (fun _ => hw) ?_ hi hi' ?_ ?_ (by rw [hc']) (by rw [hc']) (by rw [hc'])
    (by rw [hc', hd]; simp) hst, ?_, ?_⟩
  · rw [hc']
    exact .rekey (i := r.e.toItem) hB
  · intro i hm
    rw [Multiset.mem_singleton.1 hm]
    exact .inl rfl
  · intro i hm
    rw [Multiset.mem_singleton.1 hm]
    exact .inr rfl
  · rw [has_none_iff, hi']
    intro i hm
    rcases Multiset.mem_cons.1 hm with rfl | hm
    · exact hne
    · exact hs i hm
  · exact has_of_mem hw (i := { r.e.toItem with key := newkey })
      (by rw [hi']; exact Multiset.mem_cons_self _ _)

/-- The end of `ar_rename`, up to its eviction loop. -/
theorem renameEntry_room (hwf : c.WF) (hr : c.Holds r) {newkey : Bytes}
    (hno : ∀ i ∈ c.items, i.key ≠ newkey) (hB : B.asked = none) :
    ∃ c₁ c₀, c.renameEntry E r newkey = ((c₀.maybeEvict E).arWatchTouch r.e.key).arWatchTouch newkey ∧
      Evolves t B {r.e.key, newkey} {r.e.key, newkey} c c₁ ∧ c₁.Has r.e.key none ∧
      c₁.Has newkey (some { r.e.toItem with key := newkey }) ∧ Quiet c₁ c₀ := by
  obtain ⟨hev, hgone, hnew⟩ := Evolves.rekey (t := t) (B := B) (m := c.stats.clock + 1)
    (n := c.stats.sets + 1) hwf hr hno hB (Nat.le_succ _) rfl rfl
  unfold ArCore.renameEntry
  simp only
  generalize hc₁ : ({ c with
    dict := _, mem := _, stats := { c.stats with clock := _, sets := _ } } : ArCore) = c₁
    at hev hgone hnew
  generalize hc₂ : ArCore.mk (Dict.incHot _) _ _ _ _ _ _ = c₂
  obtain rfl : c₁ = c₂ := hc₁.symm.trans hc₂
  have hwf₁ := hev.wf hwf
  have hq₂ : Quiet c₁ ((c₁.onSet newkey).maybeDemoteHot E) :=
    (Quiet.onSet c₁ newkey).trans (.maybeDemoteHot E ((Quiet.onSet c₁ newkey).dict hwf₁.dict))
  exact ⟨c₁, _, rfl, hev, hgone, hnew, hq₂.trans (.arRehashIfNeeded E (hq₂.dict hwf₁.dict))⟩

/-- What the end of `ar_rename` does. -/
theorem renameEntry_spec (hE : E.Frozen t) (hwf : c.WF) (hr : c.Holds r) {newkey : Bytes}
    (hno : ∀ i ∈ c.items, i.key ≠ newkey) (hd : ¬Due t r.e.expireAt) (hB : B.asked = none) :
    Evolves t B {r.e.key, newkey} ∅ c (c.renameEntry E r newkey) ∧ (c.cfg.evict = .noop →
      (c.renameEntry E r newkey).view t =
        Function.update (Function.update (c.view t) r.e.key none) newkey (some r.e.slot)) ∧
      (c.AllFull → (c.renameEntry E r newkey).AllFull) := by
  obtain ⟨c₁, c₀, he, hev, hgone, hnew, hq⟩ := renameEntry_room (E := E) (t := t) (B := B) hwf hr hno hB
  rw [he]
  have hwf₁ := hev.wf hwf
  have hpost : Evolves t B ∅ ∅ c₁ (c₀.maybeEvict E) :=
    (Evolves.maybeEvict hE (hq.wf hwf₁)).after (.of_quiet hq)
  have hall := ((hev.andThen hpost).settle_diff r.e.key).settle_diff newkey
  refine ⟨hall.mono (fun _ h => h) ?_, fun hn => ?_, fun hfull => ?_⟩
  · rintro k ⟨⟨hk | hk, h₁⟩, h₂⟩
    · exact h₁ hk
    · exact h₂ hk
  · have hn₁ : c₁.cfg.evict = .noop := hev.cfg ▸ hn
    have hv : (((c₀.maybeEvict E).arWatchTouch r.e.key).arWatchTouch newkey).view t = c₁.view t :=
      ((hpost.andThen (.touch _ _)).andThen (.touch _ _)).view hwf₁ hn₁
    rw [hv]
    funext k
    unfold ArCore.view
    by_cases h₁ : k = newkey
    · subst h₁
      rw [Function.update_self, peek_of_has hwf₁ hnew, Option.filter_some_pos (by simpa using hd)]
      rfl
    · rw [Function.update_of_ne h₁]
      by_cases h₂ : k = r.e.key
      · subst h₂
        rw [Function.update_self, peek_of_has hwf₁ hgone]
        rfl
      · rw [Function.update_of_ne h₂, hev.peek hwf hn (by
          rintro (h | h)
          · exact h₂ h
          · exact h₁ h)]
  · have hfull₁ : c₁.AllFull := by
      intro k
      by_cases h₁ : k = newkey
      · subst h₁
        refine .of_has hnew fun i hi => ?_
        cases hi
        exact hfull r.e.key r.e.toItem (Multiset.mem_filter.2 ⟨mem_items_of_holds hr, rfl⟩)
      · by_cases h₂ : k = r.e.key
        · subst h₂
          exact .of_has hgone fun i hi => by cases hi
        · exact (hfull k).evolves hev fun h => h.elim h₂ h₁
    exact hfull₁.evolves ((hpost.andThen (.touch _ r.e.key)).andThen (.touch _ newkey))

/-- **`RENAME`.** -/
theorem arRename_spec (hE : E.Frozen t) (hwf : c.WF) (key newkey : Bytes) (nx : Bool) (hB : B.asked = none) :
    let x := c.arRename E key newkey nx
    Evolves t B {key, newkey} ∅ c x.1 ∧ (E.AllocOk → c.cfg.evict = .noop →
      (x.1.view t, x.2) = Spec.rename key newkey nx (c.view t)) ∧ (c.AllFull → x.1.AllFull) := by
  intro x
  show Evolves t B {key, newkey} ∅ c x.1 ∧ _
  unfold x ArCore.arRename
  have hq₀ : Quiet c (c.count fun s => { s with ops := s.ops + 1 }) := .count c _ (Nat.le_refl _)
  have hv₀ : (c.count fun s => { s with ops := s.ops + 1 }).view t = c.view t := rfl
  have hwf₀ := hq₀.wf hwf
  simp only
  rw [← hv₀]
  generalize (c.count fun s => { s with ops := s.ops + 1 }) = c₀ at hq₀ hwf₀ ⊢
  -- what comes of a state in which nothing of its own has happened
  have hsame : ∀ {c' : ArCore} {n : Int}, Evolves t B ∅ ∅ c₀ c' →
      (E.AllocOk → c.cfg.evict = .noop → Spec.rename key newkey nx (c₀.view t) = (c₀.view t, n)) →
      Evolves t B {key, newkey} ∅ c c' ∧ (E.AllocOk → c.cfg.evict = .noop →
        (c'.view t, n) = Spec.rename key newkey nx (c₀.view t)) ∧ (c.AllFull → c'.AllFull) := by
    intro c' n hev hs
    have hev' := hev.after (.of_quiet hq₀)
    refine ⟨hev'.mono (Set.empty_subset _) (Set.empty_subset _), fun ha hno => ?_, fun hf => hf.evolves hev'⟩
    rw [hev.view hwf₀ (hq₀.cfg ▸ hno), hs ha hno]
  rcases find_cases (B := B) hE hwf₀ key with ⟨hn, hev, -, hp⟩ | ⟨r, hs, hq₁, hr, hk, hp⟩
  · simp only [hn]
    refine hsame hev fun _ _ => ?_
    unfold Spec.rename ArCore.view
    rw [hp]
    rfl
  · simp only [hs]
    subst hk
    have hslot : c₀.view t r.e.key = some r.e.slot := by
      unfold ArCore.view
      rw [hp]
      rfl
    have hd := ((peek_eq_some_iff hwf₀).1 hp).2.2
    have hwf₁ := hq₁.wf hwf₀
    have hev₁ : Evolves t B ∅ ∅ c₀ (c₀.arFindEntryEx E r.e.key).1 := .of_quiet hq₁
    generalize (c₀.arFindEntryEx E r.e.key).1 = c₁ at hq₁ hr hwf₁ hev₁ ⊢
    by_cases hkey : r.e.key = newkey
    · rw [if_pos hkey]
      refine hsame hev₁ fun _ _ => ?_
      unfold Spec.rename
      rw [hslot]
      simp only [hkey, if_true]
    · rw [if_neg hkey]
      have hr₂ : (c₁.arFindEntryEx E newkey).1.Holds r := holds_find hE.until hwf₁ hr hkey
      have hev₂ : Evolves t B ∅ ∅ c₁ (c₁.arFindEntryEx E newkey).1 :=
        (Expires.arFindEntryEx hE.until hwf₁ newkey).toEvolves
      have hwf₂ := hev₂.wf hwf₁
      have hpk : c₁.peek t newkey = c₀.peek t newkey := by
        apply Option.ext
        intro i
        rw [peek_eq_some_iff hwf₁, peek_eq_some_iff hwf₀, hq₁.items]
      have hisSome : (c₀.view t newkey).isSome = (c₁.arFindEntryEx E newkey).2.isSome := by
        unfold ArCore.view
        rw [← hpk, Option.isSome_map]
        rcases find_cases (B := B) hE hwf₁ newkey with ⟨hn, -, -, hp⟩ | ⟨r', hs, -, -, -, hp⟩
        · rw [hn, hp]
          rfl
        · rw [hs, hp]
          rfl
      have hevm : Evolves t B ∅ ∅ c₀ ((c₁.arFindEntryEx E newkey).1.malloc E).1 :=
        (hev₁.andThen hev₂).quiet (.malloc E _)
      split
      · rename_i hnx
        refine hsame (hev₁.andThen hev₂) fun _ _ => ?_
        unfold Spec.rename
        rw [hslot]
        simp only [if_neg hkey, hisSome, hnx, if_true]
      · rename_i hnx
        split
        · rename_i hm
          refine hsame hevm fun ha _ => ?_
          rw [malloc_ok ha] at hm
          cases hm
        · -- the destination goes, then the entry takes its name
          have hwfm : ((c₁.arFindEntryEx E newkey).1.malloc E).1.WF := (Quiet.malloc E _).wf hwf₂
          have hrm : ((c₁.arFindEntryEx E newkey).1.malloc E).1.Holds r := hr₂
          have hdone : ∀ c₃ : ArCore, Evolves t B {r.e.key, newkey} ∅ c₀ c₃ → c₃.Holds r →
              c₃.Has newkey none →
              (c.cfg.evict = .noop → ∀ k, k ≠ newkey → c₃.peek t k = c₀.peek t k) →
              (c₀.AllFull → c₃.AllFull) →
              Evolves t B {r.e.key, newkey} ∅ c (c₃.renameEntry E r newkey) ∧
                (E.AllocOk → c.cfg.evict = .noop → ((c₃.renameEntry E r newkey).view t, 1) =
                  Spec.rename r.e.key newkey nx (c₀.view t)) ∧
                (c.AllFull → (c₃.renameEntry E r newkey).AllFull) := by
            intro c₃ hev₃ hr₃ hno hpeek hfull₃
            obtain ⟨hevr, hvr, hfr⟩ := renameEntry_spec (B := B) hE (hev₃.wf hwf₀) hr₃
              (has_none_iff.1 hno) hd hB
            refine ⟨(hev₃.comp hevr).after (.of_quiet hq₀), fun _ hn => ?_,
              fun hf => hfr (hfull₃ (hf.evolves (.of_quiet (t := t) (B := B) hq₀)))⟩
            rw [hvr (hev₃.cfg ▸ hq₀.cfg ▸ hn)]
            unfold Spec.rename
            rw [hslot]
            simp only [if_neg hkey, hisSome, hnx, Bool.false_eq_true, if_false]
            congr 1
            funext k
            by_cases hk : k = newkey
            · subst hk
              rw [Function.update_self, Function.update_self]
            · rw [Function.update_of_ne hk, Function.update_of_ne hk]
              by_cases hk' : k = r.e.key
              · subst hk'
                rw [Function.update_self, Function.update_self]
              · rw [Function.update_of_ne hk', Function.update_of_ne hk']
                unfold ArCore.view
                rw [hpeek hn k hk]
          have hpm : c.cfg.evict = .noop → ∀ k,
              ((c₁.arFindEntryEx E newkey).1.malloc E).1.peek t k = c₀.peek t k := fun hn k =>
            hevm.peek hwf₀ (hq₀.cfg ▸ hn) (Set.notMem_empty k)
          rcases find_cases (B := B) hE hwf₁ newkey with
            ⟨hn, -, h0, -⟩ | ⟨dest, hs, -, hrd, hkd, -⟩
          · simp only [hn]
            exact hdone _ (hevm.mono (Set.empty_subset _) (Set.empty_subset _)) hrm h0
              (fun hno k _ => hpm hno k) fun hf => hf.evolves hevm
          · simp only [hs]
            have hrd : ((c₁.arFindEntryEx E newkey).1.malloc E).1.Holds dest := hrd
            generalize ((c₁.arFindEntryEx E newkey).1.malloc E).1 = c₂ at hevm hwfm hrm hrd hpm
            have hfree : Evolves t B {newkey} ∅ c₂ (c₂.arEntryFreeEx dest.bucket dest.tier dest.e) :=
              hkd ▸ Evolves.free hwfm hrd
            have hgone : (c₂.arEntryFreeEx dest.bucket dest.tier dest.e).Has newkey none :=
              hkd ▸ has_none_iff.2 (free_key_notMem hwfm hrd)
            refine hdone _ ((hevm.trans hfree).mono (by simp) (by simp)) ?_ hgone (fun hno k hk => ?_)
              fun hf k => ?_
            · exact holds_free hrd hrm (by rw [hkd]; exact hkey)
            · rw [hfree.peek hwfm (hevm.cfg ▸ hq₀.cfg ▸ hno) hk, hpm hno k]
            · by_cases hk : k = newkey
              · rw [hk]
                exact .of_has hgone fun i hi => by cases hi
              · exact (hf.evolves hevm k).evolves hfree hk

/-! ## FLUSHDB -/

theorem allFull_arFlushdb (hwf : c.WF) : c.arFlushdb.AllFull := by
  have hi : c.arFlushdb.items = 0 := by
    obtain ⟨hd, he⟩ := hwf.dict.flush rfl
    show Multiset.map _ _ = _
    rw [show c.arFlushdb.dict.entries = 0 from he, Multiset.map_zero]
  intro k i hm
  rw [ArCore.itemsAt, hi] at hm
  exact absurd hm (Multiset.notMem_zero i)

/-- **`FLUSHDB`.** -/
theorem Evolves.arFlushdb (hwf : c.WF) (hB : B.flush) : Evolves t B Set.univ ∅ c c.arFlushdb := by
  obtain ⟨hd, he⟩ := hwf.dict.flush rfl
  have hi : c.arFlushdb.items = 0 := by
    show Multiset.map _ _ = _
    rw [show c.arFlushdb.dict.entries = 0 from he, Multiset.map_zero]
  refine ⟨fun _ => ⟨hd, fun i hm => ?_⟩, ?_, fun k hk => absurd (Set.mem_univ k) hk,
    fun k _ => .inr ?_, ConnsTouched.map (fun a => a.touched_watchTouchAll) _, rfl, rfl,
    (List.length_replicate ..).ge, fun _ => .of_entries (Nat.le_refl _) fun e hm => ?_⟩
  · rw [hi] at hm
    exact absurd hm (Multiset.notMem_zero i)
  · rw [ArCore.ledger, ArCore.ledger, hi]
    exact .post (.flush hB)
  · exact dirtied_watchTouchAll _ k
  · rw [show c.arFlushdb.dict.entries = 0 from he] at hm
    exact absurd hm (Multiset.notMem_zero e)

theorem view_arFlushdb (hwf : c.WF) : c.arFlushdb.view t = fun _ => none := by
  obtain ⟨hd, he⟩ := hwf.dict.flush rfl
  funext k
  unfold ArCore.view ArCore.peek
  have hz : c.arFlushdb.dict.linked = [] := by
    apply List.eq_nil_iff_forall_not_mem.2
    intro e hm
    have : e ∈ c.arFlushdb.dict.entries := mem_linked.1 hm
    rw [show c.arFlushdb.dict.entries = 0 from he] at this
    exact Multiset.notMem_zero e this
  rw [hz]
  rfl

end

end AuraRedis
