import AuraRedis.Core.Proof.Typed

/-!
# What the operations on containers mean

Each operation of `Core.Typed` is a `KeyStep` of its meaning. `KeyStep.typed` and `KeyStep.getOrCreate` are
the two ways in; three operations need a proviso. `LREM` keeps the accounting exact unless it takes the
last element of a list (`LremEmpties`). `HINCRBY` and `ZADD` tell the watchers of the key unless they
stop half way: `HINCRBY` without memory, `ZADD` on a set it has created for more members than a set may
have.
-/

set_option autoImplicit false

namespace AuraRedis

open ArCore (Typed)

section
variable {E : Env} {t : Nat} {B : Terms} {W : Set Bytes} {c c' : ArCore} {key : Bytes}

/-! ## Ways in -/

theorem exists_has (hwf : c.WF) (key : Bytes) : ∃ o, c.Has key o := by
  by_cases h : ∃ i ∈ c.items, i.key = key
  · obtain ⟨i, hi, rfl⟩ := h
    exact ⟨some i, has_of_mem hwf hi⟩
  · exact ⟨none, has_none_iff.2 fun i hi hk => h ⟨i, hi, hk⟩⟩

theorem alive_alive (t : Nat) (s : Option Slot) : Store.alive t (Store.alive t s) = Store.alive t s := by
  unfold Store.alive
  rw [Option.filter_filter]
  simp

/-- An operation that does not look at its key. -/
theorem KeyStep.idle {β : Type} {f : Option Slot → Option Slot × β} {b : β} (hwf : c.WF)
    (hf : ∀ s, f s = (s, b)) : KeyStep E t B W key f c (c, b) := by
  obtain ⟨o, ho⟩ := exists_has hwf key
  refine ⟨o, .of_evolves (.refl c) ho, fun _ _ => ?_, fun _ _ hfull i hi => hfull i ?_⟩
  · rw [hf]
    refine ⟨?_, rfl⟩
    show _ = Store.alive t ((c.peek t key).map Item.slot)
    rw [peek_of_has hwf ho, filter_slot, alive_alive]
  · rw [show c.itemsAt key = o.elim 0 ({·}) from ho, Option.mem_def.1 hi]
    exact Multiset.mem_singleton_self i

/-- An operation on an entry of a type. -/
theorem KeyStep.typed {β : Type} {f : Option Slot → Option Slot × β} {x : ArCore × β}
    (hE : E.Frozen t) (hwf : c.WF) (key : Bytes) (want : ArType) (hkeeps : B.fills → KeepsFull f)
    (hmissing : (c.arEntryGetTyped E key want).2 = .missing →
      x.1 = (c.arEntryGetTyped E key want).1 ∧ f none = (none, x.2))
    (hwrong : ∀ r : Ref, (c.arEntryGetTyped E key want).2 = .wrongType → r.e.obj.type ≠ want →
      x.1 = (c.arEntryGetTyped E key want).1 ∧ f (some r.e.slot) = (some r.e.slot, x.2))
    (hfound : ∀ r : Ref, (c.arEntryGetTyped E key want).2 = .found r →
      (c.arEntryGetTyped E key want).1.WF → (c.arEntryGetTyped E key want).1.Holds r → r.e.key = key →
      r.e.obj.type = want → c.peek t key = some r.e.toItem → ∃ o, Leaves t B W key o (c.arEntryGetTyped E key want).1 x.1 ∧
        (E.AllocOk → f (some r.e.slot) = (o.map Item.slot, x.2))) :
    KeyStep E t B W key f c x := by
  rcases typed_cases (B := B) hE hwf key want with
    ⟨hg, hev, h0, hp⟩ | ⟨r, hg, hq, hk, hp, ht⟩ | ⟨r, hg, hq, hr, hk, hp, ht⟩
  · obtain ⟨hx, hf⟩ := hmissing hg
    exact .missing (hx ▸ hev) (hx ▸ h0) hp fun _ _ => hf
  · obtain ⟨hx, hf⟩ := hwrong r hg ht
    exact .kept hwf (hx ▸ hq) hk hp fun _ _ => hf
  · obtain ⟨o, hl, hf⟩ := hfound r hg (hq.wf hwf) hr hk ht hp
    exact .found hwf hp (hl.after (.of_quiet hq)) (fun ha _ => hf ha) fun hB ha hr =>
      (hkeeps hB).item (slotFull_some hr) (hf ha)

/-- The watchers of the key know. -/
theorem Leaves.told {o : Option Item} (h : Leaves t B {key} key o c c') (hd : c'.Dirtied key) :
    Leaves t B W key o c c' := by
  refine ⟨(h.ev.of_dirtied fun k hk => ?_).mono (fun _ h => h) (Set.empty_subset W), h.now⟩
  rw [Set.mem_singleton_iff.1 hk]
  exact hd

/-- An operation on an entry of a type that is created when it is missing. -/
theorem KeyStep.getOrCreate {β : Type} {f : Option Slot → Option Slot × β} {x : ArCore × β}
    (hE : E.Frozen t) (hwf : c.WF) (key : Bytes) (type : ArType) (hkeeps : B.fills → KeepsFull f)
    (hnone : f none = f (some (type.empty.abs, 0)))
    (hmissing : (c.arEntryGetOrCreate E key type).2 = .missing →
      x.1 = (c.arEntryGetOrCreate E key type).1)
    (hwrong : ∀ r : Ref, (c.arEntryGetOrCreate E key type).2 = .wrongType → r.e.obj.type ≠ type →
      x.1 = (c.arEntryGetOrCreate E key type).1 ∧ f (some r.e.slot) = (some r.e.slot, x.2))
    (hfound : ∀ r : Ref, (c.arEntryGetOrCreate E key type).2 = .found r →
      (c.arEntryGetOrCreate E key type).1.WF → (c.arEntryGetOrCreate E key type).1.Holds r →
      r.e.key = key → r.e.obj.type = type →
      (∃ o, Leaves t B {key} key o (c.arEntryGetOrCreate E key type).1 x.1 ∧
        (key ∈ W ∨ x.1.Dirtied key) ∧
        (E.AllocOk → f (some r.e.slot) = (o.map Item.slot, x.2))) ∨
      (Quiet (c.arEntryGetOrCreate E key type).1 x.1 ∧ r.e.obj ≠ type.empty ∧
        (E.AllocOk → f (some r.e.slot) = (some r.e.slot, x.2)))) :
    KeyStep E t B W key f c x := by
  rcases create_cases (B := B) (W := W) hE hwf key type with
    ⟨hg, hl, hno⟩ | ⟨r, hg, hq, hk, hp, ht⟩ | ⟨r, hg, hwf', hr, hk, ht, hold⟩
  · exact ⟨none, hmissing hg ▸ hl, fun ha hn => absurd hn (hno ha), fun _ _ _ i hi => by cases hi⟩
  · obtain ⟨hx, hf⟩ := hwrong r hg ht
    exact .kept hwf (hx ▸ hq) hk hp fun _ _ => hf
  · rcases hfound r hg hwf' hr hk ht with ⟨o, hl, htold, hf⟩ | ⟨hq', hne, hf⟩
    · have hfin : Leaves t B {key} key o c x.1 := by
        rcases hold with ⟨hq, -⟩ | ⟨hnew, -, -⟩
        · exact hl.after (.of_quiet hq)
        · exact hnew.trans hl
      have hfin : Leaves t B W key o c x.1 := by
        rcases htold with hW | hd
        · exact hfin.mono (Set.singleton_subset_iff.2 hW)
        · exact hfin.told hd
      rcases hold with ⟨-, hp⟩ | ⟨-, hp, hi⟩
      · exact .found hwf hp hfin (fun ha _ => hf ha) fun hB ha hr =>
          (hkeeps hB).item (slotFull_some hr) (hf ha)
      · have hf' : E.AllocOk → f none = (o.map Item.slot, x.2) := by
          intro ha
          have hs : r.e.slot = (type.empty.abs, 0) := by rw [hi]; rfl
          rw [hnone, ← hs]
          exact hf ha
        exact .created hp hfin (fun ha _ => hf' ha) fun hB ha => (hkeeps hB).item slotFull_none (hf' ha)
    · rcases hold with ⟨hq, hp⟩ | ⟨-, -, hi⟩
      · exact .kept hwf (hq.trans hq') hk hp fun ha _ => hf ha
      · exact absurd (congrArg Item.obj hi) hne

/-- Nothing happened after the lookup. -/
theorem Leaves.same {r : Ref} (hwf : c.WF) (hr : c.Holds r) (hk : r.e.key = key) (h : Quiet c c') :
    Leaves t B W key (some r.e.toItem) c c' := by
  refine .of_evolves (.of_quiet h) ?_
  subst hk
  exact has_of_mem (h.wf hwf) (i := r.e.toItem) (by rw [h.items]; exact mem_items_of_holds hr)

/-! ## Reads -/

/-- A read of a hash. -/
theorem KeyStep.readHash {α : Type} (hE : E.Frozen t) (hwf : c.WF) (key : Bytes) {f : ArHash → α}
    {F : FieldMap → Typed α} (hf : ∀ h : ArHash, h.WF → F h.fields = .found (f h)) :
    KeyStep E t B W key (Spec.readHash F) c (c.readHash E key f) := by
  unfold ArCore.readHash
  refine .typed hE hwf key .hash (fun _ => .of_read fun _ => rfl) (fun hg => ?_) (fun r hg ht => ?_) fun r hg hwf' hr hk ht _ => ?_
  · simp only [hg]
    exact ⟨trivial, rfl⟩
  · simp only [hg, Spec.readHash, Item.slot]
    cases ho : r.e.obj with
    | hash h => exact absurd (congrArg ArObj.type ho) ht
    | string _ | list _ | zset _ => exact ⟨trivial, rfl⟩
  · cases ho : r.e.obj with
    | hash h =>
      have hw : h.WF := by
        have := hwf'.objs r.e.toItem (mem_items_of_holds hr)
        rwa [show r.e.toItem.obj = .hash h from ho] at this
      simp only [hg, ho]
      refine ⟨_, .same hwf' hr hk (.refl _), fun _ => ?_⟩
      simp only [Spec.readHash, Item.slot, ho, ArObj.abs, hf h hw, Option.map_some]
    | string _ | list _ | zset _ => exact absurd ht (by rw [ho]; exact fun h => by cases h)

/-- A read of a list. -/
theorem KeyStep.readList {α : Type} (hE : E.Frozen t) (hwf : c.WF) (key : Bytes) (f : List Bytes → α) :
    KeyStep E t B W key (Spec.readList fun l => .found (f l)) c (c.readList E key f) := by
  unfold ArCore.readList
  refine .typed hE hwf key .list (fun _ => .of_read fun _ => rfl) (fun hg => ?_) (fun r hg ht => ?_) fun r hg hwf' hr hk ht _ => ?_
  · simp only [hg]
    exact ⟨trivial, rfl⟩
  · simp only [hg, Spec.readList, Item.slot]
    cases ho : r.e.obj with
    | list l => exact absurd (congrArg ArObj.type ho) ht
    | string _ | hash _ | zset _ => exact ⟨trivial, rfl⟩
  · cases ho : r.e.obj with
    | list l =>
      simp only [hg, ho]
      refine ⟨_, .same hwf' hr hk (.refl _), fun _ => ?_⟩
      simp only [Spec.readList, Item.slot, ho, ArObj.abs, Option.map_some]
    | string _ | hash _ | zset _ => exact absurd ht (by rw [ho]; exact fun h => by cases h)

/-- A read of a sorted set. -/
theorem KeyStep.readZset {α : Type} (hE : E.Frozen t) (hwf : c.WF) (key : Bytes)
    (f : List ArZNode → α) :
    KeyStep E t B W key (Spec.readZset fun arr => .found (f arr)) c
      (c.readZset E key fun z => f z.arr) := by
  unfold ArCore.readZset
  refine .typed hE hwf key .zset (fun _ => .of_read fun _ => rfl) (fun hg => ?_) (fun r hg ht => ?_) fun r hg hwf' hr hk ht _ => ?_
  · simp only [hg]
    exact ⟨trivial, rfl⟩
  · simp only [hg, Spec.readZset, Item.slot]
    cases ho : r.e.obj with
    | zset z => exact absurd (congrArg ArObj.type ho) ht
    | string _ | hash _ | list _ => exact ⟨trivial, rfl⟩
  · cases ho : r.e.obj with
    | zset z =>
      simp only [hg, ho]
      refine ⟨_, .same hwf' hr hk (.refl _), fun _ => ?_⟩
      simp only [Spec.readZset, Item.slot, ho, ArObj.abs, Option.map_some]
    | string _ | hash _ | list _ => exact absurd ht (by rw [ho]; exact fun h => by cases h)

/-- A read goes on with its answer. -/
theorem KeyStep.then {β γ : Type} {f : Option Slot → Option Slot × β} {g : Option Slot → Option Slot × γ}
    {y : ArCore × β} {x : ArCore × γ} (h : KeyStep E t B W key f c y) (hq : Quiet y.1 x.1) (φ : β → γ)
    (hx : E.AllocOk → x.2 = φ y.2) (hg : ∀ s, g s = ((f s).1, φ (f s).2)) :
    KeyStep E t B W key g c x := by
  obtain ⟨o, hl, hf, hfull⟩ := h
  refine ⟨o, hl.quiet hq, fun ha hn => ?_, hfull⟩
  obtain ⟨hs, hb⟩ := hf ha hn
  rw [hg, hx ha, hb]
  exact ⟨hs, rfl⟩

/-- The answer of a read that may find nothing where it looks. -/
def Typed.join {α : Type} : Typed (Option α) → Typed α
  | .found (some a) => .found a
  | .found none => .missing
  | .missing => .missing
  | .wrongType => .wrongType

theorem join_found {α : Type} (o : Option α) :
    Typed.join (.found o) = (o.map .found).getD .missing := by cases o <;> rfl

theorem KeyStep.arHashHexists (hE : E.Frozen t) (hwf : c.WF) (key field : Bytes) :
    KeyStep E t B W key (Spec.hexists field) c (c.arHashHexists E key field) :=
  .readHash hE hwf key fun h hw => by rw [hw.lookup_fields]

theorem KeyStep.arHashHlen (hE : E.Frozen t) (hwf : c.WF) (key : Bytes) :
    KeyStep E t B W key Spec.hlen c (c.arHashHlen E key) :=
  .readHash hE hwf key fun h hw => by rw [hw.card_fields]

theorem KeyStep.arHashHget (hE : E.Frozen t) (hwf : c.WF) (key field : Bytes) :
    KeyStep E t B W key (Spec.hget field) c (c.arHashHget E key field) := by
  have hread : KeyStep E t B W key (Spec.readHash fun m => .found (m.lookup field)) c
      (c.readHash E key fun h => h.find field) :=
    .readHash hE hwf key fun h hw => by rw [hw.lookup_fields]
  refine hread.then ?_ Typed.join (fun ha => ?_) fun s => ?_
  · unfold ArCore.arHashHget ArCore.readHash
    simp only
    split
    · exact .refl _
    · exact .refl _
    · split
      · split
        · exact .refl _
        · exact .malloc E _
      · exact .refl _
  · unfold ArCore.arHashHget ArCore.readHash
    simp only
    split
    · rfl
    · rfl
    · split
      · split
        · rename_i hf
          rw [hf]
          rfl
        · rename_i hf
          rw [hf, malloc_ok ha]
          rfl
      · rfl
  · unfold Spec.hget Spec.readHash
    rcases s with _ | ⟨v, d⟩
    · rfl
    · cases v with
      | hash m =>
        exact congrArg (Prod.mk _) (join_found (m.lookup field)).symm
      | string _ | list _ | zset _ => rfl

theorem KeyStep.arListLlen (hE : E.Frozen t) (hwf : c.WF) (key : Bytes) :
    KeyStep E t B W key Spec.llen c (c.arListLlen E key) := .readList hE hwf key _

theorem KeyStep.arListGet (hE : E.Frozen t) (hwf : c.WF) (key : Bytes) :
    KeyStep E t B W key Spec.lget c (c.arListGet E key) := .readList hE hwf key _

theorem KeyStep.arListLindex (hE : E.Frozen t) (hwf : c.WF) (key : Bytes) (index : Int) :
    KeyStep E t B W key (Spec.lindex index) c (c.arListLindex E key index) := by
  refine (KeyStep.readList hE hwf key fun l => ArCore.listIndex l index).then ?_ Typed.join
    (fun ha => ?_) fun s => ?_
  · unfold ArCore.arListLindex
    simp only
    split
    · exact .malloc E _
    · exact .refl _
    · exact .refl _
    · exact .refl _
  · unfold ArCore.arListLindex
    simp only [malloc_ok ha, if_true]
    split
    · rename_i hg
      rw [hg]
      rfl
    · rename_i hg
      rw [hg]
      rfl
    · rename_i hg
      rw [hg]
      rfl
    · rename_i hg
      rw [hg]
      rfl
  · unfold Spec.lindex Spec.readList
    rcases s with _ | ⟨v, d⟩
    · rfl
    · cases v with
      | list l =>
        exact congrArg (Prod.mk _) (join_found (ArCore.listIndex l index)).symm
      | string _ | hash _ | zset _ => rfl

theorem KeyStep.arZsetZcard (hE : E.Frozen t) (hwf : c.WF) (key : Bytes) :
    KeyStep E t B W key Spec.zcard c (c.arZsetZcard E key) := .readZset hE hwf key _

theorem KeyStep.arZsetZscore (hE : E.Frozen t) (hwf : c.WF) (key member : Bytes) :
    KeyStep E t B W key (Spec.zscore member) c (c.arZsetZscore E key member) := by
  refine (KeyStep.readZset hE hwf key fun arr => Spec.member? arr member).then ?_
    (fun a => Typed.join (match a with
      | .found n => .found (n.map ArZNode.score)
      | .missing => .missing
      | .wrongType => .wrongType)) (fun ha => ?_) fun s => ?_
  · unfold ArCore.arZsetZscore
    simp only
    split
    · exact .malloc E _
    · exact .refl _
    · exact .refl _
    · exact .refl _
  · unfold ArCore.arZsetZscore
    simp only [malloc_ok ha, if_true]
    split
    · rename_i hg
      rw [show (c.readZset E key fun z => Spec.member? z.arr member).2 = _ from hg]
      rfl
    · rename_i hg
      rw [show (c.readZset E key fun z => Spec.member? z.arr member).2 = _ from hg]
      rfl
    · rename_i hg
      rw [show (c.readZset E key fun z => Spec.member? z.arr member).2 = _ from hg]
      rfl
    · rename_i hg
      rw [show (c.readZset E key fun z => Spec.member? z.arr member).2 = _ from hg]
      rfl
  · unfold Spec.zscore Spec.readZset
    rcases s with _ | ⟨v, d⟩
    · rfl
    · cases v with
      | zset arr =>
        refine congrArg (Prod.mk _) (Eq.trans ?_ (join_found _).symm)
        rw [Option.map_map]
        rfl
      | string _ | hash _ | list _ => rfl

/-! ## Ends of a write -/

/-- Value and deadline are as they were. -/
theorem Leaves.unchanged {r : Ref} {i : Item} (h : Leaves t B {key} key (some i) c c')
    (hh : c'.Has key (some i)) (hwf : c.WF) (hr : c.Holds r) (hk : r.e.key = key)
    (hobj : i.obj = r.e.obj) (hexp : i.expireAt = r.e.expireAt) : Leaves t B W key (some i) c c' := by
  have hat : c'.stored key = c.stored key := by
    subst hk
    rw [ArCore.stored, ArCore.stored, show c'.itemsAt r.e.key = {i} from hh,
      show c.itemsAt r.e.key = {r.e.toItem} from itemsAt_of_mem hwf (mem_items_of_holds hr),
      Multiset.map_singleton, Multiset.map_singleton, hobj, hexp]
  refine ⟨{ h.ev with watch := fun k hk => ?_ }, h.now⟩
  by_cases he : k = key
  · exact .inl (he ▸ hat)
  · exact h.ev.watch k he

/-- An access is noted. -/
theorem Quiet.access (c : ArCore) (key : Bytes) :
    Quiet c ((c.count fun s => { s with clock := c.stats.clock + 1 }).updEntry key fun e =>
      { e with lastAccess := c.stats.clock + 1 }) :=
  (Quiet.count c _ (Nat.le_succ _)).trans (.updEntry _ _ (fun _ => rfl) fun _ _ h => ⟨Nat.le_refl _, h⟩)

theorem dirtied_writeBack (c : ArCore) (r : Ref) (obj : ArObj) :
    (c.writeBack E r obj).Dirtied r.e.key := dirtied_watchTouch _ _

/-! ## HASH -/

theorem hash_wf (hwf : c.WF) {r : Ref} (hr : c.Holds r) {h : ArHash} (ho : r.e.obj = .hash h) :
    h.WF := by
  have := hwf.objs r.e.toItem (mem_items_of_holds hr)
  rwa [show r.e.toItem.obj = .hash h from ho] at this

/-- **`HSET`.** -/
theorem KeyStep.arHashHset (hE : E.Frozen t) (hwf : c.WF) (key : Bytes)
    (pairs : List (Bytes × Bytes)) :
    KeyStep E t B W key (Spec.hset pairs) c (c.arHashHset E key pairs) := by
  unfold ArCore.arHashHset
  by_cases hp : pairs.isEmpty = true
  · rw [if_pos hp]
    exact .idle hwf fun s => by rw [Spec.hset, if_pos hp]
  · rw [if_neg hp]
    refine .getOrCreate hE hwf key .hash (fun _ => keepsFull_hset pairs) ?_ (fun hg => ?_) (fun r hg ht => ?_)
      fun r hg hwf' hr hk ht => ?_
    · rw [Spec.hset, if_neg hp, Spec.hset, if_neg hp]
      rfl
    · simp only [hg]
    · simp only [hg, Spec.hset, hp, Item.slot]
      cases ho : r.e.obj with
      | hash h => exact absurd (congrArg ArObj.type ho) ht
      | string _ | list _ | zset _ => exact ⟨trivial, rfl⟩
    · cases ho : r.e.obj with
      | hash h =>
        simp only [hg, ho]
        obtain ⟨hs, hw, hf⟩ := hsetFields_spec (E := E) (c := (c.arEntryGetOrCreate E key .hash).1)
          pairs (hash_wf hwf' hr ho) 0
        subst hk
        have hl := Leaves.writeBack (t := t) (B := B) (W := {r.e.key}) hE (hs.quiet.wf hwf') (hs.holds hr)
          (show ArObj.WF (.hash _) from hw) (by rw [ho]; rfl)
        refine .inl ⟨_, hl.after (.of_quiet hs.quiet), .inr (dirtied_writeBack _ r _), fun ha => ?_⟩
        have := hf ha
        simp only [Spec.hset, hp, Item.slot, ho, ArObj.abs, Spec.orCreate, Option.map_some, ← this]
        rfl
      | string _ | list _ | zset _ => exact absurd ht (by rw [ho]; exact fun h => by cases h)

/-- What is not taken out of a hash leaves it as it is. -/
theorem hdelFields_none (fields : List Bytes) {h : ArHash} {n : Nat}
    (hn : (ArCore.hdelFields fields h n).2 = n) : (ArCore.hdelFields fields h n).1 = h := by
  have hle : ∀ (fields : List Bytes) (h : ArHash) (n : Nat), n ≤ (ArCore.hdelFields fields h n).2 := by
    intro fields
    induction fields with
    | nil => exact fun _ n => le_refl n
    | cons f fields ih =>
      intro h n
      unfold ArCore.hdelFields
      split
      · exact ih h n
      · exact le_trans (Nat.le_succ n) (ih _ (n + 1))
  induction fields with
  | nil => rfl
  | cons f fields ih =>
    unfold ArCore.hdelFields at hn ⊢
    cases hf : h.find f with
    | none =>
      simp only [hf] at hn ⊢
      exact ih hn
    | some _ =>
      simp only [hf] at hn
      have := hle fields (h.unlink f) (n + 1)
      omega

/-- **`HDEL`.** -/
theorem KeyStep.arHashHdel (hE : E.Frozen t) (hwf : c.WF) (key : Bytes) (fields : List Bytes) :
    KeyStep E t B W key (Spec.hdel fields) c (c.arHashHdel E key fields) := by
  unfold ArCore.arHashHdel
  refine .typed hE hwf key .hash (fun _ => keepsFull_hdel fields) (fun hg => ?_) (fun r hg ht => ?_) fun r hg hwf' hr hk ht _ => ?_
  · simp only [hg]
    exact ⟨trivial, rfl⟩
  · simp only [hg, Item.slot]
    cases ho : r.e.obj with
    | hash h => exact absurd (congrArg ArObj.type ho) ht
    | string _ | list _ | zset _ => exact ⟨trivial, rfl⟩
  · cases ho : r.e.obj with
    | hash h =>
      simp only [hg, ho]
      have hw := hash_wf hwf' hr ho
      obtain ⟨hw', hf, hle⟩ := hdelFields_spec fields hw 0
      have hcard := hw'.card_fields
      have hnone := hdelFields_none fields (h := h) (n := 0)
      generalize ArCore.hdelFields fields h 0 = x at hw' hf hle hcard hnone ⊢
      subst hk
      obtain ⟨hl, hr'⟩ := Leaves.shrinkBack (t := t) (B := B) hwf' hr (.hash x.1) hw'
        (by rw [ho]; rfl) (by rw [ho]; exact hle)
      have hitem : (c.arEntryGetTyped E r.e.key .hash).1.shrinkBack r (.hash x.1) |>.Has r.e.key
          (some { r.e.toItem with obj := .hash x.1 }) :=
        has_of_mem (hl.ev.wf hwf') (mem_items_of_holds hr')
      generalize (c.arEntryGetTyped E r.e.key .hash).1.shrinkBack r (.hash x.1) = c₁ at hl hr' hitem ⊢
      have hwf₁ := hl.ev.wf hwf'
      by_cases hz : x.1.nfields = 0
      · rw [if_pos hz]
        have hspec : Spec.hdel fields (some r.e.slot) = (none, .found x.2) := by
          simp only [Spec.hdel, Item.slot, ho, ArObj.abs, ← hf, hcard, hz, if_true]
        rcases find_cases (B := B) hE hwf₁ r.e.key with ⟨hn, hev, h0, -⟩ | ⟨r', hs, hq, hr₁, hk₁, -⟩
        · simp only [hn]
          exact ⟨none, hl.gone hitem hev h0, fun _ => hspec⟩
        · simp only [hs]
          exact ⟨none, (hl.quiet hq).thenFree hwf' hr₁ hk₁, fun _ => hspec⟩
      · rw [if_neg hz]
        have hspec : Spec.hdel fields (some r.e.slot) =
            (some ({ r.e.toItem with obj := .hash x.1 } : Item).slot, .found x.2) := by
          simp only [Spec.hdel, Item.slot, ho, ArObj.abs, ← hf, hcard, hz, if_false]
        split
        · exact ⟨_, hl.settle, fun _ => hspec⟩
        · have hx : x.1 = h := hnone (by omega)
          exact ⟨_, hl.unchanged hitem hwf' hr rfl ((congrArg _ hx).trans ho.symm) rfl, fun _ => hspec⟩
    | string _ | list _ | zset _ => exact absurd ht (by rw [ho]; exact fun h => by cases h)

/-- The field `HINCRBY` counts in. -/
theorem hincrField_spec {h : ArHash} (hw : h.WF) (field : Bytes) :
    let x := c.hincrField E h field
    SameBut c x.1 ∧ (E.AllocOk → x.2 ≠ none) ∧ ∀ h' o, x.2 = some (h', o) → h'.WF ∧
      o = (h.fields.lookup field).elim (some 0) ArCore.parseInteger ∧
      (∀ val, (h'.setVal field val).WF ∧
        (h'.setVal field val).fields = h.fields.insert field val) ∧
      (o = none → h' = h ∧ h.find field ≠ none) := by
  intro x
  unfold x ArCore.hincrField
  rw [hw.lookup_fields]
  cases hf : h.find field with
  | some old =>
    refine ⟨.refl c, fun _ h => (by cases h), fun h' o he => ?_⟩
    cases he
    exact ⟨hw, rfl, fun val => ⟨hw.setVal field val, hw.fields_setVal hf val⟩,
      fun _ => ⟨rfl, fun h => by cases h⟩⟩
  | none =>
    have hs := SameBut.malloc E c
    have hs₂ := hs.trans (.malloc E (c.malloc E).1)
    simp only
    split
    · rename_i hm
      refine ⟨hs, fun ha => ?_, fun h' o he => (by cases he)⟩
      rw [malloc_ok ha] at hm
      cases hm
    · split
      · rename_i hm
        refine ⟨hs₂, fun ha => ?_, fun h' o he => (by cases he)⟩
        rw [malloc_ok ha] at hm
        cases hm
      · refine ⟨hs₂.trans (.malloc E _), fun _ h => (by cases h), fun h' o he => ?_⟩
        cases he
        have hw' := hw.link hf (lit "0")
        have hfind : (h.link field (lit "0")).find field = some (lit "0") := by
          rw [← hw'.lookup_fields, hw.fields_link hf, Finmap.lookup_insert]
        refine ⟨hw', rfl, fun val => ⟨hw'.setVal field val, ?_⟩, fun h => by cases h⟩
        rw [hw'.fields_setVal hfind, hw.fields_link hf, Finmap.insert_insert]

/-- **`HINCRBY`**, when no allocation fails or the key is in `W`. -/
theorem KeyStep.arHashHincrby (hE : E.Frozen t) (hwf : c.WF) (key field : Bytes) (incr : Int)
    (hW : key ∈ W ∨ E.AllocOk) (hB : B.exact ∨ B.alloc → E.AllocOk) :
    KeyStep E t B W key (Spec.hincrby field incr) c (c.arHashHincrby E key field incr) := by
  unfold ArCore.arHashHincrby
  refine .getOrCreate hE hwf key .hash (fun _ => keepsFull_hincrby field incr) rfl (fun hg => ?_) (fun r hg ht => ?_) fun r hg hwf' hr hk ht => ?_
  · simp only [hg]
  · simp only [hg, Spec.hincrby, Item.slot]
    cases ho : r.e.obj with
    | hash h => exact absurd (congrArg ArObj.type ho) ht
    | string _ | list _ | zset _ => exact ⟨trivial, rfl⟩
  · cases ho : r.e.obj with
    | hash h =>
      simp only [hg, ho]
      generalize (c.arEntryGetOrCreate E key .hash).1 = c₁ at hwf' hr ⊢
      obtain ⟨hs, hsome, hx⟩ := hincrField_spec (E := E) (c := c₁) (hash_wf hwf' hr ho) field
      generalize c₁.hincrField E h field = x at hs hsome hx ⊢
      subst hk
      obtain ⟨c₂, none | ⟨h', o⟩⟩ := x
      · -- no memory for the field
        refine .inl ⟨_, .same hwf' hr rfl hs.quiet, .inl ?_, fun ha => absurd rfl (hsome ha)⟩
        exact hW.resolve_right fun ha => hsome ha rfl
      · obtain ⟨hw', hval, hset, hnone⟩ := hx h' o rfl
        cases o with
        | none =>
          refine .inr ⟨hs.quiet, ?_, fun _ => ?_⟩
          · obtain ⟨-, hf⟩ := hnone rfl
            intro he
            cases he
            exact hf (ArHash.WF.empty.find_none_iff.2 fun a ha => by
              rw [show ArHash.empty.buckets.entries = 0 from Chains.entries_replicate ..] at ha
              exact absurd ha (Multiset.notMem_zero a))
          · simp only [Spec.hincrby, Item.slot, ho, ArObj.abs, Spec.orCreate, ← hval]
        | some v =>
          simp only
          have hs' := hs.trans (.malloc E c₂)
          have hr₂ : (c₂.malloc E).1.Holds r := hs'.holds hr
          have hwf₂ := hs'.quiet.wf hwf'
          split
          · -- the field stays, and nobody is told
            rename_i hm
            have hno : ¬E.AllocOk := fun ha => by
              rw [malloc_ok ha] at hm
              cases hm
            have hput : Leaves t B {r.e.key} r.e.key (some { r.e.toItem with obj := .hash h' })
                (c₂.malloc E).1 ((c₂.malloc E).1.updEntry r.e.key fun e => { e with obj := .hash h' }) :=
              .put (f := fun e => { e with obj := .hash h' }) hwf₂ hr₂ (fun _ => rfl) hw' rfl
                (fun _ _ => .post (.swollen (i := r.e.toItem) (fun h => hno (hB (.inl h)))
                  (fun h => hno (hB (.inr h))) (by rw [ho]; rfl))) rfl rfl rfl (Nat.le_refl _)
                fun _ h h' => ⟨h, h'⟩
            exact .inl ⟨_, hput.after (.of_quiet hs'.quiet), .inl (hW.resolve_right hno),
              fun ha => absurd ha hno⟩
          · obtain ⟨hw₂, hf₂⟩ := hset (Decimal.ofInt (int64 (v + incr)))
            have hl := Leaves.writeBack (t := t) (B := B) (W := {r.e.key}) hE hwf₂ hr₂
              (show ArObj.WF (.hash _) from hw₂) (by rw [ho]; rfl)
            refine .inl ⟨_, hl.after (.of_quiet hs'.quiet), .inr (dirtied_writeBack _ r _), fun _ => ?_⟩
            simp only [Spec.hincrby, Item.slot, ho, ArObj.abs, Spec.orCreate, ← hval, ← hf₂,
              Option.map_some]
    | string _ | list _ | zset _ => exact absurd ht (by rw [ho]; exact fun h => by cases h)

/-! ## LIST -/

/-- **`LPUSH`** and **`RPUSH`**. -/
theorem KeyStep.arListPush (hE : E.Frozen t) (hwf : c.WF) (key : Bytes) (left : Bool)
    (vals : List Bytes) :
    KeyStep E t B W key (Spec.push left vals) c (c.arListPush E key left vals) := by
  unfold ArCore.arListPush
  by_cases hp : vals.isEmpty = true
  · rw [if_pos hp]
    exact .idle hwf fun s => by rw [Spec.push, if_pos hp]
  · rw [if_neg hp]
    refine .getOrCreate hE hwf key .list (fun _ => keepsFull_push left vals) ?_ (fun hg => ?_) (fun r hg ht => ?_)
      fun r hg hwf' hr hk ht => ?_
    · rw [Spec.push, if_neg hp, Spec.push, if_neg hp]
      rfl
    · simp only [hg]
    · simp only [hg, Spec.push, hp, Item.slot]
      cases ho : r.e.obj with
      | list l => exact absurd (congrArg ArObj.type ho) ht
      | string _ | hash _ | zset _ => exact ⟨trivial, rfl⟩
    · cases ho : r.e.obj with
      | list l =>
        simp only [hg, ho]
        obtain ⟨hs, hf⟩ := pushVals_spec (E := E) (c := (c.arEntryGetOrCreate E key .list).1) left vals l
        generalize ArCore.pushVals E left vals _ l = x at hs hf ⊢
        subst hk
        have hl := Leaves.writeBack (t := t) (B := B) (W := {r.e.key}) hE (hs.quiet.wf hwf') (hs.holds hr)
          (show ArObj.WF (.list x.2) from trivial) (by rw [ho]; rfl)
        refine .inl ⟨_, hl.after (.of_quiet hs.quiet), .inr (dirtied_writeBack _ r _), fun ha => ?_⟩
        have := hf ha
        simp only [Spec.push, hp, Item.slot, ho, ArObj.abs, Spec.orCreate, Option.map_some, ← this]
        rfl
      | string _ | hash _ | zset _ => exact absurd ht (by rw [ho]; exact fun h => by cases h)

theorem sublist_popped (left : Bool) (l : List Bytes) :
    (if left then l.tail else l.dropLast).Sublist l := by
  cases left
  · exact List.dropLast_sublist l
  · exact List.tail_sublist l

/-- **`LPOP`** and **`RPOP`**. -/
theorem KeyStep.arListPop (hE : E.Frozen t) (hwf : c.WF) (key : Bytes) (left : Bool) :
    KeyStep E t B W key (Spec.pop left) c (c.arListPop E key left) := by
  unfold ArCore.arListPop
  refine .typed hE hwf key .list (fun _ => keepsFull_pop left) (fun hg => ?_) (fun r hg ht => ?_) fun r hg hwf' hr hk ht _ => ?_
  · simp only [hg]
    exact ⟨trivial, rfl⟩
  · simp only [hg, Item.slot]
    cases ho : r.e.obj with
    | list l => exact absurd (congrArg ArObj.type ho) ht
    | string _ | hash _ | zset _ => exact ⟨trivial, rfl⟩
  · cases ho : r.e.obj with
    | list l =>
      simp only [hg, ho]
      generalize (c.arEntryGetTyped E key .list).1 = c₁ at hwf' hr ⊢
      subst hk
      cases hout : (if left then l.head? else l.getLast?) with
      | none =>
        refine ⟨_, .same hwf' hr rfl (.refl _), fun _ => ?_⟩
        simp only [Spec.pop, Item.slot, ho, ArObj.abs, hout, Option.map_some]
      | some out =>
        simp only
        have hsub := sublist_popped left l
        generalize hl' : (if left then l.tail else l.dropLast) = l' at hsub ⊢
        obtain ⟨hl, hr'⟩ := Leaves.shrinkBack (t := t) (B := B) hwf' hr (.list l') trivial
          (by rw [ho]; rfl) (by rw [ho]; exact listObjBytes_le hsub)
        split
        · rename_i he
          refine ⟨none, hl.thenFree hwf' hr' rfl, fun _ => ?_⟩
          simp only [Spec.pop, Item.slot, ho, ArObj.abs, hout, hl', Spec.orNone, he, if_true,
            Option.map_none]
        · rename_i he
          refine ⟨_, hl.settle, fun _ => ?_⟩
          simp only [Spec.pop, Item.slot, ho, ArObj.abs, hout, hl', Spec.orNone, he, if_false,
            Bool.false_eq_true, Option.map_some]
    | string _ | hash _ | zset _ => exact absurd ht (by rw [ho]; exact fun h => by cases h)

/-- How many elements `LREM` takes at most, when it counts. -/
def lremLimit (count : Int) : Int := if count ≥ 0 then count else int64 (-count)

/-- `LREM` takes the last element of a list: every element is the one it looks for, and the limit, if
there is one, lies not before the end. -/
def LremEmpties (l : List Bytes) (count : Int) (elem : Bytes) : Prop :=
  l ≠ [] ∧ (∀ v ∈ l, v = elem) ∧ (count = 0 ∨ (l.length : Int) ≤ max 1 (lremLimit count))

theorem lremWalk_all (elem : Bytes) (l : List Bytes) (removed : Int) :
    (ArCore.lremWalk elem (fun _ => false) l removed).1 = [] ↔ ∀ v ∈ l, v = elem := by
  induction l generalizing removed with
  | nil => simp [ArCore.lremWalk]
  | cons v l ih =>
    unfold ArCore.lremWalk
    by_cases hv : v = elem
    · simp [hv, ih]
    · simp [hv]

theorem lremWalk_limit (elem : Bytes) (limit : Int) (l : List Bytes) (removed : Int) :
    (ArCore.lremWalk elem (fun n => decide (n ≥ limit)) l removed).1 = [] ↔
      l = [] ∨ ((∀ v ∈ l, v = elem) ∧ (l.length : Int) ≤ max 1 (limit - removed)) := by
  induction l generalizing removed with
  | nil => simp [ArCore.lremWalk]
  | cons v l ih =>
    unfold ArCore.lremWalk
    by_cases hv : v = elem
    · rw [if_pos hv]
      simp only [decide_eq_true_eq, List.cons_ne_nil, false_or, List.mem_cons, forall_eq_or_imp, hv,
        true_and, List.length_cons]
      split
      · rename_i hge
        -- this removal is the last one
        constructor
        · intro hl
          simp only at hl
          subst hl
          exact ⟨fun v h => absurd h List.not_mem_nil, by simp⟩
        · intro ⟨_, hlen⟩
          refine List.length_eq_zero_iff.1 ?_
          show l.length = 0
          push_cast at hlen
          omega
      · rename_i hlt
        rw [ih]
        constructor
        · intro h
          rcases h with rfl | ⟨hall, hlen⟩
          · exact ⟨fun v h => absurd h List.not_mem_nil, by simp⟩
          · exact ⟨hall, by push_cast; omega⟩
        · intro ⟨hall, hlen⟩
          push_cast at hlen
          exact .inr ⟨hall, by omega⟩
    · rw [if_neg hv]
      simp [hv]

/-- When `LREM` leaves nothing. -/
theorem lremList_eq_nil (l : List Bytes) (count : Int) (elem : Bytes) :
    (ArCore.lremList l count elem).1 = [] ↔ l = [] ∨ LremEmpties l count elem := by
  unfold ArCore.lremList LremEmpties lremLimit
  by_cases hz : count = 0
  · subst hz
    rw [if_pos (le_refl _)]
    simp only [ne_eq, not_true_eq_false, decide_false, Bool.false_and, true_or, and_true]
    rw [lremWalk_all]
    by_cases hl : l = []
    · simp [hl]
    · simp [hl]
  · simp only [hz, false_or]
    by_cases hc : count ≥ 0
    · rw [if_pos hc, if_pos hc]
      simp only [ne_eq, not_false_eq_true, decide_true, Bool.true_and, hz]
      rw [lremWalk_limit, Int.sub_zero]
      by_cases hl : l = []
      · simp [hl]
      · simp [hl]
    · rw [if_neg hc, if_neg hc]
      simp only [List.reverse_eq_nil_iff]
      rw [lremWalk_limit, Int.sub_zero, List.reverse_eq_nil_iff, List.length_reverse]
      by_cases hl : l = []
      · simp [hl]
      · simp [hl]

/-- The end of `LREM` and `LTRIM`, where `l'` is what is left of a list: the key has it, or is gone. -/
theorem Leaves.cut {r : Ref} {l l' : List Bytes} (hwf : c.WF) (hr : c.Holds r) (ho : r.e.obj = .list l)
    (hsub : l'.Sublist l) (hB : B.exact → l' = [] → l = []) :
    let x := if l'.isEmpty then
        ((c.updEntry r.e.key fun e => { e with obj := .list l' }).arEntryFreeEx r.bucket r.tier
          { r.e with obj := .list l' }).arWatchTouch r.e.key
      else (((c.shrinkBack r (.list l')).count fun s =>
          { s with clock := (c.shrinkBack r (.list l')).stats.clock + 1 }).updEntry r.e.key fun e =>
            { e with lastAccess := (c.shrinkBack r (.list l')).stats.clock + 1 }).arWatchTouch r.e.key
    let o := if l'.isEmpty then none else some { r.e.toItem with obj := .list l' }
    Leaves t B W r.e.key o c x ∧ x.Has r.e.key o := by
  intro x o
  unfold x o
  have hle : (ArObj.list l').payloadBytes ≤ r.e.obj.payloadBytes := by
    rw [ho]
    exact listObjBytes_le hsub
  have ht : (ArObj.list l').type = r.e.obj.type := by
    rw [ho]
    rfl
  by_cases he : l'.isEmpty = true
  · simp only [if_pos he]
    have hx : l' = [] := List.isEmpty_iff.1 he
    -- the list is released without its elements, which no counter hears of
    have hput : Leaves t B {r.e.key} r.e.key (some { r.e.toItem with obj := .list l' }) c
        (c.updEntry r.e.key fun e => { e with obj := .list l' }) := by
      refine .put (f := fun e => { e with obj := .list l' }) hwf hr (fun _ => rfl) trivial rfl
        (fun s _ => ?_) rfl rfl rfl (Nat.le_refl _) fun _ h h' => ⟨h, h'⟩
      by_cases hex : B.exact
      · refine .same ?_
        rw [hx, ← hB hex hx, ← show r.e.obj = .list l from ho]
      · exact .post (.shrunk hex ht hle)
    have hr' : (c.updEntry r.e.key fun e => { e with obj := .list l' }).Holds
        (r.with { r.e with obj := .list l' }) :=
      holds_update (f := fun e => { e with obj := .list l' }) hr rfl
    have hgone := has_none_iff.2 (free_key_notMem (r := r.with { r.e with obj := .list l' }) (hput.ev.wf hwf) hr')
    exact ⟨(hput.thenFree (W := W) hwf hr' rfl).andThen (.touch _ _), hgone⟩
  · simp only [if_neg he]
    obtain ⟨hl, hr'⟩ := Leaves.shrinkBack (t := t) (B := B) hwf hr (.list l') trivial ht hle
    have hq := Quiet.access (c.shrinkBack r (.list l')) r.e.key
    have hwf' := hl.ev.wf hwf
    refine ⟨(hl.quiet hq).settle, ?_⟩
    have hhas : (c.shrinkBack r (.list l')).Has r.e.key (some { r.e.toItem with obj := .list l' }) :=
      has_of_mem hwf' (mem_items_of_holds hr')
    exact (hq.itemsAt r.e.key).trans hhas

/-- **`LREM`**, accounted for unless it empties its list. -/
theorem KeyStep.arListLrem (hE : E.Frozen t) (hwf : c.WF) (key : Bytes) (count : Int) (elem : Bytes)
    (hB : B.exact → ∀ l d, c.view t key = some (.list l, d) → ¬LremEmpties l count elem) :
    KeyStep E t B W key (Spec.lrem count elem) c (c.arListLrem E key count elem) := by
  unfold ArCore.arListLrem
  refine .typed hE hwf key .list (fun _ => keepsFull_lrem count elem) (fun hg => ?_) (fun r hg ht => ?_) fun r hg hwf' hr hk ht hp => ?_
  · simp only [hg]
    exact ⟨trivial, rfl⟩
  · simp only [hg, Item.slot]
    cases ho : r.e.obj with
    | list l => exact absurd (congrArg ArObj.type ho) ht
    | string _ | hash _ | zset _ => exact ⟨trivial, rfl⟩
  · cases ho : r.e.obj with
    | list l =>
      simp only [hg, ho]
      generalize (c.arEntryGetTyped E key .list).1 = c₁ at hwf' hr ⊢
      have hview : c.view t key = some (.list l, r.e.expireAt) := by
        unfold ArCore.view
        rw [hp, Option.map_some, Item.slot, show r.e.toItem.obj = .list l from ho]
        rfl
      have hspec : Spec.lrem count elem (some r.e.slot) =
          (Spec.orNone (ArCore.lremList l count elem).1 r.e.expireAt,
            .found (ArCore.lremList l count elem).2) := by
        simp only [Spec.lrem, Item.slot, ho, ArObj.abs]
      subst hk
      obtain ⟨hl, -⟩ := Leaves.cut (t := t) (B := B) (W := W) hwf' hr ho (lremList_sublist l count elem)
        fun hex hx => ((lremList_eq_nil l count elem).1 hx).resolve_right (hB hex l _ hview)
      generalize ArCore.lremList l count elem = x at hspec hl ⊢
      split
      · rename_i he
        simp only [if_pos he] at hl
        refine ⟨none, hl, fun _ => ?_⟩
        rw [hspec, Spec.orNone, if_pos he]
        rfl
      · rename_i he
        simp only [if_neg he] at hl
        refine ⟨_, hl, fun _ => ?_⟩
        rw [hspec, Spec.orNone, if_neg he]
        rfl
    | string _ | hash _ | zset _ => exact absurd ht (by rw [ho]; exact fun h => by cases h)

/-- A window has an element. -/
theorem trimWindow_ne {l : List Bytes} {start stop : Int} {m n : Nat}
    (h : ArCore.trimWindow l.length start stop = some (m, n)) : (l.drop m).take n ≠ [] := by
  unfold ArCore.trimWindow at h
  simp only at h
  generalize (if start < 0 then (l.length : Int) + start else start) = start at h
  generalize (if stop < 0 then (l.length : Int) + stop else stop) = stop at h
  generalize hst : (if start < 0 then 0 else start) = start' at h
  generalize (if stop ≥ (l.length : Int) then (l.length : Int) - 1 else stop) = stop' at h
  have hpos : 0 ≤ start' := by
    rw [← hst]
    split
    · exact le_refl _
    · omega
  split at h
  · cases h
  · cases h
    intro hnil
    have hlen := congrArg List.length hnil
    rw [List.length_take, List.length_drop, List.length_nil] at hlen
    omega

/-- **`LTRIM`.** -/
theorem KeyStep.arListLtrim (hE : E.Frozen t) (hwf : c.WF) (key : Bytes) (start stop : Int) :
    KeyStep E t B W key (Spec.ltrim start stop) c (c.arListLtrim E key start stop) := by
  unfold ArCore.arListLtrim
  refine .typed hE hwf key .list (fun _ => keepsFull_ltrim start stop) (fun hg => ?_) (fun r hg ht => ?_) fun r hg hwf' hr hk ht _ => ?_
  · simp only [hg]
    exact ⟨trivial, rfl⟩
  · simp only [hg, Item.slot]
    cases ho : r.e.obj with
    | list l => exact absurd (congrArg ArObj.type ho) ht
    | string _ | hash _ | zset _ => exact ⟨trivial, rfl⟩
  · cases ho : r.e.obj with
    | list l =>
      simp only [hg, ho]
      generalize (c.arEntryGetTyped E key .list).1 = c₁ at hwf' hr ⊢
      subst hk
      cases hw : ArCore.trimWindow l.length start stop with
      | none =>
        refine ⟨none, (Leaves.free hwf' hr).andThen (.touch _ _), fun _ => ?_⟩
        simp only [Spec.ltrim, Item.slot, ho, ArObj.abs, hw, Option.map_none]
      | some w =>
        obtain ⟨m, n⟩ := w
        have he : ¬((l.drop m).take n).isEmpty = true := fun h =>
          trimWindow_ne hw (List.isEmpty_iff.1 h)
        obtain ⟨hl, -⟩ := Leaves.cut (t := t) (B := B) (W := W) hwf' hr ho
          ((List.take_sublist _ _).trans (List.drop_sublist _ _)) fun _ hx => absurd hx (trimWindow_ne hw)
        simp only [if_neg he] at hl ⊢
        refine ⟨_, hl, fun _ => ?_⟩
        simp only [Spec.ltrim, Item.slot, ho, ArObj.abs, hw, Spec.orNone]
        rw [if_neg he]
        rfl
    | string _ | hash _ | zset _ => exact absurd ht (by rw [ho]; exact fun h => by cases h)

/-! ## ZSET -/

theorem wf_zset {r : Ref} {z : ArZSet} (hwf : c.WF) (hr : c.Holds r) (ho : r.e.obj = .zset z) : z.WF := by
  have h : ArObj.WF r.e.toItem.obj := hwf.objs _ (mem_items_of_holds hr)
  rw [ho] at h
  exact h

/-- **`ZADD`**, of no more members than a set may have or with the key in `W`. -/
theorem KeyStep.arZsetZadd (hE : E.Frozen t) (hwf : c.WF) (key : Bytes) (ns : List ArZNode)
    (hW : key ∈ W ∨ ns.length ≤ ArCore.zsetMaxMembers) (hfills : B.fills → ns.length ≤ ArCore.zsetMaxMembers) :
    KeyStep E t B W key (Spec.zadd ns) c (c.arZsetZadd E key ns) := by
  unfold ArCore.arZsetZadd
  by_cases hp : ns.isEmpty = true
  · rw [if_pos hp]
    exact .idle hwf fun s => by rw [Spec.zadd, if_pos hp]
  · rw [if_neg hp]
    refine .getOrCreate hE hwf key .zset (fun hB => keepsFull_zadd (hfills hB)) ?_ (fun hg => ?_) (fun r hg ht => ?_)
      fun r hg hwf' hr hk ht => ?_
    · rw [Spec.zadd, if_neg hp, Spec.zadd, if_neg hp]
      rfl
    · simp only [hg]
    · simp only [hg, Spec.zadd, hp, Item.slot]
      cases ho : r.e.obj with
      | zset z => exact absurd (congrArg ArObj.type ho) ht
      | string _ | hash _ | list _ => exact ⟨trivial, rfl⟩
    · cases ho : r.e.obj with
      | zset z =>
        simp only [hg, ho]
        generalize (c.arEntryGetOrCreate E key .zset).1 = c₁ at hwf' hr ⊢
        subst hk
        have hspec : Spec.zadd ns (some r.e.slot) =
            if (ns.countP fun n => (z.find n.member).isNone) > 0 ∧
              z.arr.length + (ns.countP fun n => (z.find n.member).isNone) > ArCore.zsetMaxMembers
            then (some r.e.slot, .oversize)
            else (some (.zset (Spec.zaddNodes ns z.arr 0).1, r.e.expireAt),
              .added (Spec.zaddNodes ns z.arr 0).2) := by
          simp only [Spec.zadd, hp, Item.slot, ho, ArObj.abs, Spec.orCreate]
          rfl
        have hcount := List.countP_le_length (p := fun n : ArZNode => (z.find n.member).isNone) (l := ns)
        have hz : z.WF := wf_zset hwf' hr ho
        generalize hnew : (ns.countP fun n => (z.find n.member).isNone) = new at hspec hcount ⊢
        by_cases hover : new > 0 ∧ z.arr.length + new > ArCore.zsetMaxMembers
        · rw [if_pos hover] at hspec ⊢
          rcases hW with hW | hlen
          · exact .inl ⟨_, .same hwf' hr rfl (.refl _), .inl hW, fun _ => hspec⟩
          · refine .inr ⟨.refl _, fun he => ?_, fun _ => hspec⟩
            cases he
            obtain ⟨-, hgt⟩ := hover
            simp only [List.length_nil] at hgt
            omega
        · rw [if_neg hover] at hspec ⊢
          obtain ⟨hs, hf⟩ := zaddMembers_spec (E := E) (c := c₁) ns z 0
          have hw := hz.zaddMembers (E := E) (c := c₁) ns 0 (hnew ▸ hover)
          generalize ArCore.zaddMembers E ns c₁ z 0 = x at hs hf hw ⊢
          have hl := Leaves.writeBack (t := t) (B := B) (W := {r.e.key}) hE (hs.quiet.wf hwf')
            (hs.holds hr) (show ArObj.WF (.zset x.2.1) from hw) (by rw [ho]; rfl)
          refine .inl ⟨_, hl.after (.of_quiet hs.quiet), .inr (dirtied_writeBack _ r _), fun ha => ?_⟩
          rw [hspec, ← hf ha]
          rfl
      | string _ | hash _ | list _ => exact absurd ht (by rw [ho]; exact fun h => by cases h)

/-- What is not taken out of a sorted set leaves it as it is. -/
theorem zremMembers_none (members : List Bytes) {z : ArZSet} {n : Nat}
    (hn : (ArCore.zremMembers members z n).2 = n) : (ArCore.zremMembers members z n).1 = z := by
  have hle : ∀ (members : List Bytes) (z : ArZSet) (n : Nat),
      n ≤ (ArCore.zremMembers members z n).2 := by
    intro members
    induction members with
    | nil => exact fun _ n => le_refl n
    | cons m members ih =>
      intro z n
      unfold ArCore.zremMembers
      split
      · exact ih z n
      · exact le_trans (Nat.le_succ n) (ih _ (n + 1))
  induction members with
  | nil => rfl
  | cons m members ih =>
    unfold ArCore.zremMembers at hn ⊢
    cases hf : z.find m with
    | none =>
      simp only [hf] at hn ⊢
      exact ih hn
    | some _ =>
      simp only [hf] at hn
      have := hle members (z.remove m) (n + 1)
      omega

/-- **`ZREM`.** -/
theorem KeyStep.arZsetZrem (hE : E.Frozen t) (hwf : c.WF) (key : Bytes) (members : List Bytes) :
    KeyStep E t B W key (Spec.zrem members) c (c.arZsetZrem E key members) := by
  unfold ArCore.arZsetZrem
  refine .typed hE hwf key .zset (fun _ => keepsFull_zrem members) (fun hg => ?_) (fun r hg ht => ?_) fun r hg hwf' hr hk ht _ => ?_
  · simp only [hg]
    exact ⟨trivial, rfl⟩
  · simp only [hg, Item.slot]
    cases ho : r.e.obj with
    | zset z => exact absurd (congrArg ArObj.type ho) ht
    | string _ | hash _ | list _ => exact ⟨trivial, rfl⟩
  · cases ho : r.e.obj with
    | zset z =>
      simp only [hg, ho]
      generalize (c.arEntryGetTyped E key .zset).1 = c₁ at hwf' hr ⊢
      obtain ⟨hf, hle⟩ := zremMembers_spec members z 0
      have hnone := zremMembers_none members (z := z) (n := 0)
      have hz : z.WF := wf_zset hwf' hr ho
      have hw := hz.sublist (zremMembers_sublist members z 0)
      generalize ArCore.zremMembers members z 0 = x at hf hle hnone hw ⊢
      subst hk
      obtain ⟨hl, hr'⟩ := Leaves.shrinkBack (t := t) (B := B) hwf' hr (.zset x.1) hw
        (by rw [ho]; rfl) (by rw [ho]; exact hle)
      have hitem : (c₁.shrinkBack r (.zset x.1)).Has r.e.key
          (some { r.e.toItem with obj := .zset x.1 }) :=
        has_of_mem (hl.ev.wf hwf') (mem_items_of_holds hr')
      by_cases he : x.1.arr.isEmpty = true
      · rw [if_pos he]
        refine ⟨none, hl.thenFree hwf' hr' rfl, fun _ => ?_⟩
        simp only [Spec.zrem, Item.slot, ho, ArObj.abs, ← hf, he, if_true, Option.map_none]
      · rw [if_neg he]
        have hspec : Spec.zrem members (some r.e.slot) =
            (some ({ r.e.toItem with obj := .zset x.1 } : Item).slot, .found x.2) := by
          simp only [Spec.zrem, Item.slot, ho, ArObj.abs, ← hf, he, if_false, Bool.false_eq_true]
        split
        · exact ⟨_, hl.settle, fun _ => hspec⟩
        · have hx : x.1 = z := hnone (by omega)
          exact ⟨_, hl.unchanged hitem hwf' hr rfl ((congrArg _ hx).trans ho.symm) rfl, fun _ => hspec⟩
    | string _ | hash _ | list _ => exact absurd ht (by rw [ho]; exact fun h => by cases h)

end

end AuraRedis
