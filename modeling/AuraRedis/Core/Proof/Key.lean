import AuraRedis.Core.Proof.Evict

/-!
# Operations on one key

`Leaves t B W key o c c'`: an operation on `key` that leaves `o` there, unless the eviction that
followed took it. `KeyStep E t B W key f c x`: that, and when no kernel evicts and no allocation fails, the
slot and the answer are those of `f` on the slot before. Every operation of the source on one key is
a `KeyStep` of its meaning in `Spec`, and `KeyStep.view` says that it then acts on the map as `f` does.
-/

set_option autoImplicit false

namespace AuraRedis

section
variable {t : Nat} {B : Terms} {W : Set Bytes} {c c' c'' : ArCore} {key : Bytes} {o o' : Option Item}

/-! ## The item of a key -/

theorem mem_linked {e : ArEntry} : e ∈ c.dict.linked ↔ e ∈ c.dict.entries := by
  unfold Dict.linked
  rw [List.mem_append, Dict.entries, Multiset.mem_add]
  rfl

theorem peek_eq_some_iff (hwf : c.WF) {i : Item} :
    c.peek t key = some i ↔ i ∈ c.items ∧ i.key = key ∧ ¬Due t i.expireAt := by
  constructor
  · intro h
    obtain ⟨e, he, rfl⟩ := Option.map_eq_some_iff.1 h
    have hp := List.find?_some he
    simp only [Bool.and_eq_true, beq_iff_eq, Bool.not_eq_true', decide_eq_false_iff_not] at hp
    exact ⟨Multiset.mem_map_of_mem _ (mem_linked.1 (List.mem_of_find?_eq_some he)), hp⟩
  · intro ⟨hi, hk, hd⟩
    obtain ⟨e, he, rfl⟩ := Multiset.mem_map.1 hi
    have hp : (e.key == key && !decide (Due t e.expireAt)) = true := by
      simp [show e.key = key from hk, show ¬Due t e.expireAt from hd]
    cases hf : c.dict.linked.find? fun e => e.key == key && !decide (Due t e.expireAt) with
    | none => exact absurd hp (List.find?_eq_none.1 hf e (mem_linked.2 he))
    | some e' =>
      have hp' := List.find?_some hf
      simp only [Bool.and_eq_true, beq_iff_eq] at hp'
      have := hwf.dict.toShape.key_inj (mem_linked.1 (List.mem_of_find?_eq_some hf)) he
        (hp'.1.trans hk.symm)
      rw [ArCore.peek, hf, this]
      rfl

theorem peek_eq_none_iff (hwf : c.WF) :
    c.peek t key = none ↔ ∀ i ∈ c.items, i.key = key → Due t i.expireAt := by
  constructor
  · intro h i hi hk
    by_contra hd
    rw [(peek_eq_some_iff hwf).2 ⟨hi, hk, hd⟩] at h
    cases h
  · intro h
    cases hp : c.peek t key with
    | none => rfl
    | some i =>
      obtain ⟨hi, hk, hd⟩ := (peek_eq_some_iff hwf).1 hp
      exact absurd (h i hi hk) hd

/-- What a core holds under a key. -/
def ArCore.Has (c : ArCore) (key : Bytes) (o : Option Item) : Prop := c.itemsAt key = o.elim 0 ({·})

theorem has_none_iff : c.Has key none ↔ ∀ i ∈ c.items, i.key ≠ key := Multiset.filter_eq_nil

theorem has_of_mem (hwf : c.WF) {i : Item} (hi : i ∈ c.items) : c.Has i.key (some i) :=
  itemsAt_of_mem hwf hi

/-- What a lookup would find. -/
theorem peek_of_has (hwf : c.WF) (h : c.Has key o) :
    c.peek t key = o.filter fun i => !decide (Due t i.expireAt) := by
  cases o with
  | none => exact (peek_eq_none_iff hwf).2 fun i hi hk => absurd hk (has_none_iff.1 h i hi)
  | some i =>
    obtain ⟨hi, hk⟩ := mem_items_of_itemsAt h
    by_cases hd : Due t i.expireAt
    · rw [Option.filter_some_neg (by simp [hd])]
      refine (peek_eq_none_iff hwf).2 fun j hj hjk => ?_
      have hm : j ∈ c.itemsAt key := Multiset.mem_filter.2 ⟨hj, hjk⟩
      rw [show c.itemsAt key = {i} from h] at hm
      rw [Multiset.mem_singleton.1 hm]
      exact hd
    · rw [Option.filter_some_pos (by simp [hd])]
      exact (peek_eq_some_iff hwf).2 ⟨hi, hk, hd⟩

/-- Keys of their own apart, an operation under the noop kernel leaves what a lookup would find. -/
theorem Evolves.peek {K : Set Bytes} (h : Evolves t B K W c c') (hwf : c.WF)
    (hn : c.cfg.evict = .noop) (hk : key ∉ K) : c'.peek t key = c.peek t key := by
  have hwf' := h.wf hwf
  have hmem : ∀ {d : ArCore} {i : Item}, i ∈ d.itemsAt key ↔ i ∈ d.items ∧ i.key = key :=
    Multiset.mem_filter
  rcases h.frame key hk with he | ⟨hz, hd⟩
  · apply Option.ext
    intro i
    rw [peek_eq_some_iff hwf', peek_eq_some_iff hwf, ← and_assoc, ← and_assoc, ← hmem, ← hmem, he]
  · rw [peek_of_has (o := none) hwf' hz]
    exact ((peek_eq_none_iff hwf).2 fun i hi hik => hd hn i (hmem.2 ⟨hi, hik⟩)).symm

/-- An operation without keys of its own leaves the map, under the noop kernel. -/
theorem Evolves.view (h : Evolves t B ∅ W c c') (hwf : c.WF) (hn : c.cfg.evict = .noop) :
    c'.view t = c.view t := by
  funext k
  unfold ArCore.view
  rw [h.peek hwf hn (Set.notMem_empty k)]

/-! ## What an operation leaves under its key -/

structure Leaves (t : Nat) (B : Terms) (W : Set Bytes) (key : Bytes) (o : Option Item) (c c' : ArCore) :
    Prop where
  ev : Evolves t B {key} W c c'
  now : c'.Has key o ∨ (c'.Has key none ∧ (c.cfg.evict = .noop → ∀ i ∈ o, Due t i.expireAt))

namespace Leaves

/-- Nothing of its own happened. -/
theorem of_evolves (h : Evolves t B ∅ ∅ c c') (ho : c'.Has key o) : Leaves t B W key o c c' :=
  ⟨h.mono (by simp) (by simp), .inl ho⟩

theorem mono {W' : Set Bytes} (h : Leaves t B W key o c c') (hW : W ⊆ W') :
    Leaves t B W' key o c c' := ⟨h.ev.mono (fun _ h => h) hW, h.now⟩

theorem after (h' : Leaves t B W key o c' c'') (h : Evolves t B ∅ ∅ c c') :
    Leaves t B W key o c c'' := ⟨h'.ev.after h, h.cfg ▸ h'.now⟩

theorem andThen (h : Leaves t B W key o c c') (h' : Evolves t B ∅ ∅ c' c'') :
    Leaves t B W key o c c'' := by
  refine ⟨h.ev.andThen h', ?_⟩
  rcases h'.frame key (Set.notMem_empty key) with he | ⟨hz, hd⟩
  · unfold ArCore.Has
    rw [he]
    exact h.now
  · rw [h.ev.cfg] at hd
    rcases h.now with hh | ⟨-, hd'⟩
    · refine .inr ⟨hz, fun hn i hi => hd hn i ?_⟩
      rw [hh, Option.mem_def.1 hi]
      exact Multiset.mem_singleton_self i
    · exact .inr ⟨hz, hd'⟩

theorem quiet (h : Leaves t B W key o c c') (h' : Quiet c' c'') : Leaves t B W key o c c'' :=
  h.andThen (.of_quiet h')

/-- The key again. -/
theorem trans (h : Leaves t B W key o c c') (h' : Leaves t B W key o' c' c'') :
    Leaves t B W key o' c c'' := ⟨h.ev.comp h'.ev, h.ev.cfg ▸ h'.now⟩

theorem settle (h : Leaves t B {key} key o c c') : Leaves t B W key o c (c'.arWatchTouch key) :=
  ⟨h.ev.settle.mono (fun _ h => h) (Set.empty_subset W), h.now⟩

/-- The entry is released. -/
theorem free {r : Ref} (hwf : c.WF) (hr : c.Holds r) :
    Leaves t B W r.e.key none c (c.arEntryFreeEx r.bucket r.tier r.e) :=
  ⟨(Evolves.free hwf hr).mono (fun _ h => h) (Set.empty_subset W),
    .inl (has_none_iff.2 (free_key_notMem hwf hr))⟩

/-- The entry is rewritten. -/
theorem put {r : Ref} (hwf : c.WF) (hr : c.Holds r) {f : ArEntry → ArEntry}
    (hf : ∀ e, (f e).key = e.key) (hobj : (f r.e).obj.WF)
    (hd : c'.dict = c.dict.update r.e.key f)
    (hm : ∀ s, (∀ j ∈ s, j.key ≠ r.e.key) →
      Journal B (c.mem, r.e.toItem ::ₘ s) (c'.mem, (f r.e).toItem ::ₘ s))
    (hc : c'.conns = c.conns) (hg : c'.cfg = c.cfg) (hs : c'.srv = c.srv)
    (hk : c.stats.clock ≤ c'.stats.clock)
    (hst : ∀ e, e.lastAccess ≤ c.stats.clock → e.lfuFreq ≤ 255 →
      (f e).lastAccess ≤ c'.stats.clock ∧ (f e).lfuFreq ≤ 255) :
    Leaves t B {r.e.key} r.e.key (some (f r.e).toItem) c c' := by
  refine ⟨.put hwf hr hf hobj hd hm hc hg hs hk hst, .inl ?_⟩
  have hw := wf_update hwf hr hf hobj hd
  have := has_of_mem hw (mem_items_of_holds (holds_update hr hd))
  rwa [show (r.with (f r.e)).e.toItem.key = r.e.key from hf r.e] at this

/-- A new entry. -/
theorem linkNew (hwf : c.WF) {obj : ArObj} {b : Nat} (hk : ∀ i ∈ c.items, i.key ≠ key)
    (hb : b = keySlot c.dict.hot.length key) (hobj : obj.WF) :
    Leaves t B {key} key (some (newItem key obj)) c (c.linkNew b key obj) := by
  have hev : Evolves t B {key} {key} c (c.linkNew b key obj) := .linkNew hwf hk hb hobj
  refine ⟨hev, .inl ?_⟩
  have hi := (items_linkNew hwf obj hk hb).2
  exact has_of_mem (hev.wf hwf) (i := newItem key obj) (by rw [hi]; exact Multiset.mem_cons_self _ _)

end Leaves

/-! ## Containers that are not empty -/

/-- Something is in a container. -/
def AVal.Full : AVal → Prop
  | .string _ => True
  | .hash m => m.entries.card ≠ 0
  | .list l => l ≠ []
  | .zset arr => arr ≠ []

/-- No container is under the key that is empty. -/
def ArCore.FullAt (c : ArCore) (key : Bytes) : Prop := ∀ i ∈ c.itemsAt key, i.obj.abs.Full

/-- The slot is not that of an empty container. -/
def SlotFull (s : Option Slot) : Prop := ∀ v ∈ s, v.1.Full

/-- The meaning of an operation leaves no empty container. -/
def KeepsFull {β : Type} (f : Option Slot → Option Slot × β) : Prop := ∀ s, SlotFull s → SlotFull (f s).1

theorem slotFull_none : SlotFull none := fun v hv => by cases hv

theorem slotFull_some {r : Ref} (h : r.e.obj.abs.Full) : SlotFull (some r.e.slot) := fun v hv => by
  cases hv
  exact h

theorem KeepsFull.of_read {β : Type} {f : Option Slot → Option Slot × β} (hf : ∀ s, (f s).1 = s) :
    KeepsFull f := fun s hs => by rwa [hf]

theorem KeepsFull.item {β : Type} {f : Option Slot → Option Slot × β} {s : Option Slot} {b : β}
    (hk : KeepsFull f) (hs : SlotFull s) (hf : f s = (o.map Item.slot, b)) : ∀ i ∈ o, i.obj.abs.Full := by
  intro i hi
  have := hk s hs
  rw [hf] at this
  exact this i.slot (Option.mem_map_of_mem _ hi)

theorem ArCore.FullAt.found {r : Ref} (h : c.FullAt key) (hwf : c.WF) (hp : c.peek t key = some r.e.toItem) :
    r.e.obj.abs.Full := by
  obtain ⟨hi, hk, -⟩ := (peek_eq_some_iff hwf).1 hp
  exact h r.e.toItem (Multiset.mem_filter.2 ⟨hi, hk⟩)

/-- What leaves a key leaves nothing empty. -/
theorem ArCore.FullAt.evolves {K : Set Bytes} (h : c.FullAt key) (hev : Evolves t B K W c c') (hk : key ∉ K) :
    c'.FullAt key := by
  unfold FullAt
  rcases hev.frame key hk with he | ⟨hz, -⟩
  · rw [he]
    exact h
  · rw [hz]
    exact fun i hi => absurd hi (Multiset.notMem_zero i)

/-- No container is empty. -/
def ArCore.AllFull (c : ArCore) : Prop := ∀ key, c.FullAt key

theorem ArCore.FullAt.of_has (h : c.Has key o) (ho : ∀ i ∈ o, i.obj.abs.Full) : c.FullAt key := by
  unfold ArCore.FullAt
  rw [show c.itemsAt key = o.elim 0 ({·}) from h]
  cases o with
  | none => exact fun i hi => absurd hi (Multiset.notMem_zero i)
  | some j =>
    intro i hi
    rw [Multiset.mem_singleton.1 hi]
    exact ho j rfl

theorem ArCore.AllFull.evolves (h : c.AllFull) (hev : Evolves t B ∅ W c c') : c'.AllFull := fun k =>
  (h k).evolves hev (Set.notMem_empty k)

/-! ## One operation -/

/-- An operation on one key that means `f`. -/
def KeyStep {β : Type} (E : Env) (t : Nat) (B : Terms) (W : Set Bytes) (key : Bytes)
    (f : Option Slot → Option Slot × β) (c : ArCore) (x : ArCore × β) : Prop :=
  ∃ o, Leaves t B W key o c x.1 ∧ (E.AllocOk → c.cfg.evict = .noop →
    Store.alive t (o.map Item.slot) = Store.alive t (f ((c.peek t key).map Item.slot)).1 ∧
      x.2 = (f ((c.peek t key).map Item.slot)).2) ∧
    (B.fills → E.AllocOk → c.FullAt key → ∀ i ∈ o, i.obj.abs.Full)

variable {E : Env}

theorem filter_slot (t : Nat) (o : Option Item) :
    (o.filter fun i => !decide (Due t i.expireAt)).map Item.slot =
      Store.alive t (o.map Item.slot) := by
  cases o with
  | none => rfl
  | some i =>
    unfold Store.alive
    by_cases h : Due t i.expireAt <;> simp [Option.filter, Item.slot, h]

theorem KeyStep.evolves {β : Type} {f : Option Slot → Option Slot × β} {x : ArCore × β}
    (h : KeyStep E t B W key f c x) : Evolves t B {key} W c x.1 := by
  obtain ⟨_, hl, -⟩ := h
  exact hl.ev

/-- What the next lookup finds. -/
theorem KeyStep.slot {β : Type} {f : Option Slot → Option Slot × β} {x : ArCore × β}
    (h : KeyStep E t B W key f c x) (hwf : c.WF) (ha : E.AllocOk) (hn : c.cfg.evict = .noop) :
    (x.1.peek t key).map Item.slot = Store.alive t (f ((c.peek t key).map Item.slot)).1 ∧
      x.2 = (f ((c.peek t key).map Item.slot)).2 := by
  obtain ⟨o, hl, hf, -⟩ := h
  obtain ⟨hs, hb⟩ := hf ha hn
  have hwf' := hl.ev.wf hwf
  refine ⟨Eq.trans ?_ hs, hb⟩
  rw [← filter_slot]
  rcases hl.now with hh | ⟨hz, hd⟩
  · rw [peek_of_has hwf' hh]
  · rw [peek_of_has hwf' hz]
    cases o with
    | none => rfl
    | some i => rw [Option.filter_some_neg (by simp [hd hn i rfl])]; rfl

/-- An operation leaves no empty container under its key. -/
theorem KeyStep.fullAt {β : Type} {f : Option Slot → Option Slot × β} {x : ArCore × β}
    (h : KeyStep E t B W key f c x) (hB : B.fills) (ha : E.AllocOk) (hc : c.FullAt key) : x.1.FullAt key := by
  obtain ⟨o, hl, -, hfull⟩ := h
  rcases hl.now with hh | ⟨hz, -⟩
  · exact .of_has hh (hfull hB ha hc)
  · exact .of_has hz fun i hi => by cases hi

theorem KeyStep.allFull {β : Type} {f : Option Slot → Option Slot × β} {x : ArCore × β}
    (h : KeyStep E t B W key f c x) (hB : B.fills) (ha : E.AllocOk) (hc : c.AllFull) : x.1.AllFull := by
  intro k
  by_cases hk : k = key
  · subst hk
    exact h.fullAt hB ha (hc k)
  · exact (hc k).evolves h.evolves hk

/-- **An operation acts on the map as its meaning does.** -/
theorem KeyStep.view {β : Type} {f : Option Slot → Option Slot × β} {x : ArCore × β}
    (h : KeyStep E t B W key f c x) (hwf : c.WF) (ha : E.AllocOk) (hn : c.cfg.evict = .noop) :
    (x.1.view t, x.2) = Store.step t key f (c.view t) := by
  obtain ⟨hs, hb⟩ := h.slot hwf ha hn
  unfold Store.step
  refine Prod.ext ?_ hb
  funext k
  show (x.1.peek t k).map Item.slot = Function.update (c.view t) key _ k
  by_cases hk : k = key
  · subst hk
    rw [Function.update_self]
    exact hs
  · rw [Function.update_of_ne hk, h.evolves.peek hwf hn hk]
    rfl

/-! ## Lookups -/

/-- A lookup finds what there is to find. -/
theorem find_cases (hE : E.Frozen t) (hwf : c.WF) (key : Bytes) :
    let f := c.arFindEntryEx E key
    (f.2 = none ∧ Evolves t B ∅ ∅ c f.1 ∧ f.1.Has key none ∧ c.peek t key = none) ∨
    (∃ r, f.2 = some r ∧ Quiet c f.1 ∧ f.1.Holds r ∧ r.e.key = key ∧
      c.peek t key = some r.e.toItem) := by
  rcases arFindEntryEx_spec (B := B) hE.until hwf key with ⟨hn, hev, hno, hdue⟩ | ⟨r, hs, hq, hr, hk, hd⟩
  · exact .inl ⟨hn, hev.toEvolves, has_none_iff.2 hno, (peek_eq_none_iff hwf).2 hdue⟩
  · refine .inr ⟨r, hs, hq, hr, hk, (peek_eq_some_iff hwf).2 ⟨?_, hk, hd hE⟩⟩
    rw [← hq.items]
    exact mem_items_of_holds hr

/-- An operation found no entry and changed nothing. -/
theorem KeyStep.missing {β : Type} {f : Option Slot → Option Slot × β} {x : ArCore × β}
    (hev : Evolves t B ∅ ∅ c x.1) (h0 : x.1.Has key none) (hp : c.peek t key = none)
    (hf : E.AllocOk → c.cfg.evict = .noop → f none = (none, x.2)) : KeyStep E t B W key f c x := by
  refine ⟨none, .of_evolves hev h0, fun ha hn => ?_, fun _ _ _ i hi => by cases hi⟩
  rw [hp]
  show _ = Store.alive t (f none).1 ∧ _ = (f none).2
  rw [hf ha hn]
  exact ⟨rfl, rfl⟩

/-- An operation found an entry and left it as it was. -/
theorem KeyStep.kept {β : Type} {f : Option Slot → Option Slot × β} {x : ArCore × β} {r : Ref}
    (hwf : c.WF) (hq : Quiet c x.1) (hk : r.e.key = key) (hp : c.peek t key = some r.e.toItem)
    (hf : E.AllocOk → c.cfg.evict = .noop →
      f (some r.e.slot) = (some r.e.slot, x.2)) : KeyStep E t B W key f c x := by
  refine ⟨some r.e.toItem, .of_evolves (.of_quiet hq) ?_, fun ha hn => ?_, fun _ _ hfull i hi => ?_⟩
  · have := has_of_mem (hq.wf hwf) (i := r.e.toItem)
      (by rw [hq.items]; exact ((peek_eq_some_iff hwf).1 hp).1)
    rwa [show r.e.toItem.key = key from hk] at this
  · rw [hp]
    show _ = Store.alive t (f (some r.e.slot)).1 ∧ _ = (f (some r.e.slot)).2
    rw [hf ha hn]
    exact ⟨rfl, rfl⟩
  · cases hi
    exact hfull.found hwf hp

/-- An operation found an entry and left another, or none. -/
theorem KeyStep.found {β : Type} {f : Option Slot → Option Slot × β} {x : ArCore × β} {r : Ref}
    (hwf : c.WF) (hp : c.peek t key = some r.e.toItem) (hl : Leaves t B W key o c x.1)
    (hf : E.AllocOk → c.cfg.evict = .noop → f (some r.e.slot) = (o.map Item.slot, x.2))
    (hfull : B.fills → E.AllocOk → r.e.obj.abs.Full → ∀ i ∈ o, i.obj.abs.Full) :
    KeyStep E t B W key f c x := by
  refine ⟨o, hl, fun ha hn => ?_, fun hB ha hc => hfull hB ha (hc.found hwf hp)⟩
  rw [hp]
  show _ = Store.alive t (f (some r.e.slot)).1 ∧ _ = (f (some r.e.slot)).2
  rw [hf ha hn]
  exact ⟨rfl, rfl⟩

/-- An operation found no entry and left one. -/
theorem KeyStep.created {β : Type} {f : Option Slot → Option Slot × β} {x : ArCore × β}
    (hp : c.peek t key = none) (hl : Leaves t B W key o c x.1)
    (hf : E.AllocOk → c.cfg.evict = .noop → f none = (o.map Item.slot, x.2))
    (hfull : B.fills → E.AllocOk → ∀ i ∈ o, i.obj.abs.Full) :
    KeyStep E t B W key f c x := by
  refine ⟨o, hl, fun ha hn => ?_, fun hB ha _ => hfull hB ha⟩
  rw [hp]
  show _ = Store.alive t (f none).1 ∧ _ = (f none).2
  rw [hf ha hn]
  exact ⟨rfl, rfl⟩

end

end AuraRedis
