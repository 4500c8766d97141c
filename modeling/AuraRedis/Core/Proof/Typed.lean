import AuraRedis.Core.Proof.Containers
import AuraRedis.Core.Proof.Full

/-!
# Operations on hashes, lists and sorted sets

`typed_cases` and `create_cases` are the two lookups of `ar_types.c`; `Leaves.writeBack`,
`Leaves.shrinkBack` and `Leaves.free` are the three ends of a write. Each operation of `Core.Typed` is a
`KeyStep` of its meaning. Two of them need a proviso: `LREM` for the accounting when it empties its list,
`HINCRBY` and `ZADD` for the watchers when they fail on a key they have created.
-/

set_option autoImplicit false

namespace AuraRedis

open ArCore (Typed)

section
variable {E : Env} {t : Nat} {B : Terms} {W : Set Bytes} {c c' : ArCore} {key : Bytes} {r : Ref}

/-! ## Lookups -/

/-- `ar_entry_get_typed`. -/
theorem typed_cases (hE : E.Frozen t) (hwf : c.WF) (key : Bytes) (want : ArType) :
    let g := c.arEntryGetTyped E key want
    (g.2 = .missing ∧ Evolves t B ∅ ∅ c g.1 ∧ g.1.Has key none ∧ c.peek t key = none) ∨
    (∃ r : Ref, g.2 = .wrongType ∧ Quiet c g.1 ∧ r.e.key = key ∧ c.peek t key = some r.e.toItem ∧
      r.e.obj.type ≠ want) ∨
    (∃ r : Ref, g.2 = .found r ∧ Quiet c g.1 ∧ g.1.Holds r ∧ r.e.key = key ∧
      c.peek t key = some r.e.toItem ∧ r.e.obj.type = want) := by
  intro g
  rcases find_cases (B := B) hE hwf key with ⟨hn, hev, h0, hp⟩ | ⟨r, hs, hq, hr, hk, hp⟩
  · have hg : g = ((c.arFindEntryEx E key).1, .missing) := by
      unfold g ArCore.arEntryGetTyped
      simp only [hn]
    rw [hg]
    exact .inl ⟨rfl, hev, h0, hp⟩
  · have hg : g = ((c.arFindEntryEx E key).1,
        if r.e.obj.type = want then .found r else .wrongType) := by
      unfold g ArCore.arEntryGetTyped
      simp only [hs]
    rw [hg]
    by_cases ht : r.e.obj.type = want
    · rw [if_pos ht]
      exact .inr (.inr ⟨r, rfl, hq, hr, hk, hp, ht⟩)
    · rw [if_neg ht]
      exact .inr (.inl ⟨r, rfl, hq, hk, hp, ht⟩)

/-- The container `ar_entry_get_or_create` creates. -/
def ArType.empty : ArType → ArObj
  | .string => .string []
  | .hash => .hash .empty
  | .list => .list []
  | .zset => .zset ⟨[], 0⟩

theorem wf_empty (type : ArType) : type.empty.WF := by
  cases type with
  | hash => exact ArHash.WF.empty
  | zset => exact ⟨List.nodup_nil, Nat.zero_le _⟩
  | string | list => trivial

theorem emptyObj_spec (type : ArType) :
    let o := c.emptyObj E type
    SameBut c o.1 ∧ (∀ obj, o.2 = some obj → obj = type.empty) ∧ (E.AllocOk → o.2 ≠ none) := by
  intro o
  unfold o ArCore.emptyObj
  cases type with
  | string => exact ⟨.refl c, fun obj h => (Option.some.inj h).symm, fun _ h => by cases h⟩
  | hash =>
    simp only
    split
    · rename_i hm
      refine ⟨.malloc E c, (fun obj h => by cases h), fun ha => ?_⟩
      rw [malloc_ok ha] at hm
      cases hm
    · refine ⟨(SameBut.malloc E c).trans (.malloc E _), fun obj h => ?_, fun ha => ?_⟩
      · split at h
        · exact (Option.some.inj h).symm
        · cases h
      · rw [malloc_ok ha, if_pos rfl]
        exact fun h => by cases h
  | list =>
    refine ⟨.malloc E c, fun obj h => ?_, fun ha => ?_⟩
    · simp only at h
      split at h
      · exact (Option.some.inj h).symm
      · cases h
    · simp only [malloc_ok ha, if_true]
      exact fun h => by cases h
  | zset =>
    refine ⟨.malloc E c, fun obj h => ?_, fun ha => ?_⟩
    · simp only at h
      split at h
      · exact (Option.some.inj h).symm
      · cases h
    · simp only [malloc_ok ha, if_true]
      exact fun h => by cases h

/-- What a lookup finds of what has been left. -/
theorem Leaves.peek {i : Item} (h : Leaves t B W key (some i) c c') (hwf : c.WF)
    (hn : c.cfg.evict = .noop) (hd : ¬Due t i.expireAt) : c'.peek t key = some i := by
  rcases h.now with hh | ⟨-, hdue⟩
  · rw [peek_of_has (h.ev.wf hwf) hh, Option.filter_some_pos (by simpa using hd)]
  · exact absurd (hdue hn i rfl) hd

/-- What has been left is what is found. -/
theorem Leaves.held {i : Item} (h : Leaves t B W key (some i) c c') (hr : c'.Holds r)
    (hk : r.e.key = key) : r.e.toItem = i := by
  have hm : r.e.toItem ∈ c'.itemsAt key := Multiset.mem_filter.2 ⟨mem_items_of_holds hr, hk⟩
  rcases h.now with hh | ⟨hz, -⟩
  · rw [show c'.itemsAt key = {i} from hh] at hm
    exact Multiset.mem_singleton.1 hm
  · rw [show c'.itemsAt key = 0 from hz] at hm
    exact absurd hm (Multiset.notMem_zero _)

/-- An entry that has gone again: its watchers know. -/
theorem Leaves.gone {i : Item} {c'' : ArCore} (h : Leaves t B {key} key (some i) c c')
    (hi : c'.Has key (some i)) (h' : Evolves t B ∅ ∅ c' c'') (h0 : c''.Has key none) :
    Leaves t B W key none c c'' := by
  have hd : c''.Dirtied key := by
    rcases h'.watch key (Set.notMem_empty key) with he | hd
    · rw [ArCore.stored, ArCore.stored, show c''.itemsAt key = 0 from h0,
        show c'.itemsAt key = {i} from hi, Multiset.map_zero, Multiset.map_singleton] at he
      exact absurd he.symm (Multiset.singleton_ne_zero _)
    · exact hd
  refine ⟨((h.ev.andThen h').of_dirtied fun k hk => ?_).mono (fun _ h => h) (Set.empty_subset W),
    .inl h0⟩
  rw [Set.mem_singleton_iff.1 hk]
  exact hd

/-- `ar_entry_get_or_create`: an entry of another type, an entry of the type that was there or is new, or
none for want of memory. -/
theorem create_cases (hE : E.Frozen t) (hwf : c.WF) (key : Bytes) (type : ArType) :
    let g := c.arEntryGetOrCreate E key type
    (g.2 = .missing ∧ Leaves t B W key none c g.1 ∧ (E.AllocOk → c.cfg.evict ≠ .noop)) ∨
    (∃ r : Ref, g.2 = .wrongType ∧ Quiet c g.1 ∧ r.e.key = key ∧ c.peek t key = some r.e.toItem ∧
      r.e.obj.type ≠ type) ∨
    (∃ r : Ref, g.2 = .found r ∧ g.1.WF ∧ g.1.Holds r ∧ r.e.key = key ∧ r.e.obj.type = type ∧
      ((Quiet c g.1 ∧ c.peek t key = some r.e.toItem) ∨
        (Leaves t B {key} key (some r.e.toItem) c g.1 ∧ c.peek t key = none ∧
          r.e.toItem = newItem key type.empty))) := by
  intro g
  rcases find_cases (B := B) hE hwf key with ⟨hn, hev, h0, hp⟩ | ⟨r, hs, hq, hr, hk, hp⟩
  · unfold g ArCore.arEntryGetOrCreate
    simp only [hn]
    have hwf₁ := hev.wf hwf
    generalize (c.arFindEntryEx E key).1 = c₁ at hev h0 hwf₁ ⊢
    have hfail : ∀ {c₂ : ArCore}, Quiet c₁ c₂ → Leaves t B W key none c c₂ := fun hq =>
      .of_evolves (hev.quiet hq) (by unfold ArCore.Has; rw [hq.itemsAt]; exact h0)
    split
    · rename_i hm
      refine .inl ⟨rfl, hfail (.malloc E c₁), fun ha => ?_⟩
      rw [malloc_ok ha] at hm
      cases hm
    · split
      · rename_i hm
        refine .inl ⟨rfl, hfail ((Quiet.malloc E c₁).trans (.malloc E _)), fun ha => ?_⟩
        rw [malloc_ok ha] at hm
        cases hm
      · have hq₂ : Quiet c₁ ((c₁.malloc E).1.malloc E).1 := (Quiet.malloc E c₁).trans (.malloc E _)
        obtain ⟨hs, hobj, hsome⟩ := emptyObj_spec (E := E) (c := ((c₁.malloc E).1.malloc E).1) type
        have hq₃ := hq₂.trans hs.quiet
        split
        · rename_i hnone
          exact .inl ⟨rfl, hfail (hq₃.trans (Quiet.count _ (fun s => { s with clock := s.clock + 1 }) (Nat.le_succ _))),
            fun ha => absurd hnone (hsome ha)⟩
        · rename_i obj ho
          obtain rfl := hobj obj ho
          have hwf₃ := hq₃.wf hwf₁
          have hk₃ : ∀ i ∈ (((c₁.malloc E).1.malloc E).1.emptyObj E type).1.items, i.key ≠ key := by
            rw [hq₃.items]
            exact has_none_iff.1 h0
          generalize (((c₁.malloc E).1.malloc E).1.emptyObj E type).1 = c₃ at hq₃ hwf₃ hk₃ ⊢
          have hlink : Leaves t B {key} key (some (newItem key type.empty)) c₃
              (c₃.linkNew (arFnvHash key &&& (c₃.dict.hot.length - 1)) key type.empty) :=
            .linkNew hwf₃ hk₃ rfl (wf_empty type)
          have hhas : (c₃.linkNew (arFnvHash key &&& (c₃.dict.hot.length - 1)) key type.empty).Has key
              (some (newItem key type.empty)) := by
            have hi := (items_linkNew hwf₃ type.empty hk₃
              (b := arFnvHash key &&& (c₃.dict.hot.length - 1)) rfl).2
            exact has_of_mem (hlink.ev.wf hwf₃) (i := newItem key type.empty)
              (by rw [hi]; exact Multiset.mem_cons_self _ _)
          have hlink := hlink.after (hev.quiet hq₃)
          generalize c₃.linkNew (arFnvHash key &&& (c₃.dict.hot.length - 1)) key type.empty = c₄
            at hlink hhas ⊢
          have hwf₄ := hlink.ev.wf hwf
          have hq₅ := (Quiet.onSet c₄ key).trans
            (.arRehashIfNeeded E ((Quiet.onSet c₄ key).dict hwf₄.dict))
          have hpost : Evolves t B ∅ ∅ c₄ (((c₄.onSet key).arRehashIfNeeded E).arMaybeEvictPub E) :=
            (Evolves.arMaybeEvictPub hE (hq₅.wf hwf₄)).after (.of_quiet hq₅)
          have hwf₆ := hpost.wf hwf₄
          have hleft := hlink.andThen hpost
          generalize ((c₄.onSet key).arRehashIfNeeded E).arMaybeEvictPub E = c₆ at hpost hwf₆ hleft ⊢
          rcases find_cases (B := B) hE hwf₆ key with
            ⟨hn, hev₆, h0₆, hp₆⟩ | ⟨r, hs, hq₆, hr, hk, -⟩
          · simp only [hn]
            refine .inl ⟨trivial, hlink.gone hhas (hpost.andThen hev₆) h0₆, fun _ hno => ?_⟩
            rw [hleft.peek hwf hno fun hd => hd.1 rfl] at hp₆
            cases hp₆
          · simp only [hs]
            have hfin := hleft.quiet hq₆
            have hitem := hfin.held hr hk
            refine .inr (.inr ⟨r, rfl, hq₆.wf hwf₆, hr, hk, ?_, .inr ⟨?_, hp, hitem⟩⟩)
            · rw [show r.e.obj = type.empty from congrArg Item.obj hitem]
              cases type <;> rfl
            · rw [hitem]
              exact hfin
  · have hg : g = ((c.arFindEntryEx E key).1,
        if r.e.obj.type = type then .found r else .wrongType) := by
      unfold g ArCore.arEntryGetOrCreate
      simp only [hs]
    rw [hg]
    by_cases ht : r.e.obj.type = type
    · rw [if_pos ht]
      exact .inr (.inr ⟨r, rfl, hq.wf hwf, hr, hk, ht, .inl ⟨hq, hp⟩⟩)
    · rw [if_neg ht]
      exact .inr (.inl ⟨r, rfl, hq, hk, hp, ht⟩)

/-! ## The ends of a write -/

/-- `writeBack`, up to its eviction loop. -/
theorem writeBack_room (hwf : c.WF) (hr : c.Holds r) {obj : ArObj} (hobj : obj.WF)
    (ht : obj.type = r.e.obj.type) :
    ∃ c₀, c.writeBack E r obj = (c₀.arMaybeEvictPub E).arWatchTouch r.e.key ∧
      Leaves t B {r.e.key} r.e.key (some { r.e.toItem with obj := obj }) c c₀ := by
  unfold ArCore.writeBack
  simp only
  have hclock : (if obj.payloadBytes ≥ r.e.obj.payloadBytes then
      c.stats.noteBigkey obj.type obj.payloadBytes else c.stats).clock = c.stats.clock := by
    split
    · exact clock_noteBigkey ..
    · rfl
  generalize (if obj.payloadBytes ≥ r.e.obj.payloadBytes then
    c.stats.noteBigkey obj.type obj.payloadBytes else c.stats) = stats at hclock ⊢
  generalize hc₁ : ArCore.updEntry _ r.e.key _ = c₁
  refine ⟨c₁, rfl, .put (f := fun e => { e with obj := obj, lastAccess := stats.clock + 1 }) hwf hr
    (fun _ => rfl) hobj (by rw [← hc₁]; rfl) (fun s _ => ?_) (by rw [← hc₁]; rfl)
    (by rw [← hc₁]; rfl) (by rw [← hc₁]; rfl) (by rw [← hclock, ← hc₁]; exact Nat.le_succ _)
    (fun _ _ h => ⟨by rw [← hc₁]; exact Nat.le_refl _, h⟩)⟩
  rw [← hc₁]
  exact .resize (i := r.e.toItem) ht

/-- `writeBack`. -/
theorem Leaves.writeBack (hE : E.Frozen t) (hwf : c.WF) (hr : c.Holds r) {obj : ArObj} (hobj : obj.WF)
    (ht : obj.type = r.e.obj.type) :
    Leaves t B W r.e.key (some { r.e.toItem with obj := obj }) c (c.writeBack E r obj) := by
  obtain ⟨c₀, he, hput⟩ := writeBack_room (E := E) (t := t) (B := B) hwf hr hobj ht
  rw [he]
  exact (hput.andThen (.arMaybeEvictPub hE (hput.ev.wf hwf))).settle

/-- `shrinkBack`. -/
theorem Leaves.shrinkBack (hwf : c.WF) (hr : c.Holds r) (obj : ArObj) (hobj : obj.WF)
    (ht : obj.type = r.e.obj.type) (hle : obj.payloadBytes ≤ r.e.obj.payloadBytes) :
    Leaves t B {r.e.key} r.e.key (some { r.e.toItem with obj := obj }) c (c.shrinkBack r obj) ∧
      (c.shrinkBack r obj).Holds (r.with { r.e with obj := obj }) :=
  ⟨.put (f := fun e => { e with obj := obj }) hwf hr (fun _ => rfl) hobj rfl
    (fun _ _ => .shrink (i := r.e.toItem) ht hle) rfl rfl rfl (Nat.le_refl _) fun _ h h' => ⟨h, h'⟩,
    holds_update (f := fun e => { e with obj := obj }) hr rfl⟩

/-- The entry is released after a change of its own. -/
theorem Leaves.thenFree {o : Option Item} (h : Leaves t B {key} key o c c') (hwf : c.WF)
    (hr : c'.Holds r) (hk : r.e.key = key) :
    Leaves t B W key none c (c'.arEntryFreeEx r.bucket r.tier r.e) := by
  subst hk
  have hwf' := h.ev.wf hwf
  have hfree := Leaves.free (t := t) (B := B) (W := ∅) hwf' hr
  refine ⟨Evolves.mono (Evolves.of_dirtied (h.ev.comp (hfree.ev.mono (fun _ h => h)
    (Set.empty_subset _))) fun k hk => ?_) (fun _ h => h) (Set.empty_subset W), .inl ?_⟩
  · rw [Set.mem_singleton_iff.1 hk]
    exact dirtied_watchTouch c' _
  · exact has_none_iff.2 (free_key_notMem hwf' hr)

end

end AuraRedis
