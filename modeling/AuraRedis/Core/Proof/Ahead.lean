import AuraRedis.Core.Proof.Fewer
import AuraRedis.Core.Proof.ScanFlat

/-!
# Staying ahead of the cursor

`Ahead i key d d'`: a key that is still there after a step was there before it, and if its chain had a number
from `i` on, so it has now. Releases, demotions, the doubling of either table and the links of other keys
keep a key ahead; of the moves only the promotion of the key itself, to a hot chain before `i`, does not.
-/

set_option autoImplicit false

namespace AuraRedis

def Ahead (i : Nat) (key : Bytes) (d d' : Dict) : Prop :=
  ∀ e' ∈ d'.entries, e'.key = key →
    (∃ e ∈ d.entries, e.key = key) ∧ (i ≤ d.place key → i ≤ d'.place key)

namespace Dict.Shape

variable {d : Dict} {e : ArEntry}

theorem place_hot (h : d.Shape) (he : e ∈ d.hot.entries) :
    d.place e.key = keySlot d.hot.length e.key := by
  obtain ⟨b, hb⟩ := Chains.mem_entries.1 he
  rw [h.place_of_mem .hot hb]
  exact (h.hotPlaced b e hb).symm

theorem place_cold (h : d.Shape) (he : e ∈ d.cold.entries) :
    d.place e.key = d.hot.length + keySlot d.cold.length e.key := by
  obtain ⟨b, hb⟩ := Chains.mem_entries.1 he
  rw [h.place_of_mem .cold hb]
  exact congrArg (d.hot.length + ·) (h.coldPlaced b e hb).symm

theorem coldPow_of_mem (h : d.Shape) (he : e ∈ d.cold.entries) : ∃ p, d.cold.length = 2 ^ p := by
  obtain ⟨b, hb⟩ := Chains.mem_entries.1 he
  exact h.coldPow (layout_of_hasCold (h.hasCold_of_mem hb))

/-- The hot chain of a key comes before all cold ones. -/
theorem hot_before (h : d.Shape) (key : Bytes) : keySlot d.hot.length key < d.hot.length := by
  obtain ⟨p, hp⟩ := h.hotPow
  exact mask_lt hp _

end Dict.Shape

namespace Ahead

variable {i : Nat} {key : Bytes} {d d' d'' : Dict}

theorem refl (i : Nat) (key : Bytes) (d : Dict) : Ahead i key d d := fun e he hk => ⟨⟨e, he, hk⟩, id⟩

theorem trans (h : Ahead i key d d') (h' : Ahead i key d' d'') : Ahead i key d d'' := by
  intro e he hk
  obtain ⟨⟨e', he', hk'⟩, h₁⟩ := h' e he hk
  obtain ⟨h₀, h₂⟩ := h e' he' hk'
  exact ⟨h₀, fun hi => h₁ (h₂ hi)⟩

/-- The tables have not shrunk, and an entry of the key in the hot table was there before or is ahead. -/
theorem of_tiers (hs : d.Shape) (hs' : d'.Shape) (hh : d.hot.length ≤ d'.hot.length)
    (hc : d.cold.length ≤ d'.cold.length)
    (h : ∀ tier' e', e' ∈ (d'.table tier').entries → e'.key = key →
      ∃ tier e, e ∈ (d.table tier).entries ∧ e.key = key ∧
        (tier' = .hot → tier = .cold → i ≤ d.place key → i ≤ keySlot d'.hot.length key)) :
    Ahead i key d d' := by
  intro e' he' hk'
  have hat : ∀ tier', e' ∈ (d'.table tier').entries →
      (∃ e ∈ d.entries, e.key = key) ∧ (i ≤ d.place key → i ≤ d'.place key) := by
    intro tier' he'
    obtain ⟨tier, e, he, hk, hpro⟩ := h tier' e' he' hk'
    have hent : e ∈ d.entries := by
      rw [d.entries_eq tier]
      exact Multiset.mem_add.2 (.inl he)
    refine ⟨⟨e, hent, hk⟩, fun hi => ?_⟩
    obtain ⟨p, hp⟩ := hs.hotPow
    obtain ⟨q, hq⟩ := hs'.hotPow
    have hbefore := hs.hot_before key
    cases tier' with
    | hot =>
      rw [← hk', hs'.place_hot he', hk']
      cases tier with
      | hot =>
        rw [← hk, hs.place_hot he, hk] at hi
        exact hi.trans (mask_mono hp hq hh _)
      | cold => exact hpro rfl rfl hi
    | cold =>
      rw [← hk', hs'.place_cold he', hk']
      cases tier with
      | hot =>
        rw [← hk, hs.place_hot he, hk] at hi
        omega
      | cold =>
        obtain ⟨p, hp⟩ := hs.coldPow_of_mem he
        obtain ⟨q, hq⟩ := hs'.coldPow_of_mem he'
        have : keySlot d.cold.length key ≤ keySlot d'.cold.length key := mask_mono hp hq hc _
        rw [← hk, hs.place_cold he, hk] at hi
        omega
  rcases Multiset.mem_add.1 he' with h | h
  · exact hat .hot h
  · exact hat .cold h

/-- No entry has changed its tier. -/
theorem of_same_tiers (hs : d.Shape) (hs' : d'.Shape) (hh : d.hot.length ≤ d'.hot.length)
    (hc : d.cold.length ≤ d'.cold.length)
    (h : ∀ tier e', e' ∈ (d'.table tier).entries → e'.key = key →
      ∃ e ∈ (d.table tier).entries, e.key = key) : Ahead i key d d' := by
  refine of_tiers hs hs' hh hc fun tier e' he' hk' => ?_
  obtain ⟨e, he, hk⟩ := h tier e' he' hk'
  refine ⟨tier, e, he, hk, fun h₁ h₂ => ?_⟩
  rw [h₁] at h₂
  cases h₂

/-! ## Steps -/

section
variable {c c' : ArCore}

theorem of_fewer (h : Fewer c c') (hs : c.dict.Shape) : Ahead i key c.dict c'.dict :=
  of_same_tiers hs (h.shape hs) h.hot.length_eq.ge h.cold.length_eq.ge fun tier e' he' hk' =>
    ⟨e', Multiset.mem_of_le (h.table tier).entries_le he', hk'⟩

theorem update (hs : d.Shape) (k : Bytes) {f : ArEntry → ArEntry} (hf : ∀ e, (f e).key = e.key) :
    Ahead i key d (d.update k f) := by
  refine of_same_tiers hs (hs.update k hf).1 (Chains.length_update ..).ge (Chains.length_update ..).ge ?_
  intro tier e' he' hk'
  have hup : ∀ t : Table, e' ∈ (t.update fun e => if keyEq k e then f e else e).entries →
      ∃ e ∈ t.entries, e.key = key := by
    intro t he
    rw [Chains.entries_update] at he
    obtain ⟨e, hm, heq⟩ := Multiset.mem_map.1 he
    refine ⟨e, hm, ?_⟩
    rw [← hk', ← heq]
    split
    · exact (hf e).symm
    · rfl
  cases tier with
  | hot => exact hup _ he'
  | cold => exact hup _ he'

/-- A doubling. -/
theorem rehash (hs : d.Shape) {tier : Tier} (hpow : ∃ p, (d.table tier).length = 2 ^ p)
    (hs' : (d.setTable ((d.table tier).rehash entrySlot ((d.table tier).length * 2)) tier).Shape) :
    Ahead i key d (d.setTable ((d.table tier).rehash entrySlot ((d.table tier).length * 2)) tier) := by
  obtain ⟨p, hp⟩ := hpow
  have hslot : ∀ e, entrySlot ((d.table tier).length * 2) e < (d.table tier).length * 2 := fun e =>
    entrySlot_lt (p := p + 1) (by rw [hp, Nat.pow_succ]) e
  have hent := Chains.entries_rehash (t := d.table tier) hslot
  have hlen : ((d.table tier).rehash entrySlot ((d.table tier).length * 2)).length =
      (d.table tier).length * 2 := Chains.length_rehash _
  cases tier with
  | hot =>
    refine of_same_tiers hs hs' ?_ (Nat.le_refl _) fun tier' e' he' hk' => ⟨e', ?_, hk'⟩
    · show d.hot.length ≤ List.length (Chains.rehash ..)
      rw [hlen]
      show d.hot.length ≤ d.hot.length * 2
      omega
    · cases tier' with
      | hot => exact hent ▸ he'
      | cold => exact he'
  | cold =>
    refine of_same_tiers hs hs' (Nat.le_refl _) ?_ fun tier' e' he' hk' => ⟨e', ?_, hk'⟩
    · show d.cold.length ≤ List.length (Chains.rehash ..)
      rw [hlen]
      show d.cold.length ≤ d.cold.length * 2
      omega
    · cases tier' with
      | hot => exact he'
      | cold => exact hent ▸ he'

/-- An entry moves to the cold table. -/
theorem demote (hs : d.Shape) (hl : d.layout = .hotCold) {b : Nat} {e : ArEntry} (he : e ∈ d.hot.chain b) :
    Ahead i key d ((d.unlink .hot b e.key).link .cold e) := by
  obtain ⟨hs', -, -, hf, ht⟩ := hs.move hl (show Tier.hot ≠ .cold by decide) he rfl
  refine of_tiers hs hs' ?_ ?_ fun tier' e' he' hk' => ?_
  · rw [Dict.length_hot_link, Dict.length_hot_unlink]
  · exact (Chains.length_push ..).ge
  · cases tier' with
    | hot =>
      refine ⟨.hot, e', ?_, hk', fun _ h => by cases h⟩
      rw [hf]
      exact Multiset.mem_cons_of_mem he'
    | cold =>
      rw [ht] at he'
      rcases Multiset.mem_cons.1 he' with rfl | he'
      · exact ⟨.hot, _, Chains.mem_entries_of_chain he, hk', fun h => by cases h⟩
      · exact ⟨.cold, e', he', hk', fun h => by cases h⟩

/-- An entry moves to the hot table: another one than the key's, or to a chain that is ahead. -/
theorem promote (hs : d.Shape) (hl : d.layout = .hotCold) {b : Nat} {e : ArEntry} (he : e ∈ d.cold.chain b)
    (hk : e.key = key → i ≤ d.place key → i ≤ keySlot d.hot.length key) :
    Ahead i key d ((d.unlink .cold b e.key).link .hot e) := by
  obtain ⟨hs', -, -, hf, ht⟩ := hs.move hl (show Tier.cold ≠ .hot by decide) he rfl
  have hlen : ((d.unlink .cold b e.key).link .hot e).hot.length = d.hot.length := by
    rw [Dict.length_hot_link, Dict.length_hot_unlink]
  refine of_tiers hs hs' hlen.ge (Chains.length_remove ..).ge fun tier' e' he' hk' => ?_
  cases tier' with
  | hot =>
    rw [ht] at he'
    rcases Multiset.mem_cons.1 he' with rfl | he'
    · exact ⟨.cold, _, Chains.mem_entries_of_chain he, hk', fun _ _ => by rw [hlen]; exact hk hk'⟩
    · exact ⟨.hot, e', he', hk', fun _ h => by cases h⟩
  | cold =>
    refine ⟨.cold, e', ?_, hk', fun h => by cases h⟩
    rw [hf]
    exact Multiset.mem_cons_of_mem he'

/-- An entry of another key is linked. -/
theorem linkNew (hwf : c.WF) {k : Bytes} {obj : ArObj} {b : Nat} (hk : ∀ i ∈ c.items, i.key ≠ k)
    (hb : b = keySlot c.dict.hot.length k) (hne : k ≠ key) :
    Ahead i key c.dict (c.linkNew b k obj).dict := by
  obtain ⟨hd, -⟩ := items_linkNew hwf obj hk hb
  have hlt : b < c.dict.hot.length := hb ▸ hwf.dict.hot_before k
  refine of_same_tiers hwf.dict.toShape hd.toShape (Chains.length_push ..).ge (Nat.le_refl _) ?_
  intro tier e' he' hk'
  cases tier with
  | hot =>
    have he' : e' ∈ Chains.entries (c.dict.hot.push b _) := he'
    rw [Chains.entries_push hlt] at he'
    rcases Multiset.mem_cons.1 he' with rfl | he'
    · exact absurd hk' hne
    · exact ⟨e', he', hk'⟩
  | cold => exact ⟨e', he', hk'⟩

/-! ## Operations -/

variable {E : Env} {t : Nat}

theorem rehashTable {tier : Tier} (hwf : c.dict.WF) (hp : ∃ p, (c.dict.table tier).length = 2 ^ p) :
    Ahead i key c.dict (c.rehashTable E tier).dict := by
  have hs' := (Quiet.rehashTable E c tier (fun _ => hp) hwf).dict hwf
  unfold ArCore.rehashTable at hs' ⊢
  simp only at hs' ⊢
  split
  · rename_i hm
    rw [if_pos hm] at hs'
    exact .rehash hwf.toShape hp hs'.toShape
  · exact .refl _ _ _

theorem arRehashIfNeeded (hwf : c.dict.WF) : Ahead i key c.dict (c.arRehashIfNeeded E).dict := by
  unfold ArCore.arRehashIfNeeded
  split
  · split
    · exact .refl _ _ _
    · exact .rehashTable hwf hwf.hotPow
  · rename_i hl
    have hl : c.dict.layout = .hotCold := by
      cases h : c.dict.layout with
      | flat => exact absurd h hl
      | hotCold => rfl
    have h₁ : Ahead i key c.dict
        (if c.dict.hotNkeys > c.dict.hot.length then c.rehashTable E .hot else c).dict := by
      split
      · exact .rehashTable hwf hwf.hotPow
      · exact .refl _ _ _
    have hq : Quiet c (if c.dict.hotNkeys > c.dict.hot.length then c.rehashTable E .hot else c) := by
      split
      · exact .rehashTable E c .hot (fun h => h.hotPow) hwf
      · exact .refl c
    have hl' : (if c.dict.hotNkeys > c.dict.hot.length then c.rehashTable E .hot else c).dict.layout =
        .hotCold := by
      split
      · unfold ArCore.rehashTable
        simp only
        split
        · exact hl
        · exact hl
      · exact hl
    generalize (if c.dict.hotNkeys > c.dict.hot.length then c.rehashTable E .hot else c) = c₁
      at h₁ hq hl' ⊢
    simp only
    split
    · exact h₁.trans (.rehashTable (hq.dict hwf) ((hq.dict hwf).coldPow hl'))
    · exact h₁

theorem demoteOneHotToCold (hwf : c.dict.WF) : Ahead i key c.dict (c.demoteOneHotToCold E).1.dict := by
  unfold ArCore.demoteOneHotToCold
  split
  · exact .refl _ _ _
  · rename_i hc
    have hl : c.dict.layout = .hotCold := by
      apply layout_of_hasCold
      simp only [Bool.or_eq_true, Bool.not_eq_true', not_or, Bool.not_eq_false] at hc
      exact hc.1
    obtain ⟨-, hd, hb⟩ := oldestHot_spec E 64 c {} (fun b e h => by cases h)
    simp only
    split
    · rw [hd]
      exact .refl _ _ _
    · rename_i b e hbest
      show Ahead i key c.dict (Dict.link _ .cold e)
      rw [hd]
      exact .demote hwf.toShape hl (hb b e hbest)

theorem maybeDemoteHot (hwf : c.dict.WF) : Ahead i key c.dict (c.maybeDemoteHot E).dict := by
  have hloop : ∀ (n : Nat) (c : ArCore), c.dict.WF → Ahead i key c.dict (c.demoteLoop E n).dict := by
    intro n
    induction n with
    | zero => exact fun c _ => .refl _ _ _
    | succ n ih =>
      intro c hwf
      have h : Ahead i key c.dict (c.demoteOneHotToCold E).1.dict := demoteOneHotToCold hwf
      unfold ArCore.demoteLoop
      split
      · simp only
        split
        · exact h.trans (ih _ ((Quiet.demoteOneHotToCold E hwf).dict hwf))
        · exact h
      · exact .refl _ _ _
  unfold ArCore.maybeDemoteHot
  split
  · exact hloop 64 c hwf
  · exact .refl _ _ _

theorem updEntry (hwf : c.dict.WF) (k : Bytes) {f : ArEntry → ArEntry} (hf : ∀ e, (f e).key = e.key) :
    Ahead i key c.dict (c.updEntry k f).dict := .update hwf.toShape k hf

theorem onSet (hwf : c.dict.WF) (k : Bytes) : Ahead i key c.dict (c.onSet k).dict := by
  unfold ArCore.onSet
  split
  case h_1 | h_2 | h_3 => exact .refl _ _ _
  case h_4 | h_5 => exact updEntry (c := c.count _) hwf k fun _ => rfl
  case h_6 => exact updEntry (c := c.count _) hwf k fun _ => rfl
  case h_7 | h_8 => exact updEntry (c := c.count _) hwf k fun _ => rfl

theorem onGet (hwf : c.dict.WF) (k : Bytes) : Ahead i key c.dict (c.onGet k).dict := by
  unfold ArCore.onGet
  split
  case h_1 | h_2 | h_3 => exact .refl _ _ _
  case h_4 | h_5 => exact updEntry (c := c.count _) hwf k fun _ => rfl
  case h_6 => exact updEntry hwf k fun _ => rfl
  case h_7 | h_8 => exact updEntry (c := c.count _) hwf k fun _ => rfl

end

end Ahead

/-! ## Promotion -/

/-- The promotion of an entry leaves the key ahead: it is another key's, or its hot chain is not before `i`. -/
def Clears (i : Nat) (key : Bytes) (c : ArCore) (r : Ref) : Prop :=
  r.tier = .cold → c.cfg.hotPromoteOnGet = true → r.e.key = key →
    i ≤ c.dict.hot.length + keySlot c.dict.cold.length key → i ≤ keySlot c.dict.hot.length key

section
variable {i : Nat} {key : Bytes} {c c' : ArCore} {r : Ref} {E : Env} {t : Nat}

theorem Clears.congr (h : Clears i key c r) (hh : c'.dict.hot.length = c.dict.hot.length)
    (hc : c'.dict.cold.length = c.dict.cold.length) (hg : c'.cfg = c.cfg) {e : ArEntry}
    (hk : e.key = r.e.key) : Clears i key c' (r.with e) := by
  intro ht hp he
  rw [hh, hc]
  exact h ht (hg ▸ hp) (hk ▸ he)

/-- The key is not one that a promotion takes behind `i`. -/
def Settled (i : Nat) (key : Bytes) (c : ArCore) : Prop :=
  c.cfg.hotPromoteOnGet = true → c.dict.hot.length ≤ c.dict.place key → i ≤ c.dict.place key →
    i ≤ keySlot c.dict.hot.length key

theorem Clears.of_settled (hwf : c.WF) (hf : Fewer c c') (hr : c'.Holds r) (h : r.e.key = key → Settled i key c) :
    Clears i key c' r := by
  intro ht hp hk hi
  have hr' : r.e ∈ c'.dict.cold.chain r.bucket := by
    unfold ArCore.Holds at hr
    rwa [ht] at hr
  have he : r.e ∈ c.dict.cold.entries :=
    Multiset.mem_of_le hf.cold.entries_le (Chains.mem_entries_of_chain hr')
  have hplace := hwf.dict.place_cold he
  rw [hk] at hplace
  rw [hf.hot.length_eq, hf.cold.length_eq, ← hplace] at hi
  rw [hf.hot.length_eq]
  refine h hk (hf.cfg ▸ hp) ?_ hi
  rw [hplace]
  exact Nat.le_add_right ..

namespace Ahead

theorem arTouchGet (hwf : c.dict.WF) (hr : c.Holds r) (h : Clears i key c r) :
    Ahead i key c.dict (c.arTouchGet E r).dict := by
  have hu : ∀ e : ArEntry, ({ e with lastAccess := c.stats.clock + 1 } : ArEntry).key = e.key := fun _ => rfl
  have h₁ : Ahead i key c.dict
      (c.dict.update r.e.key fun e => { e with lastAccess := c.stats.clock + 1 }) := .update hwf.toShape _ hu
  unfold ArCore.arTouchGet
  simp only
  split
  · rename_i hc
    simp only [Bool.and_eq_true, decide_eq_true_eq] at hc
    obtain ⟨⟨hcold, ht⟩, hp⟩ := hc
    have hl := layout_of_hasCold hcold
    have hwf' : (c.dict.update r.e.key fun e => { e with lastAccess := c.stats.clock + 1 }).WF :=
      hwf.update hu
    have hr' : (c.updEntry r.e.key fun e => { e with lastAccess := c.stats.clock + 1 }).Holds
        (r.with { r.e with lastAccess := c.stats.clock + 1 }) :=
      holds_update (f := fun e => { e with lastAccess := c.stats.clock + 1 }) hr rfl
    unfold ArCore.Holds at hr'
    rw [show (r.with { r.e with lastAccess := c.stats.clock + 1 }).tier = .cold from ht] at hr'
    have hd := (hwf'.promote hl hr' rfl rfl rfl).1
    have h₂ : Ahead i key _ _ := .promote hwf'.toShape hl hr' fun hk hi => by
      have hplace := hwf'.place_cold (Chains.mem_entries_of_chain hr')
      have hh : (c.dict.update r.e.key fun e => { e with lastAccess := c.stats.clock + 1 }).hot.length =
          c.dict.hot.length := Chains.length_update ..
      have hcl : (c.dict.update r.e.key fun e => { e with lastAccess := c.stats.clock + 1 }).cold.length =
          c.dict.cold.length := Chains.length_update ..
      subst hk
      rw [hplace, hh, hcl] at hi
      rw [hh]
      exact h ht hp rfl hi
    exact (h₁.trans h₂).trans (.maybeDemoteHot hd)
  · exact h₁

end Ahead

end

end AuraRedis
