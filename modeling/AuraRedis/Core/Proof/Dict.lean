import AuraRedis.Core.Dict

/-!
# The dictionary is well formed

`Dict.WF` is the representation invariant: the tables have a power-of-two length, every entry is in
the chain of its key's hash, no key is linked twice, the counters are exact. `Dict.Shape` is its part
without the counters. `Shape.unlink`, `Shape.linkAt` and `Shape.update` say what one change of a table
does to it; the moves of the source are compositions of these.
-/

set_option autoImplicit false

namespace AuraRedis

/-- A mask by a power of two. -/
theorem mask_lt {n p : Nat} (h : n = 2 ^ p) (x : Nat) : x &&& (n - 1) < n := by
  rw [h, Nat.and_two_pow_sub_one_eq_mod]
  exact Nat.mod_lt _ (Nat.two_pow_pos p)

theorem entrySlot_lt {n p : Nat} (h : n = 2 ^ p) (e : ArEntry) : entrySlot n e < n := mask_lt h _

theorem keyEq_iff {key : Bytes} {e : ArEntry} : keyEq key e = true ↔ e.key = key := by
  rw [keyEq, beq_iff_eq]

namespace Dict

/-- All the entries of both tables. -/
def entries (d : Dict) : Multiset ArEntry := d.hot.entries + d.cold.entries

structure Shape (d : Dict) : Prop where
  hotPow : ∃ p, d.hot.length = 2 ^ p
  coldPow : d.layout = .hotCold → ∃ p, d.cold.length = 2 ^ p
  flatCold : d.layout = .flat → d.cold = []
  hotPlaced : d.hot.Placed entrySlot
  coldPlaced : d.cold.Placed entrySlot
  nodup : (d.entries.map (·.key)).Nodup

/-- **The representation invariant.** -/
structure WF (d : Dict) : Prop extends Shape d where
  nkeys : d.nkeys = d.entries.card
  hotNkeys : d.layout = .hotCold → d.hotNkeys = d.hot.entries.card
  coldNkeys : d.layout = .hotCold → d.coldNkeys = d.cold.entries.card

/-! ## Tables and tiers -/

@[simp] theorem table_setTable (d : Dict) (t : Table) (tier : Tier) :
    (d.setTable t tier).table tier = t := by cases tier <;> rfl

@[simp] theorem layout_setTable (d : Dict) (t : Table) (tier : Tier) :
    (d.setTable t tier).layout = d.layout := by cases tier <;> rfl

@[simp] theorem nkeys_setTable (d : Dict) (t : Table) (tier : Tier) :
    (d.setTable t tier).nkeys = d.nkeys := by cases tier <;> rfl

@[simp] theorem hotNkeys_setTable (d : Dict) (t : Table) (tier : Tier) :
    (d.setTable t tier).hotNkeys = d.hotNkeys := by cases tier <;> rfl

@[simp] theorem coldNkeys_setTable (d : Dict) (t : Table) (tier : Tier) :
    (d.setTable t tier).coldNkeys = d.coldNkeys := by cases tier <;> rfl

/-- Entries, by tier. -/
theorem entries_eq (d : Dict) (tier : Tier) :
    d.entries = (d.table tier).entries +
      (d.table (match tier with | .hot => .cold | .cold => .hot)).entries := by
  cases tier
  · rfl
  · exact add_comm _ _

theorem mem_entries_of_chain {d : Dict} {tier : Tier} {b : Nat} {e : ArEntry}
    (h : e ∈ (d.table tier).chain b) : e ∈ d.entries := by
  rw [d.entries_eq tier]
  exact Multiset.mem_add.2 (.inl (Chains.mem_entries_of_chain h))

/-- A lookup in the cold tier goes to the cold table. -/
theorem owner_of_chain {d : Dict} {tier : Tier} {b : Nat} {e : ArEntry}
    (h : e ∈ (d.table tier).chain b) : d.owner tier = tier := by
  cases tier with
  | hot => rfl
  | cold =>
    have := Chains.lt_of_mem_chain h
    rw [owner, if_neg]
    intro hc
    rw [table, List.isEmpty_iff.1 hc] at this
    simp at this

/-- Writing through a pointer. -/
theorem entries_update (d : Dict) (key : Bytes) (f : ArEntry → ArEntry) :
    (d.update key f).entries = d.entries.map fun e => if keyEq key e then f e else e := by
  rw [entries, entries, Multiset.map_add, ← Chains.entries_update, ← Chains.entries_update]
  rfl

namespace Shape

variable {d : Dict}

theorem placed (h : d.Shape) (tier : Tier) : (d.table tier).Placed entrySlot := by
  cases tier
  · exact h.hotPlaced
  · exact h.coldPlaced

theorem key_inj (h : d.Shape) {e e' : ArEntry} (he : e ∈ d.entries) (he' : e' ∈ d.entries)
    (hk : e.key = e'.key) : e = e' := Multiset.inj_on_of_nodup_map h.nodup e he e' he' hk

/-- The entry a chain holds under a key is the only one. -/
theorem chain_unique (h : d.Shape) {tier : Tier} {b : Nat} {e : ArEntry}
    (he : e ∈ (d.table tier).chain b) :
    ∀ x ∈ (d.table tier).chain b, keyEq e.key x = true → x = e := fun _ hx hk =>
  h.key_inj (mem_entries_of_chain hx) (mem_entries_of_chain he) (keyEq_iff.1 hk)

theorem pow_pos (h : d.Shape) : 0 < d.hot.length := by
  obtain ⟨p, hp⟩ := h.hotPow
  rw [hp]
  exact Nat.two_pow_pos p

/-! ## One table changes -/

/-- A table of the same length, with placed entries and no key twice, keeps the shape. -/
theorem setTable (h : d.Shape) {tier : Tier} {t : Table} (hl : t.length = (d.table tier).length)
    (hp : t.Placed entrySlot) (hn : ((d.setTable t tier).entries.map (·.key)).Nodup) :
    (d.setTable t tier).Shape := by
  cases tier with
  | hot =>
    refine ⟨?_, h.coldPow, h.flatCold, hp, h.coldPlaced, hn⟩
    obtain ⟨p, hpow⟩ := h.hotPow
    exact ⟨p, hl.trans hpow⟩
  | cold =>
    refine ⟨h.hotPow, fun hlay => ?_, fun hlay => ?_, h.hotPlaced, hp, hn⟩
    · obtain ⟨p, hpow⟩ := h.coldPow hlay
      exact ⟨p, hl.trans hpow⟩
    · have hc : d.cold.length = 0 := by rw [h.flatCold hlay]; rfl
      exact List.length_eq_zero_iff.1 (hl.trans hc)

/-- **Unlinking an entry** from the chain that holds it. -/
theorem unlink (h : d.Shape) {tier : Tier} {b : Nat} {e : ArEntry}
    (he : e ∈ (d.table tier).chain b) :
    (d.unlink tier b e.key).Shape ∧
      (d.table tier).entries = e ::ₘ ((d.unlink tier b e.key).table tier).entries ∧
      d.entries = e ::ₘ (d.unlink tier b e.key).entries := by
  have ht : (d.table tier).entries = e ::ₘ ((d.table tier).remove b (keyEq e.key)).entries :=
    Chains.entries_remove he (keyEq_iff.2 rfl) (h.chain_unique he)
  have hent : d.entries = e ::ₘ (d.unlink tier b e.key).entries := by
    cases tier with
    | hot => exact (congrArg (· + d.cold.entries) ht).trans (Multiset.cons_add ..)
    | cold => exact (congrArg (d.hot.entries + ·) ht).trans (Multiset.add_cons ..)
  refine ⟨h.setTable (Chains.length_remove ..) ((h.placed tier).remove b _) ?_, ?_, hent⟩
  · have := h.nodup
    rw [hent, Multiset.map_cons, Multiset.nodup_cons] at this
    exact this.2
  · rw [Dict.unlink, table_setTable]
    exact ht

/-- **Linking an entry** under a key that is not there, in the chain of its key. -/
theorem linkAt (h : d.Shape) {tier : Tier} {b : Nat} {e : ArEntry}
    (hb : entrySlot (d.table tier).length e = b) (hlt : b < (d.table tier).length)
    (hk : ∀ x ∈ d.entries, x.key ≠ e.key) :
    (d.linkAt tier b e).Shape ∧
      ((d.linkAt tier b e).table tier).entries = e ::ₘ (d.table tier).entries ∧
      (d.linkAt tier b e).entries = e ::ₘ d.entries := by
  have ht : ((d.table tier).push b e).entries = e ::ₘ (d.table tier).entries :=
    Chains.entries_push hlt e
  have hent : (d.linkAt tier b e).entries = e ::ₘ d.entries := by
    cases tier with
    | hot => exact (congrArg (· + d.cold.entries) ht).trans (Multiset.cons_add ..)
    | cold => exact (congrArg (d.hot.entries + ·) ht).trans (Multiset.add_cons ..)
  refine ⟨h.setTable (Chains.length_push ..) ((h.placed tier).push hb hlt) ?_, ?_, hent⟩
  · show ((d.linkAt tier b e).entries.map (·.key)).Nodup
    rw [hent, Multiset.map_cons, Multiset.nodup_cons]
    refine ⟨fun hm => ?_, h.nodup⟩
    obtain ⟨x, hx, he⟩ := Multiset.mem_map.1 hm
    exact hk x hx he
  · rw [Dict.linkAt, table_setTable]
    exact ht

/-- **Writing through a pointer**, the key apart. -/
theorem update (h : d.Shape) (key : Bytes) {f : ArEntry → ArEntry} (hf : ∀ e, (f e).key = e.key) :
    (d.update key f).Shape ∧
      (d.update key f).entries = d.entries.map fun e => if keyEq key e then f e else e := by
  have hg : ∀ e, (if keyEq key e then f e else e).key = e.key := fun e => by split <;> simp [hf]
  have hent := d.entries_update key f
  have hslot : ∀ n e, entrySlot n (if keyEq key e then f e else e) = entrySlot n e := fun n e => by
    rw [entrySlot, hg, entrySlot]
  refine ⟨⟨?_, ?_, ?_, h.hotPlaced.update hslot, h.coldPlaced.update hslot, ?_⟩, hent⟩
  · obtain ⟨p, hp⟩ := h.hotPow
    exact ⟨p, (Chains.length_update ..).trans hp⟩
  · intro hl
    obtain ⟨p, hp⟩ := h.coldPow hl
    exact ⟨p, (Chains.length_update ..).trans hp⟩
  · intro hl
    show d.cold.update _ = []
    rw [h.flatCold hl]
    rfl
  · have hkeys : (d.update key f).entries.map (·.key) = d.entries.map (·.key) := by
      rw [hent, Multiset.map_map]
      exact Multiset.map_congr rfl fun e _ => hg e
    rw [hkeys]
    exact h.nodup

end Shape

/-! ## The changes of the source -/

/-- The shape does not depend on the counters. -/
theorem Shape.congr {d d' : Dict} (h : d.Shape) (hh : d'.hot = d.hot) (hc : d'.cold = d.cold)
    (hl : d'.layout = d.layout) : d'.Shape := by
  obtain ⟨h₁, h₂, h₃, h₄, h₅, h₆⟩ := h
  refine ⟨by rwa [hh], by rwa [hc, hl], by rwa [hc, hl], by rwa [hh], by rwa [hc], ?_⟩
  rwa [entries, hh, hc]

theorem entries_congr {d d' : Dict} (hh : d'.hot = d.hot) (hc : d'.cold = d.cold) :
    d'.entries = d.entries := by rw [entries, entries, hh, hc]

@[simp] theorem hot_decTier (d : Dict) (tier : Tier) : (d.decTier tier).hot = d.hot := by
  cases tier <;> rfl

@[simp] theorem cold_decTier (d : Dict) (tier : Tier) : (d.decTier tier).cold = d.cold := by
  cases tier <;> rfl

@[simp] theorem layout_decTier (d : Dict) (tier : Tier) : (d.decTier tier).layout = d.layout := by
  cases tier <;> rfl

@[simp] theorem nkeys_decTier (d : Dict) (tier : Tier) : (d.decTier tier).nkeys = d.nkeys := by
  cases tier <;> rfl

@[simp] theorem hot_incHot (d : Dict) : d.incHot.hot = d.hot := rfl

@[simp] theorem cold_incHot (d : Dict) : d.incHot.cold = d.cold := rfl

@[simp] theorem layout_incHot (d : Dict) : d.incHot.layout = d.layout := rfl

@[simp] theorem nkeys_incHot (d : Dict) : d.incHot.nkeys = d.nkeys := rfl

@[simp] theorem length_hot_unlink (d : Dict) (tier : Tier) (b : Nat) (key : Bytes) :
    (d.unlink tier b key).hot.length = d.hot.length := by
  cases tier with
  | hot => exact Chains.length_remove ..
  | cold => rfl

@[simp] theorem length_hot_link (d : Dict) (tier : Tier) (e : ArEntry) :
    (d.link tier e).hot.length = d.hot.length := by
  cases tier with
  | hot => exact Chains.length_push ..
  | cold => rfl

theorem hotNkeys_incHot {d : Dict} (h : d.layout = .hotCold) :
    d.incHot.hotNkeys = d.hotNkeys + 1 := if_pos h

@[simp] theorem coldNkeys_incHot (d : Dict) : d.incHot.coldNkeys = d.coldNkeys := rfl

/-- An entry leaves its table, and the tier's counter with it. -/
theorem WF.unlink_decTier {d : Dict} (h : d.WF) {tier : Tier} {b : Nat} {e : ArEntry}
    (he : e ∈ (d.table tier).chain b) :
    let d' := (d.unlink tier b e.key).decTier tier
    d'.Shape ∧ d.entries = e ::ₘ d'.entries ∧ d'.nkeys = d.nkeys ∧ d'.layout = d.layout ∧
      (d.layout = .hotCold → d'.hotNkeys = d'.hot.entries.card ∧
        d'.coldNkeys = d'.cold.entries.card) := by
  intro d'
  obtain ⟨hs, ht, hent⟩ := h.toShape.unlink he
  refine ⟨hs.congr (hot_decTier ..) (cold_decTier ..) (layout_decTier ..), ?_, ?_, ?_, fun hl => ?_⟩
  · rw [hent, entries_congr (hot_decTier ..) (cold_decTier ..)]
  · rw [nkeys_decTier, Dict.unlink, nkeys_setTable]
  · rw [layout_decTier, Dict.unlink, layout_setTable]
  · have hh := h.hotNkeys hl
    have hc := h.coldNkeys hl
    have hcard := congrArg Multiset.card ht
    rw [Multiset.card_cons] at hcard
    have hlay : (d.unlink tier b e.key).layout = .hotCold := by
      rw [Dict.unlink, layout_setTable, hl]
    cases tier with
    | hot =>
      have hcard : d.hot.entries.card = d'.hot.entries.card + 1 := hcard
      have h₁ : d'.hotNkeys = d.hotNkeys - 1 := if_pos hlay
      have h₂ : d'.coldNkeys = d.coldNkeys := rfl
      have h₃ : d'.cold = d.cold := rfl
      rw [h₁, h₂, h₃]
      omega
    | cold =>
      have hcard : d.cold.entries.card = d'.cold.entries.card + 1 := hcard
      have h₁ : d'.hotNkeys = d.hotNkeys := rfl
      have h₂ : d'.coldNkeys = d.coldNkeys - 1 := if_pos hlay
      have h₃ : d'.hot = d.hot := rfl
      rw [h₁, h₂, h₃]
      omega

/-- An entry enters the hot table under a new key, and the tier's counter with it. -/
theorem Shape.linkAt_incHot {d : Dict} (h : d.Shape) {b : Nat} {e : ArEntry}
    (hb : entrySlot d.hot.length e = b) (hk : ∀ x ∈ d.entries, x.key ≠ e.key)
    (hn : d.layout = .hotCold → d.hotNkeys = d.hot.entries.card ∧
      d.coldNkeys = d.cold.entries.card) :
    let d' := (d.linkAt .hot b e).incHot
    d'.Shape ∧ d'.entries = e ::ₘ d.entries ∧ d'.nkeys = d.nkeys ∧ d'.layout = d.layout ∧
      (d.layout = .hotCold → d'.hotNkeys = d'.hot.entries.card ∧
        d'.coldNkeys = d'.cold.entries.card) := by
  intro d'
  obtain ⟨p, hp⟩ := h.hotPow
  have hlt : b < d.hot.length := by rw [← hb]; exact entrySlot_lt hp e
  obtain ⟨hs, ht, hent⟩ := h.linkAt (show entrySlot (d.table .hot).length e = b from hb) hlt hk
  refine ⟨hs.congr (hot_incHot _) (cold_incHot _) (layout_incHot _), ?_, ?_, ?_, fun hl => ?_⟩
  · rw [entries_congr (hot_incHot _) (cold_incHot _), hent]
  · rw [nkeys_incHot, Dict.linkAt, nkeys_setTable]
  · rw [layout_incHot, Dict.linkAt, layout_setTable]
  · obtain ⟨hh, hc⟩ := hn hl
    have hlay : (d.linkAt .hot b e).layout = .hotCold := by rw [Dict.linkAt, layout_setTable, hl]
    have hcard := congrArg Multiset.card ht
    rw [Multiset.card_cons] at hcard
    have hcard' : d'.hot.entries.card = d.hot.entries.card + 1 := hcard
    have h₁ : d'.hotNkeys = d.hotNkeys + 1 := hotNkeys_incHot hlay
    have h₂ : d'.coldNkeys = d.coldNkeys := coldNkeys_incHot _
    have h₃ : d'.cold = d.cold := cold_incHot _
    rw [h₁, h₂, h₃]
    omega

/-- `ar_entry_free_ex`. -/
theorem WF.release {d : Dict} (h : d.WF) {tier : Tier} {b : Nat} {e : ArEntry}
    (he : e ∈ (d.table tier).chain b) {d₀ d' : Dict}
    (hd₀ : d₀ = (d.unlink (d.owner tier) b e.key).decTier tier)
    (hd' : d' = { d₀ with nkeys := d₀.nkeys - 1 }) :
    d'.WF ∧ d.entries = e ::ₘ d'.entries := by
  rw [owner_of_chain he] at hd₀
  obtain ⟨hs, hent, hn, hl, hcount⟩ := h.unlink_decTier he
  rw [← hd₀] at hs hent hn hl hcount
  have hnk := h.nkeys
  rw [hent, Multiset.card_cons] at hnk
  subst hd'
  refine ⟨⟨hs.congr rfl rfl rfl, ?_, fun hlay => ?_, fun hlay => ?_⟩, hent⟩
  · show d₀.nkeys - 1 = d₀.entries.card
    omega
  · exact (hcount (hl ▸ hlay)).1
  · exact (hcount (hl ▸ hlay)).2

/-- A new entry in the hot table. -/
theorem WF.linkNew {d : Dict} (h : d.WF) {b : Nat} {e : ArEntry}
    (hb : entrySlot d.hot.length e = b) (hk : ∀ x ∈ d.entries, x.key ≠ e.key) {d₀ d' : Dict}
    (hd₀ : d₀ = d.linkAt .hot b e) (hd' : d' = ({ d₀ with nkeys := d₀.nkeys + 1 } : Dict).incHot) :
    d'.WF ∧ d'.entries = e ::ₘ d.entries := by
  obtain ⟨hs, hent, hn, hl, hcount⟩ :=
    h.toShape.linkAt_incHot hb hk fun hl => ⟨h.hotNkeys hl, h.coldNkeys hl⟩
  have hnk := h.nkeys
  have hent' : d'.entries = e ::ₘ d.entries := by
    subst hd' hd₀
    exact hent
  subst hd' hd₀
  refine ⟨⟨hs.congr rfl rfl rfl, ?_, fun hlay => (hcount ?_).1, fun hlay => (hcount ?_).2⟩, hent'⟩
  · show d.nkeys + 1 = _
    rw [hent', Multiset.card_cons, hnk]
  · exact hlay
  · exact hlay

/-- The name of an entry changes: it leaves its chain and enters the chain of its new name in the hot
table. -/
theorem WF.rename {d : Dict} (h : d.WF) {tier : Tier} {b : Nat} {e : ArEntry} (e' : ArEntry)
    (he : e ∈ (d.table tier).chain b) (hk : ∀ x ∈ d.entries, x.key ≠ e'.key) {d₀ d' : Dict}
    (hd₀ : d₀ = (d.unlink (d.owner tier) b e.key).decTier tier)
    (hd' : d' = (d₀.link .hot e').incHot) :
    ∃ s, d.entries = e ::ₘ s ∧ d'.WF ∧ d'.entries = e' ::ₘ s := by
  rw [owner_of_chain he] at hd₀
  obtain ⟨hs, hent, hn, hl, hcount⟩ := h.unlink_decTier he
  rw [← hd₀] at hs hent hn hl hcount
  have hk₀ : ∀ x ∈ d₀.entries, x.key ≠ e'.key := fun x hx =>
    hk x (by rw [hent]; exact Multiset.mem_cons_of_mem hx)
  obtain ⟨hs', hent', hn', hl', hcount'⟩ := hs.linkAt_incHot rfl hk₀ (hl ▸ hcount)
  refine ⟨d₀.entries, hent, ?_, hd' ▸ hent'⟩
  have hnk := h.nkeys
  rw [hent, Multiset.card_cons] at hnk
  subst hd'
  refine ⟨hs', ?_, fun hlay => (hcount' (hl' ▸ hlay)).1, fun hlay => (hcount' (hl' ▸ hlay)).2⟩
  have hcard := congrArg Multiset.card hent'
  rw [Multiset.card_cons] at hcard
  exact hn'.trans (hn.trans (hnk.trans hcard.symm))

/-- An entry leaves one tier for the front of its chain in the other. -/
theorem Shape.move {d : Dict} (h : d.Shape) (hl : d.layout = .hotCold) {from_ to_ : Tier}
    (hne : from_ ≠ to_) {b : Nat} {e : ArEntry} (he : e ∈ (d.table from_).chain b) {d₁ : Dict}
    (hd₁ : d₁ = (d.unlink from_ b e.key).link to_ e) :
    d₁.Shape ∧ d₁.entries = d.entries ∧ d₁.nkeys = d.nkeys ∧
      (d.table from_).entries = e ::ₘ (d₁.table from_).entries ∧
      (d₁.table to_).entries = e ::ₘ (d.table to_).entries := by
  obtain ⟨hs, ht, hent⟩ := h.unlink he
  set d₀ := d.unlink from_ b e.key with hd₀
  have hlen : ∃ p, (d₀.table to_).length = 2 ^ p := by
    cases to_ with
    | hot => exact hs.hotPow
    | cold => exact hs.coldPow (by rw [hd₀, Dict.unlink, layout_setTable, hl])
  have hk : ∀ x ∈ d₀.entries, x.key ≠ e.key := by
    have := h.nodup
    rw [hent, Multiset.map_cons, Multiset.nodup_cons] at this
    exact fun x hx he => this.1 (Multiset.mem_map.2 ⟨x, hx, he⟩)
  obtain ⟨p, hp⟩ := hlen
  obtain ⟨hs', ht', hent'⟩ := hs.linkAt rfl (entrySlot_lt hp e) hk
  have hfrom : (d₁.table from_).entries = (d₀.table from_).entries := by
    subst hd₁
    cases from_ <;> cases to_ <;> first | rfl | exact absurd rfl hne
  have hto : (d₀.table to_).entries = (d.table to_).entries := by
    cases from_ <;> cases to_ <;> first | rfl | exact absurd rfl hne
  have hn : d₁.nkeys = d.nkeys := by
    rw [hd₁, Dict.link, Dict.linkAt, nkeys_setTable, hd₀, Dict.unlink, nkeys_setTable]
  refine ⟨hd₁ ▸ hs', ?_, hn, ?_, ?_⟩
  · rw [hent, hd₁]; exact hent'
  · rw [hfrom, ht]
  · rw [← hto, hd₁]; exact ht'

/-- Promotion. -/
theorem WF.promote {d : Dict} (h : d.WF) (hl : d.layout = .hotCold) {b : Nat} {e : ArEntry}
    (he : e ∈ d.cold.chain b) {d₁ d₂ d₃ : Dict} (hd₁ : d₁ = d.unlink .cold b e.key)
    (hd₂ : d₂ = ({ d₁ with coldNkeys := d₁.coldNkeys - 1 } : Dict).link .hot e)
    (hd₃ : d₃ = { d₂ with hotNkeys := d₂.hotNkeys + 1 }) : d₃.WF ∧ d₃.entries = d.entries := by
  obtain ⟨hs, hent, hn, hf, ht⟩ := h.toShape.move hl (show Tier.cold ≠ .hot by decide) he rfl
  have hf := congrArg Multiset.card hf
  have ht := congrArg Multiset.card ht
  rw [Multiset.card_cons] at hf ht
  have hh := h.hotNkeys hl
  have hc := h.coldNkeys hl
  subst hd₃ hd₂ hd₁
  refine ⟨⟨hs.congr rfl rfl rfl, ?_, fun _ => ?_, fun _ => ?_⟩, hent⟩
  · exact h.nkeys.trans (congrArg Multiset.card hent.symm)
  · exact (congrArg (· + 1) hh).trans ht.symm
  · show d.coldNkeys - 1 = _
    rw [hc]
    exact Nat.sub_eq_of_eq_add hf

/-- Demotion. -/
theorem WF.demote {d : Dict} (h : d.WF) (hl : d.layout = .hotCold) {b : Nat} {e : ArEntry}
    (he : e ∈ d.hot.chain b) {d₁ d₂ d₃ : Dict} (hd₁ : d₁ = d.unlink .hot b e.key)
    (hd₂ : d₂ = ({ d₁ with hotNkeys := d₁.hotNkeys - 1 } : Dict).link .cold e)
    (hd₃ : d₃ = { d₂ with coldNkeys := d₂.coldNkeys + 1 }) : d₃.WF ∧ d₃.entries = d.entries := by
  obtain ⟨hs, hent, hn, hf, ht⟩ := h.toShape.move hl (show Tier.hot ≠ .cold by decide) he rfl
  have hf := congrArg Multiset.card hf
  have ht := congrArg Multiset.card ht
  rw [Multiset.card_cons] at hf ht
  have hh := h.hotNkeys hl
  have hc := h.coldNkeys hl
  subst hd₃ hd₂ hd₁
  refine ⟨⟨hs.congr rfl rfl rfl, ?_, fun _ => ?_, fun _ => ?_⟩, hent⟩
  · exact h.nkeys.trans (congrArg Multiset.card hent.symm)
  · show d.hotNkeys - 1 = _
    rw [hh]
    exact Nat.sub_eq_of_eq_add hf
  · exact (congrArg (· + 1) hc).trans ht.symm

/-- Writing through a pointer, the key apart. -/
theorem WF.update {d : Dict} (h : d.WF) {key : Bytes} {f : ArEntry → ArEntry}
    (hf : ∀ e, (f e).key = e.key) : (d.update key f).WF := by
  obtain ⟨hs, hent⟩ := h.toShape.update key hf
  refine ⟨hs, ?_, fun hl => ?_, fun hl => ?_⟩
  · rw [hent, Multiset.card_map]
    exact h.nkeys
  · show d.hotNkeys = (Chains.entries (d.hot.update _)).card
    rw [Chains.entries_update, Multiset.card_map]
    exact h.hotNkeys hl
  · show d.coldNkeys = (Chains.entries (d.cold.update _)).card
    rw [Chains.entries_update, Multiset.card_map]
    exact h.coldNkeys hl

/-- A table is doubled. -/
theorem WF.rehash {d : Dict} (h : d.WF) {tier : Tier} (ht : ∃ p, (d.table tier).length = 2 ^ p)
    {d' : Dict} (hd' : d' = d.setTable
      ((d.table tier).rehash entrySlot ((d.table tier).length * 2)) tier) :
    d'.WF ∧ d'.entries = d.entries := by
  obtain ⟨p, hp⟩ := ht
  have hpow : (d.table tier).length * 2 = 2 ^ (p + 1) := by rw [hp, Nat.pow_succ]
  have hslot : ∀ e, entrySlot ((d.table tier).length * 2) e < (d.table tier).length * 2 :=
    fun e => entrySlot_lt hpow e
  have htab : (d'.table tier).entries = (d.table tier).entries := by
    rw [hd', table_setTable, Chains.entries_rehash hslot]
  have hplaced : (d'.table tier).Placed entrySlot := by
    rw [hd', table_setTable]
    exact Chains.placed_rehash hslot
  have hlen : (d'.table tier).length = 2 ^ (p + 1) := by
    rw [hd', table_setTable, Chains.length_rehash, hpow]
  have hent : d'.entries = d.entries := by
    rw [hd']
    cases tier with
    | hot => exact congrArg (· + d.cold.entries) (hd' ▸ htab)
    | cold => exact congrArg (d.hot.entries + ·) (hd' ▸ htab)
  refine ⟨?_, hent⟩
  have hnodup : (d'.entries.map (·.key)).Nodup := hent ▸ h.nodup
  have hnk : d'.nkeys = d'.entries.card := by rw [hent, hd', nkeys_setTable]; exact h.nkeys
  cases tier with
  | hot =>
    subst hd'
    refine ⟨⟨⟨_, hlen⟩, h.coldPow, h.flatCold, hplaced, h.coldPlaced, hnodup⟩, hnk,
      fun hl => ?_, h.coldNkeys⟩
    exact (h.hotNkeys hl).trans (congrArg Multiset.card htab.symm)
  | cold =>
    have hc : d.layout ≠ .flat := fun hl => by
      have hz : d.cold.length = 0 := by rw [h.flatCold hl]; rfl
      have := Nat.two_pow_pos p
      rw [← hp] at this
      exact absurd hz (Nat.ne_of_gt this)
    subst hd'
    refine ⟨⟨h.hotPow, fun _ => ⟨_, hlen⟩, fun hl => absurd hl hc, h.hotPlaced, hplaced, hnodup⟩,
      hnk, h.hotNkeys, fun hl => ?_⟩
    exact (h.coldNkeys hl).trans (congrArg Multiset.card htab.symm)

/-- `migrate_to_hot_cold`: a cold tier, empty. -/
theorem WF.addCold {d : Dict} (h : d.WF) (hl : d.layout = .flat) {cn p : Nat} (hcn : cn = 2 ^ p)
    {d' : Dict} (hd' : d' = { d with cold := List.replicate cn [], coldNkeys := 0,
                                     hotNkeys := d.nkeys, layout := .hotCold }) :
    d'.WF ∧ d'.entries = d.entries := by
  have hz : Chains.entries d.cold = 0 := by rw [h.flatCold hl]; rfl
  have hent : d'.entries = d.entries := by
    rw [entries, entries, hz, hd']
    exact congrArg (d.hot.entries + ·) (Chains.entries_replicate cn)
  refine ⟨?_, hent⟩
  have hnk : d'.nkeys = d'.entries.card := by rw [hent, hd']; exact h.nkeys
  have hnodup : (d'.entries.map (·.key)).Nodup := hent ▸ h.nodup
  subst hd'
  refine ⟨⟨h.hotPow, fun _ => ⟨p, ?_⟩, (fun hf => by cases hf), h.hotPlaced,
    Chains.placed_replicate cn, hnodup⟩, hnk, fun _ => ?_, fun _ => ?_⟩
  · rw [List.length_replicate, hcn]
  · show d.nkeys = d.hot.entries.card
    rw [h.nkeys, entries, hz, add_zero]
  · show 0 = (Chains.entries (List.replicate cn [])).card
    rw [Chains.entries_replicate, Multiset.card_zero]

/-- `migrate_to_flat`: the cold tier folded into the hot one. -/
theorem WF.foldCold {d : Dict} (h : d.WF) {d' : Dict}
    (hd' : d' = { d with hot := d.hot.pushAll entrySlot d.cold.flatten, cold := [], coldNkeys := 0,
                         hotNkeys := 0, layout := .flat }) :
    d'.WF ∧ d'.entries = d.entries := by
  obtain ⟨p, hp⟩ := h.hotPow
  have hslot : ∀ e, entrySlot d.hot.length e < d.hot.length := fun e => entrySlot_lt hp e
  have hent : d'.entries = d.entries := by
    have := Chains.entries_pushAll hslot d.cold.flatten
    rw [hd', entries, entries, add_comm d.hot.entries]
    exact (congrArg (· + (0 : Multiset ArEntry)) this).trans (add_zero _)
  refine ⟨?_, hent⟩
  have hnk : d'.nkeys = d'.entries.card := by rw [hent, hd']; exact h.nkeys
  have hnodup : (d'.entries.map (·.key)).Nodup := hent ▸ h.nodup
  subst hd'
  refine ⟨⟨⟨p, ?_⟩, (fun hl => by cases hl), fun _ => rfl, h.hotPlaced.pushAll hslot _,
    Chains.placed_replicate 0, hnodup⟩, hnk, (fun hl => by cases hl), fun hl => by cases hl⟩
  exact (Chains.length_pushAll _).trans hp

/-- `ar_flushdb`. -/
theorem WF.flush {d : Dict} (h : d.WF) {d' : Dict}
    (hd' : d' = { d with hot := List.replicate d.hot.length [],
                         cold := List.replicate d.cold.length [],
                         coldNkeys := if d.cold.isEmpty then d.coldNkeys else 0,
                         nkeys := 0, hotNkeys := 0 }) :
    d'.WF ∧ d'.entries = 0 := by
  have hhot : Chains.entries d'.hot = 0 := by rw [hd']; exact Chains.entries_replicate _
  have hcold : Chains.entries d'.cold = 0 := by rw [hd']; exact Chains.entries_replicate _
  have hent : d'.entries = 0 := by rw [entries, hhot, hcold, add_zero]
  refine ⟨?_, hent⟩
  have hnk : d'.nkeys = d'.entries.card := by rw [hent, hd', Multiset.card_zero]
  have hnodup : (d'.entries.map (·.key)).Nodup := by rw [hent]; exact Multiset.nodup_zero
  subst hd'
  refine ⟨⟨?_, fun hl => ?_, fun hl => ?_, Chains.placed_replicate _, Chains.placed_replicate _,
    hnodup⟩, hnk, fun _ => ?_, fun hl => ?_⟩
  · obtain ⟨p, hp⟩ := h.hotPow
    exact ⟨p, (List.length_replicate ..).trans hp⟩
  · obtain ⟨p, hp⟩ := h.coldPow hl
    exact ⟨p, (List.length_replicate ..).trans hp⟩
  · show List.replicate d.cold.length [] = []
    rw [h.flatCold hl]
    rfl
  · exact (congrArg Multiset.card hhot).symm
  · obtain ⟨p, hp⟩ := h.coldPow hl
    have hne : d.cold.isEmpty = false := by
      rw [List.isEmpty_eq_false_iff, ← List.length_pos_iff]
      exact hp ▸ Nat.two_pow_pos p
    show (if d.cold.isEmpty = true then d.coldNkeys else 0) = _
    rw [hne, if_neg (by decide)]
    exact (congrArg Multiset.card hcold).symm

end Dict

end AuraRedis
