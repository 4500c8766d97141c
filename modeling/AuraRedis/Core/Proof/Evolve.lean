import AuraRedis.Core.Proof.Journal
import AuraRedis.Core.Proof.Hash

/-!
# What an operation does to the core

`items c` is what the dictionary of `c` holds, as a multiset. `Quiet c c'` says that nothing but
statistics and the physical place of the entries changed. `Evolves t B K W c c'` is what an operation
of the key space may do at time `t`: it keeps the core well formed; it posts to the accounts on the terms
`B`; outside `K` it only takes entries away, those that are due unless a kernel evicts; whoever watches
a key that changed, outside `W`, is dirty; connections change by getting dirty only. It composes
(`Evolves.trans`), and a key leaves `W` when its watchers are told (`Evolves.settle`).
-/

set_option autoImplicit false

namespace AuraRedis

/-- What the dictionary holds. -/
def ArCore.items (c : ArCore) : Multiset Item := c.dict.entries.map (·.toItem)

/-- What it holds under a key. -/
def ArCore.itemsAt (c : ArCore) (key : Bytes) : Multiset Item := c.items.filter (·.key = key)

/-- Value and deadline under a key. -/
def ArCore.stored (c : ArCore) (key : Bytes) : Multiset (ArObj × Nat) :=
  (c.itemsAt key).map fun i => (i.obj, i.expireAt)

/-- A sorted set has each member once and no more of them than it may have. -/
structure ArZSet.WF (z : ArZSet) : Prop where
  nodup : (z.arr.map ArZNode.member).Nodup
  len : z.arr.length ≤ ArCore.zsetMaxMembers

def ArObj.WF : ArObj → Prop
  | .hash h => h.WF
  | .zset z => z.WF
  | _ => True

/-- **The invariant of the core.** -/
structure ArCore.WF (c : ArCore) : Prop where
  dict : c.dict.WF
  objs : ∀ i ∈ c.items, i.obj.WF

/-- The accounts. -/
def ArCore.ledger (c : ArCore) : Ledger := (c.mem, c.items)

/-- The accounting of a core is exact. -/
def ArCore.Counted (c : ArCore) : Prop := c.mem.Counts c.items

/-! ## Watchers -/

def ArConn.dirtied (conn : ArConn) : ArConn := { conn with tx := { conn.tx with watchDirty := true } }

/-- The connection itself, or made dirty. -/
def ArConn.Touched (a b : ArConn) : Prop := b = a ∨ b = a.dirtied

/-- Whoever watches the key is dirty. -/
def ArCore.Dirtied (c : ArCore) (key : Bytes) : Prop :=
  ∀ conn ∈ c.conns, conn.inUse = true → key ∈ conn.tx.watchKeys → conn.tx.watchDirty = true

namespace ArConn

theorem Touched.refl (a : ArConn) : Touched a a := .inl rfl

theorem Touched.trans {a b d : ArConn} (h : Touched a b) (h' : Touched b d) : Touched a d := by
  rcases h with rfl | rfl
  · exact h'
  · rcases h' with rfl | rfl
    · exact .inr rfl
    · exact .inr rfl

theorem watchTouch_eq (a : ArConn) (key : Bytes) :
    a.watchTouch key = if a.inUse && decide (key ∈ a.tx.watchKeys) then a.dirtied else a := rfl

theorem touched_watchTouch (a : ArConn) (key : Bytes) : Touched a (a.watchTouch key) := by
  rw [watchTouch_eq]
  split
  · exact .inr rfl
  · exact .inl rfl

theorem touched_watchTouchAll (a : ArConn) : Touched a a.watchTouchAll := by
  unfold watchTouchAll
  split
  · exact .inr rfl
  · exact .inl rfl

end ArConn

/-- Each connection is itself, or made dirty. -/
abbrev ConnsTouched : List ArConn → List ArConn → Prop := List.Forall₂ ArConn.Touched

namespace ConnsTouched

theorem refl (a : List ArConn) : ConnsTouched a a := List.forall₂_same.2 fun x _ => .refl x

theorem trans {a b d : List ArConn} (h : ConnsTouched a b) (h' : ConnsTouched b d) :
    ConnsTouched a d := by
  induction h generalizing d with
  | nil => exact h'
  | cons hx _ ih =>
    obtain ⟨_, _, hy, hl, rfl⟩ := List.forall₂_cons_left_iff.1 h'
    exact .cons (hx.trans hy) (ih hl)

theorem map {f : ArConn → ArConn} (h : ∀ a, ArConn.Touched a (f a)) (l : List ArConn) :
    ConnsTouched l (l.map f) := by
  induction l with
  | nil => exact .nil
  | cons a l ih => exact .cons (h a) ih

/-- Dirty watchers stay dirty. -/
theorem dirtied {c c' : ArCore} (h : ConnsTouched c.conns c'.conns) {key : Bytes}
    (hd : c.Dirtied key) : c'.Dirtied key := by
  have : ∀ {l l' : List ArConn}, ConnsTouched l l' →
      (∀ conn ∈ l, conn.inUse = true → key ∈ conn.tx.watchKeys → conn.tx.watchDirty = true) →
      ∀ conn ∈ l', conn.inUse = true → key ∈ conn.tx.watchKeys → conn.tx.watchDirty = true := by
    intro l l' hl
    induction hl with
    | nil => exact fun _ _ hm => absurd hm List.not_mem_nil
    | @cons a b l l' hab _ ih =>
      intro hd conn hm
      rcases List.mem_cons.1 hm with rfl | hm
      · rcases hab with rfl | rfl
        · exact hd conn (.head _)
        · exact fun _ _ => rfl
      · exact ih (fun x hx => hd x (.tail _ hx)) conn hm
  exact this h hd

end ConnsTouched

theorem dirtied_watchTouch (c : ArCore) (key : Bytes) : (c.arWatchTouch key).Dirtied key := by
  intro conn hm hu hk
  obtain ⟨a, -, rfl⟩ := List.mem_map.1 hm
  by_cases h : (a.inUse && decide (key ∈ a.tx.watchKeys)) = true
  · rw [ArConn.watchTouch_eq, if_pos h]
    rfl
  · rw [ArConn.watchTouch_eq, if_neg h] at hu hk
    exact absurd (by simp [hu, hk]) h

theorem dirtied_watchTouchAll (c : ArCore) (key : Bytes) : c.arWatchTouchAll.Dirtied key := by
  intro conn hm hu hk
  obtain ⟨a, -, rfl⟩ := List.mem_map.1 hm
  unfold ArConn.watchTouchAll at hu hk ⊢
  by_cases h : (a.inUse && !a.tx.watchKeys.isEmpty) = true
  · rw [if_pos h]
  · rw [if_neg h] at hu hk
    have : a.tx.watchKeys.isEmpty = true := by simpa [hu] using h
    rw [List.isEmpty_iff.1 this] at hk
    exact absurd hk List.not_mem_nil

/-! ## Stamps -/

@[simp] theorem clock_noteBigkey (s : Stats) (type : ArType) (bytes : Nat) :
    (s.noteBigkey type bytes).clock = s.clock := by
  unfold Stats.noteBigkey
  split <;> rfl

/-- What the kernels note of an entry is within bounds: no access is later than the clock, and a frequency
is a byte. -/
def ArCore.Stamped (c : ArCore) : Prop :=
  ∀ e ∈ c.dict.entries, e.lastAccess ≤ c.stats.clock ∧ e.lfuFreq ≤ 255

/-- The clock has not gone back, and the notes stay within bounds. -/
structure Stamps (c c' : ArCore) : Prop where
  clock : c.stats.clock ≤ c'.stats.clock
  stamped : c.Stamped → c'.Stamped

namespace Stamps

variable {c c' c'' : ArCore}

/-- What is there was there before, or is stamped. -/
theorem of_entries (hk : c.stats.clock ≤ c'.stats.clock) (h : ∀ e ∈ c'.dict.entries,
    e ∈ c.dict.entries ∨ (e.lastAccess ≤ c'.stats.clock ∧ e.lfuFreq ≤ 255)) : Stamps c c' := by
  refine ⟨hk, fun hs e he => ?_⟩
  rcases h e he with he | he
  · exact ⟨(hs e he).1.trans hk, (hs e he).2⟩
  · exact he

theorem of_dict (hk : c.stats.clock ≤ c'.stats.clock) (hd : c'.dict = c.dict) : Stamps c c' :=
  of_entries hk fun _ he => .inl (hd ▸ he)

theorem refl (c : ArCore) : Stamps c c := of_dict (Nat.le_refl _) rfl

theorem trans (h : Stamps c c') (h' : Stamps c' c'') : Stamps c c'' :=
  ⟨h.clock.trans h'.clock, fun hs => h'.stamped (h.stamped hs)⟩

/-- Writing through a pointer. -/
theorem update {key : Bytes} {f : ArEntry → ArEntry} (hk : c.stats.clock ≤ c'.stats.clock)
    (hd : c'.dict = c.dict.update key f) (hf : ∀ e, e.lastAccess ≤ c.stats.clock → e.lfuFreq ≤ 255 →
      (f e).lastAccess ≤ c'.stats.clock ∧ (f e).lfuFreq ≤ 255) : Stamps c c' := by
  refine ⟨hk, fun hs e he => ?_⟩
  rw [hd, Dict.entries_update] at he
  obtain ⟨e₀, he₀, rfl⟩ := Multiset.mem_map.1 he
  obtain ⟨h₁, h₂⟩ := hs e₀ he₀
  split
  · exact hf e₀ h₁ h₂
  · exact ⟨h₁.trans hk, h₂⟩

end Stamps

/-! ## Changes nobody can see -/

structure Quiet (c c' : ArCore) : Prop where
  dict : c.dict.WF → c'.dict.WF
  items : c'.items = c.items
  mem : c'.mem = c.mem
  conns : c'.conns = c.conns
  cfg : c'.cfg = c.cfg
  srv : c'.srv = c.srv
  grow : c.dict.hot.length ≤ c'.dict.hot.length
  stamps : c.dict.WF → Stamps c c'

namespace Quiet

variable {c c' c'' : ArCore}

theorem refl (c : ArCore) : Quiet c c := ⟨id, rfl, rfl, rfl, rfl, rfl, Nat.le_refl _, fun _ => .refl c⟩

theorem trans (h : Quiet c c') (h' : Quiet c' c'') : Quiet c c'' :=
  ⟨fun hd => h'.dict (h.dict hd), h'.items.trans h.items, h'.mem.trans h.mem,
    h'.conns.trans h.conns, h'.cfg.trans h.cfg, h'.srv.trans h.srv, h.grow.trans h'.grow,
    fun hd => (h.stamps hd).trans (h'.stamps (h.dict hd))⟩

theorem wf (h : Quiet c c') (hwf : c.WF) : c'.WF :=
  ⟨h.dict hwf.dict, by rw [h.items]; exact hwf.objs⟩

theorem itemsAt (h : Quiet c c') (key : Bytes) : c'.itemsAt key = c.itemsAt key := by
  rw [ArCore.itemsAt, h.items, ArCore.itemsAt]

/-- The dictionary was left alone. -/
theorem of_dict (hd : c'.dict = c.dict) (hm : c'.mem = c.mem) (hc : c'.conns = c.conns)
    (hg : c'.cfg = c.cfg) (hs : c'.srv = c.srv) (hk : c.stats.clock ≤ c'.stats.clock) : Quiet c c' :=
  ⟨fun h => hd ▸ h, by rw [ArCore.items, hd, ArCore.items], hm, hc, hg, hs, by rw [hd],
    fun _ => .of_dict hk hd⟩

theorem count (c : ArCore) (f : Stats → Stats)
    (hk : c.stats.clock ≤ (f c.stats).clock) : Quiet c (c.count f) :=
  of_dict rfl rfl rfl rfl rfl hk

theorem rand (E : Env) (c : ArCore) : Quiet c (c.rand E).1 := of_dict rfl rfl rfl rfl rfl (Nat.le_refl _)

theorem malloc (E : Env) (c : ArCore) : Quiet c (c.malloc E).1 := of_dict rfl rfl rfl rfl rfl (Nat.le_refl _)

theorem arNowMs (E : Env) (c : ArCore) : Quiet c (c.arNowMs E).1 :=
  of_dict rfl rfl rfl rfl rfl (Nat.le_refl _)

end Quiet

/-! ## What an operation may do -/

structure Evolves (t : Nat) (B : Terms) (K W : Set Bytes) (c c' : ArCore) : Prop where
  wf : c.WF → c'.WF
  journal : Journal B c.ledger c'.ledger
  frame : ∀ k, k ∉ K → c'.itemsAt k = c.itemsAt k ∨
    (c'.itemsAt k = 0 ∧ (c.cfg.evict = .noop → ∀ i ∈ c.itemsAt k, Due t i.expireAt))
  watch : ∀ k, k ∉ W → c'.stored k = c.stored k ∨ c'.Dirtied k
  conns : ConnsTouched c.conns c'.conns
  cfg : c'.cfg = c.cfg
  srv : c'.srv = c.srv
  grow : c.dict.hot.length ≤ c'.dict.hot.length
  stamps : c.WF → Stamps c c'

namespace Evolves

variable {t : Nat} {B : Terms} {K K' W W' : Set Bytes} {c c' c'' : ArCore}

theorem of_quiet (h : Quiet c c') : Evolves t B ∅ ∅ c c' where
  wf := h.wf
  journal := by
    rw [ArCore.ledger, ArCore.ledger, h.mem, h.items]
  frame k _ := .inl (h.itemsAt k)
  watch k _ := .inl (by rw [ArCore.stored, h.itemsAt, ArCore.stored])
  conns := h.conns ▸ .refl _
  cfg := h.cfg
  srv := h.srv
  grow := h.grow
  stamps hwf := h.stamps hwf.dict

theorem refl (c : ArCore) : Evolves t B ∅ ∅ c c := .of_quiet (.refl c)

theorem mono (h : Evolves t B K W c c') (hK : K ⊆ K') (hW : W ⊆ W') : Evolves t B K' W' c c' :=
  { h with
    frame := fun k hk => h.frame k fun hm => hk (hK hm)
    watch := fun k hk => h.watch k fun hm => hk (hW hm) }

theorem counts (h : Evolves t B K W c c') (hB : B.exact) (hc : c.Counted) : c'.Counted := h.journal.counts hB hc

/-- **One operation after the other.** -/
theorem trans (h : Evolves t B K W c c') (h' : Evolves t B K' W' c' c'') :
    Evolves t B (K ∪ K') (W ∪ W') c c'' where
  wf hwf := h'.wf (h.wf hwf)
  journal := h.journal.trans h'.journal
  frame k hk := by
    have h₁ := h.frame k fun hm => hk (.inl hm)
    have h₂ := h'.frame k fun hm => hk (.inr hm)
    rw [h.cfg] at h₂
    rcases h₂ with he' | ⟨hz, hd'⟩
    · rwa [he']
    · rcases h₁ with he | ⟨_, hd⟩
      · rw [he] at hd'
        exact .inr ⟨hz, hd'⟩
      · exact .inr ⟨hz, hd⟩
  watch k hk := by
    rcases h'.watch k fun hm => hk (.inr hm) with he | hd
    · rcases h.watch k fun hm => hk (.inl hm) with he' | hd
      · exact .inl (he.trans he')
      · exact .inr (h'.conns.dirtied hd)
    · exact .inr hd
  conns := h.conns.trans h'.conns
  cfg := h'.cfg.trans h.cfg
  srv := h'.srv.trans h.srv
  grow := h.grow.trans h'.grow
  stamps hwf := (h.stamps hwf).trans (h'.stamps (h.wf hwf))

/-- An operation on the same keys. -/
theorem comp (h : Evolves t B K W c c') (h' : Evolves t B K W c' c'') : Evolves t B K W c c'' :=
  (h.trans h').mono (by simp) (by simp)

/-- Then something that touches nothing of its own. -/
theorem andThen (h : Evolves t B K W c c') (h' : Evolves t B ∅ ∅ c' c'') :
    Evolves t B K W c c'' := (h.trans h').mono (by simp) (by simp)

/-- First something that touches nothing of its own. -/
theorem after (h' : Evolves t B K W c' c'') (h : Evolves t B ∅ ∅ c c') :
    Evolves t B K W c c'' := (h.trans h').mono (by simp) (by simp)

theorem quiet (h : Evolves t B K W c c') (h' : Quiet c' c'') : Evolves t B K W c c'' :=
  h.andThen (of_quiet h')

/-- The watchers of everything in `W` are dirty. -/
theorem of_dirtied (h : Evolves t B K W c c') (hW : ∀ k ∈ W, c'.Dirtied k) :
    Evolves t B K ∅ c c' := by
  refine { h with watch := fun k _ => ?_ }
  by_cases hk : k ∈ W
  · exact .inr (hW k hk)
  · exact h.watch k hk

/-- Telling watchers changes nothing else. -/
theorem touch (c : ArCore) (key : Bytes) : Evolves t B ∅ ∅ c (c.arWatchTouch key) where
  wf h := ⟨h.dict, h.objs⟩
  journal := .refl
  frame _ _ := .inl rfl
  watch _ _ := .inl rfl
  conns := ConnsTouched.map (fun a => a.touched_watchTouch key) _
  cfg := rfl
  srv := rfl
  grow := Nat.le_refl _
  stamps _ := .of_dict (Nat.le_refl _) rfl

/-- **The watchers of a changed key are told.** -/
theorem settle_diff (h : Evolves t B K W c c') (key : Bytes) :
    Evolves t B K (W \ {key}) c (c'.arWatchTouch key) := by
  have hev := h.andThen (touch c' key)
  refine { hev with watch := fun k hk => ?_ }
  by_cases he : k = key
  · exact .inr (he ▸ dirtied_watchTouch c' key)
  · exact hev.watch k fun hW => hk ⟨hW, he⟩

theorem settle {key : Bytes} (h : Evolves t B K {key} c c') :
    Evolves t B K ∅ c (c'.arWatchTouch key) :=
  (h.settle_diff key).mono (fun _ hk => hk) (by simp)

/-- The items of `K` change. -/
theorem of_items {s a b : Multiset Item} (hwf : c.WF → c'.WF)
    (hm : Journal B (c.mem, a + s) (c'.mem, b + s)) (hi : c.items = a + s) (hi' : c'.items = b + s)
    (ha : ∀ i ∈ a, i.key ∈ K) (hb : ∀ i ∈ b, i.key ∈ K) (hc : c'.conns = c.conns)
    (hg : c'.cfg = c.cfg) (hs : c'.srv = c.srv) (hl : c.dict.hot.length ≤ c'.dict.hot.length)
    (hst : Stamps c c') : Evolves t B K K c c' := by
  have hat : ∀ k, k ∉ K → c'.itemsAt k = c.itemsAt k := by
    intro k hk
    have h₁ : a.filter (·.key = k) = 0 :=
      Multiset.filter_eq_nil.2 fun i h he => hk (he ▸ ha i h)
    have h₂ : b.filter (·.key = k) = 0 :=
      Multiset.filter_eq_nil.2 fun i h he => hk (he ▸ hb i h)
    rw [ArCore.itemsAt, ArCore.itemsAt, hi, hi', Multiset.filter_add, Multiset.filter_add, h₁, h₂]
  have hj : Journal B c.ledger c'.ledger := by rwa [ArCore.ledger, ArCore.ledger, hi, hi']
  exact ⟨hwf, hj, fun k hk => .inl (hat k hk),
    fun k hk => .inl (by rw [ArCore.stored, hat k hk, ArCore.stored]), hc ▸ .refl _, hg, hs, hl, fun _ => hst⟩

end Evolves

/-! ## Expiry -/

/-- The clock does not come past `t`. -/
def Env.Until (E : Env) (t : Nat) : Prop := ∀ n, E.time n ≤ t

theorem Env.Frozen.until {E : Env} {t : Nat} (h : E.Frozen t) : E.Until t := fun n => (h n).le

theorem Due.mono {t t' at_ : Nat} (h : Due t at_) (ht : t ≤ t') : Due t' at_ := ⟨h.1, h.2.trans ht⟩

/-- What is due may leave, and nothing else, whatever the kernel. -/
structure Expires (t : Nat) (B : Terms) (c c' : ArCore) : Prop extends Evolves t B ∅ ∅ c c' where
  due : ∀ k, c'.itemsAt k = c.itemsAt k ∨ (c'.itemsAt k = 0 ∧ ∀ i ∈ c.itemsAt k, Due t i.expireAt)

namespace Expires

variable {t : Nat} {B : Terms} {c c' c'' : ArCore}

theorem of_quiet (h : Quiet c c') : Expires t B c c' := ⟨.of_quiet h, fun k => .inl (h.itemsAt k)⟩

theorem refl (c : ArCore) : Expires t B c c := .of_quiet (.refl c)

theorem andThen (h : Expires t B c c') (h' : Expires t B c' c'') : Expires t B c c'' := by
  refine ⟨h.toEvolves.andThen h'.toEvolves, fun k => ?_⟩
  rcases h'.due k with he' | ⟨hz, hd'⟩
  · rw [he']
    exact h.due k
  · rcases h.due k with he | ⟨_, hd⟩
    · rw [he] at hd'
      exact .inr ⟨hz, hd'⟩
    · exact .inr ⟨hz, hd⟩

theorem after (h' : Expires t B c' c'') (h : Expires t B c c') : Expires t B c c'' := h.andThen h'

theorem quiet (h : Expires t B c c') (h' : Quiet c' c'') : Expires t B c c'' := h.andThen (.of_quiet h')

/-- What is due is due later, too. -/
theorem later {t' : Nat} (h : Expires t B c c') (ht : t ≤ t') : Expires t' B c c' := by
  have hdue : ∀ k, (∀ i ∈ c.itemsAt k, Due t i.expireAt) → ∀ i ∈ c.itemsAt k, Due t' i.expireAt :=
    fun k hd i hi => (hd i hi).mono ht
  exact ⟨{ h.toEvolves with
      frame := fun k hk => (h.frame k hk).imp_right fun hz => ⟨hz.1, fun hn => hdue k (hz.2 hn)⟩ },
    fun k => (h.due k).imp_right fun hz => ⟨hz.1, hdue k hz.2⟩⟩

end Expires

end AuraRedis
