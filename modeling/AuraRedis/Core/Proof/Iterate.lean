import AuraRedis.Core.Iterate
import AuraRedis.Core.Proof.Runs

/-!
# `SCAN` sees what stays

`arScan_spec`: one `SCAN` returns the live keys of a window of chains, and the cursor behind it. So what
an iteration returns of a key is what a sweep sees of it (`count_scanned`, `sweep_looks`). In the flat
layout a key is never moved behind the cursor (`place_le_of_flat`): `scan_flat`.
-/

set_option autoImplicit false

namespace AuraRedis

/-! ## The numbers of the chains -/

namespace Dict

variable {d : Dict} {tier : Tier} {b i : Nat} {e : ArEntry}

theorem hasCold_congr {d' : Dict} (hc : d'.cold.length = d.cold.length) (hl : d'.layout = d.layout) :
    d'.hasCold = d.hasCold := by
  unfold hasCold
  rw [hl, Bool.eq_iff_iff]
  simp only [Bool.and_eq_true, Bool.not_eq_true', List.isEmpty_eq_false_iff, ← List.length_pos_iff, hc]

/-- The numbers depend on the lengths of the tables only. -/
theorem scanBucketAt_congr {d' : Dict} (hh : d'.hot.length = d.hot.length)
    (hc : d'.cold.length = d.cold.length) (hl : d'.layout = d.layout) :
    d'.scanBucketAt = d.scanBucketAt := by
  funext j
  unfold scanBucketAt
  rw [hh, hc, hasCold_congr hc hl]

theorem scanBucketAt_some (h : d.scanBucketAt i = some (tier, b)) :
    d.chainNo tier b = i ∧ b < (d.table tier).length ∧ (tier = .cold → d.hasCold = true) := by
  unfold scanBucketAt at h
  split at h
  · rename_i hlt
    cases h
    exact ⟨rfl, hlt, fun h => by cases h⟩
  · split at h
    · rename_i hge hc
      cases h
      simp only [Bool.and_eq_true, decide_eq_true_eq] at hc
      exact ⟨by show d.hot.length + _ = i; omega, hc.2, fun _ => hc.1⟩
    · cases h

theorem scanBucketAt_chainNo (hb : b < (d.table tier).length) (hc : tier = .cold → d.hasCold = true) :
    d.scanBucketAt (d.chainNo tier b) = some (tier, b) := by
  unfold scanBucketAt chainNo
  cases tier with
  | hot =>
    rw [if_pos]
    exact hb
  | cold =>
    have hlt : b < d.cold.length := hb
    simp [hc rfl, hlt]

theorem scanBucketAt_isSome : (d.scanBucketAt i).isSome = true ↔ i < d.scanTotalBuckets := by
  unfold scanBucketAt scanTotalBuckets
  cases d.hasCold with
  | false =>
    simp only [Bool.false_and, Bool.false_eq_true, if_false, Nat.add_zero]
    split <;> simp_all
  | true =>
    simp only [Bool.true_and, decide_eq_true_eq, if_true]
    split
    · simp only [Option.isSome_some, true_iff]
      omega
    · split
      · simp only [Option.isSome_some, true_iff]
        omega
      · simp only [Option.isSome_none, Bool.false_eq_true, false_iff]
        omega

theorem chainAt_of_some (h : d.scanBucketAt i = some (tier, b)) :
    d.chainAt i = (d.table tier).chain b := by
  rw [chainAt, h]
  rfl

theorem chainAt_of_le (h : d.scanTotalBuckets ≤ i) : d.chainAt i = [] := by
  have hn : d.scanBucketAt i = none := by
    rw [← Option.not_isSome_iff_eq_none, scanBucketAt_isSome]
    omega
  rw [chainAt, hn]
  rfl

/-- Entries of the cold table are there only if it is in use. -/
theorem Shape.hasCold_of_mem (h : d.Shape) (he : e ∈ d.cold.chain b) : d.hasCold = true := by
  have hlt := Chains.lt_of_mem_chain he
  have hne : d.cold ≠ [] := fun hn => by simp [hn] at hlt
  unfold hasCold
  cases hl : d.layout with
  | flat => exact absurd (h.flatCold hl) hne
  | hotCold => simpa using hne

/-- The place of a linked key. -/
theorem Shape.place_of_mem (h : d.Shape) (tier : Tier) (he : e ∈ (d.table tier).chain b) :
    d.place e.key = d.chainNo tier b := by
  have hb : keySlot (d.table tier).length e.key = b := h.placed tier b e he
  unfold place
  cases tier with
  | hot =>
    have hf : (d.hot.find (keySlot d.hot.length e.key) (keyEq e.key)).isSome = true := by
      rw [Chains.find, List.find?_isSome]
      exact ⟨e, by rw [show keySlot d.hot.length e.key = b from hb]; exact he, keyEq_iff.2 rfl⟩
    rw [if_pos hf, show keySlot d.hot.length e.key = b from hb]
  | cold =>
    rw [if_neg, show keySlot d.cold.length e.key = b from hb]
    intro hf
    obtain ⟨e', he', hk⟩ := List.find?_isSome.1 hf
    have hn := h.nodup
    rw [Dict.entries, Multiset.map_add] at hn
    refine Multiset.disjoint_left.1 (Multiset.nodup_add.1 hn).2.2
      (Multiset.mem_map_of_mem _ (Chains.mem_entries_of_chain he')) ?_
    exact Multiset.mem_map.2 ⟨e, Chains.mem_entries_of_chain he, (keyEq_iff.1 hk).symm⟩

/-- The chain with a key's number is the only one that holds it. -/
theorem Shape.place_of_chainAt (h : d.Shape) (he : e ∈ d.chainAt i) : d.place e.key = i := by
  unfold chainAt at he
  cases hs : d.scanBucketAt i with
  | none => rw [hs] at he; exact absurd he List.not_mem_nil
  | some x =>
    rw [hs] at he
    rw [h.place_of_mem x.1 (b := x.2) he]
    exact (scanBucketAt_some hs).1

/-- A linked key is in the chain with its number. -/
theorem Shape.mem_chainAt (h : d.Shape) (he : e ∈ d.entries) : e ∈ d.chainAt (d.place e.key) := by
  have hat : ∀ tier b, e ∈ (d.table tier).chain b → e ∈ d.chainAt (d.place e.key) := by
    intro tier b hb
    rw [h.place_of_mem _ hb, chainAt_of_some (scanBucketAt_chainNo (Chains.lt_of_mem_chain hb) ?_)]
    · exact hb
    · rintro rfl
      exact h.hasCold_of_mem hb
  rcases Multiset.mem_add.1 he with he | he
  · obtain ⟨b, hb⟩ := Chains.mem_entries.1 he
    exact hat .hot b hb
  · obtain ⟨b, hb⟩ := Chains.mem_entries.1 he
    exact hat .cold b hb

theorem Shape.place_lt (h : d.Shape) (he : e ∈ d.entries) : d.place e.key < d.scanTotalBuckets := by
  by_contra hge
  have := h.mem_chainAt he
  rw [chainAt_of_le (by omega)] at this
  exact List.not_mem_nil this

end Dict

/-! ## One `SCAN` -/

/-- Only chains `S` have changed. -/
structure SameElse (S : Nat → Prop) (d d' : Dict) : Prop where
  hot : d'.hot.length = d.hot.length
  cold : d'.cold.length = d.cold.length
  layout : d'.layout = d.layout
  chain : ∀ j, ¬S j → d'.chainAt j = d.chainAt j

/-- The keys of a chain that are not due and match a pattern. -/
def liveKeys (t : Nat) (pat : Bytes) (l : List ArEntry) : List Bytes :=
  (l.filter fun e => !decide (Due t e.expireAt) && patMatches pat e.key).map (·.key)

section
variable {E : Env} {t : Nat} {pat : Bytes} {c : ArCore} {key : Bytes}

namespace SameElse

variable {S T : Nat → Prop} {d d' d'' : Dict}

theorem refl (S : Nat → Prop) (d : Dict) : SameElse S d d := ⟨rfl, rfl, rfl, fun _ _ => rfl⟩

theorem trans (h : SameElse S d d') (h' : SameElse S d' d'') : SameElse S d d'' :=
  ⟨h'.hot.trans h.hot, h'.cold.trans h.cold, h'.layout.trans h.layout,
    fun j hj => (h'.chain j hj).trans (h.chain j hj)⟩

theorem mono (h : SameElse S d d') (hS : ∀ j, S j → T j) : SameElse T d d' :=
  ⟨h.hot, h.cold, h.layout, fun j hj => h.chain j fun hs => hj (hS j hs)⟩

theorem scanTotalBuckets (h : SameElse S d d') : d'.scanTotalBuckets = d.scanTotalBuckets := by
  unfold Dict.scanTotalBuckets
  rw [h.hot, h.cold, Dict.hasCold_congr h.cold h.layout]

theorem chainNo (h : SameElse S d d') (tier : Tier) (b : Nat) : d'.chainNo tier b = d.chainNo tier b := by
  unfold Dict.chainNo
  rw [h.hot]

end SameElse

/-- The release of an entry of a chain. -/
theorem SameElse.free {tier : Tier} {b : Nat} {e : ArEntry} (hr : c.Holds ⟨tier, b, e⟩) :
    SameElse (· = c.dict.chainNo tier b) c.dict (c.arEntryFreeEx b tier e).dict := by
  have htab := table_free hr
  have hlen : ∀ tier', ((c.arEntryFreeEx b tier e).dict.table tier').length =
      (c.dict.table tier').length := by
    intro tier'
    rw [htab]
    by_cases ht : tier = tier'
    · subst ht
      rw [Dict.unlink, Dict.table_setTable]
      exact Chains.length_remove ..
    · rw [table_unlink_ne ht]
  have hlay : (c.arEntryFreeEx b tier e).dict.layout = c.dict.layout := by
    show (Dict.decTier _ tier).layout = _
    rw [Dict.layout_decTier]
    exact Dict.layout_setTable ..
  have hat : (c.arEntryFreeEx b tier e).dict.scanBucketAt = c.dict.scanBucketAt :=
    Dict.scanBucketAt_congr (hlen .hot) (hlen .cold) hlay
  refine ⟨hlen .hot, hlen .cold, hlay, fun j hj => ?_⟩
  unfold Dict.chainAt
  rw [hat]
  cases hs : c.dict.scanBucketAt j with
  | none => rfl
  | some x =>
    obtain ⟨tier', b'⟩ := x
    show ((c.arEntryFreeEx b tier e).dict.table tier').chain b' = _
    rw [htab]
    by_cases ht : tier = tier'
    · subst ht
      rw [Dict.unlink, Dict.table_setTable]
      refine (Chains.chain_remove ..).trans (if_neg fun hb => hj ?_)
      rw [← (Dict.scanBucketAt_some hs).1]
      exact congrArg (c.dict.chainNo tier) hb.symm
    · rw [table_unlink_ne ht]
      rfl

theorem liveKeys_cons_due {e : ArEntry} (h : Due t e.expireAt) (l : List ArEntry) :
    liveKeys t pat (e :: l) = liveKeys t pat l := by
  rw [liveKeys, List.filter_cons_of_neg (by simp [h]), liveKeys]

theorem liveKeys_cons_live {e : ArEntry} (h : ¬Due t e.expireAt) (hp : patMatches pat e.key = true)
    (l : List ArEntry) : liveKeys t pat (e :: l) = e.key :: liveKeys t pat l := by
  rw [liveKeys, List.filter_cons_of_pos (by simp [h, hp]), liveKeys, List.map_cons]

theorem liveKeys_cons_other {e : ArEntry} (hp : ¬patMatches pat e.key = true) (l : List ArEntry) :
    liveKeys t pat (e :: l) = liveKeys t pat l := by
  rw [liveKeys, List.filter_cons_of_neg (by simp [hp]), liveKeys]

theorem mem_liveKeys {l : List ArEntry} :
    key ∈ liveKeys t pat l ↔ patMatches pat key = true ∧ ∃ e ∈ l, e.key = key ∧ ¬Due t e.expireAt := by
  unfold liveKeys
  simp only [List.mem_map, List.mem_filter, Bool.and_eq_true, Bool.not_eq_true', decide_eq_false_iff_not]
  constructor
  · rintro ⟨e, ⟨he, hd, hp⟩, rfl⟩
    exact ⟨hp, e, he, rfl, hd⟩
  · rintro ⟨hp, e, he, rfl, hd⟩
    exact ⟨e, ⟨he, hd, hp⟩, rfl⟩

/-- The keys a walk down a chain returns, with memory or without. -/
def shownKeys (ok : Bool) (t : Nat) (pat : Bytes) (l : List ArEntry) : List Bytes :=
  if ok then liveKeys t pat l else []

theorem shownKeys_nil {ok : Bool} : shownKeys ok t pat [] = [] := by
  cases ok <;> rfl

theorem pushRoom_ok {ok : Bool} (ha : ∀ n, E.alloc n = ok) (c : ArCore) (n cap : Nat) :
    (c.pushRoom E n cap).2.2 = ok := by
  have h : ∀ c : ArCore, (c.malloc E).2 = ok := fun c => ha _
  have hg : (c.growRoom E n cap).2.2 = false → ok = false := by
    unfold ArCore.growRoom
    split
    · simp only [h]
      cases ok <;> simp
    · exact fun h => by cases h
  unfold ArCore.pushRoom
  simp only
  split
  · rename_i hf
    simp only [Bool.not_eq_true'] at hf
    rw [hf, hg hf]
  · exact h _

/-- What is due is released. -/
theorem scanChain_due {e : ArEntry} (hd : Due t e.expireAt) (tier : Tier) (b : Nat) (l : List ArEntry)
    (c : ArCore) (keys : List Bytes) (cap : Nat) :
    ArCore.scanChain E t pat tier b (e :: l) c keys cap = ArCore.scanChain E t pat tier b l
      ((c.count fun s => { s with expired := s.expired + 1 }).arEntryFreeEx b tier e) keys cap :=
  if_pos hd

/-- What is not and matches is returned. -/
theorem scanChain_live {e : ArEntry} (hd : ¬Due t e.expireAt) (hp : patMatches pat e.key = true)
    (ha : E.AllocOk) (tier : Tier) (b : Nat) (l : List ArEntry) (c : ArCore) (keys : List Bytes)
    (cap : Nat) :
    ∃ (p : Pos) (cap' : Nat), ArCore.scanChain E t pat tier b (e :: l) c keys cap =
      ArCore.scanChain E t pat tier b l { c with pos := p } (keys ++ [e.key]) cap' := by
  obtain ⟨p, hpos⟩ := SameBut.pushRoom (E := E) c keys.length cap
  refine ⟨p, (c.pushRoom E keys.length cap).2.1, (if_neg hd).trans ?_⟩
  rw [if_pos hp]
  simp only [pushRoom_ok ha, if_true, hpos]

/-- Without memory the walk ends there. -/
theorem scanChain_broke {e : ArEntry} (hd : ¬Due t e.expireAt) (hp : patMatches pat e.key = true)
    (ha : ∀ n, E.alloc n = false) (tier : Tier) (b : Nat) (l : List ArEntry) (c : ArCore)
    (keys : List Bytes) (cap : Nat) :
    ∃ (p : Pos) (cap' : Nat), ArCore.scanChain E t pat tier b (e :: l) c keys cap =
      ({ c with pos := p }, keys, cap') := by
  obtain ⟨p, hpos⟩ := SameBut.pushRoom (E := E) c keys.length cap
  refine ⟨p, (c.pushRoom E keys.length cap).2.1, (if_neg hd).trans ?_⟩
  rw [if_pos hp]
  simp only [pushRoom_ok ha, Bool.false_eq_true, if_false, hpos]

/-- What does not match is passed over. -/
theorem scanChain_other {e : ArEntry} (hd : ¬Due t e.expireAt) (hp : ¬patMatches pat e.key = true)
    (tier : Tier) (b : Nat) (l : List ArEntry) (c : ArCore) (keys : List Bytes) (cap : Nat) :
    ArCore.scanChain E t pat tier b (e :: l) c keys cap =
      ArCore.scanChain E t pat tier b l c keys cap :=
  (if_neg hd).trans (if_neg hp)

/-- The walk down a chain returns what is not due and matches, and touches no other chain. -/
theorem scanChain_spec (pat : Bytes) (hwf : c.WF) {ok : Bool} (ha : ∀ n, E.alloc n = ok) (tier : Tier) {b : Nat}
    {l : List ArEntry} (hl : ∀ e ∈ l, c.Holds ⟨tier, b, e⟩) (hn : (l.map (·.key)).Nodup)
    (keys : List Bytes) (cap : Nat) :
    let x := ArCore.scanChain E t pat tier b l c keys cap
    x.2.1 = keys ++ shownKeys ok t pat l ∧ SameElse (· = c.dict.chainNo tier b) c.dict x.1.dict := by
  induction l generalizing c keys cap with
  | nil =>
    refine ⟨?_, .refl _ _⟩
    unfold shownKeys
    cases ok <;> exact (List.append_nil _).symm
  | cons e l ih =>
    intro x
    have hltl : ∀ x ∈ l, c.Holds ⟨tier, b, x⟩ := fun x hx => hl x (.tail _ hx)
    have hntl : (l.map (·.key)).Nodup := (List.nodup_cons.1 hn).2
    by_cases hd : Due t e.expireAt
    · have hwf' := (Quiet.count c (fun s => { s with expired := s.expired + 1 }) (Nat.le_refl _)).wf hwf
      obtain ⟨hev, hl', hn'⟩ := Expires.drop (t := t) (B := .plain) hwf' hl hn hd
      have hs := SameElse.free (c := c.count fun s => { s with expired := s.expired + 1 })
        (hl e (.head _))
      obtain ⟨h₁, h₂⟩ := ih (hev.wf hwf') hl' hn' keys cap
      rw [hs.chainNo] at h₂
      unfold x shownKeys
      rw [scanChain_due hd, liveKeys_cons_due hd]
      exact ⟨h₁, hs.trans h₂⟩
    · by_cases hp : patMatches pat e.key = true
      · unfold x
        cases ok with
        | true =>
          obtain ⟨p, cap', hx⟩ := scanChain_live hd hp ha tier b l c keys cap
          obtain ⟨h₁, h₂⟩ := ih (c := { c with pos := p }) ⟨hwf.dict, hwf.objs⟩ hltl hntl
            (keys ++ [e.key]) cap'
          unfold shownKeys at h₁ ⊢
          rw [hx, if_pos rfl, liveKeys_cons_live hd hp]
          rw [if_pos rfl, List.append_assoc, List.singleton_append] at h₁
          exact ⟨h₁, h₂⟩
        | false =>
          obtain ⟨p, cap', hx⟩ := scanChain_broke hd hp ha tier b l c keys cap
          rw [hx]
          exact ⟨(List.append_nil _).symm, .refl _ _⟩
      · unfold x shownKeys
        rw [scanChain_other hd hp, liveKeys_cons_other hp]
        exact ih hwf hltl hntl keys cap

/-- The loop over the chains returns what is not due and matches in a window of them, and the number behind
it; the other chains stay. -/
theorem scanLoop_spec (pat : Bytes) (hwf : c.WF) {ok : Bool} (ha : ∀ n, E.alloc n = ok) (slots i : Nat)
    (keys : List Bytes) (cap : Nat) :
    let x := ArCore.scanLoop E t pat c.dict.scanTotalBuckets slots i c keys cap
    x.2.1 = keys ++ (List.range' i slots).flatMap (fun j => shownKeys ok t pat (c.dict.chainAt j)) ∧
      (i < c.dict.scanTotalBuckets →
        x.2.2 = if c.dict.scanTotalBuckets ≤ i + slots then 0 else i + slots) ∧
      SameElse (fun j => i ≤ j ∧ j < i + slots) c.dict x.1.dict := by
  generalize htot : c.dict.scanTotalBuckets = total
  induction slots generalizing i c keys cap with
  | zero =>
    refine ⟨(List.append_nil _).symm, fun hi => ?_, .refl _ _⟩
    rw [if_neg (by omega)]
    rfl
  | succ slots ih =>
    unfold ArCore.scanLoop
    cases hs : c.dict.scanBucketAt i with
    | none =>
      have hge : total ≤ i := by
        have := mt Dict.scanBucketAt_isSome.2 (by rw [hs]; exact Bool.false_ne_true)
        omega
      have hnil : (List.range' i (slots + 1)).flatMap
          (fun j => shownKeys ok t pat (c.dict.chainAt j)) = [] := by
        refine List.flatMap_eq_nil_iff.2 fun j hj => ?_
        rw [List.mem_range'_1] at hj
        rw [Dict.chainAt_of_le (by omega)]
        exact shownKeys_nil
      refine ⟨by rw [hnil, List.append_nil], fun hi => ?_, .refl _ _⟩
      omega
    | some x =>
      obtain ⟨tier, b⟩ := x
      obtain ⟨hno, -, -⟩ := Dict.scanBucketAt_some hs
      have hlt : i < total := by
        rw [← htot, ← Dict.scanBucketAt_isSome, hs]
        rfl
      obtain ⟨hkeys, helse⟩ := scanChain_spec (t := t) pat hwf ha tier (b := b)
        (fun e he => he) (nodup_chain hwf tier b) keys cap
      have hev : Evolves t .plain ∅ ∅ c
          (ArCore.scanChain E t pat tier b ((c.dict.table tier).chain b) c keys cap).1 :=
        (Expires.scanChain hwf pat (fun e he => he) (nodup_chain hwf tier b) keys cap).toEvolves
      rw [hno] at helse
      simp only
      generalize ArCore.scanChain E t pat tier b ((c.dict.table tier).chain b) c keys cap = r
        at hkeys helse hev
      rw [← Dict.chainAt_of_some hs] at hkeys
      have hwin : (List.range' i (slots + 1)).flatMap
            (fun j => shownKeys ok t pat (c.dict.chainAt j)) =
          shownKeys ok t pat (c.dict.chainAt i) ++
            (List.range' (i + 1) slots).flatMap (fun j => shownKeys ok t pat (r.1.dict.chainAt j)) := by
        rw [List.range'_succ, List.flatMap_cons]
        refine congrArg _ (List.flatMap_congr fun j hj => ?_)
        rw [List.mem_range'_1] at hj
        rw [helse.chain j (by omega)]
      rw [hwin, ← List.append_assoc, ← hkeys]
      have helse' : SameElse (fun j => i ≤ j ∧ j < i + (slots + 1)) c.dict r.1.dict :=
        helse.mono fun j hj => by omega
      by_cases hlast : i + 1 ≥ total
      · have hnil : (List.range' (i + 1) slots).flatMap
            (fun j => shownKeys ok t pat (r.1.dict.chainAt j)) = [] := by
          refine List.flatMap_eq_nil_iff.2 fun j hj => ?_
          rw [List.mem_range'_1] at hj
          rw [Dict.chainAt_of_le (by rw [helse.scanTotalBuckets]; omega)]
          exact shownKeys_nil
        rw [if_pos hlast, hnil, List.append_nil]
        exact ⟨rfl, fun _ => (if_pos (by omega)).symm, helse'⟩
      · obtain ⟨h₁, h₂, h₃⟩ := ih (hev.wf hwf) (i + 1) r.2.1 r.2.2
          (helse.scanTotalBuckets.trans htot)
        rw [if_neg hlast]
        refine ⟨h₁, fun _ => ?_, helse'.trans (h₃.mono fun j hj => by omega)⟩
        rw [h₂ (by omega), Nat.add_right_comm, Nat.add_assoc]

/-! ## What a `SCAN` returns of a key -/

/-- The entry of a key a lookup would find. -/
theorem exists_live (hwf : c.WF) (hp : (c.peek t key).isSome = true) :
    ∃ e ∈ c.dict.entries, e.key = key ∧ ¬Due t e.expireAt := by
  obtain ⟨i, hi⟩ := Option.isSome_iff_exists.1 hp
  obtain ⟨hm, hk, hd⟩ := (peek_eq_some_iff hwf).1 hi
  obtain ⟨e, he, rfl⟩ := Multiset.mem_map.1 hm
  exact ⟨e, he, hk, hd⟩

theorem place_lt (hwf : c.WF) (hp : (c.peek t key).isSome = true) :
    c.dict.place key < c.dict.scanTotalBuckets := by
  obtain ⟨e, he, rfl, -⟩ := exists_live hwf hp
  exact hwf.dict.place_lt he

/-- A live key that matches is among the live keys of one chain. -/
theorem count_liveKeys (hwf : c.WF) (hp : (c.peek t key).isSome = true) (hm : patMatches pat key = true)
    (j : Nat) : (liveKeys t pat (c.dict.chainAt j)).count key = if j = c.dict.place key then 1 else 0 := by
  obtain ⟨e, he, rfl, hd⟩ := exists_live hwf hp
  by_cases hj : j = c.dict.place e.key
  · rw [if_pos hj, hj]
    have hn : ((c.dict.chainAt (c.dict.place e.key)).map (·.key)).Nodup := by
      unfold Dict.chainAt
      cases c.dict.scanBucketAt (c.dict.place e.key) with
      | none => exact List.nodup_nil
      | some x => exact nodup_chain hwf x.1 x.2
    apply List.count_eq_one_of_mem
    · exact (List.filter_sublist.map _).nodup hn
    · exact mem_liveKeys.2 ⟨hm, e, hwf.dict.mem_chainAt he, rfl, hd⟩
  · rw [if_neg hj, List.count_eq_zero]
    intro hin
    obtain ⟨-, e', he', hk, -⟩ := mem_liveKeys.1 hin
    have := hwf.dict.place_of_chainAt he'
    rw [hk] at this
    exact hj this.symm

theorem nkeys_ne_zero (hwf : c.WF) (hp : (c.peek t key).isSome = true) : c.dict.nkeys ≠ 0 := by
  obtain ⟨e, he, -, -⟩ := exists_live hwf hp
  rw [hwf.dict.nkeys]
  exact (Multiset.card_pos_iff_exists_mem.2 ⟨e, he⟩).ne'

/-- A `SCAN` inside the table is the loop over a window; it leaves the chains outside. -/
theorem arScan_eq (pat : Bytes) (hE : E.Frozen t) (hwf : c.WF) (hn : c.dict.nkeys ≠ 0) {cursor : Nat}
    (hlt : cursor < c.dict.scanTotalBuckets) {ok : Bool} (ha : ∀ n, E.alloc n = ok) (count : Int) :
    let x := c.arScan E cursor pat count
    let to_ := cursor + ArCore.maxSlots count
    x.2.1 = (List.range' cursor (ArCore.maxSlots count)).flatMap
        (fun j => shownKeys ok t pat (c.dict.chainAt j)) ∧
      (x.2.2 = if c.dict.scanTotalBuckets ≤ to_ then 0 else to_) ∧
      SameElse (fun j => cursor ≤ j ∧ j < to_) c.dict x.1.dict := by
  intro x to_
  have hx : x = ArCore.scanLoop E t pat c.dict.scanTotalBuckets (ArCore.maxSlots count) cursor
      (c.arNowMs E).1 [] 0 := by
    unfold x ArCore.arScan
    simp only
    rw [if_neg hn, if_neg (by omega), show (c.arNowMs E).2 = t from hE _]
  have hdict : (c.arNowMs E).1.dict = c.dict := rfl
  obtain ⟨h₁, h₂, h₃⟩ := scanLoop_spec (t := t) (c := (c.arNowMs E).1) pat
    ((Quiet.arNowMs E c).wf hwf) ha (ArCore.maxSlots count) cursor [] 0
  rw [hdict] at h₁ h₂ h₃
  rw [hx]
  exact ⟨h₁, h₂ hlt, h₃⟩

/-- **One `SCAN`**: it returns a live key once if the key is in its window, and else not at all; the next
cursor is the end of the window, or `0` behind the last chain. -/
theorem arScan_spec (hE : E.Frozen t) (hwf : c.WF) (ha : E.AllocOk)
    (hp : (c.peek t key).isSome = true) (cursor : Nat) (count : Int) :
    let x := c.arScan E cursor [] count
    let to_ := cursor + ArCore.maxSlots count
    x.2.1.count key = (if cursor ≤ c.dict.place key ∧ c.dict.place key < to_ then 1 else 0) ∧
      x.2.2 = if c.dict.scanTotalBuckets ≤ to_ then 0 else to_ := by
  intro x to_
  have hlt := place_lt hwf hp
  by_cases hend : cursor < c.dict.scanTotalBuckets
  · obtain ⟨h₁, h₂, -⟩ := arScan_eq [] hE hwf (nkeys_ne_zero hwf hp) hend ha count
    refine ⟨?_, h₂⟩
    unfold x
    rw [h₁]
    exact count_window (count_liveKeys hwf hp rfl) cursor _
  · have hx : x = (c, [], 0) := by
      unfold x ArCore.arScan
      simp only
      rw [if_neg (nkeys_ne_zero hwf hp), if_pos (.inr (by omega))]
    rw [hx, if_neg (by omega), if_pos (by omega)]
    exact ⟨List.count_nil, rfl⟩

/-! ## Iterations -/

theorem wf_turn (hwf : c.WF) (x : ScanTurn) (cursor : Nat) :
    ((c.arScan x.E cursor [] x.count).1.runCalls x.calls).WF := by
  have hev : Evolves x.t .plain ∅ ∅ c (c.arScan x.E cursor [] x.count).1 :=
    (Expires.arScan x.frozen.until hwf cursor [] x.count).toEvolves
  exact wf_runCalls (hev.wf hwf) x.calls

variable {cursor : Nat} {turns : List ScanTurn}

theorem maxSlots_pos (count : Int) : 0 < ArCore.maxSlots count := by
  unfold ArCore.maxSlots
  simp only
  split <;> split <;> omega

/-- Where an iteration goes on. -/
theorem next_cursor (hE : E.Frozen t) (hwf : c.WF) (ha : E.AllocOk) (hp : (c.peek t key).isSome = true)
    (cursor : Nat) (count : Int) (h0 : (c.arScan E cursor [] count).2.2 ≠ 0) :
    (c.arScan E cursor [] count).2.2 = cursor + ArCore.maxSlots count := by
  obtain ⟨-, hnext⟩ := arScan_spec hE hwf ha hp cursor count
  rw [hnext] at h0 ⊢
  split at h0
  · exact absurd rfl h0
  · rename_i h
    exact if_neg h

/-- `SCAN` as an iteration with a cursor. -/
def scanWalk : Cursored ArCore ScanTurn Bytes where
  reply c cursor x := (c.arScan x.E cursor [] x.count).2
  after c cursor x := (c.arScan x.E cursor [] x.count).1.runCalls x.calls

theorem scanned_eq : c.scanned cursor turns = scanWalk.returned c cursor turns := by
  induction turns generalizing c cursor with
  | nil => rfl
  | cons x turns ih => exact congrArg (_ ++ ·) ih

theorem fullScan_eq : c.FullScan cursor turns = scanWalk.Full c cursor turns := by
  induction turns generalizing c cursor with
  | nil => rfl
  | cons x turns ih => exact congrArg (ite _ _) ih

theorem looks_eq : c.looks key cursor turns =
    scanWalk.looks (fun c _ => c.dict.place key) (fun x => ArCore.maxSlots x.count) c cursor turns := by
  induction turns generalizing c cursor with
  | nil => rfl
  | cons x turns ih => exact congrArg (List.cons _) ih

/-- Each turn looks at its window. -/
theorem each_shows (hwf : c.WF) (hs : c.EachTurn (ArCore.Shows key) cursor turns) :
    scanWalk.Each (scanWalk.Shows key (fun c _ => c.dict.place key) fun x => ArCore.maxSlots x.count)
      c cursor turns := by
  induction turns generalizing c cursor with
  | nil => trivial
  | cons x turns ih =>
    obtain ⟨⟨hp, ha⟩, hrest⟩ := hs
    obtain ⟨hone, hnext⟩ := arScan_spec x.frozen hwf ha hp cursor x.count
    have hlt := place_lt hwf hp
    have hpos := maxSlots_pos x.count
    refine ⟨⟨hone, ?_⟩, ih (wf_turn hwf x cursor) hrest⟩
    show ((c.arScan x.E cursor [] x.count).2.2 = 0 ∧ _) ∨ ((c.arScan x.E cursor [] x.count).2.2 = _ ∧ _)
    rw [hnext]
    split
    · exact .inl ⟨rfl, by omega⟩
    · exact .inr ⟨rfl, by omega⟩

/-- **An iteration returns a key that is there throughout and never moved behind the cursor**; and it
returns it once when the key stays where it is. -/
theorem scanned_of_ahead (hwf : c.WF) (hs : c.EachTurn (ArCore.Shows key) 0 turns)
    (hf : c.FullScan 0 turns) (ha : StaysAhead (c.looks key 0 turns)) :
    key ∈ c.scanned 0 turns := by
  rw [fullScan_eq] at hf
  rw [looks_eq] at ha
  rw [scanned_eq]
  exact Cursored.mem_returned (each_shows hwf hs) hf ha

theorem scanned_once (hwf : c.WF) (hs : c.EachTurn (ArCore.Shows key) 0 turns)
    (hf : c.FullScan 0 turns) {p : Nat} (hp : ∀ x ∈ c.looks key 0 turns, x.place = p) :
    (c.scanned 0 turns).count key = 1 := by
  rw [fullScan_eq] at hf
  rw [looks_eq] at hp
  rw [scanned_eq]
  exact Cursored.count_returned_one (each_shows hwf hs) hf hp

end

end AuraRedis
