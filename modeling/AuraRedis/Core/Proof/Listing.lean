import AuraRedis.Core.Proof.ScanFlat

/-!
# `KEYS`, `SCAN MATCH` and `DBSIZE` agree

The three walks number the chains alike. What each returns or counts is the live keys of the chains in turn
(`listing`), and what is due in a chain is gone when a walk has passed it (`Swept`).
-/

set_option autoImplicit false

namespace AuraRedis

namespace ArCore

/-- The keys the pages of a `SCAN MATCH` return, for the counts of the calls. -/
def scanMatch (E : Env) (pat : Bytes) (c : ArCore) (cursor : Nat) : List Int → List Bytes
  | [] => []
  | n :: ns =>
    let r := c.arScan E cursor pat n
    r.2.1 ++ scanMatch E pat r.1 r.2.2 ns

/-- The counts are those of the calls until a cursor is `0`. -/
def FullMatch (E : Env) (pat : Bytes) (c : ArCore) (cursor : Nat) : List Int → Prop
  | [] => False
  | n :: ns =>
    let r := c.arScan E cursor pat n
    if r.2.2 = 0 then ns = [] else FullMatch E pat r.1 r.2.2 ns

/-- The live keys that match, in the order of the chains from `i` on. -/
def listing (t : Nat) (pat : Bytes) (i : Nat) (c : ArCore) : List Bytes :=
  (List.range' i (c.dict.scanTotalBuckets - i)).flatMap fun j => liveKeys t pat (c.dict.chainAt j)

end ArCore

/-- In the chains below `i` nothing is due. -/
def Swept (t i : Nat) (c : ArCore) : Prop := ∀ j, j < i → ∀ e ∈ c.dict.chainAt j, ¬Due t e.expireAt

open ArCore (listing scanMatch FullMatch)

section
variable {E : Env} {t i : Nat} {pat key : Bytes} {c c' : ArCore}

/-! ## The listing -/

theorem patMatches_of_ne (hp : pat ≠ []) (key : Bytes) : patMatches pat key = arGlobMatch pat key := by
  have he : pat.isEmpty = false := by simpa using hp
  unfold patMatches arGlobMatch
  rw [he]
  by_cases hs : pat = [star]
  · simp [hs]
  · simp [hs]

theorem listing_of_le (h : c.dict.scanTotalBuckets ≤ i) : listing t pat i c = [] := by
  unfold listing
  rw [Nat.sub_eq_zero_of_le h]
  rfl

/-- A window of chains and the chains behind it. -/
theorem listing_split {m : Nat} (h : i + m ≤ c.dict.scanTotalBuckets) :
    listing t pat i c = ((List.range' i m).flatMap fun j => liveKeys t pat (c.dict.chainAt j)) ++
      listing t pat (i + m) c := by
  unfold listing
  rw [← List.flatMap_append, List.range'_append_1]
  exact congrArg (fun n => (List.range' i n).flatMap _) (by omega)

/-- A window that reaches past the last chain. -/
theorem listing_window {m : Nat} (h : c.dict.scanTotalBuckets ≤ i + m) :
    ((List.range' i m).flatMap fun j => liveKeys t pat (c.dict.chainAt j)) = listing t pat i c := by
  by_cases hi : i ≤ c.dict.scanTotalBuckets
  · have hm : m = (c.dict.scanTotalBuckets - i) + (i + m - c.dict.scanTotalBuckets) := by omega
    have hnil : (List.range' (i + (c.dict.scanTotalBuckets - i)) (i + m - c.dict.scanTotalBuckets)).flatMap
        (fun j => liveKeys t pat (c.dict.chainAt j)) = [] := by
      refine List.flatMap_eq_nil_iff.2 fun j hj => ?_
      rw [List.mem_range'_1] at hj
      rw [Dict.chainAt_of_le (by omega)]
      rfl
    rw [hm, ← List.range'_append_1, List.flatMap_append, hnil, List.append_nil]
    rfl
  · rw [listing_of_le (by omega)]
    refine List.flatMap_eq_nil_iff.2 fun j hj => ?_
    rw [List.mem_range'_1] at hj
    rw [Dict.chainAt_of_le (by omega)]
    rfl

/-- The chains behind a walk are what they were. -/
theorem SameElse.listing {k : Nat} (h : SameElse (fun j => i ≤ j ∧ j < k) c.dict c'.dict) :
    listing t pat k c' = listing t pat k c := by
  unfold ArCore.listing
  rw [h.scanTotalBuckets]
  refine List.flatMap_congr fun j hj => ?_
  rw [List.mem_range'_1] at hj
  rw [h.chain j (by omega)]

theorem mem_of_chainAt {e : ArEntry} (he : e ∈ c.dict.chainAt i) : e ∈ c.dict.entries := by
  unfold Dict.chainAt at he
  cases hs : c.dict.scanBucketAt i with
  | none =>
    rw [hs] at he
    exact absurd he List.not_mem_nil
  | some x =>
    obtain ⟨tier, b⟩ := x
    rw [hs] at he
    cases tier with
    | hot => exact Multiset.mem_add.2 (.inl (Chains.mem_entries_of_chain he))
    | cold => exact Multiset.mem_add.2 (.inr (Chains.mem_entries_of_chain he))

theorem mem_listing (hwf : c.WF) :
    key ∈ listing t pat 0 c ↔ (c.peek t key).isSome = true ∧ patMatches pat key = true := by
  unfold listing
  rw [List.mem_flatMap]
  constructor
  · rintro ⟨j, -, hj⟩
    obtain ⟨hm, e, he, rfl, hd⟩ := mem_liveKeys.1 hj
    refine ⟨?_, hm⟩
    rw [(peek_eq_some_iff hwf (i := e.toItem)).2 ⟨Multiset.mem_map_of_mem _ (mem_of_chainAt he), rfl, hd⟩]
    rfl
  · rintro ⟨hp, hm⟩
    obtain ⟨e, he, rfl, hd⟩ := exists_live hwf hp
    have hlt := hwf.dict.place_lt he
    exact ⟨_, List.mem_range'_1.2 ⟨Nat.zero_le _, by omega⟩,
      mem_liveKeys.2 ⟨hm, e, hwf.dict.mem_chainAt he, rfl, hd⟩⟩

/-- No key is listed twice. -/
theorem nodup_listing (hwf : c.WF) : (listing t pat 0 c).Nodup := by
  rw [List.nodup_iff_count_le_one]
  intro key
  by_cases hk : key ∈ listing t pat 0 c
  · obtain ⟨hp, hm⟩ := (mem_listing hwf).1 hk
    unfold listing
    rw [count_window (count_liveKeys hwf hp hm)]
    split <;> omega
  · rw [List.count_eq_zero.2 hk]
    omega

/-! ## What a walk leaves -/

/-- What is due in a chain is still to come. -/
def DueIn (t : Nat) (tier : Tier) (b : Nat) (l : List ArEntry) (c : ArCore) : Prop :=
  ∀ e ∈ (c.dict.table tier).chain b, Due t e.expireAt → e ∈ l

theorem DueIn.free {tier : Tier} {b : Nat} {e : ArEntry} {l : List ArEntry} (hwf : c.WF)
    (h : DueIn t tier b (e :: l) c) (hr : c.Holds ⟨tier, b, e⟩) :
    DueIn t tier b l (c.arEntryFreeEx b tier e) := by
  intro x hx hd
  rw [table_free (r := ⟨tier, b, e⟩) hr, Dict.unlink, Dict.table_setTable, Chains.chain_remove,
    if_pos rfl] at hx
  obtain ⟨a, l₁, l₂, -, ha, hl, he⟩ :=
    List.exists_of_eraseP (p := keyEq e.key) (show e ∈ (c.dict.table tier).chain b from hr) (keyEq_iff.2 rfl)
  rw [he] at hx
  have hxc : x ∈ (c.dict.table tier).chain b := by
    rw [hl]
    rcases List.mem_append.1 hx with hx | hx
    · exact List.mem_append_left _ hx
    · exact List.mem_append_right _ (.tail _ hx)
  refine List.mem_of_ne_of_mem ?_ (h x hxc hd)
  -- the key of the entry is in the chain once
  rintro rfl
  have hn := nodup_chain hwf tier b
  rw [hl, List.map_append, List.map_cons, List.nodup_middle, List.nodup_cons, ← List.map_append] at hn
  exact hn.1 (List.mem_map.2 ⟨x, hx, (keyEq_iff.1 ha).symm⟩)

theorem DueIn.skip {tier : Tier} {b : Nat} {e : ArEntry} {l : List ArEntry}
    (h : DueIn t tier b (e :: l) c) (hd : ¬Due t e.expireAt) : DueIn t tier b l c := by
  intro x hx hdx
  refine List.mem_of_ne_of_mem ?_ (h x hx hdx)
  rintro rfl
  exact hd hdx

theorem DueIn.scanChain (hwf : c.WF) (ha : E.AllocOk) {tier : Tier} {b : Nat} {l : List ArEntry}
    (hl : ∀ e ∈ l, c.Holds ⟨tier, b, e⟩) (hn : (l.map (·.key)).Nodup) (keys : List Bytes) (cap : Nat)
    (h : DueIn t tier b l c) : DueIn t tier b [] (ArCore.scanChain E t pat tier b l c keys cap).1 := by
  induction l generalizing c keys cap with
  | nil => exact h
  | cons e l ih =>
    have hltl : ∀ x ∈ l, c.Holds ⟨tier, b, x⟩ := fun x hx => hl x (.tail _ hx)
    have hntl : (l.map (·.key)).Nodup := (List.nodup_cons.1 hn).2
    by_cases hd : Due t e.expireAt
    · have hwf' := (Quiet.count c (fun s => { s with expired := s.expired + 1 }) (Nat.le_refl _)).wf hwf
      obtain ⟨hev, hl', hn'⟩ := Expires.drop (t := t) (B := .plain) hwf' hl hn hd
      rw [scanChain_due hd]
      exact ih (hev.wf hwf') hl' hn' keys cap (DueIn.free hwf' h (hl e (.head _)))
    · by_cases hp : patMatches pat e.key = true
      · obtain ⟨p, cap', hx⟩ := scanChain_live hd hp ha tier b l c keys cap
        rw [hx]
        exact ih (c := { c with pos := p }) ⟨hwf.dict, hwf.objs⟩ hltl hntl _ cap' (h.skip hd)
      · rw [scanChain_other hd hp]
        exact ih hwf hltl hntl keys cap (h.skip hd)

/-- The walk down a chain in `ar_dbsize` counts what is not due, releases the rest, and touches no other
chain. -/
theorem dbsizeChain_spec (hwf : c.WF) (tier : Tier) {b : Nat} {l : List ArEntry}
    (hl : ∀ e ∈ l, c.Holds ⟨tier, b, e⟩) (hn : (l.map (·.key)).Nodup) (n : Nat)
    (h : DueIn t tier b l c) :
    let x := ArCore.dbsizeChain t tier b l c n
    x.2 = n + (liveKeys t [] l).length ∧ SameElse (· = c.dict.chainNo tier b) c.dict x.1.dict ∧
      DueIn t tier b [] x.1 := by
  induction l generalizing c n with
  | nil => exact ⟨rfl, .refl _ _, h⟩
  | cons e l ih =>
    intro x
    by_cases hd : Due t e.expireAt
    · obtain ⟨hev, hl', hn'⟩ := Expires.drop (t := t) (B := .plain) hwf hl hn hd
      have hq := Quiet.count (c.arEntryFreeEx b tier e)
        (fun s => { s with expired := s.expired + 1 }) (Nat.le_refl _)
      have hs := SameElse.free (c := c) (hl e (.head _))
      obtain ⟨h₁, h₂, h₃⟩ := ih (hq.wf (hev.wf hwf)) hl' hn' n (h.free hwf (hl e (.head _)))
      have hx : x = ArCore.dbsizeChain t tier b l
          ((c.arEntryFreeEx b tier e).count fun s => { s with expired := s.expired + 1 }) n := if_pos hd
      rw [hx, liveKeys_cons_due hd]
      refine ⟨h₁, hs.trans ?_, h₃⟩
      rw [← hs.chainNo]
      exact h₂
    · obtain ⟨h₁, h₂, h₃⟩ := ih hwf (fun x hx => hl x (.tail _ hx)) (List.nodup_cons.1 hn).2 (n + 1)
        (h.skip hd)
      have hx : x = ArCore.dbsizeChain t tier b l c (n + 1) := if_neg hd
      rw [hx, liveKeys_cons_live hd rfl, List.length_cons]
      exact ⟨by rw [h₁]; omega, h₂, h₃⟩

/-! ## The walks -/

/-- The next chain has been passed. -/
theorem Swept.step {tier : Tier} {b : Nat} (hs : Swept t i c) (ht : c.dict.scanBucketAt i = some (tier, b))
    (he : SameElse (· = i) c.dict c'.dict) (hd : DueIn t tier b [] c') : Swept t (i + 1) c' := by
  have hat : c'.dict.scanBucketAt i = some (tier, b) := by
    rw [Dict.scanBucketAt_congr he.hot he.cold he.layout, ht]
  intro j hj e hej hde
  by_cases hij : j = i
  · subst hij
    rw [Dict.chainAt_of_some hat] at hej
    exact List.not_mem_nil (hd e hej hde)
  · rw [he.chain j hij] at hej
    exact hs j (by omega) e hej hde

/-- Behind the last chain there is nothing to pass. -/
theorem Swept.all (hs : Swept t i c) (h : c.dict.scanTotalBuckets ≤ i) (k : Nat) : Swept t k c := by
  intro j _ e he
  by_cases hj : j < i
  · exact hs j hj e he
  · rw [Dict.chainAt_of_le (by omega)] at he
    exact absurd he List.not_mem_nil

/-- A core without keys. -/
theorem chainAt_of_nkeys (hwf : c.WF) (h : c.dict.nkeys = 0) (j : Nat) : c.dict.chainAt j = [] := by
  refine List.eq_nil_iff_forall_not_mem.2 fun e he => ?_
  have hm := mem_of_chainAt he
  rw [hwf.dict.nkeys] at h
  rw [Multiset.card_eq_zero.1 h] at hm
  exact Multiset.notMem_zero e hm

theorem swept_of_nkeys (hwf : c.WF) (h : c.dict.nkeys = 0) (k : Nat) : Swept t k c := by
  intro j _ e he
  rw [chainAt_of_nkeys hwf h] at he
  exact absurd he List.not_mem_nil

theorem Swept.scanLoop (hwf : c.WF) (ha : E.AllocOk) (slots : Nat) (keys : List Bytes) (cap : Nat)
    (hs : Swept t i c) :
    Swept t (i + slots) (ArCore.scanLoop E t pat c.dict.scanTotalBuckets slots i c keys cap).1 := by
  generalize htot : c.dict.scanTotalBuckets = total
  induction slots generalizing i c keys cap with
  | zero => exact hs
  | succ slots ih =>
    unfold ArCore.scanLoop
    cases hb : c.dict.scanBucketAt i with
    | none =>
      have hge : c.dict.scanTotalBuckets ≤ i := by
        have := mt Dict.scanBucketAt_isSome.2 (by rw [hb]; exact Bool.false_ne_true)
        omega
      exact hs.all hge _
    | some x =>
      obtain ⟨tier, b⟩ := x
      obtain ⟨hno, -, -⟩ := Dict.scanBucketAt_some hb
      obtain ⟨-, helse⟩ := scanChain_spec (t := t) pat hwf ha tier (b := b)
        (fun e he => he) (nodup_chain hwf tier b) keys cap
      have hdue : DueIn t tier b []
          (ArCore.scanChain E t pat tier b ((c.dict.table tier).chain b) c keys cap).1 :=
        .scanChain hwf ha (fun e he => he) (nodup_chain hwf tier b) keys cap fun e he _ => he
      have hev : Evolves t .plain ∅ ∅ c
          (ArCore.scanChain E t pat tier b ((c.dict.table tier).chain b) c keys cap).1 :=
        (Expires.scanChain hwf pat (fun e he => he) (nodup_chain hwf tier b) keys cap).toEvolves
      rw [hno] at helse
      simp only
      generalize ArCore.scanChain E t pat tier b ((c.dict.table tier).chain b) c keys cap = r
        at helse hdue hev
      have hstep := hs.step hb helse hdue
      have htot' := helse.scanTotalBuckets.trans htot
      split
      · exact hstep.all (by omega) _
      · rw [show i + (slots + 1) = i + 1 + slots by omega]
        exact ih (hev.wf hwf) r.2.1 r.2.2 hstep htot'

theorem dbsizeLoop_spec (hwf : c.WF) (left n : Nat) (hs : Swept t i c) :
    let x := ArCore.dbsizeLoop t left i c n
    x.2 = n + ((List.range' i left).flatMap fun j => liveKeys t [] (c.dict.chainAt j)).length ∧
      Swept t (i + left) x.1 ∧ SameElse (fun j => i ≤ j ∧ j < i + left) c.dict x.1.dict := by
  induction left generalizing i c n with
  | zero => exact ⟨rfl, hs, .refl _ _⟩
  | succ left ih =>
    unfold ArCore.dbsizeLoop
    rw [List.range'_succ, List.flatMap_cons, List.length_append,
      show i + (left + 1) = i + 1 + left by omega]
    cases hb : c.dict.scanBucketAt i with
    | none =>
      have hge : c.dict.scanTotalBuckets ≤ i := by
        have := mt Dict.scanBucketAt_isSome.2 (by rw [hb]; exact Bool.false_ne_true)
        omega
      obtain ⟨h₁, h₂, h₃⟩ := ih hwf n (hs.all hge (i + 1))
      refine ⟨?_, h₂, h₃.mono fun j hj => by omega⟩
      rw [Dict.chainAt_of_le hge]
      exact h₁.trans (by rw [show liveKeys t [] [] = [] from rfl, List.length_nil, Nat.zero_add])
    | some x =>
      obtain ⟨tier, b⟩ := x
      obtain ⟨hno, -, -⟩ := Dict.scanBucketAt_some hb
      obtain ⟨hcount, helse, hdue⟩ := dbsizeChain_spec (t := t) hwf tier (b := b)
        (fun e he => he) (nodup_chain hwf tier b) n fun e he _ => he
      have hev : Evolves t .plain ∅ ∅ c
          (ArCore.dbsizeChain t tier b ((c.dict.table tier).chain b) c n).1 :=
        (Expires.dbsizeChain hwf (fun e he => he) (nodup_chain hwf tier b) n).toEvolves
      rw [hno] at helse
      simp only
      generalize ArCore.dbsizeChain t tier b ((c.dict.table tier).chain b) c n = r
        at hcount helse hdue hev
      obtain ⟨h₁, h₂, h₃⟩ := ih (hev.wf hwf) r.2 (hs.step hb helse hdue)
      have hsame : ((List.range' (i + 1) left).flatMap fun j => liveKeys t [] (r.1.dict.chainAt j)) =
          (List.range' (i + 1) left).flatMap fun j => liveKeys t [] (c.dict.chainAt j) := by
        refine List.flatMap_congr fun j hj => ?_
        rw [List.mem_range'_1] at hj
        rw [helse.chain j (by omega)]
      refine ⟨?_, h₂, (helse.mono fun j hj => by omega).trans (h₃.mono fun j hj => by omega)⟩
      rw [h₁, hsame, hcount, Dict.chainAt_of_some hb, Nat.add_assoc]

/-- What one page of a `SCAN MATCH` returns, where the next one begins, and what is behind them. -/
structure Page (t : Nat) (pat : Bytes) (cursor : Nat) (c : ArCore) (r : ArCore × List Bytes × Nat) :
    Prop where
  keys : listing t pat cursor c = r.2.1 ++ if r.2.2 = 0 then [] else listing t pat r.2.2 r.1
  next : r.2.2 ≠ 0 → cursor < r.2.2 ∧ r.2.2 < c.dict.scanTotalBuckets ∧
    r.1.dict.scanTotalBuckets = c.dict.scanTotalBuckets
  swept : Swept t cursor c → (r.2.2 = 0 → ∀ k, Swept t k r.1) ∧ Swept t r.2.2 r.1

theorem page_arScan (pat : Bytes) (hE : E.Frozen t) (ha : E.AllocOk) (hwf : c.WF) (cursor : Nat) (count : Int) :
    Page t pat cursor c (c.arScan E cursor pat count) := by
  by_cases hn : c.dict.nkeys = 0
  · have hx : c.arScan E cursor pat count = (c, [], 0) := if_pos hn
    have hnil : listing t pat cursor c = [] := by
      refine List.flatMap_eq_nil_iff.2 fun j _ => ?_
      rw [chainAt_of_nkeys hwf hn]
      rfl
    rw [hx]
    exact ⟨hnil, fun h => absurd rfl h, fun _ => ⟨fun _ => swept_of_nkeys hwf hn, swept_of_nkeys hwf hn _⟩⟩
  · by_cases hlt : cursor < c.dict.scanTotalBuckets
    · obtain ⟨h₁, h₂, h₃⟩ := arScan_eq pat hE hwf hn hlt ha count
      have hsw : Swept t cursor c →
          Swept t (cursor + ArCore.maxSlots count) (c.arScan E cursor pat count).1 := by
        intro hs
        have hq : Swept t cursor (c.arNowMs E).1 := hs
        have hx : c.arScan E cursor pat count = ArCore.scanLoop E t pat
            (c.arNowMs E).1.dict.scanTotalBuckets (ArCore.maxSlots count) cursor (c.arNowMs E).1 [] 0 := by
          unfold ArCore.arScan
          simp only
          rw [if_neg hn, if_neg (by omega), show (c.arNowMs E).2 = t from hE _]
          rfl
        rw [hx]
        exact hq.scanLoop ((Quiet.arNowMs E c).wf hwf) ha _ [] 0
      have htot := h₃.scanTotalBuckets
      have hpos := maxSlots_pos count
      generalize c.arScan E cursor pat count = r at h₁ h₂ h₃ hsw htot ⊢
      by_cases hend : c.dict.scanTotalBuckets ≤ cursor + ArCore.maxSlots count
      · rw [if_pos hend] at h₂
        refine ⟨?_, fun h => absurd h₂ h, fun hs => ⟨fun _ => (hsw hs).all (by omega), ?_⟩⟩
        · rw [h₁, if_pos h₂, List.append_nil]
          exact (listing_window hend).symm
        · rw [h₂]
          exact fun j hj => absurd hj (Nat.not_lt_zero j)
      · rw [if_neg hend] at h₂
        refine ⟨?_, fun _ => ⟨by omega, by omega, htot⟩, fun hs => ⟨fun h => absurd h (by omega), ?_⟩⟩
        · rw [h₁, h₂, if_neg (by omega), h₃.listing]
          exact listing_split (by omega)
        · rw [h₂]
          exact hsw hs
    · have hx : c.arScan E cursor pat count = (c, [], 0) := by
        unfold ArCore.arScan
        simp only
        rw [if_neg hn, if_pos (.inr (by omega))]
      rw [hx]
      exact ⟨listing_of_le (by omega), fun h => absurd rfl h,
        fun hs => ⟨fun _ => hs.all (by omega), hs.all (by omega) _⟩⟩

theorem wf_arScan (hE : E.Frozen t) (hwf : c.WF) (cursor : Nat) (pat : Bytes) (count : Int) :
    (c.arScan E cursor pat count).1.WF := by
  have hev : Evolves t .plain ∅ ∅ c (c.arScan E cursor pat count).1 :=
    (Expires.arScan hE.until hwf cursor pat count).toEvolves
  exact hev.wf hwf

/-- **The pages of a `SCAN MATCH`.** -/
theorem scanMatch_eq (hE : E.Frozen t) (ha : E.AllocOk) (hwf : c.WF) {cursor : Nat} {counts : List Int}
    (hf : c.FullMatch E pat cursor counts) : c.scanMatch E pat cursor counts = listing t pat cursor c := by
  induction counts generalizing c cursor with
  | nil => exact hf.elim
  | cons n ns ih =>
    have hpage := page_arScan pat hE ha hwf cursor n
    have hwf' := wf_arScan hE hwf cursor pat n
    unfold FullMatch at hf
    unfold scanMatch
    simp only at hf ⊢
    generalize c.arScan E cursor pat n = r at hpage hwf' hf ⊢
    rw [hpage.keys]
    by_cases h0 : r.2.2 = 0
    · rw [if_pos h0] at hf ⊢
      rw [hf]
      rfl
    · rw [if_neg h0] at hf ⊢
      rw [ih hwf' hf]

/-- As many calls as there are chains come to an end. -/
theorem exists_fullMatch (hE : E.Frozen t) (ha : E.AllocOk) (hwf : c.WF) {cursor : Nat} {counts : List Int}
    (hlt : cursor < c.dict.scanTotalBuckets) (hlen : c.dict.scanTotalBuckets ≤ cursor + counts.length) :
    ∃ m, c.FullMatch E pat cursor (counts.take m) := by
  induction counts generalizing c cursor with
  | nil =>
    rw [List.length_nil] at hlen
    omega
  | cons n ns ih =>
    have hpage := page_arScan pat hE ha hwf cursor n
    have hwf' := wf_arScan hE hwf cursor pat n
    rw [List.length_cons] at hlen
    by_cases h0 : (c.arScan E cursor pat n).2.2 = 0
    · exact ⟨1, (if_pos h0).mpr rfl⟩
    · obtain ⟨hgt, hlt', htot⟩ := hpage.next h0
      have hlen' : (c.arScan E cursor pat n).1.dict.scanTotalBuckets ≤
          (c.arScan E cursor pat n).2.2 + ns.length := by omega
      obtain ⟨m, hm⟩ := ih hwf' (by rw [htot]; exact hlt') hlen'
      exact ⟨m + 1, (if_neg h0).mpr hm⟩

/-- **The pages `KEYS` collects.** -/
theorem keysLoop_spec (pat : Bytes) (hE : E.Frozen t) (ha : E.AllocOk) (hwf : c.WF) {pages cursor : Nat}
    (keys : List Bytes) (hlen : c.dict.scanTotalBuckets ≤ cursor + pages) (hs : Swept t cursor c) :
    let x := ArCore.keysLoop E pat pages cursor c keys
    x.2 = keys ++ listing t pat cursor c ∧ ∀ k, Swept t k x.1 := by
  induction pages generalizing c cursor keys with
  | zero =>
    refine ⟨?_, hs.all (by omega)⟩
    rw [listing_of_le (by omega), List.append_nil]
    rfl
  | succ pages ih =>
    have hpage := page_arScan pat hE ha hwf cursor
      (if c.dict.scanTotalBuckets > 10000 then 10000 else c.dict.scanTotalBuckets)
    have hwf' := wf_arScan hE hwf cursor pat
      (if c.dict.scanTotalBuckets > 10000 then 10000 else c.dict.scanTotalBuckets)
    unfold ArCore.keysLoop
    simp only
    generalize c.arScan E cursor pat
      (if c.dict.scanTotalBuckets > 10000 then 10000 else c.dict.scanTotalBuckets) = r at hpage hwf' ⊢
    obtain ⟨hz, hnext⟩ := hpage.swept hs
    rw [hpage.keys]
    have hm : ∀ c : ArCore, (c.malloc E).2 = true := fun c => ha _
    by_cases h0 : r.2.2 = 0
    · rw [show (if r.2.2 = 0 then [] else listing t pat r.2.2 r.1) = [] from if_pos h0, List.append_nil]
      by_cases he : r.2.1.isEmpty
      · rw [if_pos he, if_pos h0, List.isEmpty_iff.1 he, List.append_nil]
        exact ⟨rfl, hz h0⟩
      · simp only [he, hm, h0, Bool.not_true, if_true, if_false, Bool.false_eq_true]
        exact ⟨trivial, hz h0⟩
    · obtain ⟨hgt, -, htot⟩ := hpage.next h0
      rw [show (if r.2.2 = 0 then [] else listing t pat r.2.2 r.1) = listing t pat r.2.2 r.1 from
        if_neg h0]
      by_cases he : r.2.1.isEmpty
      · rw [if_pos he, if_neg h0, List.isEmpty_iff.1 he, List.nil_append]
        exact ih hwf' keys (by omega) hnext
      · simp only [he, hm, h0, Bool.not_true, if_false, Bool.false_eq_true]
        rw [← List.append_assoc]
        exact ih (c := ((r.1.malloc E).1.malloc E).1)
          ((Quiet.malloc E _).wf ((Quiet.malloc E _).wf hwf')) (keys ++ r.2.1) (by show r.1.dict.scanTotalBuckets ≤ _; omega) hnext

/-! ## The three agree -/

/-- When nothing is due any more, the keys listed are all there are. -/
theorem nkeys_eq_length (hwf : c.WF) (hs : ∀ k, Swept t k c) :
    c.dict.nkeys = (listing t [] 0 c).length := by
  have hperm : (listing t [] 0 c : Multiset Bytes) = c.dict.entries.map (·.key) := by
    refine (Multiset.Nodup.ext (Multiset.coe_nodup.2 (nodup_listing hwf)) hwf.dict.nodup).2 fun key => ?_
    rw [Multiset.mem_coe, mem_listing hwf, Multiset.mem_map]
    constructor
    · rintro ⟨hp, -⟩
      obtain ⟨e, he, hk, -⟩ := exists_live hwf hp
      exact ⟨e, he, hk⟩
    · rintro ⟨e, he, rfl⟩
      have hd := hs _ _ (Nat.lt_succ_self _) e (hwf.dict.mem_chainAt he)
      refine ⟨?_, rfl⟩
      rw [(peek_eq_some_iff hwf (i := e.toItem)).2 ⟨Multiset.mem_map_of_mem _ he, rfl, hd⟩]
      rfl
  rw [hwf.dict.nkeys, ← Multiset.card_map (·.key), ← hperm, Multiset.coe_card]

/-- A walk that releases only what is due leaves what a lookup finds. -/
theorem Expires.peek {B : Terms} (h : Expires t B c c') (hwf : c.WF) (key : Bytes) :
    c'.peek t key = c.peek t key := by
  have hwf' := h.wf hwf
  have hmem : ∀ {d : ArCore} {i : Item}, i ∈ d.itemsAt key ↔ i ∈ d.items ∧ i.key = key :=
    Multiset.mem_filter
  rcases h.due key with he | ⟨hz, hd⟩
  · apply Option.ext
    intro i
    rw [peek_eq_some_iff hwf', peek_eq_some_iff hwf, ← and_assoc, ← and_assoc, ← hmem, ← hmem, he]
  · rw [peek_of_has (o := none) hwf' hz]
    exact ((peek_eq_none_iff hwf).2 fun i hi hik => hd i (hmem.2 ⟨hi, hik⟩)).symm

theorem Expires.length_listing {B : Terms} (h : Expires t B c c') (hwf : c.WF) :
    (listing t [] 0 c').length = (listing t [] 0 c).length := by
  have hwf' := h.wf hwf
  refine List.Perm.length_eq ((List.perm_ext_iff_of_nodup (nodup_listing hwf') (nodup_listing hwf)).2 ?_)
  intro key
  rw [mem_listing hwf', mem_listing hwf, h.peek hwf]

theorem arKeys_spec (hE : E.Frozen t) (ha : E.AllocOk) (hwf : c.WF) (pat : Bytes) :
    (c.arKeys E pat).2 = listing t pat 0 c ∧ ∀ k, Swept t k (c.arKeys E pat).1 := by
  have h0 : Swept t 0 c := fun j hj => absurd hj (Nat.not_lt_zero j)
  unfold ArCore.arKeys
  simp only
  by_cases htot : c.dict.scanTotalBuckets = 0
  · rw [if_pos htot]
    exact ⟨(listing_of_le (by omega)).symm, h0.all (by omega)⟩
  · rw [if_neg htot]
    obtain ⟨h₁, h₂⟩ := keysLoop_spec pat hE ha hwf [] (Nat.le_add_left _ 0) h0
    exact ⟨h₁, h₂⟩

theorem arDbsize_spec (hE : E.Frozen t) (hwf : c.WF) :
    (c.arDbsize E).2 = (listing t [] 0 c).length ∧ ∀ k, Swept t k (c.arDbsize E).1 := by
  have hq : Quiet c ((c.count fun s => { s with ops := s.ops + 1 }).arNowMs E).1 :=
    (Quiet.count c _ (Nat.le_refl _)).trans (.arNowMs E _)
  have h0 : Swept t 0 c := fun j hj => absurd hj (Nat.not_lt_zero j)
  by_cases htot : c.dict.scanTotalBuckets = 0
  · have hx : c.arDbsize E = (c.count fun s => { s with ops := s.ops + 1 }, 0) := if_pos htot
    rw [hx, listing_of_le (by omega)]
    exact ⟨rfl, fun k => h0.all (by omega) k⟩
  · have hx : c.arDbsize E = ArCore.dbsizeLoop t c.dict.scanTotalBuckets 0
        ((c.count fun s => { s with ops := s.ops + 1 }).arNowMs E).1 0 := by
      refine (if_neg htot).trans ?_
      rw [show ((c.count fun s => { s with ops := s.ops + 1 }).arNowMs E).2 = t from hE _]
      rfl
    obtain ⟨h₁, h₂, h₃⟩ := dbsizeLoop_spec (t := t) (i := 0) (hq.wf hwf) c.dict.scanTotalBuckets 0 h0
    rw [hx]
    refine ⟨?_, h₂.all ?_⟩
    · rw [h₁, Nat.zero_add]
      rfl
    · rw [h₃.scanTotalBuckets, Nat.zero_add]
      exact Nat.le_refl _

theorem listing_star : listing t [star] 0 c = listing t [] 0 c := rfl

/-- **`KEYS`, `SCAN MATCH` and `DBSIZE` agree**: `KEYS` returns the live keys that match, each once, an
iteration with `SCAN MATCH` returns the same and comes to an end, and `DBSIZE` counts what `KEYS *` returns,
which is all that is left behind either. -/
theorem listings_agree (hc : ArCore.Reachable c) (hE : E.Frozen t) (ha : E.AllocOk) :
    (∀ pat, pat ≠ [] → (c.arKeys E pat).2.Nodup ∧
      (∀ key, key ∈ (c.arKeys E pat).2 ↔ (c.peek t key).isSome = true ∧ arGlobMatch pat key = true) ∧
      (∀ counts, c.FullMatch E pat 0 counts → c.scanMatch E pat 0 counts = (c.arKeys E pat).2) ∧
      ∀ counts : List Int, c.dict.scanTotalBuckets ≤ counts.length →
        ∃ m, c.FullMatch E pat 0 (counts.take m)) ∧
    (c.arDbsize E).2 = (c.arKeys E [star]).2.length ∧
    (c.arDbsize E).1.dict.nkeys = (c.arDbsize E).2 ∧
    (c.arKeys E [star]).1.dict.nkeys = (c.arDbsize E).2 := by
  have hwf := hc.wf
  have hdb : Expires t .plain c (c.arDbsize E).1 := .arDbsize hE.until hwf
  have hkeys : Expires t .plain c (c.arKeys E [star]).1 := .arKeys hE.until hwf _
  obtain ⟨hcount, hswept⟩ := arDbsize_spec hE hwf
  obtain ⟨hall, hswept'⟩ := arKeys_spec hE ha hwf [star]
  refine ⟨fun pat hp => ?_, ?_, ?_, ?_⟩
  · obtain ⟨h, -⟩ := arKeys_spec hE ha hwf pat
    rw [h]
    refine ⟨nodup_listing hwf, fun key => ?_, fun counts hf => scanMatch_eq hE ha hwf hf, fun counts hlen => ?_⟩
    · rw [mem_listing hwf, patMatches_of_ne hp]
    · refine exists_fullMatch hE ha hwf ?_ (by rwa [Nat.zero_add])
      obtain ⟨p, hpow⟩ := hwf.dict.hotPow
      have hpos : 0 < c.dict.hot.length := hpow ▸ Nat.two_pow_pos p
      exact Nat.lt_of_lt_of_le hpos (Nat.le_add_right _ _)
  · rw [hcount, hall, listing_star]
  · rw [nkeys_eq_length (hdb.wf hwf) hswept, hdb.length_listing hwf, hcount]
  · rw [nkeys_eq_length (hkeys.wf hwf) hswept', hkeys.length_listing hwf, hcount]

/-- With a key that is there, an iteration ends at the first count that comes to the last chain. -/
theorem fullMatch_of_slots (hE : E.Frozen t) (ha : E.AllocOk) (hwf : c.WF) (hp : (c.peek t key).isSome = true)
    {counts : List Int} {n : Int} {cursor : Nat}
    (hlt : cursor + (counts.map ArCore.maxSlots).sum < c.dict.scanTotalBuckets)
    (hend : c.dict.scanTotalBuckets ≤ cursor + (counts.map ArCore.maxSlots).sum + ArCore.maxSlots n) :
    c.FullMatch E pat cursor (counts ++ [n]) := by
  induction counts generalizing c cursor with
  | nil =>
    rw [List.map_nil, List.sum_nil, Nat.add_zero] at hlt hend
    obtain ⟨-, hnext, -⟩ := arScan_eq pat hE hwf (nkeys_ne_zero hwf hp) hlt ha n
    exact (if_pos (hnext.trans (if_pos hend))).mpr rfl
  | cons m counts ih =>
    rw [List.map_cons, List.sum_cons, ← Nat.add_assoc] at hlt hend
    have hm := maxSlots_pos m
    have hcursor : cursor < c.dict.scanTotalBuckets := by omega
    obtain ⟨-, hnext, hsame⟩ := arScan_eq pat hE hwf (nkeys_ne_zero hwf hp) hcursor ha m
    have hnext : (c.arScan E cursor pat m).2.2 = cursor + ArCore.maxSlots m := hnext.trans (if_neg (by omega))
    have hpeek := Expires.peek (Expires.arScan (B := .plain) hE.until hwf cursor pat m) hwf key
    rw [← hpeek] at hp
    rw [← hsame.scanTotalBuckets] at hlt hend
    have hrest := ih (wf_arScan hE hwf cursor pat m) hp hlt hend
    rw [← hnext] at hrest
    exact (if_neg (by omega)).mpr hrest

/-- Three keys, two of them of one letter. -/
def threeKeys : ArCore :=
  ArCore.arCoreCreate.runCalls [.steady 0 (.arEntrySetEx (lit "a") (lit "v") 0),
    .steady 0 (.arEntrySetEx (lit "b") (lit "v") 0), .steady 0 (.arEntrySetEx (lit "cc") (lit "v") 0)]

theorem reachable_threeKeys : ArCore.Reachable threeKeys := ArCore.Reachable.create.runCalls _

/-- Four pages, of 300, 10, 500 and the rest of 1024 chains. -/
theorem listings_agree_threeKeys :
    (lit "a" ∈ (threeKeys.arKeys (.steady 0) (lit "?")).2 ∧ lit "b" ∈ (threeKeys.arKeys (.steady 0) (lit "?")).2 ∧
      lit "cc" ∉ (threeKeys.arKeys (.steady 0) (lit "?")).2) ∧
    threeKeys.scanMatch (.steady 0) (lit "?") 0 [300, 0, 500, 10000] = (threeKeys.arKeys (.steady 0) (lit "?")).2 ∧
    (threeKeys.arDbsize (.steady 0)).2 = (threeKeys.arKeys (.steady 0) [star]).2.length := by
  have hall := Env.allocOk_steady 0
  have hc := reachable_threeKeys
  have hp : (threeKeys.peek 0 (lit "a")).isSome = true ∧ (threeKeys.peek 0 (lit "b")).isSome = true := by decide +kernel
  have htot : threeKeys.dict.scanTotalBuckets = 1024 := by decide +kernel
  obtain ⟨hkeys, hcount, -⟩ := listings_agree reachable_threeKeys (Env.frozen_steady 0) hall
  obtain ⟨-, hmem, hscan, -⟩ := hkeys (lit "?") (by decide)
  generalize threeKeys = c at hc hp htot hcount hmem hscan ⊢
  have hglob : arGlobMatch (lit "?") (lit "a") = true ∧ arGlobMatch (lit "?") (lit "b") = true ∧
      arGlobMatch (lit "?") (lit "cc") = false := by
    simp [arGlobMatch, globWalk, lit, star, question]
  have hfull : c.FullMatch (.steady 0) (lit "?") 0 ([300, 0, 500] ++ [10000]) :=
    fullMatch_of_slots (Env.frozen_steady 0) hall hc.wf hp.1 (by rw [htot]; decide) (by rw [htot]; decide)
  refine ⟨⟨(hmem _).2 ⟨hp.1, hglob.1⟩, (hmem _).2 ⟨hp.2, hglob.2.1⟩, fun h => ?_⟩, hscan _ hfull, hcount⟩
  rw [(hmem _).1 h |>.2] at hglob
  cases hglob.2.2

/-- Without memory there are no pages. -/
theorem arKeys_broke (pat : Bytes) (hwf : c.WF) (hp : (c.peek 0 key).isSome = true)
    (hle : c.dict.scanTotalBuckets ≤ 10000) : (c.arKeys Env.broke pat).2 = [] := by
  have hlt : 0 < c.dict.scanTotalBuckets := Nat.zero_lt_of_lt (place_lt hwf hp)
  have hcount : (if c.dict.scanTotalBuckets > 10000 then 10000 else (c.dict.scanTotalBuckets : Int)) =
      c.dict.scanTotalBuckets := if_neg (by omega)
  have hslots : ArCore.maxSlots c.dict.scanTotalBuckets = c.dict.scanTotalBuckets := by
    unfold ArCore.maxSlots
    simp only
    rw [if_neg (by omega), if_neg (by omega)]
    rfl
  obtain ⟨h₁, h₂, -⟩ := arScan_eq pat Env.frozen_broke hwf (nkeys_ne_zero hwf hp) hlt
    (fun _ => rfl) c.dict.scanTotalBuckets
  rw [hslots] at h₁ h₂
  have hnil : (c.arScan Env.broke 0 pat c.dict.scanTotalBuckets).2.1 = [] :=
    h₁.trans (List.flatMap_eq_nil_iff.2 fun _ _ => rfl)
  have hend : (c.arScan Env.broke 0 pat c.dict.scanTotalBuckets).2.2 = 0 :=
    h₂.trans (if_pos (by omega))
  unfold ArCore.arKeys
  simp only
  rw [if_neg (by omega), ← Nat.succ_pred_eq_of_pos hlt]
  unfold ArCore.keysLoop
  simp only
  rw [hcount, hnil, hend]
  rfl

/-- **Without memory `KEYS` leaves keys out**; and so it does, with all its memory, when the count of the keys
has fallen behind the keys. -/
theorem keys_leaves_out :
    (ArCore.Reachable oneKey ∧ (oneKey.peek 0 (lit "k")).isSome = true ∧
      arGlobMatch [star] (lit "k") = true ∧ lit "k" ∉ (oneKey.arKeys Env.broke [star]).2) ∧
    ArCore.Reachable twoKeys ∧ (∀ m n, m ≤ n → tickingEnv.time m ≤ tickingEnv.time n) ∧
      ((twoKeys.evictOne tickingEnv).1.peek 10 (lit "j")).isSome = true ∧
      arGlobMatch [star] (lit "j") = true ∧
      lit "j" ∉ ((twoKeys.evictOne tickingEnv).1.arKeys (.steady 10) [star]).2 := by
  have hnil := arKeys_broke [star] reachable_oneKey.wf peek_oneKey total_oneKey
  refine ⟨⟨reachable_oneKey, peek_oneKey, by decide +kernel, by rw [hnil]; exact List.not_mem_nil⟩,
    reachable_twoKeys, time_tickingEnv, by decide +kernel, by decide +kernel, by decide +kernel⟩

end

end AuraRedis
