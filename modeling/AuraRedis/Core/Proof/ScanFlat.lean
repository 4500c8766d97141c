import AuraRedis.Core.Proof.Iterate
import AuraRedis.Core.Proof.Victim

/-!
# `SCAN` in the flat layout

A table only ever doubles, and doubling moves a key to a chain with no smaller number
(`mask_mono`). So no key is moved behind the cursor (`staysAhead_flat`), and an iteration returns every key
that is there throughout: `scan_flat`.
-/

set_option autoImplicit false

namespace AuraRedis

section
variable {c : ArCore} {key : Bytes} {cursor t : Nat} {turns : List ScanTurn}

/-! ## Growth -/

/-- The low bits of a hash: fewer of them, no larger a number. -/
theorem mask_mono {n n' p q : Nat} (hn : n = 2 ^ p) (hn' : n' = 2 ^ q) (h : n ≤ n') (x : Nat) :
    x &&& (n - 1) ≤ x &&& (n' - 1) := by
  subst hn hn'
  have hpq : p ≤ q := (Nat.pow_le_pow_iff_right (by decide)).1 h
  rw [Nat.and_two_pow_sub_one_eq_mod, Nat.and_two_pow_sub_one_eq_mod,
    ← Nat.mod_mod_of_dvd x (Nat.pow_dvd_pow 2 hpq)]
  exact Nat.mod_le ..

/-- No call shrinks the table. -/
theorem grow_run (hwf : c.WF) (x : Call) : c.dict.hot.length ≤ (x.op.run x.E c).1.dict.hot.length := by
  cases hk : x.op.isKnob with
  | false => exact (x.op.sound x.frozen hwf hk).evolves.grow
  | true =>
    obtain ⟨g, s, hev, -⟩ := x.op.knob_evolves (B := .plain) x.frozen hwf hk
    exact hev.grow

theorem grow_runs (hwf : c.WF) (calls : List Call) :
    c.dict.hot.length ≤ (c.runCalls calls).dict.hot.length := by
  induction calls generalizing c with
  | nil => exact Nat.le_refl _
  | cons x calls ih => exact (grow_run hwf x).trans (ih (wf_run hwf x))

theorem grow_turn (hwf : c.WF) (x : ScanTurn) (cursor : Nat) :
    c.dict.hot.length ≤
      ((c.arScan x.E cursor [] x.count).1.runCalls x.calls).dict.hot.length := by
  have hev : Evolves x.t .plain ∅ ∅ c (c.arScan x.E cursor [] x.count).1 :=
    (Expires.arScan x.frozen.until hwf cursor [] x.count).toEvolves
  exact hev.grow.trans (grow_runs (hev.wf hwf) x.calls)

/-! ## Places -/

theorem place_flat (hwf : c.WF) (hl : c.dict.layout = .flat) (hp : (c.peek t key).isSome = true) :
    c.dict.place key = keySlot c.dict.hot.length key := by
  obtain ⟨e, he, rfl, -⟩ := exists_live hwf hp
  rw [Dict.entries, hwf.dict.flatCold hl] at he
  obtain ⟨b, hb⟩ := Chains.mem_entries.1 ((Multiset.mem_add.1 he).resolve_right (Multiset.notMem_zero e))
  rw [hwf.dict.place_of_mem .hot hb]
  exact (hwf.dict.hotPlaced b e hb).symm

/-- A turn of an iteration over the flat table. -/
def ShowsFlat (key : Bytes) (c : ArCore) (cursor : Nat) (x : ScanTurn) : Prop :=
  ArCore.Shows key c cursor x ∧ c.dict.layout = .flat

theorem eachTurn_mono {P Q : ArCore → Nat → ScanTurn → Prop} (h : ∀ c i x, P c i x → Q c i x)
    (hP : c.EachTurn P cursor turns) : c.EachTurn Q cursor turns := by
  induction turns generalizing c cursor with
  | nil => trivial
  | cons x turns ih => exact ⟨h _ _ _ hP.1, ih hP.2⟩

/-- **The table grows and no key is moved behind the cursor.** -/
theorem staysAhead_flat (hwf : c.WF) (hs : c.EachTurn (ShowsFlat key) cursor turns) :
    StaysAhead (c.looks key cursor turns) := by
  induction turns generalizing c cursor with
  | nil => exact .nil
  | cons x turns ih =>
    have hwf' := wf_turn hwf x cursor
    have hrest := ih hwf' hs.2
    cases turns with
    | nil => exact .singleton _
    | cons y turns =>
      refine List.isChain_cons_cons.2 ⟨fun hto => hto.trans ?_, hrest⟩
      obtain ⟨⟨⟨hp, -⟩, hl⟩, ⟨⟨hp', -⟩, hl'⟩, -⟩ := hs
      obtain ⟨p, hpow⟩ := hwf.dict.hotPow
      obtain ⟨q, hpow'⟩ := hwf'.dict.hotPow
      show c.dict.place key ≤ Dict.place _ key
      rw [place_flat hwf hl hp, place_flat hwf' hl' hp']
      exact mask_mono hpow hpow' (grow_turn hwf x cursor) _

/-- Without a doubling a key stays where it is. -/
theorem place_looks_flat (hwf : c.WF) (hs : c.EachTurn (ShowsFlat key) cursor turns) {n : Nat}
    (hn : c.EachTurn (fun c _ _ => c.dict.hot.length = n) cursor turns) :
    ∀ x ∈ c.looks key cursor turns, x.place = keySlot n key := by
  induction turns generalizing c cursor with
  | nil => exact fun _ h => absurd h List.not_mem_nil
  | cons x turns ih =>
    intro y hy
    rcases List.mem_cons.1 hy with rfl | hy
    · rw [← hn.1]
      exact place_flat hwf hs.1.2 hs.1.1.1
    · exact ih (wf_turn hwf x cursor) hs.2 hn.2 y hy

/-- **An iteration over a flat table returns every key that is there throughout**, whatever the other
clients do, and if the table does not double it returns it once. -/
theorem scan_flat (hc : ArCore.Reachable c) (hs : c.EachTurn (ShowsFlat key) 0 turns)
    (hf : c.FullScan 0 turns) :
    key ∈ c.scanned 0 turns ∧
      ∀ n, c.EachTurn (fun c _ _ => c.dict.hot.length = n) 0 turns → (c.scanned 0 turns).count key = 1 := by
  have hshow : c.EachTurn (ArCore.Shows key) 0 turns := eachTurn_mono (fun _ _ _ h => h.1) hs
  refine ⟨scanned_of_ahead hc.wf hshow hf (staysAhead_flat hc.wf hs), fun n hn => ?_⟩
  exact scanned_once hc.wf hshow hf (place_looks_flat hc.wf hs hn)

/-- One `SCAN` of a table of no more than ten thousand chains. -/
def wholeTurn (E : Env) (h : E.Frozen t) : ScanTurn := ⟨E, t, h, 10000, []⟩

section
variable {E : Env} {h : E.Frozen t}

theorem fullScan_wholeTurn (hz : (c.arScan E 0 [] 10000).2.2 = 0) : c.FullScan 0 [wholeTurn E h] :=
  (if_pos hz).mpr rfl

theorem scanned_wholeTurn : c.scanned 0 [wholeTurn E h] = (c.arScan E 0 [] 10000).2.1 :=
  List.append_nil _

/-- A core without keys answers at once. -/
theorem arScan_nkeys_zero (hz : c.dict.nkeys = 0) (cursor : Nat) (count : Int) :
    c.arScan E cursor [] count = (c, [], 0) := if_pos hz

/-- What a `SCAN` of the whole table returns, with memory or without. -/
theorem arScan_whole (pat : Bytes) (hE : E.Frozen t) (hwf : c.WF) (hp : (c.peek t key).isSome = true)
    (hle : c.dict.scanTotalBuckets ≤ 10000) {ok : Bool} (ha : ∀ n, E.alloc n = ok) :
    (c.arScan E 0 pat 10000).2.1 = (List.range' 0 (ArCore.maxSlots 10000)).flatMap
        (fun j => shownKeys ok t pat (c.dict.chainAt j)) ∧
      (c.arScan E 0 pat 10000).2.2 = 0 := by
  have hlt : 0 < c.dict.scanTotalBuckets := Nat.zero_lt_of_lt (place_lt hwf hp)
  obtain ⟨h₁, h₂, -⟩ := arScan_eq pat hE hwf (nkeys_ne_zero hwf hp) hlt ha 10000
  refine ⟨h₁, ?_⟩
  rw [h₂]
  exact if_pos hle

end

/-- There is no memory. -/
def Env.broke : Env := ⟨fun _ => 0, fun _ => 0, fun _ => false⟩

theorem Env.frozen_steady (t : Nat) : (Env.steady t).Frozen t := fun _ => rfl

theorem Env.frozen_steady_zero : (Env.steady 0).Frozen 0 := frozen_steady 0

theorem Env.frozen_broke : Env.broke.Frozen 0 := fun _ => rfl

theorem Env.allocOk_steady (t : Nat) : (Env.steady t).AllocOk := fun _ => rfl

/-- Without memory an iteration ends with nothing. -/
theorem scanned_broke (hwf : c.WF) (hp : (c.peek 0 key).isSome = true)
    (hle : c.dict.scanTotalBuckets ≤ 10000) :
    c.FullScan 0 [wholeTurn _ Env.frozen_broke] ∧ key ∉ c.scanned 0 [wholeTurn _ Env.frozen_broke] := by
  have hbroke : ∀ n, Env.broke.alloc n = false := fun _ => rfl
  obtain ⟨hkeys, hend⟩ := arScan_whole [] Env.frozen_broke hwf hp hle hbroke
  refine ⟨fullScan_wholeTurn hend, ?_⟩
  rw [scanned_wholeTurn, hkeys]
  intro hm
  obtain ⟨j, -, hj⟩ := List.mem_flatMap.1 hm
  exact List.not_mem_nil hj

/-- A core that has lost count of its keys ends an iteration before it begins. -/
theorem scanned_uncounted {h : (Env.steady t).Frozen t} (hz : c.dict.nkeys = 0) :
    c.FullScan 0 [wholeTurn _ h] ∧ c.scanned 0 [wholeTurn _ h] = [] := by
  refine ⟨fullScan_wholeTurn ?_, ?_⟩
  · rw [arScan_nkeys_zero hz]
  · rw [scanned_wholeTurn, arScan_nkeys_zero hz]

/-- A flat table with one key. -/
def oneKey : ArCore :=
  ArCore.arCoreCreate.runCalls [.steady 0 (.arEntrySetEx (lit "k") (lit "v") 0)]

theorem reachable_oneKey : ArCore.Reachable oneKey := ArCore.Reachable.create.runCalls _

theorem layout_oneKey : oneKey.dict.layout = .flat := by decide +kernel

theorem length_oneKey : oneKey.dict.hot.length = 1024 := by decide +kernel

theorem peek_oneKey : (oneKey.peek 0 (lit "k")).isSome = true := by decide +kernel

theorem total_oneKey : oneKey.dict.scanTotalBuckets ≤ 10000 := by decide +kernel

/-! ### An iteration that is interrupted -/

/-- A first look at some chains, a call, and a look at the others. -/
def twoScans (n : Int) (x : Call) : List ScanTurn :=
  [⟨_, 0, Env.frozen_steady 0, n, [x]⟩, wholeTurn _ (Env.frozen_steady 0)]

/-- The core after the first turn. -/
def ArCore.between (c : ArCore) (n : Int) (x : Call) : ArCore := (c.arScan (.steady 0) 0 [] n).1.runCalls [x]

section
variable {n : Int} {x : Call} {m cursor : Nat}

theorem reachable_between (hc : ArCore.Reachable c) (n : Int) (x : Call) : ArCore.Reachable (c.between n x) :=
  (ArCore.Reachable.call ⟨_, 0, .arScan 0 [] n, Env.frozen_steady 0⟩ hc).runCalls _

theorem cursor_between (hc : ArCore.Reachable c) (hp : ((c.between n x).peek 0 key).isSome = true)
    (hle : (c.between n x).dict.scanTotalBuckets ≤ cursor + 10000) :
    ((c.between n x).arScan (.steady 0) cursor [] 10000).2.2 = 0 := by
  rw [(arScan_spec (Env.frozen_steady 0) (reachable_between hc n x).wf (Env.allocOk_steady 0) hp cursor 10000).2]
  exact if_pos hle

theorem fullScan_twoScans (hr : (c.arScan (.steady 0) 0 [] n).2 = ([], m + 1))
    (hend : ((c.between n x).arScan (.steady 0) (m + 1) [] 10000).2.2 = 0) : c.FullScan 0 (twoScans n x) := by
  unfold twoScans ArCore.FullScan
  simp only [hr, Nat.succ_ne_zero, if_false]
  exact (if_pos hend).mpr rfl

theorem scanned_twoScans (hr : (c.arScan (.steady 0) 0 [] n).2 = ([], m)) :
    c.scanned 0 (twoScans n x) = ((c.between n x).arScan (.steady 0) m [] 10000).2.1 := by
  unfold twoScans ArCore.scanned
  simp only [hr, List.nil_append]
  exact List.append_nil _

theorem eachTurn_twoScans {P : ArCore → Nat → ScanTurn → Prop} (hr : (c.arScan (.steady 0) 0 [] n).2 = ([], m))
    (h₁ : P c 0 ⟨_, 0, Env.frozen_steady 0, n, [x]⟩)
    (h₂ : P (c.between n x) m (wholeTurn _ (Env.frozen_steady 0))) : c.EachTurn P 0 (twoScans n x) := by
  unfold twoScans ArCore.EachTurn
  simp only [hr]
  exact ⟨h₁, h₂, trivial⟩

theorem between_twoScans {P : ArCore → Nat → Call → Prop} (hr : (c.arScan (.steady 0) 0 [] n).2 = ([], m))
    (h : P (c.arScan (.steady 0) 0 [] n).1 m x) : c.EachBetween P 0 (twoScans n x) := by
  unfold twoScans ArCore.EachBetween
  simp only [hr]
  exact ⟨⟨h, trivial⟩, trivial, trivial⟩

end

/-- Another key is written after the first chain has been looked at. -/
def otherWritten : List ScanTurn := twoScans 1 (.steady 0 (.arEntrySetEx (lit "j") (lit "w") 0))

theorem scan_flat_oneKey : lit "k" ∈ oneKey.scanned 0 otherWritten ∧
    (oneKey.scanned 0 otherWritten).count (lit "k") = 1 := by
  have hall := Env.allocOk_steady 0
  have hc := reachable_oneKey
  have hp₀ := peek_oneKey
  have hl₀ := layout_oneKey
  have hn₀ := length_oneKey
  have hr : (oneKey.arScan (.steady 0) 0 [] 1).2 = ([], 1) := by decide +kernel
  have hp : ((oneKey.between 1 (.steady 0 (.arEntrySetEx (lit "j") (lit "w") 0))).peek 0 (lit "k")).isSome = true := by
    decide +kernel
  have hl : (oneKey.between 1 (.steady 0 (.arEntrySetEx (lit "j") (lit "w") 0))).dict.layout = .flat := by
    decide +kernel
  have hn : (oneKey.between 1 (.steady 0 (.arEntrySetEx (lit "j") (lit "w") 0))).dict.hot.length = 1024 := by
    decide +kernel
  have hle : (oneKey.between 1 (.steady 0 (.arEntrySetEx (lit "j") (lit "w") 0))).dict.scanTotalBuckets ≤ 1 + 10000 := by
    decide +kernel
  -- the core is a name from here on, not a run to be computed
  generalize oneKey = c at hc hp₀ hl₀ hn₀ hr hp hl hn hle ⊢
  have hshow : c.EachTurn (ShowsFlat (lit "k")) 0 otherWritten :=
    eachTurn_twoScans hr ⟨⟨hp₀, hall⟩, hl₀⟩ ⟨⟨hp, hall⟩, hl⟩
  have hfull : c.FullScan 0 otherWritten := fullScan_twoScans hr (cursor_between hc hp hle)
  obtain ⟨h₁, h₂⟩ := scan_flat hc hshow hfull
  exact ⟨h₁, h₂ 1024 (eachTurn_twoScans hr hn₀ hn)⟩

/-- **Without memory a `SCAN` passes over keys**; and a count of the keys that has fallen behind the keys,
which a stale victim leaves under a ticking clock, ends an iteration before it begins. -/
theorem scan_passes_over :
    (ArCore.Reachable oneKey ∧ oneKey.FullScan 0 [wholeTurn _ Env.frozen_broke] ∧
      oneKey.dict.layout = .flat ∧ (oneKey.peek 0 (lit "k")).isSome = true ∧
      lit "k" ∉ oneKey.scanned 0 [wholeTurn _ Env.frozen_broke]) ∧
    ArCore.Reachable twoKeys ∧ (∀ m n, m ≤ n → tickingEnv.time m ≤ tickingEnv.time n) ∧
      ((twoKeys.evictOne tickingEnv).1.peek 10 (lit "j")).isSome = true ∧
      (twoKeys.evictOne tickingEnv).1.FullScan 0 [wholeTurn _ (Env.frozen_steady 10)] ∧
      (twoKeys.evictOne tickingEnv).1.scanned 0 [wholeTurn _ (Env.frozen_steady 10)] = [] := by
  refine ⟨?_, reachable_twoKeys, time_tickingEnv, by decide +kernel, ?_⟩
  · have hc := reachable_oneKey
    have hp := peek_oneKey
    have hl := layout_oneKey
    have hle := total_oneKey
    generalize oneKey = c at hc hp hl hle ⊢
    obtain ⟨h₁, h₂⟩ := scanned_broke hc.wf hp hle
    exact ⟨hc, h₁, hl, hp, h₂⟩
  · have hz : (twoKeys.evictOne tickingEnv).1.dict.nkeys = 0 := by decide +kernel
    generalize (twoKeys.evictOne tickingEnv).1 = c at hz ⊢
    exact scanned_uncounted hz

end

end AuraRedis
