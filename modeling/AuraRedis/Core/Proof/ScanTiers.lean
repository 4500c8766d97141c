import AuraRedis.Core.Proof.Room

/-!
# `SCAN` in the `hot_cold` layout

`GET`s and `SET`s between the turns keep a key ahead of the cursor (`Ahead.run`), whatever they promote, demote
or grow, unless one of them is on the key itself and takes it from a cold chain the iteration has not come to
into a hot one that it has passed. So an iteration without such a promotion returns the key: `scan_tiers`.
-/

set_option autoImplicit false

namespace AuraRedis

section
variable {c c' c₀ : ArCore} {key : Bytes} {E : Env} {t i cursor : Nat} {turns : List ScanTurn}

/-! ## Calls -/

/-- The end of a write: room, and the watchers. -/
theorem Ahead.room (h : Ahead i key c.dict c₀.dict) (hwf : c₀.WF) (k : Bytes) :
    Ahead i key c.dict ((c₀.maybeEvict E).arWatchTouch k).dict :=
  h.trans (.of_fewer ((Fewer.maybeEvict E c₀).trans (.touch _ k)) hwf.dict.toShape)

/-- Without memory nothing is linked. -/
theorem dict_setNew_fail (k : Bytes) (hm : ¬((c.malloc E).2 = true ∧ ((c.malloc E).1.malloc E).2 = true ∧
    (((c.malloc E).1.malloc E).1.malloc E).2 = true)) (val : Bytes) (expireAt : Nat) :
    (c.setNew E k val expireAt).1.dict = c.dict := by
  unfold ArCore.setNew
  simp only
  split
  · rfl
  · rename_i h₁
    split
    · rfl
    · rename_i h₂
      refine absurd ⟨by simpa using h₁, ?_⟩ hm
      simpa using h₂

theorem dict_setExisting_fail {r : Ref} (hm : (c.malloc E).2 = false) (val : Bytes) (expireAt : Nat) :
    (c.setExisting E r val expireAt).1.dict = c.dict := by
  unfold ArCore.setExisting
  simp only [hm, Bool.not_false, if_true]
  rfl

theorem Ahead.arFindEntryEx (hwf : c.WF) (k : Bytes) :
    Ahead i key c.dict (c.arFindEntryEx E k).1.dict := .of_fewer (.arFindEntryEx E c k) hwf.dict.toShape

theorem Ahead.arEntrySetEx (hE : E.Frozen t) (hwf : c.WF) (k val : Bytes) (expireAt : Nat)
    (hp : (c.peek t key).isSome = true) (hs : k = key → Settled i key c) :
    Ahead i key c.dict (c.arEntrySetEx E k val expireAt).1.dict := by
  have h₀ : Ahead i key c.dict (c.arFindEntryEx E k).1.dict := .arFindEntryEx hwf k
  have hf : Fewer c (c.arFindEntryEx E k).1 := .arFindEntryEx E c k
  unfold ArCore.arEntrySetEx
  rcases find_cases (B := .plain) hE hwf k with ⟨hn, hev, hno, hnone⟩ | ⟨r, hsome, hq, hr, hk, -⟩
  · simp only [hn]
    have hwf₁ := hev.wf hwf
    have hne : k ≠ key := by
      intro h
      rw [← h, hnone] at hp
      cases hp
    generalize (c.arFindEntryEx E k).1 = c₁ at h₀ hwf₁ hno ⊢
    by_cases hm : (c₁.malloc E).2 = true ∧ ((c₁.malloc E).1.malloc E).2 = true ∧
        (((c₁.malloc E).1.malloc E).1.malloc E).2 = true
    · obtain ⟨c₀, he, hg, ha⟩ := grows_setNew hwf₁ (has_none_iff.1 hno) hm.1 hm.2.1 hm.2.2 val expireAt
      rw [he]
      exact (h₀.trans (ha i key hne)).room hg.wf k
    · rw [dict_setNew_fail k hm]
      exact h₀
  · simp only [hsome]
    have hwf₁ := hq.wf hwf
    have hcl : Clears i key (c.arFindEntryEx E k).1 r := .of_settled hwf hf hr fun h => hs (hk ▸ h)
    generalize (c.arFindEntryEx E k).1 = c₁ at h₀ hwf₁ hr hcl ⊢
    cases hm : (c₁.malloc E).2 with
    | true =>
      obtain ⟨c₀, he, hg, ha⟩ := grows_setExisting hwf₁ hr hm val expireAt
      rw [he]
      exact (h₀.trans (ha i key hcl)).room hg.wf _
    | false =>
      rw [dict_setExisting_fail hm]
      exact h₀

theorem Ahead.getPtr (hE : E.Frozen t) (hwf : c.WF) (k : Bytes)
    (hs : k = key → (∃ j, c.peek t key = some j ∧ j.obj.type = .string) → Settled i key c) :
    Ahead i key c.dict (c.getPtr E k).1.dict := by
  have hwf₀ : c.countGet.WF := (Quiet.count c _ (Nat.le_refl _)).wf hwf
  have h₀ : Ahead i key c.countGet.dict (c.countGet.arFindEntryEx E k).1.dict := .arFindEntryEx hwf₀ k
  have hf : Fewer c.countGet (c.countGet.arFindEntryEx E k).1 := .arFindEntryEx E _ k
  unfold ArCore.getPtr
  simp only
  rcases find_cases (B := .plain) hE hwf₀ k with ⟨hn, -⟩ | ⟨r, hsome, hq, hr, hk, hpeek⟩
  · simp only [hn]
    rw [dict_shadowSample]
    exact h₀
  · simp only [hsome]
    have hwf₁ := hq.wf hwf₀
    split
    · rename_i val hobj
      have hcl : Clears i key (c.countGet.arFindEntryEx E k).1 r := by
        refine .of_settled hwf₀ hf hr fun h => hs (hk ▸ h) ⟨_, ?_, congrArg ArObj.type hobj⟩
        rw [← h, hk]
        exact hpeek
      generalize (c.countGet.arFindEntryEx E k).1 = c₁ at h₀ hwf₁ hr hcl ⊢
      have hd : (c₁.countHit.shadowSample E true).dict = c₁.dict := dict_shadowSample _ _
      have hg : (c₁.countHit.shadowSample E true).cfg = c₁.cfg := (Quiet.shadowSample (E := E) _ true).cfg
      generalize c₁.countHit.shadowSample E true = c₂ at hd hg ⊢
      have hwf₂ : c₂.dict.WF := hd ▸ hwf₁.dict
      have hr₂ : c₂.Holds r := holds_of_dict hd hr
      have hcl₂ : Clears i key c₂ r := hcl.congr (by rw [hd]) (by rw [hd]) hg rfl
      have h₁ : Ahead i key c₂.dict (c₂.arTouchGet E r).dict := .arTouchGet hwf₂ hr₂ hcl₂
      rw [hd] at h₁
      exact (h₀.trans h₁).trans (.onGet ((Quiet.arTouchGet E hwf₂ hr₂).dict hwf₂) k)
    · exact h₀

theorem settled_of_keeps {x : Call} (h : c.KeepsAhead key i x) (ht : x.op.touches key (c.peek x.t key)) :
    Settled i key c := by
  intro hp hcold hi
  by_contra hlt
  exact h.2.2 ⟨ht, hp, hcold, hi, Nat.lt_of_not_le hlt⟩

/-- **A `GET` or a `SET` keeps a key ahead of the cursor**, if it does not promote the key behind it. -/
theorem Ahead.run (hwf : c.WF) (x : Call) (h : c.KeepsAhead key i x) :
    Ahead i key c.dict (x.op.run x.E c).1.dict := by
  obtain ⟨E, t, op, hE⟩ := x
  have hp : (c.peek t key).isSome = true := h.2.1
  have hs := settled_of_keeps h
  have hset : ∀ c' : ArCore, c'.dict = c.dict → c'.cfg = c.cfg → ∀ k val at_,
      (k = key → Settled i key c) → Ahead i key c.dict (c'.arEntrySetEx E k val at_).1.dict := by
    intro c' hd hg k val at_ hset
    have hwf' : c'.WF := ⟨hd ▸ hwf.dict, by rw [ArCore.items, hd]; exact hwf.objs⟩
    have hp' : (c'.peek t key).isSome = true := by
      unfold ArCore.peek at hp ⊢
      rwa [hd]
    rw [← hd]
    refine .arEntrySetEx hE hwf' k val at_ hp' fun hk => ?_
    unfold Settled at hset ⊢
    rw [hd, hg]
    exact hset hk
  cases op with
  | tally ops sets => exact .refl _ _ _
  | find k => exact .arFindEntryEx hwf k
  | arExistsBin k => exact .arFindEntryEx hwf k
  | arEntrySetEx k val at_ => exact hset c rfl rfl k val at_ hs
  | arSetBinEx k val sec =>
    show Ahead i key c.dict (ArCore.arSetBinEx E c k val sec).1.dict
    unfold ArCore.arSetBinEx
    simp only
    split
    · exact hset _ (by rfl) (by rfl) k val _ hs
    · exact hset _ (by rfl) (by rfl) k val _ hs
  | arSetBinPx k val ms =>
    show Ahead i key c.dict (ArCore.arSetBinPx E c k val ms).1.dict
    unfold ArCore.arSetBinPx
    simp only
    split
    · exact hset _ (by rfl) (by rfl) k val _ hs
    · exact hset _ (by rfl) (by rfl) k val _ hs
  | getPtr k => exact .getPtr hE hwf k fun hk hj => hs ⟨hk, hj⟩
  | _ => exact absurd h.1 (by simp [ArOp.isGetSet])

theorem Ahead.runCalls (hwf : c.WF) {calls : List Call} (h : c.Each (ArCore.KeepsAhead key · i ·) calls) :
    Ahead i key c.dict (c.runCalls calls).dict := by
  induction calls generalizing c with
  | nil => exact .refl _ _ _
  | cons x calls ih => exact (Ahead.run hwf x h.1).trans (ih (wf_run hwf x) h.2)

/-! ## Iterations -/

/-- **The calls between the turns keep the key ahead.** -/
theorem staysAhead_tiers (hwf : c.WF) (hs : c.EachTurn (ArCore.Shows key) cursor turns)
    (hf : c.FullScan cursor turns) (hb : c.EachBetween (ArCore.KeepsAhead key) cursor turns) :
    StaysAhead (c.looks key cursor turns) := by
  induction turns generalizing c cursor with
  | nil => exact .nil
  | cons x turns ih =>
    obtain ⟨⟨hp, ha⟩, hs'⟩ := hs
    obtain ⟨hcalls, hb'⟩ := hb
    have hwf' := wf_turn hwf x cursor
    unfold ArCore.FullScan at hf
    simp only at hf
    split at hf
    · rw [hf]
      exact .singleton _
    · rename_i h0
      have hrest := ih hwf' hs' hf hb'
      cases turns with
      | nil => exact hf.elim
      | cons y turns =>
        refine List.isChain_cons_cons.2 ⟨fun hto => ?_, hrest⟩
        have hto' := next_cursor x.frozen hwf ha hp cursor x.count h0
        have hev : Evolves x.t .plain ∅ ∅ c (c.arScan x.E cursor [] x.count).1 :=
          (Expires.arScan x.frozen.until hwf cursor [] x.count).toEvolves
        obtain ⟨e, he, hk, -⟩ := exists_live hwf' hs'.1.1
        have hscan : Ahead (cursor + ArCore.maxSlots x.count) key c.dict
            (c.arScan x.E cursor [] x.count).1.dict :=
          .of_fewer (.arScan x.E c cursor [] x.count) hwf.dict.toShape
        rw [hto'] at hcalls
        exact ((hscan.trans (Ahead.runCalls (hev.wf hwf) hcalls)) e he hk).2 hto

/-- **An iteration over either layout returns every key that is there throughout**, when no call between its
turns promotes the key behind the cursor. -/
theorem scan_tiers (hc : ArCore.Reachable c) (hs : c.EachTurn (ArCore.Shows key) 0 turns)
    (hf : c.FullScan 0 turns) (hb : c.EachBetween (ArCore.KeepsAhead key) 0 turns) :
    key ∈ c.scanned 0 turns := scanned_of_ahead hc.wf hs hf (staysAhead_tiers hc.wf hs hf hb)

/-- Chance that always points to the chain of a key. -/
def Env.towards (key : Bytes) : Env := ⟨fun _ => 0, fun _ => hashBin key, fun _ => true⟩

/-- Two tiers and one key, which is demoted as soon as it is written. -/
@[irreducible] def coldKey : ArCore :=
  ArCore.arCoreCreate.runCalls
    [.steady 0 (.arCoreSetHotSoftCapMin 0), .steady 0 (.arCoreSetLayout .hotCold),
      ⟨.towards (lit "b4"), 0, .arEntrySetEx (lit "b4") (lit "v") 0, fun _ => rfl⟩]

theorem reachable_coldKey : ArCore.Reachable coldKey := by
  unfold coldKey
  exact ArCore.Reachable.create.runCalls _

/-- A first look at some chains, a `GET` of the key, and a look at the others. -/
def twoTurns (n : Int) : List ScanTurn := twoScans n (.steady 0 (.getPtr (lit "b4")))

/-- The core after the first turn. -/
def touched (n : Int) : ArCore := coldKey.between n (.steady 0 (.getPtr (lit "b4")))

theorem reachable_touched (n : Int) : ArCore.Reachable (touched n) := reachable_between reachable_coldKey n _

theorem shows_twoTurns {n : Int} {m : Nat} (hr : (coldKey.arScan (.steady 0) 0 [] n).2 = ([], m))
    (h₁ : (coldKey.peek 0 (lit "b4")).isSome = true) (h₂ : ((touched n).peek 0 (lit "b4")).isSome = true) :
    coldKey.EachTurn (ArCore.Shows (lit "b4")) 0 (twoTurns n) :=
  eachTurn_twoScans hr ⟨h₁, Env.allocOk_steady 0⟩ ⟨h₂, Env.allocOk_steady 0⟩

/-- The `GET` promotes the key, to a chain that the first turn has not looked at. -/
theorem scan_tiers_touched : lit "b4" ∈ coldKey.scanned 0 (twoTurns 1) := by
  have hr : (coldKey.arScan (.steady 0) 0 [] 1).2 = ([], 1) := by decide +kernel
  have hp : ((touched 1).peek 0 (lit "b4")).isSome = true := by decide +kernel
  have hle : (touched 1).dict.scanTotalBuckets ≤ 1 + 10000 := by decide +kernel
  refine scan_tiers reachable_coldKey (shows_twoTurns hr (by decide +kernel) hp)
    (fullScan_twoScans hr (cursor_between reachable_coldKey hp hle))
    (between_twoScans hr ⟨rfl, by decide +kernel, fun h => ?_⟩)
  have hslot : ¬keySlot (coldKey.arScan (.steady 0) 0 [] 1).1.dict.hot.length (lit "b4") < 1 := by
    decide +kernel
  exact hslot h.2.2.2.2

/-- **A `GET` takes a key behind the cursor**: the first turn passes over the hot chain of the key, which is
in the cold table, and the second begins behind it. Nor does an iteration return what it has no memory for,
or anything when the core has lost count of its keys. -/
theorem scan_loses_promoted :
    (ArCore.Reachable coldKey ∧ coldKey.dict.layout = .hotCold ∧
      coldKey.EachTurn (ArCore.Shows (lit "b4")) 0 (twoTurns 10) ∧ coldKey.FullScan 0 (twoTurns 10) ∧
      coldKey.EachBetween (fun c _ x => x.op.isGetSet = true ∧ (c.peek x.t (lit "b4")).isSome = true) 0
        (twoTurns 10) ∧
      lit "b4" ∉ coldKey.scanned 0 (twoTurns 10)) ∧
    (coldKey.FullScan 0 [wholeTurn _ Env.frozen_broke] ∧
      lit "b4" ∉ coldKey.scanned 0 [wholeTurn _ Env.frozen_broke]) ∧
    let c := ((twoKeys.arCoreSetLayout (.steady 0) .hotCold).1.evictOne tickingEnv).1
    ArCore.Reachable (twoKeys.arCoreSetLayout (.steady 0) .hotCold).1 ∧
      (∀ m n, m ≤ n → tickingEnv.time m ≤ tickingEnv.time n) ∧ c.dict.layout = .hotCold ∧
      (c.peek 10 (lit "j")).isSome = true ∧ c.FullScan 0 [wholeTurn _ (Env.frozen_steady 10)] ∧
      c.scanned 0 [wholeTurn _ (Env.frozen_steady 10)] = [] := by
  have hp₀ : (coldKey.peek 0 (lit "b4")).isSome = true := by decide +kernel
  refine ⟨⟨reachable_coldKey, by decide +kernel, ?_⟩, ?_, ?_⟩
  · have hr : (coldKey.arScan (.steady 0) 0 [] 10).2 = ([], 10) := by decide +kernel
    have hp : ((touched 10).peek 0 (lit "b4")).isSome = true := by decide +kernel
    have hle : (touched 10).dict.scanTotalBuckets ≤ 10 + 10000 := by decide +kernel
    have hplace : (touched 10).dict.place (lit "b4") = 5 := by decide +kernel
    refine ⟨shows_twoTurns hr hp₀ hp, fullScan_twoScans hr (cursor_between reachable_coldKey hp hle),
      between_twoScans hr ⟨rfl, by decide +kernel⟩, ?_⟩
    rw [twoTurns, scanned_twoScans hr, ← List.count_eq_zero]
    show List.count _ ((touched 10).arScan (.steady 0) 10 [] 10000).2.1 = 0
    rw [(arScan_spec (Env.frozen_steady 0) (reachable_touched 10).wf (Env.allocOk_steady 0) hp 10 10000).1,
      hplace]
    rfl
  · have hle : coldKey.dict.scanTotalBuckets ≤ 10000 := by decide +kernel
    have hc := reachable_coldKey
    generalize coldKey = c at hc hp₀ hle ⊢
    exact scanned_broke hc.wf hp₀ hle
  · have hz : (((twoKeys.arCoreSetLayout (.steady 0) .hotCold).1.evictOne tickingEnv).1).dict.nkeys = 0 := by
      decide +kernel
    refine ⟨.call ⟨_, 0, .arCoreSetLayout .hotCold, Env.frozen_steady 0⟩ reachable_twoKeys, time_tickingEnv,
      by decide +kernel, by decide +kernel, ?_⟩
    generalize ((twoKeys.arCoreSetLayout (.steady 0) .hotCold).1.evictOne tickingEnv).1 = c at hz ⊢
    exact scanned_uncounted hz

end

end AuraRedis
