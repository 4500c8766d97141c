import AuraRedis.Core.Scan
import AuraRedis.Core.Proof.Objects

/-!
# Walks over the whole table

A walk takes away what is due and nothing else (`Expires.arDbsize`, `Expires.arScan`,
`Expires.arKeys`). `HSCAN` and the order of `HGETALL` are of the field table, not of the map; what
`HGETALL` reads is the map in some order (`hgetall_spec`).
-/

set_option autoImplicit false

namespace AuraRedis

open ArCore (Typed)

section
variable {E : Env} {t : Nat} {B : Terms} {W : Set Bytes} {c : ArCore} {key : Bytes}

theorem SameBut.pushRoom (c : ArCore) (n cap : Nat) : SameBut c (c.pushRoom E n cap).1 := by
  have hg : SameBut c (c.growRoom E n cap).1 := by
    unfold ArCore.growRoom
    split
    · simp only
      split
      · exact .malloc E c
      · split
        · exact (SameBut.malloc E c).trans (.malloc E _)
        · exact (SameBut.malloc E c).trans (.malloc E _)
    · exact .refl c
  unfold ArCore.pushRoom
  simp only
  split
  · exact hg
  · exact hg.trans (.malloc E _)

/-- What is left of a chain after an entry that is due. -/
theorem Expires.drop (hwf : c.WF) {tier : Tier} {b : Nat} {e : ArEntry} {l : List ArEntry}
    (hl : ∀ x ∈ e :: l, c.Holds ⟨tier, b, x⟩) (hn : ((e :: l).map (·.key)).Nodup)
    (hd : Due t e.expireAt) :
    Expires t B c (c.arEntryFreeEx b tier e) ∧
      (∀ x ∈ l, (c.arEntryFreeEx b tier e).Holds ⟨tier, b, x⟩) ∧ (l.map (·.key)).Nodup := by
  rw [List.map_cons, List.nodup_cons] at hn
  have hr : c.Holds ⟨tier, b, e⟩ := hl e (.head _)
  refine ⟨.reap (r := ⟨tier, b, e⟩) hwf hr hd, fun x hx => ?_, hn.2⟩
  exact holds_free (r := ⟨tier, b, e⟩) hr (show c.Holds ⟨tier, b, x⟩ from hl x (.tail _ hx)) fun hk =>
    hn.1 (List.mem_map.2 ⟨x, hx, hk⟩)

/-! ## DBSIZE -/

theorem Expires.dbsizeChain (hwf : c.WF) {tier : Tier} {b : Nat} {l : List ArEntry}
    (hl : ∀ e ∈ l, c.Holds ⟨tier, b, e⟩) (hn : (l.map (·.key)).Nodup) (n : Nat) :
    Expires t B c (ArCore.dbsizeChain t tier b l c n).1 := by
  induction l generalizing c n with
  | nil => exact .refl c
  | cons e l ih =>
    unfold ArCore.dbsizeChain
    split
    · rename_i hd
      obtain ⟨hev, hl', hn'⟩ := Expires.drop (t := t) (B := B) hwf hl hn hd
      have hq := Quiet.count (c.arEntryFreeEx b tier e) (fun s => { s with expired := s.expired + 1 }) (Nat.le_refl _)
      have hwf' := hq.wf (hev.wf hwf)
      exact ((ih hwf' hl' hn' n).after (.of_quiet hq)).after hev
    · exact ih hwf (fun x hx => hl x (.tail _ hx)) (List.nodup_cons.1 hn).2 (n + 1)

theorem Expires.dbsizeLoop (hwf : c.WF) (left i n : Nat) :
    Expires t B c (ArCore.dbsizeLoop t left i c n).1 := by
  induction left generalizing i c n with
  | zero => exact .refl c
  | succ left ih =>
    unfold ArCore.dbsizeLoop
    split
    · exact ih hwf (i + 1) n
    · rename_i tier b _
      have hev : Expires t B c
          (ArCore.dbsizeChain t tier b ((c.dict.table tier).chain b) c n).1 :=
        .dbsizeChain hwf (fun e he => he) (nodup_chain hwf tier b) n
      exact (ih (hev.wf hwf) (i + 1) _).after hev

/-- **`DBSIZE`.** -/
theorem Expires.arDbsize (hE : E.Until t) (hwf : c.WF) : Expires t B c (c.arDbsize E).1 := by
  unfold ArCore.arDbsize
  have hq : Quiet c (c.count fun s => { s with ops := s.ops + 1 }) := .count c _ (Nat.le_refl _)
  simp only
  split
  · exact .of_quiet hq
  · have hq' := hq.trans (.arNowMs E _)
    have hn : ((c.count fun s => { s with ops := s.ops + 1 }).arNowMs E).2 ≤ t := hE _
    exact ((Expires.dbsizeLoop (hq'.wf hwf) _ 0 0).later hn).after (.of_quiet hq')

/-! ## SCAN -/

theorem Expires.scanChain (hwf : c.WF) (pat : Bytes) {tier : Tier} {b : Nat} {l : List ArEntry}
    (hl : ∀ e ∈ l, c.Holds ⟨tier, b, e⟩) (hn : (l.map (·.key)).Nodup) (keys : List Bytes) (cap : Nat) :
    Expires t B c (ArCore.scanChain E t pat tier b l c keys cap).1 := by
  induction l generalizing c keys cap with
  | nil => exact .refl c
  | cons e l ih =>
    have hl' : ∀ x ∈ l, c.Holds ⟨tier, b, x⟩ := fun x hx => hl x (.tail _ hx)
    unfold ArCore.scanChain
    split
    · rename_i hd
      have hq := Quiet.count c (fun s => { s with expired := s.expired + 1 }) (Nat.le_refl _)
      obtain ⟨hev, hl', hn'⟩ := Expires.drop (t := t) (B := B)
        (c := c.count fun s => { s with expired := s.expired + 1 }) (hq.wf hwf) hl hn hd
      exact ((ih (hev.wf (hq.wf hwf)) hl' hn' keys cap).after hev).after (.of_quiet hq)
    · have hn' := (List.nodup_cons.1 hn).2
      split
      · have hs := SameBut.pushRoom (E := E) c keys.length cap
        simp only
        split
        · exact (ih (hs.quiet.wf hwf) (fun x hx => hs.holds (hl' x hx)) hn' _ _).after
            (.of_quiet hs.quiet)
        · exact .of_quiet hs.quiet
      · exact ih hwf hl' hn' keys cap

theorem Expires.scanLoop (hwf : c.WF) (pat : Bytes) (total slots i : Nat) (keys : List Bytes)
    (cap : Nat) : Expires t B c (ArCore.scanLoop E t pat total slots i c keys cap).1 := by
  induction slots generalizing i c keys cap with
  | zero => exact .refl c
  | succ slots ih =>
    unfold ArCore.scanLoop
    split
    · exact .refl c
    · rename_i tier b _
      have hev : Expires t B c
          (ArCore.scanChain E t pat tier b ((c.dict.table tier).chain b) c keys cap).1 :=
        .scanChain hwf pat (fun e he => he) (nodup_chain hwf tier b) keys cap
      simp only
      split
      · exact hev
      · exact (ih (hev.wf hwf) (i + 1) _ _).after hev

/-- **`SCAN`.** -/
theorem Expires.arScan (hE : E.Until t) (hwf : c.WF) (cursor : Nat) (pat : Bytes) (count : Int) :
    Expires t B c (c.arScan E cursor pat count).1 := by
  unfold ArCore.arScan
  split
  · exact .refl c
  · simp only
    split
    · exact .refl c
    · have hq : Quiet c (c.arNowMs E).1 := .arNowMs E c
      have hn : (c.arNowMs E).2 ≤ t := hE _
      exact ((Expires.scanLoop (hq.wf hwf) pat _ _ cursor [] 0).later hn).after (.of_quiet hq)

/-- **`KEYS`.** -/
theorem Expires.arKeys (hE : E.Until t) (hwf : c.WF) (pat : Bytes) :
    Expires t B c (c.arKeys E pat).1 := by
  have hloop : ∀ (pages cursor : Nat) (c : ArCore) (keys : List Bytes), c.WF →
      Expires t B c (ArCore.keysLoop E pat pages cursor c keys).1 := by
    intro pages
    induction pages with
    | zero => exact fun _ c _ _ => .refl c
    | succ pages ih =>
      intro cursor c keys hwf
      unfold ArCore.keysLoop
      simp only
      have hev : Expires t B c (c.arScan E cursor pat
          (if c.dict.scanTotalBuckets > 10000 then 10000 else c.dict.scanTotalBuckets)).1 :=
        .arScan hE hwf cursor pat _
      generalize c.arScan E cursor pat
        (if c.dict.scanTotalBuckets > 10000 then 10000 else c.dict.scanTotalBuckets) = r at hev ⊢
      have hev₁ := hev.quiet (.malloc E r.1)
      have hev₂ := hev₁.quiet (.malloc E (r.1.malloc E).1)
      split
      · split
        · exact hev
        · exact (ih _ _ _ (hev.wf hwf)).after hev
      · split
        · exact hev₁
        · split
          · exact hev₂
          · split
            · exact hev₂
            · exact (ih _ _ _ (hev₂.wf hwf)).after hev₂
  unfold ArCore.arKeys
  simp only
  split
  · exact .refl c
  · exact hloop _ 0 c [] hwf

/-! ## Reads of a field table -/

theorem SameBut.hscanChain (pat : Bytes) (l : List (Bytes × Bytes)) (c : ArCore) (elems : List Bytes)
    (cap : Nat) : SameBut c (ArCore.hscanChain E pat l c elems cap).1 := by
  induction l generalizing c elems cap with
  | nil => exact .refl c
  | cons f l ih =>
    unfold ArCore.hscanChain
    split
    · have h₁ := SameBut.pushRoom (E := E) c elems.length cap
      have h₂ := h₁.trans (.pushRoom (E := E) _ (elems.length + 1) (c.pushRoom E elems.length cap).2.1)
      simp only
      split
      · exact h₁
      · split
        · exact h₂
        · exact h₂.trans (ih _ _ _)
    · exact ih c elems cap

theorem SameBut.hscanLoop (pat : Bytes) (h : ArHash) (slots i : Nat) (c : ArCore) (elems : List Bytes)
    (cap : Nat) : SameBut c (ArCore.hscanLoop E pat h slots i c elems cap).1 := by
  induction slots generalizing i c elems cap with
  | zero => exact .refl c
  | succ slots ih =>
    have hs := SameBut.hscanChain (E := E) pat (h.buckets.chain i) c elems cap
    unfold ArCore.hscanLoop
    simp only
    split
    · exact hs
    · exact hs.trans (ih _ _ _ _)

theorem Expires.arEntryGetTyped (hE : E.Until t) (hwf : c.WF) (key : Bytes) (want : ArType) :
    Expires t B c (c.arEntryGetTyped E key want).1 := by
  unfold ArCore.arEntryGetTyped
  simp only
  split
  · exact .arFindEntryEx hE hwf key
  · exact .arFindEntryEx hE hwf key

theorem readHash_core {α : Type} (c : ArCore) (key : Bytes) (f : ArHash → α) :
    (c.readHash E key f).1 = (c.arEntryGetTyped E key .hash).1 := by
  unfold ArCore.readHash
  simp only
  split
  · rfl
  · rfl
  · split <;> rfl

/-- **`HSCAN`.** -/
theorem Expires.arHscan (hE : E.Until t) (hwf : c.WF) (key : Bytes) (cursor : Nat) (pat : Bytes)
    (count : Int) : Expires t B c (c.arHscan E key cursor pat count).1 := by
  have hev : Expires t B c (c.readHash E key id).1 := by
    rw [readHash_core]
    exact .arEntryGetTyped hE hwf key .hash
  unfold ArCore.arHscan
  simp only
  split
  · exact hev
  · exact hev
  · split
    · exact hev
    · exact hev.quiet (SameBut.hscanLoop ..).quiet

end

end AuraRedis
