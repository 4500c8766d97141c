import AuraRedis.Core.Proof.Op

/-!
# Reads

A read takes away what is due and nothing else, whatever the kernel: no read makes room
(`ArOp.expires_of_read`).
-/

set_option autoImplicit false

namespace AuraRedis

/-- The calls that change no key. -/
def ArOp.isRead : ArOp → Bool
  | tally _ _ | find _ | arExistsBin _ | arTtl _ | arPttl _ | arDbsize | arScan _ _ _ | arKeys _ => true
  | getPtr _ | arStrlen _ => true
  | arHashHget _ _ | arHashHexists _ _ | arHashHlen _ | hashGet _ | hgetall _ | arHscan _ _ _ _ => true
  | arListLlen _ | arListGet _ | arListLindex _ _ | arZsetZcard _ | arZsetGet _ | arZsetZscore _ _ => true
  | arCoreSetEvictSamples _ | arCoreSetHotSoftCapPct _ | arCoreSetHotSoftCapMin _ => true
  | arCoreSetHotPromoteOnGet _ => true
  | _ => false

/-- Every key has the item it had, or what it had was due and is gone. -/
def ArCore.OnlyExpires (t : Nat) (c c' : ArCore) : Prop :=
  ∀ k, c'.itemsAt k = c.itemsAt k ∨ (c'.itemsAt k = 0 ∧ ∀ i ∈ c.itemsAt k, Due t i.expireAt)

theorem ArCore.OnlyExpires.refl (t : Nat) (c : ArCore) : c.OnlyExpires t c := fun _ => .inl rfl

theorem ArCore.OnlyExpires.trans {t : Nat} {c c' c'' : ArCore} (h : c.OnlyExpires t c')
    (h' : c'.OnlyExpires t c'') : c.OnlyExpires t c'' := by
  intro k
  rcases h' k with he' | ⟨hz, hd'⟩
  · rw [he']
    exact h k
  · rcases h k with he | ⟨_, hd⟩
    · rw [he] at hd'
      exact .inr ⟨hz, hd'⟩
    · exact .inr ⟨hz, hd⟩

section
variable {E : Env} {t : Nat} {B : Terms} {c : ArCore} {key : Bytes}

theorem Expires.counted {c' : ArCore} {g : Stats → Stats} (h : Expires t B (c.count g) c')
    (hk : c.stats.clock ≤ (g c.stats).clock) : Expires t B c c' :=
  h.after (.of_quiet (.count c g hk))

/-! ## Values of any type -/

theorem Expires.ttlWith (hE : E.Until t) (hwf : c.WF) (key : Bytes) (left : Nat → Nat → Int) :
    Expires t B c (c.ttlWith E key left).1 := by
  have hf : Expires t B c (c.arFindEntryEx E key).1 := .arFindEntryEx hE hwf key
  unfold ArCore.ttlWith
  dsimp only
  split
  · exact hf
  · split
    · exact hf
    · split <;> exact hf.quiet (.arNowMs E _)

theorem Expires.getPtr (hE : E.Until t) (hwf : c.WF) (key : Bytes) : Expires t B c (c.getPtr E key).1 := by
  have hwf₀ : c.countGet.WF := (Quiet.count c _ (Nat.le_refl _)).wf hwf
  refine Expires.counted (g := fun s => { s with ops := s.ops + 1, gets := s.gets + 1 }) ?_ (Nat.le_refl _)
  unfold ArCore.getPtr
  change Expires t B c.countGet _
  generalize c.countGet = c₀ at hwf₀ ⊢
  rcases arFindEntryEx_spec (B := B) hE hwf₀ key with ⟨hn, hf, -, -⟩ | ⟨r, hs, hq, hr, -, -⟩
  · simp only [hn]
    exact (hf.quiet (.count _ _ (Nat.le_refl _))).quiet (.shadowSample _ _)
  · simp only [hs]
    have hwf' := hq.wf hwf₀
    generalize (c₀.arFindEntryEx E key).1 = c₁ at hq hr hwf' ⊢
    have hq₂ : Quiet c₁ (c₁.countHit.shadowSample E true) :=
      (Quiet.count c₁ _ (Nat.le_refl _)).trans (.shadowSample _ _)
    have hr₂ : (c₁.countHit.shadowSample E true).Holds r := holds_of_dict (dict_shadowSample _ _) hr
    have hq₃ := hq₂.trans (.arTouchGet E (hq₂.dict hwf'.dict) hr₂)
    split
    · exact .of_quiet ((hq.trans hq₃).trans (.onGet _ key))
    · exact .of_quiet hq

theorem Expires.arStrlen (hE : E.Until t) (hwf : c.WF) (key : Bytes) :
    Expires t B c (c.arStrlen E key).1 := by
  refine Expires.counted (g := fun s => { s with ops := s.ops + 1 }) ?_ (Nat.le_refl _)
  have hwf₀ : (c.count fun s => { s with ops := s.ops + 1 }).WF := (Quiet.count c _ (Nat.le_refl _)).wf hwf
  have hf : Expires t B _ _ := Expires.arFindEntryEx hE hwf₀ key
  unfold ArCore.arStrlen
  dsimp only
  split
  · exact hf
  · split <;> exact hf

/-! ## Containers -/

theorem Expires.readHash {α : Type} (hE : E.Until t) (hwf : c.WF) (key : Bytes) (f : ArHash → α) :
    Expires t B c (c.readHash E key f).1 := by
  rw [readHash_core]
  exact .arEntryGetTyped hE hwf key .hash

theorem Expires.arHashHget (hE : E.Until t) (hwf : c.WF) (key field : Bytes) :
    Expires t B c (c.arHashHget E key field).1 := by
  have hg : Expires t B c (c.arEntryGetTyped E key .hash).1 := .arEntryGetTyped hE hwf key .hash
  unfold ArCore.arHashHget
  dsimp only
  split
  · exact hg
  · exact hg
  · split
    · split
      · exact hg
      · exact hg.quiet (.malloc E _)
    · exact hg

theorem Expires.readList {α : Type} (hE : E.Until t) (hwf : c.WF) (key : Bytes) (f : List Bytes → α) :
    Expires t B c (c.readList E key f).1 := by
  have hg : Expires t B c (c.arEntryGetTyped E key .list).1 := .arEntryGetTyped hE hwf key .list
  unfold ArCore.readList
  dsimp only
  split
  · exact hg
  · exact hg
  · split <;> exact hg

theorem Expires.arListLindex (hE : E.Until t) (hwf : c.WF) (key : Bytes) (index : Int) :
    Expires t B c (c.arListLindex E key index).1 := by
  have hg : Expires t B c (c.readList E key fun l => ArCore.listIndex l index).1 := .readList hE hwf key _
  unfold ArCore.arListLindex
  dsimp only
  split
  · exact hg.quiet (.malloc E _)
  · exact hg
  · exact hg
  · exact hg

theorem Expires.readZset {α : Type} (hE : E.Until t) (hwf : c.WF) (key : Bytes) (f : ArZSet → α) :
    Expires t B c (c.readZset E key f).1 := by
  have hg : Expires t B c (c.arEntryGetTyped E key .zset).1 := .arEntryGetTyped hE hwf key .zset
  unfold ArCore.readZset
  dsimp only
  split
  · exact hg
  · exact hg
  · split <;> exact hg

theorem Expires.arZsetZscore (hE : E.Until t) (hwf : c.WF) (key member : Bytes) :
    Expires t B c (c.arZsetZscore E key member).1 := by
  have hg : Expires t B c (c.readZset E key fun z => z.find member).1 := .readZset hE hwf key _
  unfold ArCore.arZsetZscore
  dsimp only
  split
  · exact hg.quiet (.malloc E _)
  · exact hg
  · exact hg
  · exact hg

/-! ## Every read -/

/-- **A read takes away what is due and nothing else**, but for the configuration. -/
theorem ArOp.expires_of_read (hE : E.Until t) (hwf : c.WF) (op : ArOp) (hop : op.isRead = true) :
    ∃ g, Expires t B { c with cfg := g } (op.run E c).1 := by
  have hx : ∀ {c' : ArCore}, Expires t B c c' → ∃ g, Expires t B { c with cfg := g } c' := fun h => ⟨c.cfg, h⟩
  have hcap : ∀ g, ∃ g', Expires t B { c with cfg := g' } (({ c with cfg := g } : ArCore).maybeDemoteHot E) :=
    fun g => ⟨g, .of_quiet (.maybeDemoteHot E hwf.dict)⟩
  cases op with
  | tally ops sets =>
    exact hx (.of_quiet (.count c (fun s => { s with ops := s.ops + ops, sets := s.sets + sets }) (Nat.le_refl _)))
  | find key => exact hx (.arFindEntryEx hE hwf key)
  | arExistsBin key => exact hx (.arFindEntryEx hE hwf key)
  | arTtl key => exact hx (.ttlWith hE hwf key _)
  | arPttl key => exact hx (.ttlWith hE hwf key _)
  | arDbsize => exact hx (.arDbsize hE hwf)
  | arScan cursor pat n => exact hx (.arScan hE hwf cursor pat n)
  | arKeys pat => exact hx (.arKeys hE hwf pat)
  | getPtr key => exact hx (.getPtr hE hwf key)
  | arStrlen key => exact hx (.arStrlen hE hwf key)
  | arHashHget key field => exact hx (.arHashHget hE hwf key field)
  | arHashHexists key field => exact hx (.readHash hE hwf key _)
  | arHashHlen key => exact hx (.readHash hE hwf key _)
  | hashGet key => exact hx (.readHash hE hwf key _)
  | hgetall key => exact hx (.readHash hE hwf key _)
  | arHscan key cursor pat n => exact hx (.arHscan hE hwf key cursor pat n)
  | arListLlen key => exact hx (.readList hE hwf key _)
  | arListGet key => exact hx (.readList hE hwf key _)
  | arListLindex key index => exact hx (.arListLindex hE hwf key index)
  | arZsetZcard key => exact hx (.readZset hE hwf key _)
  | arZsetGet key => exact hx (.readZset hE hwf key _)
  | arZsetZscore key member => exact hx (.arZsetZscore hE hwf key member)
  | arCoreSetEvictSamples n => exact ⟨_, .refl _⟩
  | arCoreSetHotSoftCapPct pct => exact hcap _
  | arCoreSetHotSoftCapMin n => exact hcap _
  | arCoreSetHotPromoteOnGet on => exact ⟨_, .refl _⟩
  | _ => cases hop

end

end AuraRedis
