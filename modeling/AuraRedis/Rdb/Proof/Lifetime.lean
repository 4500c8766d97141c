import AuraRedis.Rdb.Proof.Restore
import AuraRedis.Rdb.Proof.Truncate
import AuraRedis.Lib.Views
import AuraRedis.Server.Proof.Deadline

/-!
# Deadlines across snapshots

A string comes back with its deadline as it was. A container is built anew and then given its deadline by
`ar_expire`, in whole seconds from the clock of that moment: `restoredAt`. `deadline_restored` says which
deadline a key has after a load, and when that is its old one.
-/

set_option autoImplicit false

namespace AuraRedis

open Code Prog

namespace Rdb

/-! ## The effects of a restore -/

/-- Memory, the clock, or a call on the key. -/
def Touches (key : Bytes) : Eff → Prop
  | .op o => o.keys = {key} ∧ o.isKnob = false
  | .now | .malloc => True
  | _ => False

variable {key : Bytes}

theorem touches_takeIn (p : Bytes) : (takeIn p).Only (Touches key) :=
  .ite (.fail _) (.step trivial fun _ => .ite (.ret _ _) (.fail _))

theorem touches_call {o : ArOp} (hk : o.keys = {key}) (hi : o.isKnob = false) :
    (call o).Only (Touches key) := .perform ⟨hk, hi⟩

theorem touches_check {p : Code Bool} (h : p.Only (Touches key)) : (check p).Only (Touches key) :=
  h.bind fun _ => .ite (.ret _ _) (.fail _)

theorem touches_stored {α : Type} (d : ArCore.Typed α) : (stored d).Only (Touches key) := by
  cases d <;> trivial

theorem touches_restoreItem (p : Bytes) : (restoreItem key p).Only (Touches key) :=
  (touches_takeIn p).bind fun _ => (touches_call rfl rfl).bind fun d => touches_stored d

theorem touches_restoreField (f : Bytes × Bytes) : (restoreField key f).Only (Touches key) :=
  (touches_takeIn f.1).bind fun _ => (touches_takeIn f.2).bind fun _ =>
    (touches_call rfl rfl).bind fun d => touches_stored d

theorem touches_restoreMember (n : ArZNode) : (restoreMember key n).Only (Touches key) :=
  (touches_takeIn n.member).bind fun _ => (touches_call rfl rfl).bind fun d => by cases d <;> trivial

theorem touches_expire (exp now : Nat) : (applyExpireAbs key exp now).Only (Touches key) :=
  .ite (.ret _ _) (touches_check (touches_call rfl rfl))

theorem touches_container {α : Type} {skip put : α → Code Unit} (hs : ∀ a, (skip a).Only (Touches key))
    (hp : ∀ a, (put a).Only (Touches key)) (exp now : Nat) (as : List α) :
    (restoreContainer skip put key exp now as).Only (Touches key) :=
  .ite (.fail _) (.ite (.each hs as) ((Only.each hp as).bind fun _ => touches_expire exp now))

theorem touches_restore (now : Nat) (e : ArEntry) : (restore now e).Only (Touches e.key) := by
  refine (touches_takeIn e.key).bind fun _ => ?_
  cases e.obj with
  | string val =>
    exact (touches_takeIn val).bind fun _ => .ite (touches_check (touches_call rfl rfl)) (.ret _ _)
  | hash h =>
    exact touches_container (fun f => (touches_takeIn f.1).bind fun _ => touches_takeIn f.2)
      touches_restoreField _ _ _
  | list l => exact touches_container touches_takeIn touches_restoreItem _ _ _
  | zset z => exact touches_container (fun n => touches_takeIn n.member) touches_restoreMember _ _ _

/-! ## Worlds during a load -/

/-- What the effects answer and do. -/
def acts (O : Outside) : Moves Eff.Ans World := fun e w a w' => e.perform O w = (w', a)

/-- There is one clock value for each effect. -/
def Outside.Clocked (O : Outside) (τ : Nat → Nat) : Prop := ∀ n, (O.env n).Frozen (τ n)

/-- The core is well formed, its settings are these, and there have been at least `k` effects. -/
structure During (g : Cfg) (k : Nat) (w : World) : Prop where
  wf : w.core.WF
  cfg : w.core.cfg = g
  calls : k ≤ w.calls

/-- The key has the deadline `d`, unless it has gone since: taken by the kernel, or because `d` has passed. -/
structure Lives (τ : Nat → Nat) (g : Cfg) (k : Nat) (key : Bytes) (d : Nat) (w : World) : Prop
    extends During g k w where
  now : (∃ i, w.core.Has key (some i) ∧ i.expireAt = d) ∨
    (w.core.Has key none ∧ (g.evict = .noop → ∃ n, k ≤ n ∧ n < w.calls ∧ Due (τ n) d))

variable {O : Outside} {τ : Nat → Nat} {g : Cfg} {k d : Nat} {w : World}

theorem During.act (hO : Outside.Clocked O τ) {e : Eff} {a : e.Ans} {w' : World} (he : Touches key e)
    (ha : acts O e w a w') (h : During g k w) : During g k w' := by
  obtain ⟨rfl, rfl⟩ := Prod.mk.inj ha.symm
  cases e with
  | op o =>
    have hev := (o.sound (hO w.calls) h.wf he.2).evolves
    exact ⟨hev.wf h.wf, hev.cfg.trans h.cfg, h.calls.trans (Nat.le_succ _)⟩
  | now => exact ⟨(Quiet.arNowMs (O.env w.calls) w.core).wf h.wf, h.cfg, h.calls.trans (Nat.le_succ _)⟩
  | malloc => exact ⟨(Quiet.malloc (O.env w.calls) w.core).wf h.wf, h.cfg, h.calls.trans (Nat.le_succ _)⟩
  | _ => cases he

/-- A call on another key leaves the key as it is. -/
theorem Lives.act (hO : Outside.Clocked O τ) {other : Bytes} (hne : key ≠ other) {e : Eff} {a : e.Ans}
    {w' : World} (he : Touches other e) (ha : acts O e w a w') (h : Lives τ g k key d w) :
    Lives τ g k key d w' := by
  have hdur := h.toDuring.act hO he ha
  obtain ⟨rfl, rfl⟩ := Prod.mk.inj ha.symm
  cases e with
  | op o =>
    have hev := (o.sound (hO w.calls) h.wf he.2).evolves
    have hk : key ∉ o.keys := by
      rw [he.1]
      exact hne
    refine ⟨hdur, ?_⟩
    rcases hev.frame key hk with hsame | ⟨hz, hdue⟩
    · exact h.now.imp (fun ⟨i, hi, hd⟩ => ⟨i, hsame.trans hi, hd⟩) fun ⟨h0, hd⟩ =>
        ⟨hsame.trans h0, fun hn => (hd hn).imp fun _ ⟨hk, hlt, hdue⟩ => ⟨hk, hlt.trans (Nat.lt_succ_self _), hdue⟩⟩
    · refine .inr ⟨hz, fun hn => ?_⟩
      rcases h.now with ⟨i, hi, rfl⟩ | ⟨-, hd⟩
      · refine ⟨w.calls, h.calls, Nat.lt_succ_self _, hdue (h.cfg ▸ hn) i ?_⟩
        rw [hi]
        exact Multiset.mem_singleton_self i
      · exact (hd hn).imp fun _ ⟨hk, hlt, hdue⟩ => ⟨hk, hlt.trans (Nat.lt_succ_self _), hdue⟩
  | now | malloc =>
    exact ⟨hdur, h.now.imp_right fun ⟨h0, hd⟩ => ⟨h0, fun hn => (hd hn).imp fun _ ⟨hk, hlt, hdue⟩ =>
      ⟨hk, hlt.trans (Nat.lt_succ_self _), hdue⟩⟩⟩
  | _ => cases he

/-- What one call has come to, when it has done what it should. -/
theorem lives_of_outcome {t : Nat} {needsKey allocOk : Prop} {w' : World} (h : During g k w)
    (ho : Outcome t d key needsKey allocOk w.core w'.core true) (hdur : During g k w') (ht : t = τ w.calls)
    (hlt : w.calls < w'.calls) : Lives τ g k key d w' := by
  refine ⟨hdur, (ho.given rfl).2.imp_right fun ⟨h0, hd⟩ => ⟨h0, fun hn => ⟨w.calls, h.calls, hlt, ?_⟩⟩⟩
  exact ht ▸ hd (h.cfg ▸ hn)

theorem lives_set (hO : Outside.Clocked O τ) (h : During g k w) (val : Bytes) {w' : World}
    (ha : acts O (.op (.arEntrySetEx key val d)) w true w') : Lives τ g k key d w' := by
  have htouch : Touches key (.op (.arEntrySetEx key val d)) := ⟨rfl, rfl⟩
  have hdur := h.act hO htouch ha
  obtain ⟨rfl, hok⟩ := Prod.mk.inj ha.symm
  have ho := outcome_arEntrySetEx (hO w.calls) h.wf key val d
  rw [show (w.core.arEntrySetEx (O.env w.calls) key val d).2 = true from hok.symm] at ho
  exact lives_of_outcome h ho hdur rfl (Nat.lt_succ_self _)

theorem lives_expire (hO : Outside.Clocked O τ) (h : During g k w) {n : Int} (hn : 0 < n) {w' : World}
    (ha : acts O (.op (.arExpire key n)) w true w') :
    Lives τ g k key ((τ w.calls + uint64 n * 1000) % 2 ^ 64) w' := by
  have htouch : Touches key (.op (.arExpire key n)) := ⟨rfl, rfl⟩
  have hdur := h.act hO htouch ha
  obtain ⟨rfl, hok⟩ := Prod.mk.inj ha.symm
  have ho := outcome_arExpire (hO w.calls) h.wf key hn
  rw [show (w.core.arExpire (O.env w.calls) key n).2 = true from hok.symm] at ho
  exact lives_of_outcome h ho hdur rfl (Nat.lt_succ_self _)

/-! ## One entry -/

/-- The deadline a value gets that is loaded at `now`, where `ar_expire` reads `r`. -/
def restoredAt (obj : ArObj) (d now r : Nat) : Nat :=
  match obj with
  | .string _ => d
  | _ => (r + uint64 (expireSec d now) * 1000) % 2 ^ 64

/-- The key has the deadline `f` gives at some reading of the clock since. -/
def Restored (τ : Nat → Nat) (g : Cfg) (k : Nat) (key : Bytes) (f : Nat → Nat) (w : World) : Prop :=
  ∃ n, k ≤ n ∧ n < w.calls ∧ Lives τ g k key (f (τ n)) w

theorem expireSec_pos (exp now : Nat) : 0 < expireSec exp now := by
  unfold expireSec
  dsimp only
  split <;> omega

theorem wp_set (hO : Outside.Clocked O τ) (h : During g k w) (val : Bytes) :
    (check (call (.arEntrySetEx key val d))).Wp (acts O) (fun _ => Restored τ g k key fun _ => d) w := by
  intro ok w' ha
  cases ok with
  | false => exact trivial
  | true =>
    have hcalls : w'.calls = w.calls + 1 := congrArg World.calls (Prod.mk.inj ha.symm).1
    exact ⟨w.calls, h.calls, by omega, lives_set hO h val ha⟩

theorem wp_expire (hO : Outside.Clocked O τ) (h : During g k w) {now : Nat} (hlt : now < d) :
    (applyExpireAbs key d now).Wp (acts O)
      (fun _ => Restored τ g k key fun r => (r + uint64 (expireSec d now) * 1000) % 2 ^ 64) w := by
  unfold applyExpireAbs
  rw [if_neg (by omega)]
  intro ok w' ha
  cases ok with
  | false => exact trivial
  | true =>
    have hcalls : w'.calls = w.calls + 1 := congrArg World.calls (Prod.mk.inj ha.symm).1
    exact ⟨w.calls, h.calls, by omega, lives_expire hO h (expireSec_pos d now) ha⟩

theorem wp_container {α : Type} {skip put : α → Code Unit} (hO : Outside.Clocked O τ) (h : During g k w)
    (hp : ∀ a, (put a).Only (Touches key)) {now : Nat} (hlt : now < d) (as : List α) :
    (restoreContainer skip put key d now as).Wp (acts O)
      (fun _ => Restored τ g k key fun r => (r + uint64 (expireSec d now) * 1000) % 2 ^ 64) w := by
  have hexp : ¬expired d now = true := by
    unfold expired
    simp only [Bool.and_eq_true, decide_eq_true_eq]
    omega
  unfold restoreContainer
  refine .ite (fun _ => trivial) fun _ => ?_
  rw [if_neg hexp]
  have hputs := Wp.of_only (M := acts O) (I := During g k) (fun e w a w' he ha h => During.act hO he ha h)
    (Only.each hp as) h
  exact hputs.seq fun _ w' h' => wp_expire hO h' hlt

theorem wp_restore (hO : Outside.Clocked O τ) {e : ArEntry} (h : During g k w) {now : Nat}
    (hlt : now < e.expireAt) (hd : e.expireAt < 2 ^ 64) :
    (restore now e).Wp (acts O) (fun _ => Restored τ g k e.key (restoredAt e.obj e.expireAt now)) w := by
  unfold restore
  rw [Nat.mod_eq_of_lt hd]
  have hkey := Wp.of_only (M := acts O) (I := During g k) (fun e w a w' he ha h => During.act hO he ha h)
    (show (takeIn e.key).Only (Touches e.key) from touches_takeIn e.key) h
  refine hkey.seq fun _ w₁ h₁ => ?_
  match hobj : e.obj with
  | .string val =>
    have hval := Wp.of_only (M := acts O) (I := During g k) (fun e w a w' he ha h => During.act hO he ha h)
      (show (takeIn val).Only (Touches e.key) from touches_takeIn val) h₁
    refine hval.seq fun _ w₂ h₂ => ?_
    have hexp : (!expired e.expireAt now) = true := by
      unfold expired
      simp only [Bool.not_eq_true', Bool.and_eq_false_iff, decide_eq_false_iff_not]
      omega
    rw [if_pos hexp]
    exact wp_set hO h₂ val
  | .hash m => exact wp_container hO h₁ touches_restoreField hlt _
  | .list l => exact wp_container hO h₁ touches_restoreItem hlt _
  | .zset z => exact wp_container hO h₁ touches_restoreMember hlt _

/-- Calls on other keys leave it. -/
theorem Restored.act (hO : Outside.Clocked O τ) {f : Nat → Nat} {other : Bytes} (hne : key ≠ other) {e : Eff}
    {a : e.Ans} {w' : World} (he : Touches other e) (ha : acts O e w a w') (h : Restored τ g k key f w) :
    Restored τ g k key f w' := by
  obtain ⟨n, hk, hn, hl⟩ := h
  have hdur : During g w.calls w' := During.act hO he ha ⟨hl.wf, hl.cfg, Nat.le_refl _⟩
  exact ⟨n, hk, hn.trans_le hdur.calls, hl.act hO hne he ha⟩

/-- **The entries of a snapshot, one after the other.** -/
theorem wp_each (hO : Outside.Clocked O τ) {now : Nat} {e : ArEntry} (hlt : now < e.expireAt)
    (hd : e.expireAt < 2 ^ 64) {es : List ArEntry} (hn : (es.map (·.key)).Nodup) (he : e ∈ es)
    (h : During g k w) :
    (restoreAll now es).Wp (acts O)
      (fun _ => Restored τ g k e.key (restoredAt e.obj e.expireAt now)) w := by
  induction es generalizing w with
  | nil => cases he
  | cons a es ih =>
    rw [List.map_cons, List.nodup_cons] at hn
    rcases List.mem_cons.1 he with rfl | he
    · refine (wp_restore hO h hlt hd).seq fun _ w₁ h₁ => ?_
      have hothers : (each (restore now) es).Only fun x => ∃ other, e.key ≠ other ∧ Touches other x :=
        .each_mem fun b hb => (touches_restore now b).mono fun x hx =>
          ⟨b.key, fun heq => hn.1 (heq ▸ List.mem_map_of_mem hb), hx⟩
      exact Wp.of_only (fun x w a w' ⟨other, hne, hx⟩ ha h => Restored.act hO hne hx ha h) hothers h₁
    · have hhead := Wp.of_only (M := acts O) (I := During g k) (fun e w a w' he ha h => During.act hO he ha h)
        (touches_restore now a) h
      exact hhead.seq fun _ w₁ h₁ => ih hn.2 he h₁

theorem wp_during (hO : Outside.Clocked O τ) (now : Nat) (es : List ArEntry) (h : During g k w) :
    (restoreAll now es).Wp (acts O) (fun _ => During g k) w := by
  have htouch : (restoreAll now es).Only fun x => ∃ other, Touches other x :=
    .each (fun e => (touches_restore now e).mono fun x hx => ⟨e.key, hx⟩) es
  exact Wp.of_only (fun x w a w' ⟨other, hx⟩ ha h => During.act hO hx ha h) htouch h

/-! ## A snapshot -/

/-- A load that begins at `now`, where `ar_expire` reads `r`, leaves the deadline `d` as it is. -/
def Kept (obj : ArObj) (d now r : Nat) : Prop :=
  obj.type = .string ∨ r + uint64 (expireSec d now) * 1000 = d

/-- The seconds of `apply_expire_abs`, at least one. -/
theorem uint64_expireSec {now : Nat} (hlt : now < d) (hd : d - now < 2 ^ 64) :
    uint64 (expireSec d now) = max 1 ((d - now + 999) % 2 ^ 64 / 1000) := by
  have hsub : uint64 ((d : Int) - now) = d - now := by
    rw [← Int.ofNat_sub hlt.le]
    exact uint64_natCast hd
  have hsec : expireSec d now = max 1 ((d - now + 999) % 2 ^ 64 / 1000 : Nat) := by
    unfold expireSec
    rw [hsub, int64_natCast (by omega)]
    dsimp only
    split <;> omega
  rw [hsec]
  exact uint64_natCast (by omega)

theorem restoredAt_eq_iff {obj : ArObj} {now r : Nat} (hlt : now < d) (hr : r < d) (hd : d < 2 ^ 64) :
    restoredAt obj d now r = d ↔ Kept obj d now r := by
  have hsec := uint64_expireSec hlt (by omega)
  have hmod : (r + uint64 (expireSec d now) * 1000) % 2 ^ 64 = d ↔ r + uint64 (expireSec d now) * 1000 = d := by
    rw [hsec]
    omega
  unfold Kept restoredAt
  cases obj with
  | string val => exact ⟨fun _ => .inl rfl, fun _ => rfl⟩
  | _ => exact hmod.trans (or_iff_right nofun).symm

/-- Unless the clock goes back, whole seconds in which it does not move. -/
theorem kept_iff_of_le {obj : ArObj} {now r : Nat} (hlt : now < d) (hr : now ≤ r) (hfit : d - now + 999 < 2 ^ 64) :
    Kept obj d now r ↔ obj.type = .string ∨ (r = now ∧ 1000 ∣ d - now) := by
  refine or_congr_right ?_
  rw [uint64_expireSec hlt (by omega), Nat.mod_eq_of_lt hfit]
  omega

theorem abstracts_acts (O : Outside) : (acts O).Abstracts (Eff.perform O) id := fun _ _ => rfl

/-- The clock has been read. -/
def clocked (O : Outside) (w : World) : World := (Eff.perform O .now (opened w)).1

theorem during_clocked (hw : w.core.WF) : During w.core.cfg (w.calls + 2) (clocked O w) := by
  have hopened : (opened w).core.WF := ⟨hw.dict, hw.objs⟩
  exact ⟨(Quiet.arNowMs (O.env (w.calls + 1)) (opened w).core).wf hopened, rfl, Nat.le_refl _⟩

theorem Restored.closed {f : Nat → Nat} (h : Restored τ g k key f w) : Restored τ g k key f (closed w) := by
  obtain ⟨n, hk, hn, hl⟩ := h
  exact ⟨n, hk, hn, ⟨⟨⟨hl.wf.dict, hl.wf.objs⟩, hl.cfg, hl.calls⟩, hl.now⟩⟩

/-- The snapshot of `c` at `t` is loaded in the world `w`, with success. -/
structure Reload (c : ArCore) (t : Nat) (O : Outside) (τ : Nat → Nat) (w : World) : Prop where
  wf : c.WF
  /-- No number in the file has wrapped. -/
  counts : ∀ e ∈ live c t, count e.obj < 2 ^ 32
  lives : (live c t).length < 2 ^ 64
  clock : Outside.Clocked O τ
  core : w.core.WF
  file : ∃ s, dump c t = some s ∧ w.disk (buildPath w.core) = some s
  ok : (arRdbLoad.exec O w).2 = some true

variable {c : ArCore} {t : Nat} {e : ArEntry}

/-- A load that succeeds puts back each entry of the snapshot. -/
theorem Reload.exec (h : Reload c t O τ w) :
    ∃ u, ((restoreAll (τ (w.calls + 1)) (live c t)).exec O (clocked O w)).2 = some u ∧
      (arRdbLoad.exec O w).1 =
        closed ((restoreAll (τ (w.calls + 1)) (live c t)).exec O (clocked O w)).1 := by
  obtain ⟨s, hs, hf⟩ := h.file
  obtain ⟨hg, hsome⟩ := (arRdbLoad_eq_true hf).1 h.ok
  have hnow : (Eff.perform O .now (opened w)).2 = τ (w.calls + 1) := h.clock (w.calls + 1) _
  have hexec : (loadBytes s).exec O (opened w) =
      (restoreAll (τ (w.calls + 1)) (live c t)).exec O (clocked O w) := by
    rw [loadBytes_dump hs h.counts h.lives] at hsome ⊢
    split
    · rename_i hmax
      rw [if_pos hmax] at hsome
      cases hsome
    · rw [← hnow]
      rfl
  rw [exec_arRdbLoad hf hg, hexec]
  rw [hexec] at hsome
  exact (Option.isSome_iff_exists.1 hsome).imp fun u hu => ⟨hu, rfl⟩

/-- The readings of the clock during the load are before the deadline. -/
def InTime (O : Outside) (τ : Nat → Nat) (w : World) (d : Nat) : Prop :=
  ∀ n, w.calls < n → n < (arRdbLoad.exec O w).1.calls → τ n < d

/-- The end of a load: the key has its deadline, by the reading of the clock that counts. -/
theorem Reload.restored (h : Reload c t O τ w) (he : e ∈ live c t) (hd : e.expireAt < 2 ^ 64)
    (hτ : InTime O τ w e.expireAt) :
    τ (w.calls + 1) < e.expireAt ∧
      Restored τ w.core.cfg (w.calls + 1) e.key (restoredAt e.obj e.expireAt (τ (w.calls + 1)))
        (arRdbLoad.exec O w).1 := by
  obtain ⟨u, hu, hfinal⟩ := h.exec
  unfold InTime at hτ
  rw [hfinal] at hτ ⊢
  have hdur := during_clocked (O := O) h.core
  have hend : During w.core.cfg (w.calls + 2) _ :=
    Wp.run (abstracts_acts O) (wp_during h.clock _ _ hdur) hu
  have hlt : τ (w.calls + 1) < e.expireAt :=
    hτ _ (Nat.lt_succ_self _) (Nat.lt_of_lt_of_le (Nat.lt_succ_self _) hend.calls)
  refine ⟨hlt, ?_⟩
  have hk : During w.core.cfg (w.calls + 1) (clocked O w) :=
    ⟨hdur.wf, hdur.cfg, (Nat.le_succ _).trans hdur.calls⟩
  have hdone : Restored τ w.core.cfg (w.calls + 1) e.key _ _ :=
    Wp.run (abstracts_acts O) (wp_each h.clock hlt hd (nodup_live h.wf) he hk) hu
  exact hdone.closed

/-- **Which deadlines survive a snapshot**: after a load the key has its old deadline if it is a string, or if
the whole seconds that were left of it, from the reading of `ar_expire` on, come to it again. -/
theorem deadline_restored (h : Reload c t O τ w) (he : e ∈ live c t) (hd : e.expireAt < 2 ^ 64)
    (hτ : InTime O τ w e.expireAt) :
    ∃ n, w.calls < n ∧ n < (arRdbLoad.exec O w).1.calls ∧
      (∀ i, (arRdbLoad.exec O w).1.core.Has e.key (some i) →
        i.expireAt = restoredAt e.obj e.expireAt (τ (w.calls + 1)) (τ n) ∧
          (i.expireAt = e.expireAt ↔ Kept e.obj e.expireAt (τ (w.calls + 1)) (τ n))) ∧
      (w.core.cfg.evict = .noop → Kept e.obj e.expireAt (τ (w.calls + 1)) (τ n) →
        ∃ i, (arRdbLoad.exec O w).1.core.Has e.key (some i)) ∧
      (τ (w.calls + 1) ≤ τ n → e.expireAt - τ (w.calls + 1) + 999 < 2 ^ 64 →
        (Kept e.obj e.expireAt (τ (w.calls + 1)) (τ n) ↔
          e.obj.type = .string ∨ (τ n = τ (w.calls + 1) ∧ 1000 ∣ e.expireAt - τ (w.calls + 1)))) := by
  obtain ⟨hlt, n, hkn, hnc, hl⟩ := h.restored he hd hτ
  have hiff : restoredAt e.obj e.expireAt _ _ = _ ↔ _ := restoredAt_eq_iff hlt (hτ n hkn hnc) hd
  refine ⟨n, hkn, hnc, fun i hi => ?_, fun hnoop hkept => ?_, kept_iff_of_le hlt⟩
  · have hdead : i.expireAt = restoredAt e.obj e.expireAt (τ (w.calls + 1)) (τ n) := by
      rcases hl.now with ⟨j, hj, hdead⟩ | ⟨h0, -⟩
      · have hij : ({j} : Multiset Item) = {i} := hj.symm.trans hi
        rw [← Multiset.singleton_inj.1 hij, hdead]
      · have hi0 : (0 : Multiset Item) = {i} := h0.symm.trans hi
        exact absurd hi0.symm (Multiset.singleton_ne_zero i)
    exact ⟨hdead, by rw [hdead]; exact hiff⟩
  · rcases hl.now with ⟨i, hi, -⟩ | ⟨-, hgone⟩
    · exact ⟨i, hi⟩
    · obtain ⟨m, hm, hmc, hdue⟩ := hgone hnoop
      rw [hiff.2 hkept] at hdue
      exact absurd hdue.2 (Nat.not_le.2 (hτ m hm hmc))

/-! ## Again and again -/

/-- A save and a load that keep the deadline of the key. -/
def Cycle (key : Bytes) (c c' : ArCore) : Prop :=
  ∃ t O τ w, Reload c t O τ w ∧ c' = (arRdbLoad.exec O w).1.core ∧
    ∃ e ∈ live c t, e.key = key ∧ e.expireAt < 2 ^ 64 ∧ InTime O τ w e.expireAt ∧
      ∀ n, w.calls < n → n < (arRdbLoad.exec O w).1.calls → Kept e.obj e.expireAt (τ (w.calls + 1)) (τ n)

theorem deadline_cycle {c' : ArCore} (h : Cycle key c c') (hc : ∀ i, c.Has key (some i) → i.expireAt = d) :
    ∀ i, c'.Has key (some i) → i.expireAt = d := by
  obtain ⟨t, O, τ, w, hr, rfl, e, he, rfl, hd, hτ, hkept⟩ := h
  obtain ⟨n, hn, hnc, hdead, -⟩ := deadline_restored hr he hd hτ
  intro i hi
  rw [(hdead i hi).2.2 (hkept n hn hnc)]
  exact hc e.toItem (has_of_mem hr.wf ((peek_eq_some_iff hr.wf).1 (peek_of_live hr.wf he)).1)

/-- **However often a store is saved and loaded**, no such cycle moves the deadline. -/
theorem deadline_cycles {c' : ArCore} (h : Relation.ReflTransGen (Cycle key) c c')
    (hc : ∀ i, c.Has key (some i) → i.expireAt = d) : ∀ i, c'.Has key (some i) → i.expireAt = d := by
  induction h with
  | refl => exact hc
  | tail _ hcycle ih => exact deadline_cycle hcycle ih

/-! ## A second and a half -/

/-- `SET k v PX 1500`. -/
def timedStringCalls : List Call := [.steady 0 (.arSetBinPx (lit "k") (lit "v") 1500)]

def timedString : ArCore := ArCore.arCoreCreate.runCalls timedStringCalls

/-- `HSET k f v`, `PEXPIRE k 1500`. -/
def timedHashCalls : List Call :=
  [.steady 0 (.arHashHset (lit "k") [(lit "f", lit "v")]), .steady 0 (.arPexpire (lit "k") 1500)]

def timedHash : ArCore := ArCore.arCoreCreate.runCalls timedHashCalls

/-- An empty core, and the snapshot of another one in every file. -/
def fileWorld (c : ArCore) : World := { core := ArCore.arCoreCreate, disk := fun _ => dump c 0 }

theorem reload_of {c : ArCore} (hc : ArCore.Reachable c) (hn : ∀ e ∈ live c 0, count e.obj < 2 ^ 32)
    (hl : (live c 0).length < 2 ^ 64) (hs : (dump c 0).isSome = true)
    (hok : (arRdbLoad.exec (.steady 0) (fileWorld c)).2 = some true) :
    Reload c 0 (.steady 0) (fun _ => 0) (fileWorld c) where
  wf := hc.wf
  counts := hn
  lives := hl
  clock _ _ := rfl
  core := wf_arCoreCreate
  file := (Option.isSome_iff_exists.1 hs).imp fun _ h => ⟨h, h⟩
  ok := hok

theorem reload_timedString : Reload timedString 0 (.steady 0) (fun _ => 0) (fileWorld timedString) :=
  reload_of (ArCore.Reachable.create.runCalls _) (by decide +kernel) (by decide +kernel) (by decide +kernel)
    (by decide +kernel)

/-- `HSET k f v`, `PEXPIRE k 2000`. -/
def wholeHash : ArCore :=
  ArCore.arCoreCreate.runCalls
    [.steady 0 (.arHashHset (lit "k") [(lit "f", lit "v")]), .steady 0 (.arPexpire (lit "k") 2000)]

theorem reload_wholeHash : Reload wholeHash 0 (.steady 0) (fun _ => 0) (fileWorld wholeHash) :=
  reload_of (ArCore.Reachable.create.runCalls _) (by decide +kernel) (by decide +kernel) (by decide +kernel)
    (by decide +kernel)

/-- A string, and a hash whose deadline is whole seconds away. -/
theorem deadline_restored_both :
    (∃ e ∈ live timedString 0, e.expireAt = 1500 ∧
      ∃ i, (arRdbLoad.exec (.steady 0) (fileWorld timedString)).1.core.Has e.key (some i) ∧ i.expireAt = 1500) ∧
    ∃ e ∈ live wholeHash 0, e.expireAt = 2000 ∧ e.obj.type = .hash ∧
      ∃ i, (arRdbLoad.exec (.steady 0) (fileWorld wholeHash)).1.core.Has e.key (some i) ∧ i.expireAt = 2000 := by
  have hτ (c : ArCore) (d : Nat) (hd : 0 < d) : InTime (.steady 0) (fun _ => 0) (fileWorld c) d := fun _ _ _ => hd
  constructor
  · have hlive : ∃ e ∈ live timedString 0, e.expireAt = 1500 ∧ e.obj.type = .string := by decide +kernel
    obtain ⟨e, he, hd, hobj⟩ := hlive
    obtain ⟨n, -, -, hdead, hthere, -⟩ :=
      deadline_restored reload_timedString he (by rw [hd]; decide) (hτ _ _ (by rw [hd]; decide))
    obtain ⟨i, hi⟩ := hthere rfl (.inl hobj)
    refine ⟨e, he, hd, i, hi, ?_⟩
    rw [(hdead i hi).2.2 (.inl hobj), hd]
  · have hlive : ∃ e ∈ live wholeHash 0, e.expireAt = 2000 ∧ e.obj.type = .hash := by decide +kernel
    obtain ⟨e, he, hd, hobj⟩ := hlive
    obtain ⟨n, -, -, hdead, hthere, hkept⟩ :=
      deadline_restored reload_wholeHash he (by rw [hd]; decide) (hτ _ _ (by rw [hd]; decide))
    have hkept := (hkept (Nat.le_refl 0) (by rw [hd]; decide)).2 (.inr ⟨rfl, by rw [hd]; decide⟩)
    obtain ⟨i, hi⟩ := hthere rfl hkept
    refine ⟨e, he, hd, hobj, i, hi, ?_⟩
    rw [(hdead i hi).2.2 hkept, hd]

theorem reload_timedHash : Reload timedHash 0 (.steady 0) (fun _ => 0) (fileWorld timedHash) :=
  reload_of (ArCore.Reachable.create.runCalls _) (by decide +kernel) (by decide +kernel) (by decide +kernel)
    (by decide +kernel)

/-- **A hash lives half a second longer** after a save and a load in the same millisecond. -/
theorem hash_outlives :
    Reload timedHash 0 (.steady 0) (fun _ => 0) (fileWorld timedHash) ∧
      (timedHash.peek 0 (lit "k")).map Item.expireAt = some 1500 ∧
      ((arRdbLoad.exec (.steady 0) (fileWorld timedHash)).1.core.peek 0 (lit "k")).map Item.expireAt = some 2000 :=
  ⟨reload_timedHash, by decide +kernel, by decide +kernel⟩

end Rdb

end AuraRedis
