import AuraRedis.Rdb.Proof.Format
import AuraRedis.Rdb.Proof.Live
import AuraRedis.Server.Proof.Frame

/-!
# Truncated snapshots

A snapshot that a load is content with fills its file, or else it is content with less: what `takeDump` leaves
over is not missed. The writer fills the file unless a container has `2 ^ 32` elements or more, when the number
in front of them wraps (`wrapped_accepted`). The limits of the reader are its own; they are no matter here.
-/

set_option autoImplicit false

namespace AuraRedis

open Code Prog

namespace Rdb

/-! ## The effects of the reader -/

/-- The effects of the reader: none of them looks at a file. -/
def Loads : Eff → Prop
  | .op _ | .now | .malloc => True
  | _ => False

theorem loads_bytes (k : Nat) (s : Bytes) : (rdBytes k s).Only Loads := by
  unfold rdBytes
  split
  · exact .fail _
  · exact .ret _ _

theorem loads_num (k : Nat) (s : Bytes) : (rdNum k s).Only Loads := (loads_bytes k s).bind fun _ => .ret _ _

theorem loads_len (limit : Nat) (s : Bytes) : (rdLen limit s).Only Loads :=
  (loads_num 4 s).bind fun _ => .ite (.fail _) (.ret _ _)

theorem loads_blob (s : Bytes) : (rdBlob s).Only Loads :=
  (loads_len maxBlob s).bind fun n =>
    .bind (.step trivial fun _ => .ite (.ret _ _) (.fail _)) fun _ => loads_bytes n.1 n.2

theorem loads_elems {elem : Bytes → Code Bytes} (h : ∀ s, (elem s).Only Loads) (n : Nat) (s : Bytes) :
    (rdElems elem n s).Only Loads := by
  induction n generalizing s with
  | zero => exact .ret _ _
  | succ n ih => exact (h s).bind ih

theorem loads_container {elem : Bytes → Code Bytes} (h : ∀ s, (elem s).Only Loads) (s : Bytes) :
    (rdContainer elem s).Only Loads := (loads_len maxElems s).bind fun n => loads_elems h n.1 n.2

theorem loads_drainItem (s : Bytes) : (drainItem s).Only Loads := (loads_blob s).bind fun _ => .ret _ _

theorem loads_drainField (s : Bytes) : (drainField s).Only Loads :=
  (loads_blob s).bind fun field => (loads_blob field.2).bind fun _ => .ret _ _

theorem loads_f64 (s : Bytes) : (rdF64 s).Only Loads := (loads_num 8 s).bind fun _ => .ret _ _

theorem loads_drainMember (s : Bytes) : (drainMember s).Only Loads :=
  (loads_f64 s).bind fun score => (loads_blob score.2).bind fun _ => .ret _ _

theorem loads_found {α : Type} (s : Bytes) (d : ArCore.Typed α) : (found s d).Only Loads := by
  cases d <;> trivial

theorem loads_added (s : Bytes) (d : ArCore.ZaddResult) : (added s d).Only Loads := by
  cases d <;> trivial

theorem loads_call (o : ArOp) : (call o).Only Loads := .perform trivial

theorem loads_loadItem (key s : Bytes) : (loadItem key s).Only Loads := by
  rw [loadItem_eq]
  exact (loads_blob s).bind fun val => (loads_call _).bind fun d => loads_found val.2 d

theorem loads_loadField (key s : Bytes) : (loadField key s).Only Loads := by
  rw [loadField_eq]
  exact (loads_blob s).bind fun field => (loads_blob field.2).bind fun val =>
    (loads_call _).bind fun d => loads_found val.2 d

theorem loads_loadMember (key s : Bytes) : (loadMember key s).Only Loads := by
  rw [loadMember_eq]
  exact (loads_f64 s).bind fun score => (loads_blob score.2).bind fun member =>
    (loads_call _).bind fun d => loads_added member.2 d

theorem loads_check {p : Code Bool} (h : p.Only Loads) : (check p).Only Loads :=
  h.bind fun _ => .ite (.ret _ _) (.fail _)

theorem loads_loadContainer {drain load : Bytes → Code Bytes} (hd : ∀ s, (drain s).Only Loads)
    (hl : ∀ s, (load s).Only Loads) (key : Bytes) (exp now : Nat) (s : Bytes) :
    (loadContainer drain load key exp now s).Only Loads := by
  have hexpire : (applyExpireAbs key exp now).Only Loads := .ite (.ret _ _) (loads_check (loads_call _))
  exact .ite (loads_container hd s) ((loads_container hl s).bind fun _ => hexpire.bind fun _ => .ret _ _)

theorem loads_set {b : Prop} [Decidable b] (key val : Bytes) (exp : Nat) (s : Bytes) :
    (if b then check (call (.arEntrySetEx key val exp)) >>= fun _ => (Prog.ret s : Code Bytes)
      else Prog.ret s).Only Loads := .ite ((loads_check (loads_call _)).bind fun _ => .ret _ _) (.ret _ _)

theorem loads_oneV2 (now : Nat) (s : Bytes) : (loadOneV2 now s).Only Loads := by
  apply (loads_num 1 s).bind
  intro type
  apply (loads_blob type.2).bind
  intro key
  apply (loads_num 8 key.2).bind
  intro exp
  split
  · exact (loads_blob exp.2).bind fun val => loads_set key.1 val.1 exp.1 val.2
  · exact loads_loadContainer loads_drainField (loads_loadField key.1) key.1 exp.1 now exp.2
  · exact loads_loadContainer loads_drainItem (loads_loadItem key.1) key.1 exp.1 now exp.2
  · exact loads_loadContainer loads_drainMember (loads_loadMember key.1) key.1 exp.1 now exp.2
  · exact .fail _

theorem loads_oneV1 (now : Nat) (s : Bytes) : (loadOneV1 now s).Only Loads :=
  (loads_blob s).bind fun key => (loads_blob key.2).bind fun val => (loads_num 8 val.2).bind fun exp =>
    loads_set key.1 val.1 exp.1 exp.2

theorem loads_dump (s : Bytes) : (readDump s).Only Loads := by
  apply (loads_bytes 8 s).bind
  intro m
  apply Only.ite (.fail _)
  apply (loads_num 4 m.2).bind
  intro ver
  apply Only.ite (.fail _)
  apply (loads_num 8 ver.2).bind
  intro n
  apply Only.ite (.fail _)
  apply Only.bind (.perform trivial)
  intro now
  refine loads_elems (fun s => ?_) n.1 n.2
  split
  · exact loads_oneV1 now s
  · exact loads_oneV2 now s

/-- Two worlds with one core, after as many effects. -/
def SameCore (w w' : World) : Prop := w'.core = w.core ∧ w'.calls = w.calls

theorem perform_sameCore {O : Outside} (e : Eff) (w w' : World) (he : Loads e) (h : SameCore w w') :
    SameCore (Eff.perform O e w).1 (Eff.perform O e w').1 ∧
      (Eff.perform O e w).2 = (Eff.perform O e w').2 := by
  obtain ⟨core, calls, disk, child⟩ := w
  obtain ⟨core', calls', disk', child'⟩ := w'
  obtain ⟨rfl, rfl⟩ := h
  cases e with
  | op o | now | malloc => exact ⟨⟨rfl, rfl⟩, rfl⟩
  | _ => cases he

/-! ## Loads -/

/-- Some load is content with these bytes as the file. -/
def Accepted (s : Bytes) : Prop :=
  ∃ O w, w.disk (buildPath w.core) = some s ∧ (arRdbLoad.exec O w).2 = some true

/-- The bytes are what their lengths and counts measure. -/
def Fills (s : Bytes) : Prop := takeDump s = some []

/-- The world when the file has been read. -/
def opened (w : World) : World :=
  { w with core := { w.core with srv := { w.core.srv with rdbLoading := true } }, calls := w.calls + 1 }

variable {O : Outside} {w : World} {s : Bytes}

/-- The world when the load is over. -/
def closed (w : World) : World :=
  { w with core := { w.core with srv := { w.core.srv with rdbLoading := false } } }

theorem exec_arRdbLoad (hs : w.disk (buildPath w.core) = some s) (hg : O.grants w.calls = true) :
    arRdbLoad.exec O w =
      (closed ((loadBytes s).exec O (opened w)).1, some ((loadBytes s).exec O (opened w)).2.isSome) := by
  unfold exec arRdbLoad eff
  simp only [perform_bind, run_step, Eff.perform, hs, hg, if_true]
  show Prog.run _ ((loadBytes s).attempt >>= _) (opened w) = _
  rw [run_bind, run_attempt]
  rfl

theorem arRdbLoad_eq_true (hs : w.disk (buildPath w.core) = some s) :
    (arRdbLoad.exec O w).2 = some true ↔
      O.grants w.calls = true ∧ ((loadBytes s).exec O (opened w)).2.isSome = true := by
  cases hg : O.grants w.calls with
  | true =>
    rw [exec_arRdbLoad hs hg]
    simp
  | false =>
    unfold exec arRdbLoad eff
    simp only [perform_bind, run_step, Eff.perform, hg]
    simp

/-- The load is content when `readDump` is. -/
theorem isSome_loadBytes (w : World) :
    ((loadBytes s).exec O w).2.isSome = ((readDump s).exec O w).2.isSome := by
  rw [loadBytes_eq]
  unfold exec
  rw [run_bind]
  cases ((readDump s).run (Eff.perform O) w).2 <;> rfl

/-- What is in the files is no matter once the file has been read. -/
theorem accepted_iff :
    Accepted s ↔ ∃ O w, O.grants w.calls = true ∧ ((readDump s).exec O (opened w)).2.isSome = true := by
  constructor
  · rintro ⟨O, w, hs, h⟩
    obtain ⟨hg, hsome⟩ := (arRdbLoad_eq_true hs).1 h
    exact ⟨O, w, hg, isSome_loadBytes (opened w) ▸ hsome⟩
  · rintro ⟨O, w, hg, hsome⟩
    let w' : World := { w with disk := fun _ => some s }
    have hpair := Only.run_pair (h := Eff.perform O) (R := SameCore) perform_sameCore (loads_dump s)
      (show SameCore (opened w) (opened w') from ⟨rfl, rfl⟩)
    refine ⟨O, w', rfl, (arRdbLoad_eq_true (w := w') rfl).2 ⟨hg, ?_⟩⟩
    rw [isSome_loadBytes]
    unfold exec
    rw [← hpair.2]
    exact hsome

/-- What is accepted is measured. -/
theorem takes_of_accepted (h : Accepted s) : ∃ r, takeDump s = some r := by
  obtain ⟨O, w, -, hsome⟩ := accepted_iff.1 h
  obtain ⟨r, hr⟩ := Option.isSome_iff_exists.1 hsome
  exact ⟨r, (reads_dump.returns s).run hr⟩

/-! ## Prefixes -/

/-- **What fills its file is not accepted when it is cut.** -/
theorem eq_of_accepted {s' : Bytes} (hf : Fills s) (hpre : s' <+: s) (h : Accepted s') : s' = s := by
  obtain ⟨O, w, -, hsome⟩ := accepted_iff.1 h
  obtain ⟨r, hr⟩ := Option.isSome_iff_exists.1 hsome
  exact reads_dump.eq_of_prefix hf hpre hr

/-- **What is left over is not missed.** -/
theorem accepted_of_rest {r : Bytes} (hr : takeDump s = some r) (h : Accepted s) :
    ∃ s', s = s' ++ r ∧ Accepted s' := by
  obtain ⟨O, w, hg, hsome⟩ := accepted_iff.1 h
  obtain ⟨s', rfl, hs'⟩ := reads_dump.run_of_rest hr hsome
  refine ⟨s', rfl, accepted_iff.2 ⟨O, w, hg, ?_⟩⟩
  unfold exec
  rw [hs']
  rfl

/-- More behind the file is no matter. -/
theorem accepted_append (h : Accepted s) (x : Bytes) : Accepted (s ++ x) := by
  obtain ⟨r, hr⟩ := takes_of_accepted h
  obtain ⟨O, w, hg, hsome⟩ := accepted_iff.1 h
  obtain ⟨b, hb⟩ := Option.isSome_iff_exists.1 hsome
  refine accepted_iff.2 ⟨O, w, hg, ?_⟩
  unfold exec at hb ⊢
  rw [reads_dump.leaves s x r hr, run_bind, hb]
  rfl

variable {c : ArCore} {now : Nat}

/-! ## Lists of empty elements -/

/-- `RPUSH k ""`. -/
def pushEmpty : Call := .steady 0 (.arListPush (lit "k") false [[]])

/-- A list of empty elements. -/
def longList (n : Nat) : ArCore := ArCore.arCoreCreate.runCalls (List.replicate n pushEmpty)

theorem reachable_longList (n : Nat) : ArCore.Reachable (longList n) := ArCore.Reachable.create.runCalls _

/-- The map with that list. -/
def listStore (l : List Bytes) : Store := Function.update (fun _ => none) (lit "k") (some (.list l, 0))

theorem view_pushEmpty (hwf : c.WF) (hn : c.cfg.evict = .noop) :
    (pushEmpty.op.run pushEmpty.E c).1.view 0 = ((c.view 0).step 0 (lit "k") (Spec.push false [[]])).1 ∧
      (pushEmpty.op.run pushEmpty.E c).1.cfg.evict = .noop := by
  obtain ⟨hm, hn'⟩ := means_run (x := pushEmpty) hwf hn (fun _ => rfl) rfl
  exact ⟨congrArg Prod.fst hm, hn'⟩

theorem view_pushes (n : Nat) {l : List Bytes} (hwf : c.WF) (hn : c.cfg.evict = .noop)
    (hv : c.view 0 = listStore l) :
    (c.runCalls (List.replicate n pushEmpty)).view 0 = listStore (l ++ List.replicate n []) := by
  induction n generalizing c l with
  | zero => exact hv.trans (congrArg listStore (List.append_nil l).symm)
  | succ n ih =>
    obtain ⟨hone, hn'⟩ := view_pushEmpty hwf hn
    have hlist : (pushEmpty.op.run pushEmpty.E c).1.view 0 = listStore (l ++ [[]]) := by
      rw [hone, hv]
      unfold Store.step listStore
      rw [Function.update_self, Function.update_idem]
      rfl
    have hrest := ih (wf_run hwf pushEmpty) hn' hlist
    rw [List.append_assoc, List.singleton_append, ← List.replicate_succ] at hrest
    exact hrest

theorem view_first (n : Nat) (hwf : c.WF) (hn : c.cfg.evict = .noop) (hv : c.view 0 = fun _ => none) :
    (c.runCalls (List.replicate (n + 1) pushEmpty)).view 0 = listStore (List.replicate (n + 1) []) := by
  obtain ⟨hone, hn'⟩ := view_pushEmpty hwf hn
  have hlist : (pushEmpty.op.run pushEmpty.E c).1.view 0 = listStore [[]] := by
    rw [hone, hv]
    rfl
  exact view_pushes n (wf_run hwf pushEmpty) hn' hlist

theorem view_longList (n : Nat) : (longList (n + 1)).view 0 = listStore (List.replicate (n + 1) []) :=
  view_first n ArCore.Reachable.create.wf rfl view_arCoreCreate

/-- The snapshot of a list, with `n` as the number of its elements. -/
def listHeader (n : Nat) : Bytes :=
  magic ++ (le 4 version ++ (le 8 1 ++ (le 1 2 ++ (le 4 1 ++ (lit "k" ++ (le 8 0 ++ le 4 n))))))

theorem wrAll_replicate (n : Nat) : wrAll wrBlob (List.replicate n []) = some (List.replicate n (le 4 0)).flatten := by
  induction n with
  | zero => rfl
  | succ n ih =>
    rw [List.replicate_succ, List.replicate_succ, List.flatten_cons]
    show (wrBlob []).bind (fun s => (wrAll wrBlob (List.replicate n [])).map fun s' => s ++ s') = _
    rw [ih]
    rfl

theorem dump_longList (n : Nat) :
    dump (longList (n + 1)) 0 = some (listHeader (n + 1) ++ (List.replicate (n + 1) (le 4 0)).flatten) := by
  obtain ⟨e, hl, hk, hslot⟩ := live_of_view (reachable_longList (n + 1)).wf (view_longList n)
  obtain ⟨habs, hexp⟩ := Prod.mk.inj hslot
  have hobj : e.obj = .list (List.replicate (n + 1) []) := by
    cases h : e.obj with
    | list l =>
      rw [h] at habs
      exact congrArg ArObj.list (AVal.list.inj habs)
    | _ =>
      rw [h] at habs
      cases habs
  have hpayload : writePayload e.obj = some (le 4 (n + 1) ++ (List.replicate (n + 1) (le 4 0)).flatten) := by
    rw [hobj]
    show (wrAll wrBlob (List.replicate (n + 1) [])).map (fun s => le 4 (List.replicate (n + 1) []).length ++ s) = _
    rw [wrAll_replicate, List.length_replicate]
    rfl
  have hentry : writeEntryV2 e = some (le 1 2 ++ ((le 4 1 ++ lit "k") ++ (le 8 0 ++ (le 4 (n + 1) ++
      (List.replicate (n + 1) (le 4 0)).flatten)))) := by
    have hcode : typeCode e.obj = 2 := by rw [hobj]; rfl
    have hexp' : e.expireAt = 0 := hexp
    unfold writeEntryV2
    rw [hk, hpayload, hcode, hexp']
    rfl
  unfold dump
  rw [hl]
  show ((writeEntryV2 e).bind fun s => (wrAll writeEntryV2 []).map fun s' => s ++ s').map _ = _
  rw [hentry]
  simp only [Option.bind_some, wrAll, Option.map_some, List.append_nil, List.length_singleton, listHeader,
    List.append_assoc]

/-- The snapshot of a list of empty elements. -/
def listDump (n : Nat) : Bytes := listHeader n ++ (List.replicate n (le 4 0)).flatten

theorem accepted_header : Accepted (listHeader 0) :=
  ⟨.steady 0, { core := ArCore.arCoreCreate, disk := fun _ => some (listHeader 0) }, rfl, by decide +kernel⟩

theorem accepted_listDump : Accepted (listDump 1) :=
  ⟨.steady 0, { core := ArCore.arCoreCreate, disk := fun _ => some (listDump 1) }, rfl, by decide +kernel⟩

/-! ## Cut snapshots -/

/-- **Cut snapshots**: those the reader accepts are rejected when they are cut if and only if they fill their
file, as they do unless a container has as many elements as the number in front of them cannot say. -/
theorem truncated_rejected (hs : dump c now = some s) (ha : Accepted s) :
    ((∀ s', s' <+: s → s' ≠ s → ¬Accepted s') ↔ Fills s) ∧
      ((∀ e ∈ live c now, count e.obj < 2 ^ 32) → (live c now).length < 2 ^ 64 → Fills s) := by
  obtain ⟨r, hr⟩ := takes_of_accepted ha
  refine ⟨⟨fun h => ?_, fun hf s' hpre hne hs' => hne (eq_of_accepted hf hpre hs')⟩, fun hn hlen => ?_⟩
  · obtain ⟨s', hs', ha'⟩ := accepted_of_rest hr ha
    have hwhole : s' = s := by
      by_contra hne
      exact h s' ⟨r, hs'.symm⟩ hne ha'
    have hnil : r = [] := by
      rw [hwhole] at hs'
      exact List.self_eq_append_right.1 hs'
    rw [Fills, hr, hnil]
  · rw [Fills, hr, takeDump_dump hs hn hlen hr]

theorem truncated_rejected_one :
    Fills (listDump 1) ∧ ∀ s', s' <+: listDump 1 → s' ≠ listDump 1 → ¬Accepted s' := by
  have hcount : ∀ e ∈ live (longList 1) 0, count e.obj < 2 ^ 32 := by decide +kernel
  have hlive : (live (longList 1) 0).length < 2 ^ 64 := by decide +kernel
  obtain ⟨hiff, hfills⟩ := truncated_rejected (dump_longList 0) accepted_listDump
  exact ⟨hfills hcount hlive, hiff.2 (hfills hcount hlive)⟩

/-- Where the number of elements wraps to `0`, the header is accepted without them. -/
theorem header_accepted {n : Nat} (hn : n ≠ 0) (hw : listHeader n = listHeader 0) :
    dump (longList n) 0 = some (listDump n) ∧ Accepted (listDump n) ∧ listHeader n <+: listDump n ∧
      listHeader n ≠ listDump n ∧ Accepted (listHeader n) := by
  obtain ⟨m, rfl⟩ := Nat.exists_eq_succ_of_ne_zero hn
  have ha : Accepted (listHeader (m + 1)) := by
    rw [hw]
    exact accepted_header
  refine ⟨dump_longList m, accepted_append ha _, List.prefix_append _ _, fun h => ?_, ha⟩
  have hnil := List.self_eq_append_right.1 h
  rw [List.replicate_succ, List.flatten_cons] at hnil
  exact absurd (congrArg List.length (List.append_eq_nil_iff.1 hnil).1) (by decide)

/-- **The number of elements wraps**: of a list of `2 ^ 32` empty elements the header alone is accepted. -/
theorem wrapped_accepted :
    ArCore.Reachable (longList (2 ^ 32)) ∧ dump (longList (2 ^ 32)) 0 = some (listDump (2 ^ 32)) ∧
      Accepted (listDump (2 ^ 32)) ∧ listHeader (2 ^ 32) <+: listDump (2 ^ 32) ∧
      listHeader (2 ^ 32) ≠ listDump (2 ^ 32) ∧ Accepted (listHeader (2 ^ 32)) :=
  ⟨reachable_longList _, header_accepted (by decide) rfl⟩

end Rdb

end AuraRedis
