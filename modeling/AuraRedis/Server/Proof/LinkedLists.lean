import AuraRedis.Core.Proof.Elements
import AuraRedis.Server.Proof.Lists
import Mathlib.Order.Lattice.Nat

/-!
# Lists and their commands

What a run of pushes, pops, `LREM` and `LTRIM` makes of a list and of its nodes, and what the commands show of it
(`list_refines`). Two counts do not fit their types: the least count of `LREM`, and that of `LRANGE` for a window of
`2 ^ 31` elements.
-/

set_option autoImplicit false

namespace AuraRedis

open Code
open ArCore (Typed)
open Linked (Node)

/-! ## What the commands answer -/

section
variable {E : Env} {t : Nat} {c : ArCore} {key : Bytes} {vs : List Bytes}

theorem push_of_view (hE : E.Frozen t) (ha : E.AllocOk) (hwf : c.WF) (hn : c.cfg.evict = .noop)
    (hv : c.view t key = listSlot vs) (left : Bool) (vals : List Bytes) :
    (c.arListPush E key left vals).2 = pushAnswer left vals vs :=
  (listSlot_of_step ((ArOp.sound hE hwf (.arListPush key left vals) rfl).means ha hn) hv (push_listSlot left vals)).2

theorem pop_of_view (hE : E.Frozen t) (ha : E.AllocOk) (hwf : c.WF) (hn : c.cfg.evict = .noop)
    (hv : c.view t key = listSlot vs) (left : Bool) :
    (c.arListPop E key left).2 = ((atEnd left vs).map .found).getD .missing :=
  (listSlot_of_step ((ArOp.sound hE hwf (.arListPop key left) rfl).means ha hn) hv (pop_listSlot left)).2

theorem lrem_of_view (hE : E.Frozen t) (ha : E.AllocOk) (hwf : c.WF) (hn : c.cfg.evict = .noop)
    (hv : c.view t key = listSlot vs) (count : Int) (elem : Bytes) :
    (c.arListLrem E key count elem).2 = ofList vs (ArCore.lremList vs count elem).2 :=
  (listSlot_of_step ((ArOp.sound hE hwf (.arListLrem key count elem) rfl).means ha hn) hv
    (lrem_listSlot count elem)).2

theorem ltrim_of_view (hE : E.Frozen t) (ha : E.AllocOk) (hwf : c.WF) (hn : c.cfg.evict = .noop)
    (hv : c.view t key = listSlot vs) (start stop : Int) : (c.arListLtrim E key start stop).2 = ofList vs () :=
  (listSlot_of_step ((ArOp.sound hE hwf (.arListLtrim key start stop) rfl).means ha hn) hv
    (ltrim_listSlot start stop)).2

theorem llen_of_view (hE : E.Frozen t) (ha : E.AllocOk) (hwf : c.WF) (hn : c.cfg.evict = .noop)
    (hv : c.view t key = listSlot vs) : (c.arListLlen E key).2 = ofList vs vs.length :=
  (listSlot_of_step ((ArOp.sound hE hwf (.arListLlen key) rfl).means ha hn) hv (readList_listSlot _)).2

theorem lget_of_view (hE : E.Frozen t) (ha : E.AllocOk) (hwf : c.WF) (hn : c.cfg.evict = .noop)
    (hv : c.view t key = listSlot vs) : (c.arListGet E key).2 = ofList vs vs :=
  (listSlot_of_step ((ArOp.sound hE hwf (.arListGet key) rfl).means ha hn) hv (readList_listSlot _)).2

theorem lindex_of_view (hE : E.Frozen t) (ha : E.AllocOk) (hwf : c.WF) (hn : c.cfg.evict = .noop)
    (hv : c.view t key = listSlot vs) (index : Int) :
    (c.arListLindex E key index).2 = ((ArCore.listIndex vs index).map .found).getD .missing := by
  have hans := (listSlot_of_step ((ArOp.sound hE hwf (.arListLindex key index) rfl).means ha hn) hv
    (readList_listSlot _)).2
  refine hans.trans ?_
  split
  · next h =>
    subst h
    simp [ArCore.listIndex]
  · rfl

end

/-! ## What the commands reply -/

/-- Some elements, each once. -/
def elemsReply (es : List Bytes) : Bytes := Resp.arrayHdr es.length ++ es.flatMap Resp.bulk

section
variable {O : Outside} {w : World} {t cid : Nat} {key : Bytes} {vs : List Bytes}

theorem HasSlot.llen (h : HasSlot w t key (listSlot vs)) (hO : O.AllocOk) (hE : (O.env w.calls).Frozen t)
    (hc : cid < w.core.conns.length) (name : Bytes) :
    Replies O w cid (Dispatch.llen cid [name, key]) (intReply vs.length) := by
  refine Writes.after_op (.arListLlen key) (k := replyCount cid) hO hE h.wf rfl hc ?_
  rw [show (ArOp.run (O.env w.calls) w.core (.arListLlen key)).2 = _ from
    llen_of_view hE (hO w.calls) h.wf h.noop h.slot]
  unfold ofList
  by_cases hv : vs = []
  · rw [if_pos hv, hv]
    exact .append cid _
  · rw [if_neg hv]
    exact .append cid _

theorem HasSlot.lindex (h : HasSlot w t key (listSlot vs)) (hO : O.AllocOk) (hE : (O.env w.calls).Frozen t)
    (hc : cid < w.core.conns.length) (name : Bytes) {idx : Bytes} {index : Int} (hi : intArg idx = some index) :
    Replies O w cid (Dispatch.lindex cid [name, key, idx]) (valueReply (ArCore.listIndex vs index)) := by
  unfold Dispatch.lindex
  rw [if_neg (by simp), show arg [name, key, idx] 2 = idx from rfl, hi]
  refine Writes.after_op (.arListLindex key index) (k := replyValue cid) hO hE h.wf rfl hc ?_
  rw [show (ArOp.run (O.env w.calls) w.core (.arListLindex key index)).2 = _ from
    lindex_of_view hE (hO w.calls) h.wf h.noop h.slot index]
  exact .value _

/-- **`LRANGE`** shows the window, when its length fits an `int`. -/
theorem HasSlot.lrange (h : HasSlot w t key (listSlot vs)) (hO : O.AllocOk) (hE : (O.env w.calls).Frozen t)
    (hc : cid < w.core.conns.length) (name : Bytes) {a b : Bytes} {start stop : Int}
    (hargs : rangeArgs [name, key, a, b] = some (start, stop)) :
    let es := lrangeElems vs start stop
    Replies O w cid (Dispatch.lrange cid [name, key, a, b])
      (Resp.arrayHdr (int32 es.length) ++ (es.take (int32 es.length).toNat).flatMap Resp.bulk) := by
  intro es
  unfold Dispatch.lrange
  rw [if_neg (by simp), hargs]
  refine Writes.after_op (.arListGet key) hO hE h.wf rfl hc ?_
  rw [show (ArOp.run (O.env w.calls) w.core (.arListGet key)).2 = _ from
    lget_of_view hE (hO w.calls) h.wf h.noop h.slot]
  have hempty : es = [] → Writes cid (replyEmpty cid)
      (Resp.arrayHdr (int32 es.length) ++ (es.take (int32 es.length).toNat).flatMap Resp.bulk) := by
    intro he
    rw [he]
    exact .append cid _
  unfold ofList
  by_cases hv : vs = []
  · rw [if_pos hv]
    refine hempty ?_
    unfold es lrangeElems
    rw [hv]
    split
    · rfl
    · rw [List.drop_nil, List.take_nil]
  · rw [if_neg hv]
    dsimp only
    cases hw : rangeWindow vs.length start stop with
    | none =>
      refine hempty ?_
      unfold es lrangeElems
      rw [hw]
    | some x =>
      obtain ⟨from_, n⟩ := x
      have hes : es = (vs.drop from_).take n := by
        unfold es lrangeElems
        rw [hw]
      have hlen : es.length = n := by
        rw [hes]
        exact length_lrangeElems hw
      have hle : (int32 (n : Int)).toNat ≤ n := by
        unfold int32
        rw [Int.bmod_def]
        omega
      rw [hlen, hes, List.take_take, Nat.min_eq_left hle]
      exact (Writes.append cid _).bind (.each (fun v => .append cid _) _)

theorem showsRange_iff (es : List Bytes) :
    Resp.arrayHdr (int32 es.length) ++ (es.take (int32 es.length).toNat).flatMap Resp.bulk = elemsReply es ↔
      es.length < 2 ^ 31 := by
  constructor
  · intro h
    exact (int32_eq_iff _).1 (arrayHdr_append_inj h)
  · intro h
    rw [(int32_eq_iff _).2 h, Int.toNat_natCast, List.take_length]
    rfl

end

/-! ## What LREM is meant to do -/

/-- What a call is meant to make of the elements of a key. -/
def ArOp.meant (key : Bytes) (vs : List Bytes) : ArOp → List Bytes
  | arListLrem k count elem => if k = key then (lremSpec vs count elem).1 else vs
  | op => op.elems key vs

/-- The elements when every call does what it is meant to. -/
def meantAfter (key : Bytes) (vs : List Bytes) (calls : List Call) : List Bytes :=
  calls.foldl (fun vs x => x.op.meant key vs) vs

/-- No `LREM` of the run has the least count and two occurrences to remove. -/
def LremsExact (key : Bytes) (vs : List Bytes) (calls : List Call) : Prop :=
  ∀ pre x post, calls = pre ++ x :: post → ∀ count elem, x.op = .arListLrem key count elem →
    Fits64 count ∧ (count ≠ -2 ^ 63 ∨ (elemsAfter key vs pre).count elem ≤ 1)

theorem elems_eq_meant {key : Bytes} {vs : List Bytes} (op : ArOp)
    (h : ∀ count elem, op = .arListLrem key count elem → Fits64 count ∧ (count ≠ -2 ^ 63 ∨ vs.count elem ≤ 1)) :
    op.elems key vs = op.meant key vs := by
  cases op with
  | arListLrem k count elem =>
    simp only [ArOp.elems, ArOp.meant]
    by_cases hk : k = key
    · subst hk
      obtain ⟨hfits, hexact⟩ := h count elem rfl
      rw [if_pos rfl, if_pos rfl, lremList_of_exact vs hfits elem hexact]
    · rw [if_neg hk, if_neg hk]
  | _ => rfl

/-- **Where `LREM` is exact** the elements are those that are meant. -/
theorem elemsAfter_eq_meantAfter {key : Bytes} {vs : List Bytes} {calls : List Call} (h : LremsExact key vs calls) :
    elemsAfter key vs calls = meantAfter key vs calls := by
  induction calls generalizing vs with
  | nil => rfl
  | cons x calls ih =>
    have hx : x.op.elems key vs = x.op.meant key vs := elems_eq_meant x.op (h [] x calls rfl)
    have hrest : LremsExact key (x.op.elems key vs) calls := fun pre y post hp =>
      h (x :: pre) y post (congrArg (x :: ·) hp)
    refine (ih hrest).trans ?_
    rw [hx]
    rfl

/-! ## After a run -/

/-- Following `next` from the head and `prev` from the tail meets the same nodes, in reverse, as many as the list
counts, and their values are these. -/
structure NodesOf (m : ListMem) (vs : List Bytes) : Prop where
  gone : m.obj = none ↔ vs = []
  linked : ∀ l, m.obj = some l → ∃ as,
    Linked.Follows true m.heap l.head as ∧ Linked.Follows false m.heap l.tail as.reverse ∧
    as.length = l.len ∧ as.map (fun a => (m.heap.lookup a).map Node.val) = vs.map some

/-- The functions on the nodes answer by the elements. -/
structure NodesAnswer (calloc : Linked.Heap Bytes → Nat) (m : ListMem) (vs : List Bytes) : Prop where
  push : ∀ left vals, (m.arListPush calloc left vals).map Prod.snd = some (pushAnswer left vals vs)
  pop : ∀ left, (m.arListPop left).map Prod.snd = some (((atEnd left vs).map .found).getD .missing)
  lrem : ∀ count elem, (m.arListLrem count elem).map Prod.snd = some (ofList vs (ArCore.lremList vs count elem).2)
  ltrim : ∀ start stop, (m.arListLtrim start stop).map Prod.snd = some (ofList vs ())
  llen : m.arListLlen = ofList vs vs.length
  lindex : ∀ index, m.arListLindex index = some (((ArCore.listIndex vs index).map .found).getD .missing)
  range : ∀ start n, m.range start n = some ((vs.drop start).take n)

/-- A key of the core has these elements, is there when there are any, and the calls answer by them. -/
structure HoldsElems (c : ArCore) (t : Nat) (key : Bytes) (vs : List Bytes) : Prop where
  gone : c.peek t key = none ↔ vs = []
  obj : vs ≠ [] → ∃ i, c.peek t key = some i ∧ i.obj = .list vs ∧ i.expireAt = 0
  push : ∀ E : Env, E.Frozen t → E.AllocOk → ∀ left vals,
    (c.arListPush E key left vals).2 = pushAnswer left vals vs
  pop : ∀ E : Env, E.Frozen t → E.AllocOk → ∀ left,
    (c.arListPop E key left).2 = ((atEnd left vs).map .found).getD .missing
  lrem : ∀ E : Env, E.Frozen t → E.AllocOk → ∀ count elem,
    (c.arListLrem E key count elem).2 = ofList vs (ArCore.lremList vs count elem).2
  ltrim : ∀ E : Env, E.Frozen t → E.AllocOk → ∀ start stop, (c.arListLtrim E key start stop).2 = ofList vs ()

/-- The reads of a list reply by its elements. -/
structure ShowsElems (O : Outside) (w : World) (cid : Nat) (key : Bytes) (vs : List Bytes) : Prop where
  llen : ∀ name, Replies O w cid (Dispatch.llen cid [name, key]) (intReply vs.length)
  lindex : ∀ name idx index, intArg idx = some index →
    Replies O w cid (Dispatch.lindex cid [name, key, idx]) (valueReply (ArCore.listIndex vs index))
  /-- A window of up to `2 ^ 31 - 1` elements, and no longer one. -/
  lrange : ∀ name a b start stop, rangeArgs [name, key, a, b] = some (start, stop) →
    ∃ reply, Replies O w cid (Dispatch.lrange cid [name, key, a, b]) reply ∧
      (reply = elemsReply (lrangeElems vs start stop) ↔ (lrangeElems vs start stop).length < 2 ^ 31)

section
variable {calloc : Linked.Heap Bytes → Nat} {m : ListMem} {c : ArCore} {key : Bytes} {vs : List Bytes} {t : Nat}
  {calls : List Call}

theorem nodesOf_of_holds (H : m.Holds vs) : NodesOf m vs := by
  by_cases hv : vs = []
  · subst hv
    have ho := ListMem.obj_of_nil H
    refine ⟨iff_of_true ho rfl, fun l hl => ?_⟩
    cases ho.symm.trans hl
  · obtain ⟨l, ns, ho, -, Hns, rfl⟩ := ListMem.obj_of_ne H hv
    refine ⟨iff_of_false (by rw [ho]; exact Option.some_ne_none l) hv, fun l' hl => ?_⟩
    obtain rfl : l = l' := Option.some.inj (ho.symm.trans hl)
    refine ⟨ns.map Prod.fst, Hns.follows.1, Hns.follows.2, by rw [List.length_map, Hns.len], ?_⟩
    rw [List.map_map, List.map_map]
    refine List.map_congr_left fun a ha => ?_
    obtain ⟨xs, ys, rfl⟩ := List.append_of_mem ha
    obtain ⟨p, hp⟩ := Hns.lookup
    exact (congrArg (Option.map Node.val) hp).trans (by rw [Option.map_some, Node.val_sided]; rfl)

theorem nodesAnswer_of_holds (hfresh : ∀ h, calloc h ∉ h) (H : m.Holds vs) : NodesAnswer calloc m vs where
  push left vals := by
    obtain ⟨m', hrun, -⟩ := push_nodes hfresh left vals H
    rw [hrun]
    rfl
  pop left := by
    obtain ⟨m', hrun, -⟩ := pop_nodes left H
    rw [hrun]
    rfl
  lrem count elem := by
    obtain ⟨m', hrun, -⟩ := lrem_nodes count elem H
    rw [hrun]
    rfl
  ltrim start stop := by
    obtain ⟨m', hrun, -⟩ := ltrim_nodes start stop H
    rw [hrun]
    rfl
  llen := ListMem.arListLlen_spec H
  lindex index := ListMem.arListLindex_spec index H
  range start n := ListMem.range_spec start n H

theorem holdsElems_of_view (hwf : c.WF) (hn : c.cfg.evict = .noop) (hv : c.view t key = listSlot vs) :
    HoldsElems c t key vs where
  gone := by
    unfold ArCore.view at hv
    by_cases h : vs = []
    · rw [h, listSlot_nil] at hv
      exact iff_of_true (Option.map_eq_none_iff.1 hv) h
    · rw [listSlot_of_ne h] at hv
      refine iff_of_false (fun hp => ?_) h
      rw [hp] at hv
      cases hv
  obj h := by
    unfold ArCore.view at hv
    rw [listSlot_of_ne h, Option.map_eq_some_iff] at hv
    obtain ⟨i, hp, hi⟩ := hv
    have habs : i.obj.abs = .list vs := congrArg Prod.fst hi
    refine ⟨i, hp, ?_, congrArg Prod.snd hi⟩
    cases ho : i.obj with
    | list l =>
      rw [ho] at habs
      rw [AVal.list.inj habs]
    | string _ | hash _ | zset _ =>
      rw [ho] at habs
      cases habs
  push E hE ha := push_of_view hE ha hwf hn hv
  pop E hE ha := pop_of_view hE ha hwf hn hv
  lrem E hE ha := lrem_of_view hE ha hwf hn hv
  ltrim E hE ha := ltrim_of_view hE ha hwf hn hv

/-- **A list is a sequence**: after any run of pushes, pops, `LREM` and `LTRIM` its nodes hold, both ways, the
sequence that these make, and the commands answer and reply by it; the sequence is the one that is meant unless an
`LREM` has the least count. -/
theorem list_refines (hfresh : ∀ h, calloc h ∉ h) (hc : ArCore.Reachable c) (hn : c.cfg.evict = .noop)
    (hk : c.view t key = listSlot vs) (hm : m.Holds vs) (ha : ∀ x ∈ calls, x.E.AllocOk ∧ x.op.OnList key)
    (ht : (t :: calls.map Call.t).Pairwise (· ≤ ·)) :
    (∃ m', m.run calloc key calls = some m' ∧ NodesOf m' (elemsAfter key vs calls) ∧
      NodesAnswer calloc m' (elemsAfter key vs calls)) ∧
    (∀ t', lastTime t calls ≤ t' → HoldsElems (c.runCalls calls) t' key (elemsAfter key vs calls) ∧
      ∀ (O : Outside) (w : World) (cid : Nat), w.core.dict = (c.runCalls calls).dict →
        w.core.cfg = (c.runCalls calls).cfg → O.AllocOk → (∀ n, (O.env n).Frozen t') → cid < w.core.conns.length →
        ShowsElems O w cid key (elemsAfter key vs calls)) ∧
    (LremsExact key vs calls → elemsAfter key vs calls = meantAfter key vs calls) := by
  obtain ⟨hv, hwf, hn'⟩ := list_run hc.wf hn ha ht hk
  refine ⟨?_, fun t' hle => ⟨?_, ?_⟩, elemsAfter_eq_meantAfter⟩
  · obtain ⟨m', hrun, H'⟩ : ∃ m', m.run calloc key calls = some m' ∧ _ := nodes_run hfresh calls hm
    exact ⟨m', hrun, nodesOf_of_holds H', nodesAnswer_of_holds hfresh H'⟩
  · refine holdsElems_of_view hwf hn' ?_
    rw [← view_at hwf hle, Store.at_, hv, alive_listSlot]
  · intro O w cid hd hg hO hE hcid
    have h : HasSlot w t' key (listSlot (elemsAfter key vs calls)) :=
      .of_run hv (alive_listSlot _ _) hwf hn' hle hd hg
    refine ⟨h.llen hO (hE _) hcid, fun name idx index hi => h.lindex hO (hE _) hcid name hi,
      fun name a b start stop hargs => ?_⟩
    exact ⟨_, h.lrange hO (hE _) hcid name hargs, showsRange_iff _⟩

/-- An address above all those in use. -/
def nextFree (h : Linked.Heap Bytes) : Nat := h.keys.sup id + 1

theorem nextFree_fresh (h : Linked.Heap Bytes) : nextFree h ∉ h := by
  intro hm
  have hle : nextFree h ≤ h.keys.sup id := Finset.le_sup (f := id) (Finmap.mem_keys.2 hm)
  unfold nextFree at hle
  omega

/-- Both ends and the middle of a list. -/
def elemCalls : List Call :=
  [.steady 1 (.arListPush (lit "k") false [lit "a", lit "b", lit "a", lit "c"]),
    .steady 2 (.arListPush (lit "k") true [lit "x", lit "y"]), .steady 3 (.arListLrem (lit "k") (-1) (lit "a")),
    .steady 4 (.arListPop (lit "k") false), .steady 5 (.arListLtrim (lit "k") 1 (-1))]

theorem list_refines_sample :
    ∃ m, ListMem.run nextFree (lit "k") ⟨∅, none⟩ elemCalls = some m ∧
      NodesOf m [lit "x", lit "a", lit "b"] := by
  have hk : ArCore.arCoreCreate.view 0 (lit "k") = listSlot [] := by decide +kernel
  have ha : ∀ x ∈ elemCalls, x.E.AllocOk ∧ x.op.OnList (lit "k") := by
    intro x hx
    simp only [elemCalls, List.mem_cons, List.not_mem_nil, or_false] at hx
    obtain rfl | rfl | rfl | rfl | rfl := hx <;> exact ⟨fun _ => rfl, trivial⟩
  have hempty : (⟨∅, none⟩ : ListMem).Holds [] := rfl
  obtain ⟨⟨m, hrun, hnodes, -⟩, -⟩ :=
    list_refines nextFree_fresh .create rfl hk hempty ha (by decide)
  have helems : elemsAfter (lit "k") [] elemCalls = [lit "x", lit "a", lit "b"] := by decide
  rw [helems] at hnodes
  exact ⟨m, hrun, hnodes⟩

/-! ## The counts that do not fit -/

/-- `RPUSH` of one element after the other. -/
def pushCalls (n : Nat) : List Call := List.replicate n (.steady 0 (.arListPush (lit "k") false [lit "v"]))

theorem elemsAfter_pushCalls (n : Nat) (vs : List Bytes) :
    elemsAfter (lit "k") vs (pushCalls n) = vs ++ List.replicate n (lit "v") := by
  induction n generalizing vs with
  | zero => exact (List.append_nil vs).symm
  | succ n ih =>
    have hstep : elemsAfter (lit "k") vs (pushCalls (n + 1)) = elemsAfter (lit "k") (vs ++ [lit "v"]) (pushCalls n) := by
      unfold elemsAfter pushCalls
      rw [List.replicate_succ, List.foldl_cons]
      rfl
    rw [hstep, ih, List.append_assoc]
    rfl

theorem run_pushCalls (n : Nat) :
    HasSlot { core := ArCore.arCoreCreate.runCalls (pushCalls n) } 0 (lit "k") (listSlot (List.replicate n (lit "v"))) := by
  have hk : ArCore.arCoreCreate.view 0 (lit "k") = listSlot [] := by decide +kernel
  have hx : ∀ x ∈ pushCalls n, x = .steady 0 (.arListPush (lit "k") false [lit "v"]) := fun x hx =>
    List.eq_of_mem_replicate hx
  have ha : ∀ x ∈ pushCalls n, x.E.AllocOk ∧ x.op.OnList (lit "k") := by
    intro x hm
    rw [hx x hm]
    exact ⟨fun _ => rfl, trivial⟩
  have htime : ∀ x ∈ pushCalls n, x.t = 0 := by
    intro x hm
    rw [hx x hm]
    rfl
  obtain ⟨hlast, hle⟩ := sameTime htime
  obtain ⟨hv, hwf, hn⟩ := list_run wf_arCoreCreate rfl ha hle hk
  rw [hlast, elemsAfter_pushCalls] at hv
  exact ⟨hwf, hn, hv⟩

theorem conns_pushCalls (n : Nat) : 0 < (ArCore.arCoreCreate.runCalls (pushCalls n)).conns.length := by
  rw [← (touched_runCalls wf_arCoreCreate _).length_eq]
  exact Nat.lt_of_lt_of_eq (by decide) List.length_replicate.symm

theorem lrangeElems_all (n : Nat) (v : Bytes) : lrangeElems (List.replicate (n + 1) v) 0 (-1) = List.replicate (n + 1) v := by
  have hlen : (List.replicate (n + 1) v).length = n + 1 := List.length_replicate
  have hw : rangeWindow ((n + 1 : Nat) : Int) 0 (-1) = some (0, n + 1) := by
    unfold rangeWindow
    simp only [Int.lt_irrefl, if_false, show (-1 : Int) < 0 by decide, if_true]
    rw [if_neg (by omega), if_neg (by omega)]
    congr 2
    omega
  unfold lrangeElems
  rw [hlen, hw]
  exact List.take_of_length_le hlen.le

/-- After `RPUSH` of `2 ^ 31` elements `LRANGE k 0 -1` counts them as `-2147483648` and shows none; and
`LREM k -9223372036854775808 a` leaves one `a` of two. -/
theorem list_counts :
    (Replies (.steady 0) { core := ArCore.arCoreCreate.runCalls (pushCalls (2 ^ 31)) } 0
        (Dispatch.lrange 0 [lit "LRANGE", lit "k", lit "0", lit "-1"]) (Resp.arrayHdr (-2147483648)) ∧
      Resp.arrayHdr (-2147483648) ≠
        elemsReply (lrangeElems (elemsAfter (lit "k") [] (pushCalls (2 ^ 31))) 0 (-1))) ∧
    (ArCore.arCoreCreate.runCalls (listCalls ++ [.steady 1000 (.arListLrem (lit "k") (-2 ^ 63) (lit "a"))])).view 1000
        (lit "k") = listSlot [lit "a", lit "b"] ∧
    (lremSpec [lit "a", lit "b", lit "a"] (-2 ^ 63) (lit "a")).2 = 2 := by
  refine ⟨⟨?_, ?_⟩, by decide +kernel, ?_⟩
  · have hargs : rangeArgs [lit "LRANGE", lit "k", lit "0", lit "-1"] = some (0, -1) := by decide
    have h := (run_pushCalls (2 ^ 31)).lrange (O := .steady 0) (fun _ _ => rfl) (fun _ => rfl) (conns_pushCalls _)
      (lit "LRANGE") hargs
    have hcount : int32 ((2 ^ 31 - 1 + 1 : Nat) : Int) = -2147483648 := by decide
    rw [show 2 ^ 31 = 2 ^ 31 - 1 + 1 by decide, lrangeElems_all] at h
    simp only [List.length_replicate, hcount] at h
    exact h
  · rw [elemsAfter_pushCalls, List.nil_append, show 2 ^ 31 = 2 ^ 31 - 1 + 1 by decide, lrangeElems_all]
    intro h
    have hhdr : Resp.arrayHdr (-2147483648) ++ [] = elemsReply (List.replicate (2 ^ 31 - 1 + 1) (lit "v")) :=
      (List.append_nil _).trans h
    have := arrayHdr_append_inj hhdr
    omega
  · show min (2 ^ 63) _ = 2
    decide

end

end AuraRedis
