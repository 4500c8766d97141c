import AuraRedis.Core.Proof.ListNodes
import AuraRedis.Core.Proof.OneKey

/-!
# Lists through a run

The sequence that `LPUSH`, `RPUSH`, `LPOP`, `RPOP`, `LREM` and `LTRIM` make of the elements of a key, one after the
other (`elemsAfter`): the slot of the key holds it (`list_run`), and so do the nodes (`nodes_run`).
-/

set_option autoImplicit false

namespace AuraRedis

open ArCore (Typed)

/-! ## What the slot becomes -/

/-- The slot of a list without a deadline: an empty one is no key. -/
def listSlot (vs : List Bytes) : Option Slot := Spec.orNone vs 0

section
variable {vs : List Bytes}

theorem listSlot_nil : listSlot [] = none := rfl

theorem listSlot_of_ne (h : vs ≠ []) : listSlot vs = some (.list vs, 0) := if_neg (by simpa using h)

theorem alive_listSlot (t : Nat) (vs : List Bytes) : Store.alive t (listSlot vs) = listSlot vs := by
  by_cases h : vs = []
  · rw [h, listSlot_nil]
    rfl
  · rw [listSlot_of_ne h]
    simp [Store.alive, Due]

/-- The element at an end. -/
def atEnd (left : Bool) (vs : List Bytes) : Option Bytes := if left then vs.head? else vs.getLast?

/-- The sequence without it. -/
def withoutEnd (left : Bool) (vs : List Bytes) : List Bytes := if left then vs.tail else vs.dropLast

/-- The window that `LTRIM` keeps. -/
def trimmed (start stop : Int) (vs : List Bytes) : List Bytes :=
  match ArCore.trimWindow vs.length start stop with
  | none => []
  | some (start, keep) => (vs.drop start).take keep

/-- An answer of a list, which is `missing` when there is none. -/
def ofList {α : Type} (vs : List Bytes) (a : α) : Typed α := if vs = [] then .missing else .found a

/-- What `ar_list_push` answers. -/
def pushAnswer (left : Bool) (vals vs : List Bytes) : Typed Nat :=
  if vals = [] then .found 0 else .found (Spec.pushVals left vals vs).length

theorem pushVals_ne {left : Bool} {vals : List Bytes} (h : vals ≠ []) : Spec.pushVals left vals vs ≠ [] := by
  unfold Spec.pushVals
  cases left <;> simp [h]

theorem push_listSlot (left : Bool) (vals : List Bytes) :
    Spec.push left vals (listSlot vs) =
      (listSlot (Spec.pushVals left vals vs), pushAnswer left vals vs) := by
  unfold Spec.push pushAnswer
  by_cases hv : vals = []
  · subst hv
    unfold Spec.pushVals
    cases left <;> simp
  · rw [if_neg (by simpa using hv), if_neg hv, listSlot_of_ne (pushVals_ne hv)]
    by_cases h : vs = []
    · subst h
      rfl
    · rw [listSlot_of_ne h]
      rfl

theorem atEnd_isSome (left : Bool) (h : vs ≠ []) : ∃ out, atEnd left vs = some out := by
  unfold atEnd
  cases left with
  | true => exact Option.isSome_iff_exists.1 (List.isSome_head?.2 h)
  | false => exact ⟨vs.getLast h, List.getLast?_eq_some_getLast h⟩

theorem pop_listSlot (left : Bool) :
    Spec.pop left (listSlot vs) = (listSlot (withoutEnd left vs), ((atEnd left vs).map .found).getD .missing) := by
  by_cases h : vs = []
  · subst h
    cases left <;> rfl
  · obtain ⟨out, hout⟩ := atEnd_isSome left h
    have hout' : (if left then vs.head? else vs.getLast?) = some out := hout
    rw [listSlot_of_ne h, hout]
    simp only [Spec.pop, hout']
    rfl

theorem lremList_nil (count : Int) (elem : Bytes) : (ArCore.lremList [] count elem).1 = [] := by
  unfold ArCore.lremList
  split <;> rfl

theorem lrem_listSlot (count : Int) (elem : Bytes) :
    Spec.lrem count elem (listSlot vs) =
      (listSlot (ArCore.lremList vs count elem).1, ofList vs (ArCore.lremList vs count elem).2) := by
  unfold ofList
  by_cases h : vs = []
  · subst h
    rw [lremList_nil]
    rfl
  · rw [listSlot_of_ne h, if_neg h]
    rfl

theorem trimmed_nil (start stop : Int) : trimmed start stop [] = [] := by
  unfold trimmed
  split
  · rfl
  · rw [List.drop_nil, List.take_nil]

theorem ltrim_listSlot (start stop : Int) :
    Spec.ltrim start stop (listSlot vs) = (listSlot (trimmed start stop vs), ofList vs ()) := by
  unfold ofList
  by_cases h : vs = []
  · subst h
    rw [trimmed_nil]
    rfl
  · rw [listSlot_of_ne h, if_neg h]
    simp only [Spec.ltrim, trimmed]
    cases ArCore.trimWindow vs.length start stop <;> rfl

theorem readList_listSlot {α : Type} (f : List Bytes → Typed α) :
    Spec.readList f (listSlot vs) = (listSlot vs, if vs = [] then .missing else f vs) := by
  by_cases h : vs = []
  · subst h
    rfl
  · rw [listSlot_of_ne h, if_neg h]
    rfl

end

/-! ## Runs -/

/-- A call of a run on a list: it pushes, pops, removes or trims, reads the list, or is about other keys; it chooses
no kernel. -/
def ArOp.OnList (key : Bytes) : ArOp → Prop
  | arListPush _ _ _ | arListPop _ _ | arListLrem _ _ _ | arListLtrim _ _ _ => True
  | arListLlen _ | arListGet _ | arListLindex _ _ => True
  | op => key ∉ op.keys ∧ op.setsKernel = false

/-- What a call makes of the elements of a key. -/
def ArOp.elems (key : Bytes) (vs : List Bytes) : ArOp → List Bytes
  | arListPush k left vals => if k = key then Spec.pushVals left vals vs else vs
  | arListPop k left => if k = key then withoutEnd left vs else vs
  | arListLrem k count elem => if k = key then (ArCore.lremList vs count elem).1 else vs
  | arListLtrim k start stop => if k = key then trimmed start stop vs else vs
  | _ => vs

/-- **The elements after some calls.** -/
def elemsAfter (key : Bytes) (vs : List Bytes) (calls : List Call) : List Bytes :=
  calls.foldl (fun vs x => x.op.elems key vs) vs

section
variable {c : ArCore} {key : Bytes} {vs : List Bytes} {x : Call}

theorem ArOp.OnList.setsKernel {op : ArOp} (h : op.OnList key) : op.setsKernel = false := by
  cases op <;> first | rfl | exact h.2

/-- What is asked of another key. -/
theorem ArOp.elems_of_notMem {op : ArOp} (h : key ∉ op.keys) : op.elems key vs = vs := by
  cases op with
  | arListPush k _ _ | arListPop k _ | arListLrem k _ _ | arListLtrim k _ _ =>
    simp only [ArOp.elems]
    rw [if_neg fun he => h (Set.mem_singleton_iff.2 he.symm)]
  | _ => rfl

/-- A step of the slot, on a sequence. -/
theorem listSlot_of_step {β : Type} {t : Nat} {st : Store} {g : Option Slot → Option Slot × β} {y : Store × β}
    {vs' : List Bytes} {a : β} (hy : y = st.step t key g) (hst : st key = listSlot vs)
    (hg : g (listSlot vs) = (listSlot vs', a)) : y.1 key = listSlot vs' ∧ y.2 = a := by
  have hslot := slot_of_step hy
  rw [hst, hg] at hslot
  refine ⟨hslot.trans (alive_listSlot t vs'), ?_⟩
  rw [hy]
  show (g (st key)).2 = a
  rw [hst, hg]

/-- **One call.** -/
theorem list_call (hwf : c.WF) (hn : c.cfg.evict = .noop) (ha : x.E.AllocOk) (hop : x.op.OnList key)
    (h : c.view x.t key = listSlot vs) : (x.op.run x.E c).1.view x.t key = listSlot (x.op.elems key vs) := by
  by_cases hk : key ∈ x.op.keys
  · obtain ⟨hm, -⟩ := means_run hwf hn ha hop.setsKernel
    obtain ⟨E, t, op, hE⟩ := x
    cases op with
    | arListPush k left vals =>
      obtain rfl : key = k := hk
      simp only [ArOp.elems, if_true]
      exact (listSlot_of_step hm h (push_listSlot left vals)).1
    | arListPop k left =>
      obtain rfl : key = k := hk
      simp only [ArOp.elems, if_true]
      exact (listSlot_of_step hm h (pop_listSlot left)).1
    | arListLrem k count elem =>
      obtain rfl : key = k := hk
      simp only [ArOp.elems, if_true]
      exact (listSlot_of_step hm h (lrem_listSlot count elem)).1
    | arListLtrim k start stop =>
      obtain rfl : key = k := hk
      simp only [ArOp.elems, if_true]
      exact (listSlot_of_step hm h (ltrim_listSlot start stop)).1
    | arListLlen k | arListGet k | arListLindex k index =>
      obtain rfl : key = k := hk
      exact (listSlot_of_step hm h (readList_listSlot _)).1
    | _ => exact absurd hk hop.1
  · rw [ArOp.elems_of_notMem hk, view_of_notMem hwf hn hop.setsKernel hk]
    exact h

/-- **The calls one after the other.** -/
theorem list_run {t : Nat} {calls : List Call} (hwf : c.WF) (hn : c.cfg.evict = .noop)
    (ha : ∀ x ∈ calls, x.E.AllocOk ∧ x.op.OnList key) (ht : (t :: calls.map Call.t).Pairwise (· ≤ ·))
    (h : c.view t key = listSlot vs) :
    (c.runCalls calls).view (lastTime t calls) key = listSlot (elemsAfter key vs calls) ∧
      (c.runCalls calls).WF ∧ (c.runCalls calls).cfg.evict = .noop := by
  refine holds_run (fun vs s => s = listSlot vs) (fun vs op => op.elems key vs) (fun _ _ x => x.op.OnList key)
    (fun vs s h t => h ▸ alive_listSlot t vs) (fun vs c x hwf hn hax hop hv => ?_) hwf hn (fun x hx => (ha x hx).1)
    (fun pre x post hp => ?_) ht h
  · exact ⟨hop.setsKernel, list_call hwf hn hax hop hv⟩
  · refine (ha x ?_).2
    rw [hp]
    exact List.mem_append_right pre (.head post)

/-! ## The nodes -/

variable {calloc : Linked.Heap Bytes → Nat} {m : ListMem}

theorem push_nodes (hfresh : ∀ h, calloc h ∉ h) (left : Bool) (vals : List Bytes) (H : m.Holds vs) :
    ∃ m', m.arListPush calloc left vals = some (m', pushAnswer left vals vs) ∧
      m'.Holds (Spec.pushVals left vals vs) := by
  unfold pushAnswer
  by_cases hv : vals = []
  · subst hv
    refine ⟨m, rfl, ?_⟩
    unfold Spec.pushVals
    cases left <;> simpa using H
  · rw [if_neg hv]
    exact ListMem.arListPush_spec hfresh left hv H

theorem pop_nodes (left : Bool) (H : m.Holds vs) :
    ∃ m', m.arListPop left = some (m', ((atEnd left vs).map .found).getD .missing) ∧ m'.Holds (withoutEnd left vs) := by
  by_cases hv : vs = []
  · subst hv
    unfold ListMem.arListPop
    rw [ListMem.obj_of_nil H]
    cases left <;> exact ⟨m, rfl, H⟩
  · obtain ⟨out, hout⟩ := atEnd_isSome left hv
    rw [hout]
    exact ListMem.arListPop_spec left H hout

theorem lrem_nodes (count : Int) (elem : Bytes) (H : m.Holds vs) :
    ∃ m', m.arListLrem count elem = some (m', ofList vs (ArCore.lremList vs count elem).2) ∧
      m'.Holds (ArCore.lremList vs count elem).1 := by
  unfold ofList
  by_cases hv : vs = []
  · subst hv
    refine ⟨m, ?_, by rwa [lremList_nil]⟩
    unfold ListMem.arListLrem
    rw [ListMem.obj_of_nil H]
    rfl
  · rw [if_neg hv]
    exact ListMem.arListLrem_spec count elem H hv

theorem ltrim_nodes (start stop : Int) (H : m.Holds vs) :
    ∃ m', m.arListLtrim start stop = some (m', ofList vs ()) ∧ m'.Holds (trimmed start stop vs) := by
  unfold ofList
  by_cases hv : vs = []
  · subst hv
    refine ⟨m, ?_, by rwa [trimmed_nil]⟩
    unfold ListMem.arListLtrim
    rw [ListMem.obj_of_nil H]
    rfl
  · rw [if_neg hv]
    exact ListMem.arListLtrim_spec start stop H hv

/-- **One call, on the nodes.** -/
theorem nodes_step (hfresh : ∀ h, calloc h ∉ h) (op : ArOp) (H : m.Holds vs) :
    ∃ m', m.step calloc key op = some m' ∧ m'.Holds (op.elems key vs) := by
  cases op with
  | arListPush k left vals =>
    simp only [ListMem.step, ArOp.elems]
    by_cases hk : k = key
    · obtain ⟨m', hrun, H'⟩ := push_nodes hfresh left vals H
      rw [if_pos hk, if_pos hk, hrun]
      exact ⟨m', rfl, H'⟩
    · rw [if_neg hk, if_neg hk]
      exact ⟨m, rfl, H⟩
  | arListPop k left =>
    simp only [ListMem.step, ArOp.elems]
    by_cases hk : k = key
    · obtain ⟨m', hrun, H'⟩ := pop_nodes left H
      rw [if_pos hk, if_pos hk, hrun]
      exact ⟨m', rfl, H'⟩
    · rw [if_neg hk, if_neg hk]
      exact ⟨m, rfl, H⟩
  | arListLrem k count elem =>
    simp only [ListMem.step, ArOp.elems]
    by_cases hk : k = key
    · obtain ⟨m', hrun, H'⟩ := lrem_nodes count elem H
      rw [if_pos hk, if_pos hk, hrun]
      exact ⟨m', rfl, H'⟩
    · rw [if_neg hk, if_neg hk]
      exact ⟨m, rfl, H⟩
  | arListLtrim k start stop =>
    simp only [ListMem.step, ArOp.elems]
    by_cases hk : k = key
    · obtain ⟨m', hrun, H'⟩ := ltrim_nodes start stop H
      rw [if_pos hk, if_pos hk, hrun]
      exact ⟨m', rfl, H'⟩
    · rw [if_neg hk, if_neg hk]
      exact ⟨m, rfl, H⟩
  | _ => exact ⟨m, rfl, H⟩

/-- **The calls one after the other, on the nodes.** -/
theorem nodes_run (hfresh : ∀ h, calloc h ∉ h) (calls : List Call) (H : m.Holds vs) :
    ∃ m', m.run calloc key calls = some m' ∧ m'.Holds (elemsAfter key vs calls) := by
  induction calls generalizing m vs with
  | nil => exact ⟨m, rfl, H⟩
  | cons x calls ih =>
    obtain ⟨m₁, hstep, H₁⟩ : ∃ m₁, m.step calloc key x.op = some m₁ ∧ _ := nodes_step hfresh x.op H
    obtain ⟨m₂, hrest, H₂⟩ := ih H₁
    refine ⟨m₂, ?_, H₂⟩
    unfold ListMem.run
    rw [hstep]
    exact hrest

end

end AuraRedis
