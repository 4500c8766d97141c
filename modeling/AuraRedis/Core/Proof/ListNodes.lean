import AuraRedis.Core.ListNodes

/-!
# The linked list is the list

`ListMem.Holds m vs` says that the nodes of `m` follow one another both ways and have the values `vs`. Each function
on the nodes then does what `AuraRedis.Core.Typed` says of the values, and follows no pointer to memory that is gone.
-/

set_option autoImplicit false

namespace Linked.HoldsFrom

variable {α : Type} {left : Bool} {h : Heap α} {l : Ends} {xs ys ns : List (Nat × α)} {a : Nat × α}

/-- A node anywhere goes, seen from either side. -/
theorem unlink_from (H : HoldsFrom left h l (xs ++ a :: ys)) :
    ∃ h' l', Linked.unlink a.1 h l = some (h', l') ∧ HoldsFrom left h' l' (xs ++ ys) := by
  cases left with
  | true => exact H.unlink
  | false =>
    have hflip := H.flip
    rw [List.reverse_append, List.reverse_cons, List.append_assoc, List.singleton_append] at hflip
    obtain ⟨h', l', hrun, H'⟩ := hflip.unlink
    refine ⟨h', l', hrun, ?_⟩
    have hback := H'.flip
    rw [← List.reverse_append, List.reverse_reverse] at hback
    exact hback

/-- A node of the row, and where its pointer ahead leads. -/
theorem lookup (H : HoldsFrom left h l (xs ++ a :: ys)) :
    ∃ p, h.lookup a.1 = some (.sided left a.2 p (first ys none)) := ⟨_, (seg_append.1 H.seg).2.1⟩

end Linked.HoldsFrom

namespace AuraRedis

open ArCore (Typed lremWalk)
open Linked (Heap Ends HoldsFrom first)

/-- The nodes of a list and their values. -/
def ListMem.Holds (m : ListMem) (vs : List Bytes) : Prop :=
  match m.obj with
  | none => vs = []
  | some l => vs ≠ [] ∧ ∃ ns, HoldsFrom true m.heap l ns ∧ ns.map Prod.snd = vs

namespace ListMem

variable {h : Heap Bytes} {l : Ends} {ns done todo : List (Nat × Bytes)} {m : ListMem} {vs : List Bytes}

theorem holds_kept (H : HoldsFrom true h l ns) : (kept h l).Holds (ns.map Prod.snd) := by
  unfold kept Holds
  by_cases h0 : l.len = 0
  · rw [if_pos h0]
    have hns : ns = [] := List.length_eq_zero_iff.1 (H.len.symm.trans h0)
    rw [hns]
    rfl
  · rw [if_neg h0]
    refine ⟨fun hnil => h0 ?_, ns, H, rfl⟩
    rw [H.len, List.map_eq_nil_iff.1 hnil]
    rfl

/-! ## Push and pop -/

section
variable {calloc : Heap Bytes → Nat}

/-- The values that are pushed on the left come out in reverse. -/
theorem pushNodes_left (hfresh : ∀ h, calloc h ∉ h) (vals : List Bytes) (H : HoldsFrom true h l ns) :
    ∃ h' l' ns', pushNodes calloc true vals h l = some (h', l') ∧ HoldsFrom true h' l' ns' ∧
      ns'.map Prod.snd = vals.reverse ++ ns.map Prod.snd := by
  induction vals generalizing h l ns with
  | nil => exact ⟨h, l, ns, rfl, H, rfl⟩
  | cons v vals ih =>
    obtain ⟨h₁, l₁, hpush, H₁⟩ := H.push (hfresh h) v
    obtain ⟨h₂, l₂, ns₂, hrest, H₂, hvals⟩ := ih H₁
    refine ⟨h₂, l₂, ns₂, ?_, H₂, ?_⟩
    · unfold pushNodes
      rw [hpush]
      exact hrest
    · rw [hvals, List.map_cons, List.reverse_cons, List.append_assoc]
      rfl

theorem pushNodes_right (hfresh : ∀ h, calloc h ∉ h) (vals : List Bytes) (H : HoldsFrom true h l ns) :
    ∃ h' l' ns', pushNodes calloc false vals h l = some (h', l') ∧ HoldsFrom true h' l' ns' ∧
      ns'.map Prod.snd = ns.map Prod.snd ++ vals := by
  induction vals generalizing h l ns with
  | nil => exact ⟨h, l, ns, rfl, H, (List.append_nil _).symm⟩
  | cons v vals ih =>
    obtain ⟨h₁, l₁, hpush, H₁⟩ := H.flip.push (hfresh h) v
    obtain ⟨h₂, l₂, ns₂, hrest, H₂, hvals⟩ := ih H₁.flip
    refine ⟨h₂, l₂, ns₂, ?_, H₂, ?_⟩
    · unfold pushNodes
      rw [show Linked.push false (calloc h) v h l = some (h₁, l₁) from hpush]
      exact hrest
    · rw [hvals, List.reverse_cons, List.reverse_reverse, List.map_append, List.append_assoc]
      rfl

theorem obj_getD (H : m.Holds vs) :
    ∃ ns, HoldsFrom true m.heap (m.obj.getD ⟨none, none, 0⟩) ns ∧ ns.map Prod.snd = vs := by
  unfold Holds at H
  cases ho : m.obj with
  | none =>
    rw [ho] at H
    exact ⟨[], .nil true m.heap, H.symm⟩
  | some l =>
    rw [ho] at H
    exact H.2

/-- **`ar_list_push`.** -/
theorem arListPush_spec (hfresh : ∀ h, calloc h ∉ h) (left : Bool) {vals : List Bytes} (hv : vals ≠ [])
    (H : m.Holds vs) :
    ∃ m', m.arListPush calloc left vals = some (m', .found (Spec.pushVals left vals vs).length) ∧
      m'.Holds (Spec.pushVals left vals vs) := by
  obtain ⟨ns, Hns, rfl⟩ := obj_getD H
  have hpushed : ∃ h' l' ns', pushNodes calloc left vals m.heap (m.obj.getD ⟨none, none, 0⟩) = some (h', l') ∧
      HoldsFrom true h' l' ns' ∧ ns'.map Prod.snd = Spec.pushVals left vals (ns.map Prod.snd) := by
    cases left with
    | true => exact pushNodes_left hfresh vals Hns
    | false => exact pushNodes_right hfresh vals Hns
  obtain ⟨h', l', ns', hrun, H', hvals⟩ := hpushed
  refine ⟨⟨h', some l'⟩, ?_, ?_, ns', H', hvals⟩
  · unfold arListPush
    rw [if_neg (by simpa using hv), hrun, ← hvals, List.length_map, ← H'.len]
    rfl
  · unfold Spec.pushVals
    cases left <;> simp [hv]

end

/-- A key that has a list. -/
theorem obj_of_ne (H : m.Holds vs) (hv : vs ≠ []) :
    ∃ l ns, m.obj = some l ∧ l.len ≠ 0 ∧ HoldsFrom true m.heap l ns ∧ ns.map Prod.snd = vs := by
  unfold Holds at H
  cases ho : m.obj with
  | none =>
    rw [ho] at H
    exact absurd H hv
  | some l =>
    rw [ho] at H
    obtain ⟨-, ns, Hns, rfl⟩ := H
    refine ⟨l, ns, rfl, fun h0 => hv ?_, Hns, rfl⟩
    rw [List.length_eq_zero_iff.1 (Hns.len.symm.trans h0)]
    rfl

theorem obj_of_nil (H : m.Holds []) : m.obj = none := by
  unfold Holds at H
  cases ho : m.obj with
  | none => rfl
  | some l =>
    rw [ho] at H
    exact absurd rfl H.1

/-- **`ar_list_pop`.** -/
theorem arListPop_spec (left : Bool) {out : Bytes} (H : m.Holds vs)
    (hout : (if left then vs.head? else vs.getLast?) = some out) :
    ∃ m', m.arListPop left = some (m', .found out) ∧ m'.Holds (if left then vs.tail else vs.dropLast) := by
  have hv : vs ≠ [] := by
    rintro rfl
    cases left <;> cases hout
  obtain ⟨l, ns, ho, h0, Hns, rfl⟩ := obj_of_ne H hv
  have hpop : ∃ h' l' ns', Linked.pop left m.heap l = some (out, h', l') ∧ HoldsFrom true h' l' ns' ∧
      ns'.map Prod.snd = if left then (ns.map Prod.snd).tail else (ns.map Prod.snd).dropLast := by
    cases left with
    | true =>
      cases ns with
      | nil => exact absurd rfl hv
      | cons a ns =>
        obtain rfl : a.2 = out := Option.some.inj hout
        obtain ⟨h', l', hrun, H'⟩ := Hns.pop
        exact ⟨h', l', ns, hrun, H', rfl⟩
    | false =>
      obtain ⟨zs, a, rfl⟩ := (List.eq_nil_or_concat' ns).resolve_left fun h => hv (by rw [h]; rfl)
      rw [List.map_append, List.map_singleton] at hout ⊢
      obtain rfl : a.2 = out := Option.some.inj ((List.getLast?_concat ..).symm.trans hout)
      have hflip := Hns.flip
      rw [List.reverse_append, List.reverse_singleton, List.singleton_append] at hflip
      obtain ⟨h', l', hrun, H'⟩ := hflip.pop
      refine ⟨h', l', _, hrun, H'.flip, ?_⟩
      rw [List.reverse_reverse]
      exact List.dropLast_concat.symm
  obtain ⟨h', l', ns', hrun, H', hvals⟩ := hpop
  refine ⟨kept h' l', ?_, hvals ▸ holds_kept H'⟩
  unfold arListPop
  simp only [ho, if_neg h0, hrun]
  rfl

/-! ## The walk of LREM -/

/-- **The loops of `ar_list_lrem`**: the nodes passed stay, and those to come are what the walk leaves of them. -/
theorem lremNodes_spec (elem : Bytes) (forward : Bool) (stop : Int → Bool) (fuel : Nat) (removed : Int)
    (H : HoldsFrom forward h l (done ++ todo)) (hfuel : todo.length ≤ fuel) :
    ∃ h' l' ns', lremNodes elem forward stop fuel (first todo none) h l removed =
        some (h', l', (lremWalk elem stop (todo.map Prod.snd) removed).2) ∧
      HoldsFrom forward h' l' (done ++ ns') ∧
      ns'.map Prod.snd = (lremWalk elem stop (todo.map Prod.snd) removed).1 := by
  induction todo generalizing done fuel h l removed with
  | nil =>
    refine ⟨h, l, [], ?_, H, rfl⟩
    cases fuel <;> rfl
  | cons a todo ih =>
    obtain ⟨fuel, rfl⟩ : ∃ n, fuel = n + 1 := ⟨fuel - 1, by rw [List.length_cons] at hfuel; omega⟩
    have hfuel' : todo.length ≤ fuel := Nat.le_of_succ_le_succ hfuel
    obtain ⟨p, hlookup⟩ := H.lookup
    rw [Linked.first_cons, List.map_cons]
    unfold lremNodes lremWalk
    simp only [hlookup, Option.bind_eq_bind, Option.bind_some, Linked.Node.val_sided, Linked.Node.ahead_sided]
    by_cases ha : a.2 = elem
    · obtain ⟨h₁, l₁, hunlink, H₁⟩ := H.unlink_from
      simp only [if_pos ha, hunlink, Option.bind_some]
      by_cases hstop : stop (removed + 1) = true
      · rw [if_pos hstop, if_pos hstop]
        exact ⟨h₁, l₁, todo, rfl, H₁, rfl⟩
      · rw [if_neg hstop, if_neg hstop]
        exact ih fuel (removed + 1) H₁ hfuel'
    · simp only [if_neg ha]
      rw [List.append_cons] at H
      obtain ⟨h', l', ns', hrun, H', hvals⟩ := ih fuel removed H hfuel'
      refine ⟨h', l', a :: ns', hrun, ?_, ?_⟩
      · rw [List.append_cons]
        exact H'
      · rw [List.map_cons, hvals]

/-- **`ar_list_lrem`.** -/
theorem arListLrem_spec (count : Int) (elem : Bytes) (H : m.Holds vs) (hv : vs ≠ []) :
    ∃ m', m.arListLrem count elem = some (m', .found (ArCore.lremList vs count elem).2) ∧
      m'.Holds (ArCore.lremList vs count elem).1 := by
  obtain ⟨l, ns, ho, -, Hns, rfl⟩ := obj_of_ne H hv
  unfold arListLrem ArCore.lremList
  simp only [ho]
  by_cases hc : count ≥ 0
  · have Hhead : HoldsFrom true m.heap l ([] ++ ns) := Hns
    obtain ⟨h', l', ns', hrun, H', hvals⟩ := lremNodes_spec elem true
      (fun n => decide (count ≠ 0) && decide (n ≥ count)) l.len 0 Hhead Hns.len.ge
    have hnear : l.head = first ns none := Hns.near
    simp only [if_pos hc]
    rw [hnear, hrun]
    exact ⟨kept h' l', rfl, hvals ▸ holds_kept H'⟩
  · have Htail : HoldsFrom false m.heap l ([] ++ ns.reverse) := Hns.flip
    obtain ⟨h', l', ns', hrun, H', hvals⟩ := lremNodes_spec elem false (fun n => decide (n ≥ int64 (-count)))
      l.len 0 Htail (by rw [List.length_reverse]; exact Hns.len.ge)
    have hfar : l.tail = first ns.reverse none := Hns.far
    rw [List.map_reverse] at hrun hvals
    simp only [if_neg hc]
    rw [hfar, hrun]
    refine ⟨kept h' l', rfl, ?_⟩
    rw [← hvals, ← List.map_reverse]
    exact holds_kept H'.flip

/-! ## The loops of LTRIM -/

theorem dropHead_spec (n : Nat) (H : HoldsFrom true h l ns) :
    ∃ h' l', dropHead n h l = some (h', l') ∧ HoldsFrom true h' l' (ns.drop n) := by
  induction n generalizing h l ns with
  | zero => exact ⟨h, l, rfl, H⟩
  | succ n ih =>
    cases ns with
    | nil =>
      have hnear : l.head = none := H.near
      refine ⟨h, l, ?_, H⟩
      unfold dropHead
      rw [if_pos hnear]
    | cons a ns =>
      have hnear : l.head = some a.1 := H.near
      obtain ⟨h₁, l₁, hpop, H₁⟩ := H.pop
      obtain ⟨h₂, l₂, hrest, H₂⟩ := ih H₁
      refine ⟨h₂, l₂, ?_, H₂⟩
      unfold dropHead
      rw [if_neg (by rw [hnear]; exact Option.some_ne_none _), hpop]
      exact hrest

theorem dropTail_spec (keep fuel : Nat) (H : HoldsFrom true h l ns) (hfuel : ns.length ≤ keep + fuel) :
    ∃ h' l', dropTail keep fuel h l = some (h', l') ∧ HoldsFrom true h' l' (ns.take keep) := by
  induction fuel generalizing h l ns with
  | zero =>
    refine ⟨h, l, ?_, ?_⟩
    · unfold dropTail
      rw [if_neg (by rw [H.len]; omega)]
    · rwa [List.take_of_length_le (show ns.length ≤ keep from hfuel)]
  | succ fuel ih =>
    unfold dropTail
    by_cases hlen : l.len > keep
    · rw [H.len] at hlen
      obtain ⟨zs, a, rfl⟩ := (List.eq_nil_or_concat' ns).resolve_left fun h => by
        rw [h] at hlen
        exact absurd hlen (Nat.not_lt_zero _)
      rw [List.length_append, List.length_singleton] at hlen hfuel
      have hflip := H.flip
      rw [List.reverse_append, List.reverse_singleton, List.singleton_append] at hflip
      have hfar : l.tail = some a.1 := hflip.near
      obtain ⟨h₁, l₁, hpop, H₁⟩ := hflip.pop
      have H₁' := H₁.flip
      rw [List.reverse_reverse] at H₁'
      obtain ⟨h₂, l₂, hrest, H₂⟩ := ih H₁' (by omega)
      refine ⟨h₂, l₂, ?_, ?_⟩
      · rw [if_pos (by rw [H.len, List.length_append, List.length_singleton]; omega),
          if_neg (by rw [hfar]; exact Option.some_ne_none _), show Linked.pop false h l = _ from hpop]
        exact hrest
      · rwa [List.take_append_of_le_length (by omega)]
    · rw [if_neg hlen]
      refine ⟨h, l, rfl, ?_⟩
      rw [H.len] at hlen
      rwa [List.take_of_length_le (Nat.le_of_not_lt hlen)]

/-- `free_list` follows no pointer of a node that it has freed. -/
theorem freeList_spec (fuel : Nat) {p : Option Nat} (hd : (ns.map Prod.fst).Nodup) (hs : Linked.Seg true h p ns none)
    (hfuel : ns.length ≤ fuel) : ∃ h', freeList h fuel (first ns none) = some h' := by
  induction ns generalizing h fuel p with
  | nil =>
    refine ⟨h, ?_⟩
    cases fuel <;> rfl
  | cons a ns ih =>
    obtain ⟨fuel, rfl⟩ : ∃ n, fuel = n + 1 := ⟨fuel - 1, by rw [List.length_cons] at hfuel; omega⟩
    rw [List.map_cons, List.nodup_cons] at hd
    have hrest : Linked.Seg true (h.erase a.1) (some a.1) ns none :=
      hs.2.congr fun b hb => Finmap.lookup_erase_ne fun he => hd.1 (he ▸ List.mem_map_of_mem hb)
    obtain ⟨h', hrun⟩ := ih fuel hd.2 hrest (Nat.le_of_succ_le_succ hfuel)
    refine ⟨h', ?_⟩
    rw [Linked.first_cons]
    unfold freeList
    rw [hs.1]
    exact hrun

/-- **`ar_list_ltrim`.** -/
theorem arListLtrim_spec (start stop : Int) (H : m.Holds vs) (hv : vs ≠ []) :
    ∃ m', m.arListLtrim start stop = some (m', .found ()) ∧
      m'.Holds (match ArCore.trimWindow vs.length start stop with
        | none => []
        | some (start, keep) => (vs.drop start).take keep) := by
  obtain ⟨l, ns, ho, -, Hns, rfl⟩ := obj_of_ne H hv
  have hlen : (l.len : Int) = ((ns.map Prod.snd).length : Nat) := by rw [Hns.len, List.length_map]
  unfold arListLtrim
  simp only [ho, hlen]
  cases ArCore.trimWindow ((ns.map Prod.snd).length : Nat) start stop with
  | none =>
    obtain ⟨h', hfree⟩ := freeList_spec l.len Hns.nodup Hns.seg Hns.len.ge
    have hnear : l.head = first ns none := Hns.near
    rw [hnear]
    simp only [hfree]
    exact ⟨⟨h', none⟩, rfl, rfl⟩
  | some w =>
    obtain ⟨start, keep⟩ := w
    obtain ⟨h₁, l₁, hhead, H₁⟩ := dropHead_spec start Hns
    obtain ⟨h₂, l₂, htail, H₂⟩ := dropTail_spec keep l₁.len H₁ (by rw [H₁.len]; omega)
    simp only [hhead, Option.bind_eq_bind, Option.bind_some, htail]
    refine ⟨kept h₂ l₂, rfl, ?_⟩
    rw [← List.map_drop, ← List.map_take]
    exact holds_kept H₂

/-! ## Reads -/

theorem arListLlen_spec (H : m.Holds vs) : m.arListLlen = if vs = [] then .missing else .found vs.length := by
  unfold arListLlen
  by_cases hv : vs = []
  · subst hv
    rw [obj_of_nil H, if_pos rfl]
  · obtain ⟨l, ns, ho, -, Hns, rfl⟩ := obj_of_ne H hv
    rw [ho, if_neg hv, List.length_map, ← Hns.len]

theorem walk_spec (n : Nat) {p : Option Nat} (hs : Linked.Seg true h p ns none) :
    walk h n (first ns none) = some (first (ns.drop n) none) := by
  induction n generalizing ns p with
  | zero => rfl
  | succ n ih =>
    cases ns with
    | nil => rfl
    | cons a ns =>
      rw [Linked.first_cons]
      unfold walk
      rw [hs.1]
      exact ih hs.2

theorem vals_spec (n : Nat) {p : Option Nat} (hs : Linked.Seg true h p ns none) :
    vals h n (first ns none) = some ((ns.take n).map Prod.snd) := by
  induction n generalizing ns p with
  | zero => rfl
  | succ n ih =>
    cases ns with
    | nil => rfl
    | cons a ns =>
      have hrest := ih hs.2
      rw [Linked.first_cons]
      unfold vals
      rw [hs.1]
      show (vals h n (first ns none) >>= fun rest => some (a.2 :: rest)) = _
      rw [hrest]
      rfl

/-- The nodes from one on. -/
theorem seg_drop (n : Nat) (H : HoldsFrom true h l ns) :
    Linked.Seg true h (first (ns.take n).reverse none) (ns.drop n) none := by
  have hseg := H.seg
  rw [← List.take_append_drop n ns] at hseg
  exact (Linked.seg_append.1 hseg).2

/-- **The loops of `LRANGE`.** -/
theorem range_spec (start n : Nat) (H : m.Holds vs) : m.range start n = some ((vs.drop start).take n) := by
  unfold range
  by_cases hv : vs = []
  · subst hv
    rw [obj_of_nil H, List.drop_nil, List.take_nil]
  · obtain ⟨l, ns, ho, -, Hns, rfl⟩ := obj_of_ne H hv
    have hnear : l.head = first ns none := Hns.near
    rw [ho]
    simp only [hnear, walk_spec start Hns.seg, Option.bind_eq_bind, Option.bind_some, vals_spec n (seg_drop start Hns)]
    rw [List.map_take, List.map_drop]

/-- **`ar_list_lindex`.** -/
theorem arListLindex_spec (index : Int) (H : m.Holds vs) :
    m.arListLindex index = some (((ArCore.listIndex vs index).map .found).getD .missing) := by
  unfold arListLindex
  by_cases hv : vs = []
  · subst hv
    rw [obj_of_nil H]
    unfold ArCore.listIndex
    simp only [List.getElem?_nil, ite_self]
    rfl
  · obtain ⟨l, ns, ho, h0, Hns, rfl⟩ := obj_of_ne H hv
    have hnear : l.head = first ns none := Hns.near
    have hlen : (ns.map Prod.snd).length = l.len := by rw [List.length_map, Hns.len]
    rw [ho]
    unfold ArCore.listIndex
    simp only [hlen]
    generalize (if index < 0 then (l.len : Int) + index else index) = i
    by_cases hneg : i < 0
    · rw [if_pos (.inr (.inl hneg)), if_pos hneg]
      rfl
    · by_cases hbig : i ≥ l.len
      · rw [if_pos (.inr (.inr hbig)), if_neg hneg, List.getElem?_eq_none (by rw [hlen]; omega)]
        rfl
      · have hlt : i.toNat < ns.length := by
          rw [← Hns.len]
          omega
        have hnode := seg_drop i.toNat Hns
        rw [List.drop_eq_getElem_cons hlt] at hnode
        rw [if_neg (by simp only [h0, hneg, hbig, or_self, not_false_eq_true]), if_neg hneg, hnear,
          walk_spec i.toNat Hns.seg, List.drop_eq_getElem_cons hlt]
        show (m.heap.lookup ns[i.toNat].1 >>= fun node => some (Typed.found node.val)) = _
        rw [hnode.1, List.getElem?_map, List.getElem?_eq_getElem hlt]
        rfl

end ListMem

end AuraRedis
