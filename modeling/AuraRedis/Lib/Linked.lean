import Mathlib.Data.Finmap

/-!
# Doubly linked lists

Nodes in a heap that point both ways, and the two ends of a list. What is done at one end is done at the other with
the pointers changed over, so everything is seen from a side: from the left, `behind` is `prev` and `ahead` is
`next`. `HoldsFrom left h l ns` says that the list `l` has the nodes `ns`, counted from that side; a node at the end
or in the middle comes and goes without touching any other memory.
-/

set_option autoImplicit false

namespace Linked

/-- A node: addresses are numbers, and `none` is the null pointer. -/
structure Node (α : Type) where
  val : α
  prev : Option Nat
  next : Option Nat
  deriving DecidableEq

/-- The memory of the nodes that are allocated. -/
abbrev Heap (α : Type) := Finmap fun _ : Nat => Node α

/-- A list: its first and its last node, and how many there are. -/
structure Ends where
  head : Option Nat
  tail : Option Nat
  len : Nat
  deriving DecidableEq

variable {α : Type}

/-! ## Seen from a side -/

namespace Node

def behind (left : Bool) (n : Node α) : Option Nat := if left then n.prev else n.next

def ahead (left : Bool) (n : Node α) : Option Nat := if left then n.next else n.prev

def sided (left : Bool) (val : α) (behind ahead : Option Nat) : Node α :=
  if left then ⟨val, behind, ahead⟩ else ⟨val, ahead, behind⟩

variable {left : Bool} {v : α} {p n : Option Nat}

@[simp] theorem val_sided : (sided left v p n).val = v := by cases left <;> rfl

@[simp] theorem behind_sided : (sided left v p n).behind left = p := by cases left <;> rfl

@[simp] theorem ahead_sided : (sided left v p n).ahead left = n := by cases left <;> rfl

theorem sided_not : sided (!left) v p n = sided left v n p := by cases left <;> rfl

end Node

namespace Ends

def near (left : Bool) (l : Ends) : Option Nat := if left then l.head else l.tail

def far (left : Bool) (l : Ends) : Option Nat := if left then l.tail else l.head

def sided (left : Bool) (near far : Option Nat) (len : Nat) : Ends :=
  if left then ⟨near, far, len⟩ else ⟨far, near, len⟩

variable {left : Bool} {p q : Option Nat} {n : Nat} {l : Ends}

@[simp] theorem near_sided : (sided left p q n).near left = p := by cases left <;> rfl

@[simp] theorem far_sided : (sided left p q n).far left = q := by cases left <;> rfl

@[simp] theorem len_sided : (sided left p q n).len = n := by cases left <;> rfl

theorem near_not : l.near (!left) = l.far left := by cases left <;> rfl

theorem far_not : l.far (!left) = l.near left := by cases left <;> rfl

end Ends

/-! ## The operations -/

/-- A store to one pointer of a node; there is no such node when it fails. -/
def setBehind (left : Bool) (h : Heap α) (a : Nat) (p : Option Nat) : Option (Heap α) :=
  (h.lookup a).map fun n => h.insert a (.sided left n.val p (n.ahead left))

/-- A node at one end, at an address that is free. -/
def push (left : Bool) (a : Nat) (v : α) (h : Heap α) (l : Ends) : Option (Heap α × Ends) :=
  match l.near left with
  | none => some (h.insert a (.sided left v none none), .sided left (some a) (some a) (l.len + 1))
  | some b => do
    let h ← setBehind left (h.insert a (.sided left v none (some b))) b (some a)
    some (h, .sided left (some a) (l.far left) (l.len + 1))

/-- The node at one end is taken and freed. -/
def pop (left : Bool) (h : Heap α) (l : Ends) : Option (α × Heap α × Ends) := do
  let a ← l.near left
  let n ← h.lookup a
  match n.ahead left with
  | none => some (n.val, h.erase a, .sided left none none (l.len - 1))
  | some b => do
    let h ← setBehind left h b none
    some (n.val, h.erase a, .sided left (some b) (l.far left) (l.len - 1))

/-- A node anywhere is taken out and freed. -/
def unlink (a : Nat) (h : Heap α) (l : Ends) : Option (Heap α × Ends) := do
  let n ← h.lookup a
  let (h, l) ← match n.prev with
    | some p => (setBehind false h p n.next).map fun h => (h, l)
    | none => some (h, { l with head := n.next })
  let (h, l) ← match n.next with
    | some q => (setBehind true h q n.prev).map fun h => (h, l)
    | none => some (h, { l with tail := n.prev })
  some (h.erase a, { l with len := l.len - 1 })

/-! ## Nodes in a row -/

/-- The first node of a row, or what comes after it. -/
def first (ns : List (Nat × α)) (n : Option Nat) : Option Nat :=
  match ns with
  | [] => n
  | a :: _ => some a.1

/-- The nodes lie in the heap, from `p` on and up to `n`. -/
def Seg (left : Bool) (h : Heap α) (p : Option Nat) : List (Nat × α) → Option Nat → Prop
  | [], _ => True
  | a :: ns, n => h.lookup a.1 = some (.sided left a.2 p (first ns n)) ∧ Seg left h (some a.1) ns n

/-- Following the pointers from a side to the null pointer meets these nodes. -/
inductive Follows (left : Bool) (h : Heap α) : Option Nat → List Nat → Prop
  | nil : Follows left h none []
  | cons {a : Nat} {as : List Nat} {n : Node α} (ha : h.lookup a = some n) (has : Follows left h (n.ahead left) as) :
      Follows left h (some a) (a :: as)

section
variable {left : Bool} {h h' : Heap α} {p q n : Option Nat} {xs ys ns : List (Nat × α)} {a : Nat × α}

@[simp] theorem first_nil : first ([] : List (Nat × α)) n = n := rfl

@[simp] theorem first_cons : first (a :: ns) n = some a.1 := rfl

theorem first_append : first (xs ++ ys) n = first xs (first ys n) := by cases xs <;> rfl

theorem seg_append :
    Seg left h p (xs ++ ys) n ↔ Seg left h p xs (first ys n) ∧ Seg left h (first xs.reverse p) ys n := by
  induction xs generalizing p with
  | nil => exact (true_and _).symm.to_iff
  | cons x xs ih =>
    rw [List.cons_append, Seg, Seg, ih, first_append, List.reverse_cons, first_append, first_cons, and_assoc]

theorem seg_reverse : Seg (!left) h n ns.reverse p ↔ Seg left h p ns n := by
  induction ns generalizing p with
  | nil => exact Iff.rfl
  | cons a ns ih =>
    rw [List.reverse_cons, seg_append, first_cons, List.reverse_reverse, Seg, Seg, Seg, ih, Node.sided_not, first_nil]
    exact ⟨fun ⟨hns, ha, _⟩ => ⟨ha, hns⟩, fun ⟨ha, hns⟩ => ⟨hns, ha, trivial⟩⟩

/-- Only the memory of the nodes counts. -/
theorem Seg.congr (hs : Seg left h p ns n) (he : ∀ a ∈ ns, h'.lookup a.1 = h.lookup a.1) : Seg left h' p ns n := by
  induction ns generalizing p with
  | nil => trivial
  | cons a ns ih => exact ⟨(he a (.head _)).trans hs.1, ih hs.2 fun b hb => he b (.tail _ hb)⟩

theorem Seg.follows (hs : Seg left h p ns none) : Follows left h (first ns none) (ns.map Prod.fst) := by
  induction ns generalizing p with
  | nil => exact .nil
  | cons a ns ih =>
    refine .cons hs.1 ?_
    rw [Node.ahead_sided]
    exact ih hs.2

theorem lookup_insert_ne {b c : Nat} {x : Node α} (hb : c ≠ b) : (h.insert b x).lookup c = h.lookup c :=
  Finmap.lookup_insert_of_ne h hb

/-- The pointer back of the first node of a row. -/
theorem Seg.setBehind (hs : Seg left h p (a :: ns) n) (hd : ((a :: ns).map Prod.fst).Nodup) (q : Option Nat) :
    ∃ h', setBehind left h a.1 q = some h' ∧ Seg left h' q (a :: ns) n ∧ ∀ c, c ≠ a.1 → h'.lookup c = h.lookup c := by
  refine ⟨h.insert a.1 (.sided left a.2 q (first ns n)), ?_, ⟨Finmap.lookup_insert h, ?_⟩, fun c hc => ?_⟩
  · unfold Linked.setBehind
    rw [hs.1, Option.map_some, Node.val_sided, Node.ahead_sided]
  · refine hs.2.congr fun b hb => lookup_insert_ne fun he => ?_
    rw [List.map_cons, List.nodup_cons] at hd
    exact hd.1 (he ▸ List.mem_map_of_mem hb)
  · exact lookup_insert_ne hc

theorem Seg.mem (hs : Seg left h p ns n) (ha : a ∈ ns) : a.1 ∈ h := by
  induction ns generalizing p with
  | nil => cases ha
  | cons b ns ih =>
    rcases List.mem_cons.1 ha with rfl | ha
    · exact Finmap.mem_of_lookup_eq_some hs.1
    · exact ih hs.2 ha

/-- A row without its first node: the pointer back of the next one, if there is one, is changed. -/
def relink (left : Bool) (h : Heap α) (b q : Option Nat) : Option (Heap α) :=
  match b with
  | none => some h
  | some b => Linked.setBehind left h b q

theorem Seg.relink (hs : Seg left h p ns n) (hd : (ns.map Prod.fst).Nodup) (q : Option Nat) :
    ∃ h', relink left h (first ns none) q = some h' ∧ Seg left h' q ns n ∧
      ∀ c, c ∉ ns.map Prod.fst → h'.lookup c = h.lookup c := by
  cases ns with
  | nil => exact ⟨h, rfl, trivial, fun c _ => rfl⟩
  | cons a ns =>
    obtain ⟨h', hset, hs', hsame⟩ := hs.setBehind hd q
    exact ⟨h', hset, hs', fun c hc => hsame c fun he => hc (he ▸ .head _)⟩

end

/-! ## Lists -/

/-- The nodes of a list, counted from a side. -/
structure HoldsFrom (left : Bool) (h : Heap α) (l : Ends) (ns : List (Nat × α)) : Prop where
  nodup : (ns.map Prod.fst).Nodup
  seg : Seg left h none ns none
  near : l.near left = first ns none
  far : l.far left = first ns.reverse none
  len : l.len = ns.length

namespace HoldsFrom

variable {left : Bool} {h : Heap α} {l : Ends} {xs ys ns : List (Nat × α)} {a : Nat × α}

/-- From the other side the nodes are in reverse. -/
theorem flip (H : HoldsFrom left h l ns) : HoldsFrom (!left) h l ns.reverse where
  nodup := by
    rw [List.map_reverse]
    exact List.nodup_reverse.2 H.nodup
  seg := seg_reverse.2 H.seg
  near := Ends.near_not.trans H.far
  far := by rw [Ends.far_not, List.reverse_reverse, H.near]
  len := H.len.trans List.length_reverse.symm

theorem nil (left : Bool) (h : Heap α) : HoldsFrom left h ⟨none, none, 0⟩ ([] : List (Nat × α)) := by
  refine ⟨List.nodup_nil, trivial, ?_, ?_, rfl⟩
  · cases left <;> rfl
  · cases left <;> rfl

/-- **The pointers from both ends** meet the nodes, in this order and in reverse. -/
theorem follows (H : HoldsFrom true h l ns) :
    Follows true h l.head (ns.map Prod.fst) ∧ Follows false h l.tail (ns.map Prod.fst).reverse := by
  have hhead : l.head = first ns none := H.near
  have htail : l.tail = first ns.reverse none := H.far
  rw [hhead, htail, ← List.map_reverse]
  exact ⟨H.seg.follows, H.flip.seg.follows⟩

/-- **A node at an end.** -/
theorem push (H : HoldsFrom left h l ns) {b : Nat} (hb : b ∉ h) (v : α) :
    ∃ h' l', push left b v h l = some (h', l') ∧ HoldsFrom left h' l' ((b, v) :: ns) := by
  have hfresh : ∀ a ∈ ns, a.1 ≠ b := fun a ha he => hb (he ▸ H.seg.mem ha)
  have hnodup : (((b, v) :: ns).map Prod.fst).Nodup := by
    rw [List.map_cons, List.nodup_cons]
    refine ⟨fun hm => ?_, H.nodup⟩
    obtain ⟨a, ha, he⟩ := List.mem_map.1 hm
    exact hfresh a ha he
  have hnear := H.near
  unfold Linked.push
  cases ns with
  | nil =>
    rw [hnear]
    refine ⟨_, _, rfl, hnodup, ⟨Finmap.lookup_insert h, trivial⟩, Ends.near_sided, Ends.far_sided, ?_⟩
    rw [Ends.len_sided, H.len]
    rfl
  | cons a ns =>
    have hseg : Seg left (h.insert b (.sided left v none (some a.1))) none (a :: ns) none :=
      H.seg.congr fun c hc => lookup_insert_ne (hfresh c hc)
    obtain ⟨h', hset, hs', hsame⟩ := hseg.setBehind H.nodup (some b)
    rw [hnear, first_cons]
    refine ⟨h', .sided left (some b) (l.far left) (l.len + 1), ?_, hnodup, ⟨?_, hs'⟩, Ends.near_sided, ?_, ?_⟩
    · simp only [hset]
      rfl
    · rw [hsame b (hfresh a (.head _)).symm]
      exact Finmap.lookup_insert h
    · rw [Ends.far_sided, H.far]
      simp only [List.reverse_cons, first_append, first_cons]
    · rw [Ends.len_sided, H.len]
      rfl

/-- **The node at an end goes.** -/
theorem pop (H : HoldsFrom left h l (a :: ns)) :
    ∃ h' l', pop left h l = some (a.2, h', l') ∧ HoldsFrom left h' l' ns := by
  have hd := H.nodup
  rw [List.map_cons, List.nodup_cons] at hd
  have hne : ∀ b ∈ ns, b.1 ≠ a.1 := fun b hb he => hd.1 (he ▸ List.mem_map_of_mem hb)
  have hfar := H.far
  unfold Linked.pop
  rw [H.near, first_cons, Option.bind_eq_bind, Option.bind_some, H.seg.1, Option.bind_eq_bind, Option.bind_some,
    Node.ahead_sided, Node.val_sided]
  cases ns with
  | nil =>
    refine ⟨_, _, rfl, List.nodup_nil, trivial, Ends.near_sided, Ends.far_sided, ?_⟩
    rw [Ends.len_sided, H.len]
    rfl
  | cons b ns =>
    obtain ⟨h', hset, hs', -⟩ := H.seg.2.setBehind hd.2 none
    refine ⟨h'.erase a.1, .sided left (some b.1) (l.far left) (l.len - 1), ?_, hd.2, ?_, Ends.near_sided, ?_, ?_⟩
    · simp only [first_cons, hset]
      rfl
    · exact hs'.congr fun c hc => Finmap.lookup_erase_ne (hne c hc)
    · rw [Ends.far_sided, hfar]
      simp only [List.reverse_cons, first_append, first_cons]
    · rw [Ends.len_sided, H.len]
      rfl

theorem unlink_eq (b : Nat) : Linked.unlink b h l = (do
    let n ← h.lookup b
    let h₁ ← relink false h n.prev n.next
    let h₂ ← relink true h₁ n.next n.prev
    some (h₂.erase b, ⟨n.prev.elim n.next fun _ => l.head, n.next.elim n.prev fun _ => l.tail, l.len - 1⟩)) := by
  unfold Linked.unlink
  refine congrArg (h.lookup b >>= ·) (funext fun n => ?_)
  cases n.prev with
  | none =>
    cases n.next with
    | none => rfl
    | some q =>
      simp only [relink, Option.bind_eq_bind, Option.bind_some]
      cases Linked.setBehind true h q none <;> rfl
  | some p =>
    simp only [relink]
    cases Linked.setBehind false h p n.next with
    | none => rfl
    | some h₁ =>
      cases n.next with
      | none => rfl
      | some q =>
        simp only [Option.map_some, Option.bind_eq_bind, Option.bind_some]
        cases Linked.setBehind true h₁ q (some p) <;> rfl

theorem elim_first_reverse {p q : Option Nat} :
    ((first xs.reverse none).elim p fun _ => first xs q) = first xs p := by
  cases xs with
  | nil => rfl
  | cons x xs =>
    rw [List.reverse_cons, first_append]
    cases xs.reverse <;> rfl

/-- **A node anywhere goes.** -/
theorem unlink (H : HoldsFrom true h l (xs ++ a :: ys)) :
    ∃ h' l', unlink a.1 h l = some (h', l') ∧ HoldsFrom true h' l' (xs ++ ys) := by
  have hd := H.nodup
  rw [List.map_append, List.map_cons, List.nodup_append] at hd
  obtain ⟨hxd, hayd, hdisj⟩ := hd
  rw [List.nodup_cons] at hayd
  have hxa : ∀ b ∈ xs, b.1 ≠ a.1 := fun b hb => hdisj b.1 (List.mem_map_of_mem hb) a.1 (.head _)
  have hxy : ∀ b ∈ xs, b.1 ∉ ys.map Prod.fst := fun b hb hm =>
    hdisj b.1 (List.mem_map_of_mem hb) b.1 (.tail _ hm) rfl
  have hya : ∀ b ∈ ys, b.1 ≠ a.1 := fun b hb he => hayd.1 (he ▸ List.mem_map_of_mem hb)
  have hyx : ∀ b ∈ ys, b.1 ∉ xs.reverse.map Prod.fst := by
    intro b hb hm
    obtain ⟨c, hc, he⟩ := List.mem_map.1 hm
    exact hxy c (List.mem_reverse.1 hc) (he ▸ List.mem_map_of_mem hb)
  obtain ⟨hxs, ha, hys⟩ := seg_append.1 H.seg
  -- the node before learns of the node after, and then the other way round
  obtain ⟨h₁, hrel₁, hxs₁, hsame₁⟩ := (seg_reverse.2 hxs).relink
    (by rw [List.map_reverse]; exact List.nodup_reverse.2 hxd) (first ys none)
  obtain ⟨h₂, hrel₂, hys₂, hsame₂⟩ := (hys.congr fun b hb => hsame₁ b.1 (hyx b hb)).relink hayd.2 (first xs.reverse none)
  have hback : Seg true h₁ none xs (first ys none) := seg_reverse.1 hxs₁
  have hxs₂ : Seg true h₂ none xs (first ys none) :=
    hback.congr fun b hb => hsame₂ b.1 (hxy b hb)
  have hseg : Seg true h₂ none (xs ++ ys) none := seg_append.2 ⟨hxs₂, hys₂⟩
  have hhead : l.head = first xs (some a.1) := H.near.trans first_append
  have htail : l.tail = first ys.reverse (some a.1) := by
    refine H.far.trans ?_
    simp only [List.reverse_append, List.reverse_cons, first_append, first_cons]
  have hlen := H.len
  rw [List.length_append, List.length_cons] at hlen
  refine ⟨h₂.erase a.1, ⟨first xs (first ys none), first ys.reverse (first xs.reverse none), l.len - 1⟩, ?_, ?_,
    hseg.congr fun b hb => Finmap.lookup_erase_ne ?_, first_append.symm, ?_, ?_⟩
  · have hrun : Linked.unlink a.1 h l = some (h₂.erase a.1,
        ⟨(first xs.reverse none).elim (first ys none) fun _ => l.head,
          (first ys none).elim (first xs.reverse none) fun _ => l.tail, l.len - 1⟩) := by
      rw [unlink_eq, ha]
      show (relink false h (first xs.reverse none) (first ys none) >>= fun h₁ =>
        relink true h₁ (first ys none) (first xs.reverse none) >>= fun h₂ => _) = _
      rw [show relink false h (first xs.reverse none) (first ys none) = some h₁ from hrel₁]
      show (relink true h₁ (first ys none) (first xs.reverse none) >>= fun h₂ => _) = _
      rw [hrel₂]
      rfl
    rw [hrun, hhead, htail, elim_first_reverse]
    have hmirror : ((first ys.reverse.reverse none).elim (first xs.reverse none) fun _ => first ys.reverse (some a.1)) =
        first ys.reverse (first xs.reverse none) := elim_first_reverse
    rw [List.reverse_reverse] at hmirror
    rw [hmirror]
  · rw [List.map_append]
    exact List.nodup_append.2 ⟨hxd, hayd.2, fun b hb c hc => hdisj b hb c (.tail _ hc)⟩
  · rcases List.mem_append.1 hb with hb | hb
    · exact hxa b hb
    · exact hya b hb
  · show first ys.reverse (first xs.reverse none) = _
    rw [List.reverse_append, first_append]
  · show l.len - 1 = (xs ++ ys).length
    rw [List.length_append]
    omega

end HoldsFrom

end Linked
