import AuraRedis.Core.Op
import AuraRedis.Lib.Linked

/-!
# Lists as they are linked

The functions of `ar_types.c` on an `ArList` with its nodes and their two pointers. What they do of the entry of the
key, and what they answer, is in `AuraRedis.Core.Typed`; here a key that is not there has no list. A function fails
when it follows a pointer to memory that is not allocated.
-/

set_option autoImplicit false

namespace AuraRedis

open ArCore (Typed)
open Linked (Heap Ends)

/-- The list of a key, and the memory of nodes. -/
structure ListMem where
  heap : Heap Bytes
  obj : Option Ends
  deriving DecidableEq

namespace ListMem

/-- The loop of `ar_list_push`; `calloc` gives each node its address. -/
def pushNodes (calloc : Heap Bytes → Nat) (left : Bool) :
    List Bytes → Heap Bytes → Ends → Option (Heap Bytes × Ends)
  | [], h, l => some (h, l)
  | v :: vs, h, l => do
    let (h, l) ← Linked.push left (calloc h) v h l
    pushNodes calloc left vs h l

/-- `ar_list_push`. -/
def arListPush (calloc : Heap Bytes → Nat) (left : Bool) (vals : List Bytes) (m : ListMem) :
    Option (ListMem × Typed Nat) :=
  if vals.isEmpty then some (m, .found 0)
  else do
    let (h, l) ← pushNodes calloc left vals m.heap (m.obj.getD ⟨none, none, 0⟩)
    some (⟨h, some l⟩, .found l.len)

/-- The entry goes when the list is empty. -/
def kept (h : Heap Bytes) (l : Ends) : ListMem := ⟨h, if l.len = 0 then none else some l⟩

/-- `ar_list_pop`. -/
def arListPop (left : Bool) (m : ListMem) : Option (ListMem × Typed Bytes) :=
  match m.obj with
  | none => some (m, .missing)
  | some l =>
    if l.len = 0 then some (m, .missing)
    else do
      let (out, h, l) ← Linked.pop left m.heap l
      some (ListMem.kept h l, .found out)

/-- `ar_list_llen`. -/
def arListLlen (m : ListMem) : Typed Nat :=
  match m.obj with
  | none => .missing
  | some l => .found l.len

/-- `node = node->next`, some times or up to the null pointer. -/
def walk (h : Heap Bytes) : Nat → Option Nat → Option (Option Nat)
  | 0, p => some p
  | _ + 1, none => some none
  | n + 1, some a => do
    let node ← h.lookup a
    walk h n node.next

/-- `ar_list_lindex`. -/
def arListLindex (index : Int) (m : ListMem) : Option (Typed Bytes) :=
  match m.obj with
  | none => some .missing
  | some l =>
    let index := if index < 0 then l.len + index else index
    if l.len = 0 ∨ index < 0 ∨ index ≥ l.len then some .missing
    else do
      match ← walk m.heap index.toNat l.head with
      | none => some .missing
      | some a =>
        let node ← m.heap.lookup a
        some (.found node.val)

/-- The values of some nodes, from one on. -/
def vals (h : Heap Bytes) : Nat → Option Nat → Option (List Bytes)
  | 0, _ => some []
  | _ + 1, none => some []
  | n + 1, some a => do
    let node ← h.lookup a
    let rest ← vals h n node.next
    some (node.val :: rest)

/-- The loops of `LRANGE`: the values of `n` nodes after the first `start`. -/
def range (start n : Nat) (m : ListMem) : Option (List Bytes) :=
  match m.obj with
  | none => some []
  | some l => do
    let p ← walk m.heap start l.head
    vals m.heap n p

/-- The loops of `ar_list_lrem`, from a node on: `next` is read before the node may be freed. There is fuel for the
nodes of the list. -/
def lremNodes (elem : Bytes) (forward : Bool) (stop : Int → Bool) :
    Nat → Option Nat → Heap Bytes → Ends → Int → Option (Heap Bytes × Ends × Int)
  | _, none, h, l, removed => some (h, l, removed)
  | 0, some _, _, _, _ => none
  | fuel + 1, some a, h, l, removed => do
    let node ← h.lookup a
    if node.val = elem then
      let (h, l) ← Linked.unlink a h l
      if stop (removed + 1) then some (h, l, removed + 1)
      else lremNodes elem forward stop fuel (node.ahead forward) h l (removed + 1)
    else lremNodes elem forward stop fuel (node.ahead forward) h l removed

/-- `ar_list_lrem`. -/
def arListLrem (count : Int) (elem : Bytes) (m : ListMem) : Option (ListMem × Typed Int) :=
  match m.obj with
  | none => some (m, .missing)
  | some l => do
    let (h, l, removed) ←
      if count ≥ 0 then
        lremNodes elem true (fun n => decide (count ≠ 0) && decide (n ≥ count)) l.len l.head m.heap l 0
      else lremNodes elem false (fun n => decide (n ≥ int64 (-count))) l.len l.tail m.heap l 0
    some (ListMem.kept h l, .found removed)

/-- `free_list`. -/
def freeList (h : Heap Bytes) : Nat → Option Nat → Option (Heap Bytes)
  | _, none => some h
  | 0, some _ => none
  | fuel + 1, some a => do
    let node ← h.lookup a
    freeList (h.erase a) fuel node.next

/-- The first loop of `ar_list_ltrim`: nodes go at the head. -/
def dropHead : Nat → Heap Bytes → Ends → Option (Heap Bytes × Ends)
  | 0, h, l => some (h, l)
  | n + 1, h, l =>
    if l.head = none then some (h, l)
    else do
      let (_, h, l) ← Linked.pop true h l
      dropHead n h l

/-- The second loop: nodes go at the tail while there are too many. -/
def dropTail (keep : Nat) : Nat → Heap Bytes → Ends → Option (Heap Bytes × Ends)
  | 0, h, l => if l.len > keep then none else some (h, l)
  | fuel + 1, h, l =>
    if l.len > keep then
      if l.tail = none then some (h, l)
      else do
        let (_, h, l) ← Linked.pop false h l
        dropTail keep fuel h l
    else some (h, l)

/-- `ar_list_ltrim`. -/
def arListLtrim (start stop : Int) (m : ListMem) : Option (ListMem × Typed Unit) :=
  match m.obj with
  | none => some (m, .missing)
  | some l =>
    match ArCore.trimWindow l.len start stop with
    | none => do
      let h ← freeList m.heap l.len l.head
      some (⟨h, none⟩, .found ())
    | some (start, keep) => do
      let (h, l) ← dropHead start m.heap l
      let (h, l) ← dropTail keep l.len h l
      some (ListMem.kept h l, .found ())

/-- What a call of the core makes of the list of a key. -/
def step (calloc : Heap Bytes → Nat) (key : Bytes) (m : ListMem) : ArOp → Option ListMem
  | .arListPush k left vals => if k = key then (m.arListPush calloc left vals).map Prod.fst else some m
  | .arListPop k left => if k = key then (m.arListPop left).map Prod.fst else some m
  | .arListLrem k count elem => if k = key then (m.arListLrem count elem).map Prod.fst else some m
  | .arListLtrim k start stop => if k = key then (m.arListLtrim start stop).map Prod.fst else some m
  | _ => some m

/-- What a run makes of it. -/
def run (calloc : Heap Bytes → Nat) (key : Bytes) : ListMem → List Call → Option ListMem
  | m, [] => some m
  | m, x :: xs => do
    let m ← m.step calloc key x.op
    run calloc key m xs

end ListMem

end AuraRedis
