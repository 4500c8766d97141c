import AuraRedis.Core.Proof.Op

/-!
# Operations on a key that is there

What an operation answers and leaves when a key has a value of its type, whatever the kernel and the memory.
-/

set_option autoImplicit false

namespace AuraRedis

section
variable {E : Env} {t : Nat} {B : Terms} {W : Set Bytes} {c : ArCore} {key : Bytes} {i : Item}

/-- A key that has a value of the type wanted is found. -/
theorem typed_found (hE : E.Frozen t) (hwf : c.WF) (want : ArType) (hp : c.peek t key = some i)
    (ht : i.obj.type = want) :
    ∃ r : Ref, (c.arEntryGetTyped E key want).2 = .found r ∧ Quiet c (c.arEntryGetTyped E key want).1 ∧
      (c.arEntryGetTyped E key want).1.Holds r ∧ r.e.key = key ∧ r.e.toItem = i := by
  rcases typed_cases (B := .plain) hE hwf key want with
    ⟨-, -, -, hn⟩ | ⟨r, -, -, -, hr, hne⟩ | ⟨r, hg, hq, hr, hk, hp', -⟩
  · cases hn.symm.trans hp
  · cases hr.symm.trans hp
    exact absurd ht hne
  · exact ⟨r, hg, hq, hr, hk, Option.some.inj (hp'.symm.trans hp)⟩

/-- The same by `ar_entry_get_or_create`. -/
theorem getOrCreate_found (hE : E.Frozen t) (hwf : c.WF) (want : ArType) (hp : c.peek t key = some i)
    (ht : i.obj.type = want) :
    ∃ r : Ref, (c.arEntryGetOrCreate E key want).2 = .found r ∧ Quiet c (c.arEntryGetOrCreate E key want).1 ∧
      (c.arEntryGetOrCreate E key want).1.Holds r ∧ r.e.key = key ∧ r.e.toItem = i := by
  unfold ArCore.arEntryGetOrCreate
  rcases find_cases (B := .plain) hE hwf key with ⟨-, -, -, hn⟩ | ⟨r, hs, hq, hr, hk, hp'⟩
  · cases hn.symm.trans hp
  · obtain rfl : r.e.toItem = i := Option.some.inj (hp'.symm.trans hp)
    simp only [hs, if_pos (show r.e.obj.type = want from ht)]
    exact ⟨r, rfl, hq, hr, hk, rfl⟩

/-! ## Lists -/

variable {l : List Bytes}

/-- The key afterwards, where `l'` is what is left of its list. -/
def leftOver (i : Item) (l' : List Bytes) : Option Item := if l'.isEmpty then none else some { i with obj := .list l' }

/-- **`LREM`** on a list. -/
theorem arListLrem_found (hE : E.Frozen t) (hwf : c.WF) (hp : c.peek t key = some i) (ho : i.obj = .list l)
    (count : Int) (elem : Bytes) :
    (c.arListLrem E key count elem).2 = .found (ArCore.lremList l count elem).2 ∧
      (c.arListLrem E key count elem).1.peek t key = leftOver i (ArCore.lremList l count elem).1 := by
  obtain ⟨r, hg, hq, hr, rfl, rfl⟩ := typed_found hE hwf .list hp (by rw [ho]; rfl)
  have hobj : r.e.obj = .list l := ho
  have hd : ¬Due t r.e.expireAt := ((peek_eq_some_iff hwf).1 hp).2.2
  have hwf' := hq.wf hwf
  unfold ArCore.arListLrem
  simp only [hg, hobj]
  generalize (c.arEntryGetTyped E r.e.key .list).1 = c₁ at hq hr hwf' ⊢
  obtain ⟨hl, hhas⟩ := Leaves.cut (t := t) (B := { Terms.plain with exact := False }) (W := ∅) hwf' hr hobj
    (lremList_sublist l count elem) fun hf => hf.elim
  generalize ArCore.lremList l count elem = x at hl hhas ⊢
  have hpeek := peek_of_has (t := t) (hl.ev.wf hwf') hhas
  unfold leftOver
  by_cases he : x.1.isEmpty = true
  · simp only [if_pos he] at hpeek ⊢
    exact ⟨trivial, hpeek⟩
  · simp only [if_neg he] at hpeek ⊢
    exact ⟨trivial, hpeek.trans (Option.filter_some_pos (by simpa using hd))⟩

/-- **`LTRIM`** on a list. -/
theorem arListLtrim_found (hE : E.Frozen t) (hwf : c.WF) (hp : c.peek t key = some i) (ho : i.obj = .list l)
    (start stop : Int) :
    (c.arListLtrim E key start stop).2 = .found () ∧
      (c.arListLtrim E key start stop).1.peek t key =
        match ArCore.trimWindow l.length start stop with
        | none => none
        | some (m, n) => leftOver i ((l.drop m).take n) := by
  obtain ⟨r, hg, hq, hr, rfl, rfl⟩ := typed_found hE hwf .list hp (by rw [ho]; rfl)
  have hobj : r.e.obj = .list l := ho
  have hd : ¬Due t r.e.expireAt := ((peek_eq_some_iff hwf).1 hp).2.2
  have hwf' := hq.wf hwf
  unfold ArCore.arListLtrim
  simp only [hg, hobj]
  generalize (c.arEntryGetTyped E r.e.key .list).1 = c₁ at hq hr hwf' ⊢
  cases hw : ArCore.trimWindow l.length start stop with
  | none =>
    have hl := Leaves.free (t := t) (B := .plain) (W := ∅) hwf' hr
    have hhas : ((c₁.arEntryFreeEx r.bucket r.tier r.e).arWatchTouch r.e.key).Has r.e.key none :=
      has_none_iff.2 (free_key_notMem hwf' hr)
    exact ⟨rfl, peek_of_has ((hl.andThen (.touch _ _)).ev.wf hwf') hhas⟩
  | some w =>
    obtain ⟨m, n⟩ := w
    obtain ⟨hl, hhas⟩ := Leaves.cut (t := t) (B := { Terms.plain with exact := False }) (W := ∅) hwf' hr hobj
      ((List.take_sublist n _).trans (List.drop_sublist m l)) fun hf => hf.elim
    have hpeek := peek_of_has (t := t) (hl.ev.wf hwf') hhas
    have he : ¬((l.drop m).take n).isEmpty = true := fun h => trimWindow_ne hw (List.isEmpty_iff.1 h)
    unfold leftOver
    simp only [if_neg he] at hpeek ⊢
    exact ⟨trivial, hpeek.trans (Option.filter_some_pos (by simpa using hd))⟩

/-- A read of a list. -/
theorem readList_found {α : Type} (hE : E.Frozen t) (hwf : c.WF) (hp : c.peek t key = some i) (ho : i.obj = .list l)
    (f : List Bytes → α) :
    (c.readList E key f).2 = .found (f l) ∧ Quiet c (c.readList E key f).1 := by
  obtain ⟨r, hg, hq, -, -, rfl⟩ := typed_found hE hwf .list hp (by rw [ho]; rfl)
  have hobj : r.e.obj = .list l := ho
  unfold ArCore.readList
  simp only [hg, hobj]
  exact ⟨trivial, hq⟩

/-! ## Sorted sets -/

variable {z : ArZSet}

/-- The pairs of a `ZADD` that give a score to a member that is not there, each counted. -/
def ArZSet.newPairs (z : ArZSet) (ns : List ArZNode) : Nat := ns.countP fun n => (z.find n.member).isNone

/-- The cap on the members is against a `ZADD`. -/
def ArZSet.Refuses (z : ArZSet) (ns : List ArZNode) : Prop :=
  z.newPairs ns > 0 ∧ z.arr.length + z.newPairs ns > ArCore.zsetMaxMembers

/-- **`ZADD`** on a sorted set. -/
theorem arZsetZadd_found (hE : E.Frozen t) (hwf : c.WF) (hp : c.peek t key = some i) (ho : i.obj = .zset z)
    (ns : List ArZNode) :
    (z.Refuses ns → (c.arZsetZadd E key ns).2 = .oversize ∧ (c.arZsetZadd E key ns).1.peek t key = some i) ∧
      (¬z.Refuses ns → ∃ n, (c.arZsetZadd E key ns).2 = .added n ∧
        (E.AllocOk → n = (Spec.zaddNodes ns z.arr 0).2)) := by
  unfold ArCore.arZsetZadd
  by_cases hns : ns.isEmpty = true
  · rw [if_pos hns, List.isEmpty_iff.1 hns]
    exact ⟨fun h => absurd h.1 (Nat.lt_irrefl 0), fun _ => ⟨0, rfl, fun _ => rfl⟩⟩
  rw [if_neg hns]
  obtain ⟨r, hg, hq, hr, rfl, rfl⟩ := getOrCreate_found hE hwf .zset hp (by rw [ho]; rfl)
  have hobj : r.e.obj = .zset z := ho
  have hd : ¬Due t r.e.expireAt := ((peek_eq_some_iff hwf).1 hp).2.2
  simp only [hg, hobj]
  have hwf' := hq.wf hwf
  constructor
  · intro hover
    unfold ArZSet.Refuses ArZSet.newPairs at hover
    rw [if_pos hover]
    exact ⟨rfl, (peek_eq_some_iff hwf').2 ⟨mem_items_of_holds hr, rfl, hd⟩⟩
  · intro hover
    unfold ArZSet.Refuses ArZSet.newPairs at hover
    rw [if_neg hover]
    exact ⟨_, rfl, fun ha => congrArg Prod.snd ((zaddMembers_spec ns z 0).2 ha)⟩

/-- A read of a sorted set. -/
theorem readZset_found {α : Type} (hE : E.Frozen t) (hwf : c.WF) (hp : c.peek t key = some i) (ho : i.obj = .zset z)
    (f : ArZSet → α) :
    (c.readZset E key f).2 = .found (f z) ∧ Quiet c (c.readZset E key f).1 := by
  obtain ⟨r, hg, hq, -, -, rfl⟩ := typed_found hE hwf .zset hp (by rw [ho]; rfl)
  have hobj : r.e.obj = .zset z := ho
  unfold ArCore.readZset
  simp only [hg, hobj]
  exact ⟨trivial, hq⟩

theorem wf_of_peek_zset (hE : E.Frozen t) (hwf : c.WF) (hp : c.peek t key = some i) (ho : i.obj = .zset z) : z.WF := by
  obtain ⟨r, -, hq, hr, -, hi⟩ := typed_found hE hwf .zset hp (by rw [ho]; rfl)
  exact wf_zset (hq.wf hwf) hr ((congrArg Item.obj hi).trans ho)

end

end AuraRedis
