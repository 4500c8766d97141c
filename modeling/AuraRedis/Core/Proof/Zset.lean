import AuraRedis.Core.Proof.OneKey
import AuraRedis.Lib.Ranked
import Mathlib.Data.Set.Card

/-!
# Sorted sets in order

The array of a sorted set is a ranked list: `zcmp` orders doubles that are numbers and then the bytes of the
members, and every `ZADD` and `ZREM` is a `put` or a `drop`. `sorted_run` is the invariant of a run and
`Ordered` what it comes to.
-/

set_option autoImplicit false

namespace AuraRedis

open ArCore (Typed)

/-! ## The order of the nodes -/

/-- Not after: by score, then by the bytes of the member. -/
def ArZNode.Le (a b : ArZNode) : Prop :=
  a.score.rank < b.score.rank ∨ a.score.rank = b.score.rank ∧ a.member ≤ b.member

/-- Strictly before. -/
def ArZNode.Before (a b : ArZNode) : Prop :=
  a.score.rank < b.score.rank ∨ a.score.rank = b.score.rank ∧ a.member < b.member

namespace ArZNode

variable {a b c : ArZNode}

instance : DecidableRel Le := fun _ _ => inferInstanceAs (Decidable (_ ∨ _ ∧ _))

instance : DecidableRel Before := fun _ _ => inferInstanceAs (Decidable (_ ∨ _ ∧ _))

instance : Std.Total Le := ⟨fun a b => by
  unfold Le
  rcases Int.lt_trichotomy a.score.rank b.score.rank with h | h | h
  · exact .inl (.inl h)
  · rcases List.le_total a.member b.member with hm | hm
    · exact .inl (.inr ⟨h, hm⟩)
    · exact .inr (.inr ⟨h.symm, hm⟩)
  · exact .inr (.inl h)⟩

instance : IsTrans ArZNode Le := ⟨fun a b c hab hbc => by
  unfold Le at *
  rcases hab with h | ⟨h, hm⟩ <;> rcases hbc with h' | ⟨h', hm'⟩
  · exact .inl (h.trans h')
  · exact .inl (h' ▸ h)
  · exact .inl (h ▸ h')
  · exact .inr ⟨h.trans h', List.le_trans hm hm'⟩⟩

theorem Le.antisymm (h : a.Le b) (h' : b.Le a) : a.member = b.member := by
  unfold Le at h h'
  rcases h with h | ⟨h, hm⟩ <;> rcases h' with h' | ⟨h', hm'⟩
  · omega
  · omega
  · omega
  · exact List.le_antisymm hm hm'

theorem before_iff : a.Before b ↔ ¬b.Le a := by
  unfold Before Le
  constructor
  · rintro (h | ⟨h, hm⟩) (h' | ⟨h', hm'⟩)
    · omega
    · omega
    · omega
    · exact hm' hm
  · intro h
    rcases Int.lt_trichotomy a.score.rank b.score.rank with hr | hr | hr
    · exact .inl hr
    · refine .inr ⟨hr, ?_⟩
      by_contra hm
      exact h (.inr ⟨hr.symm, hm⟩)
    · exact absurd (.inl hr) h

/-- `zcmp` on numbers. -/
theorem zcmp_eq_lt_iff (ha : a.score.isNaN = false) (hb : b.score.isNaN = false) :
    zcmp a b = .lt ↔ a.Before b := by
  unfold zcmp Before CDouble.lt memcmp
  simp only [ha, hb, Bool.not_false, Bool.true_and, decide_eq_true_eq]
  rcases Int.lt_trichotomy a.score.rank b.score.rank with h | h | h
  · simp [h]
  · rw [h]
    simp only [Int.lt_irrefl, if_false, true_and, false_or]
    split
    · next hm => simp [hm]
    · next hm => split <;> simp [hm]
  · rw [if_neg (by omega), if_pos h]
    simp only [reduceCtorEq, false_iff, not_or, not_and]
    omega

end ArZNode

/-! ## The array as a ranked list -/

/-- A sorted set's array of numbers. -/
def ArZSet.Sorted (arr : List ArZNode) : Prop :=
  Ranked ArZNode.Le ArZNode.member arr ∧ ∀ n ∈ arr, n.score.isNaN = false

theorem insertNode_eq {n : ArZNode} {arr : List ArZNode} (hn : n.score.isNaN = false)
    (ha : ∀ x ∈ arr, x.score.isNaN = false) :
    ArZSet.insertNode n arr = arr.orderedInsert ArZNode.Le n := by
  induction arr with
  | nil => rfl
  | cons x arr ih =>
    have hx := ha x (.head _)
    unfold ArZSet.insertNode
    rw [List.orderedInsert_cons, ih fun y hy => ha y (.tail _ hy)]
    by_cases hb : x.Before n
    · rw [if_pos ((ArZNode.zcmp_eq_lt_iff hx hn).2 hb), if_neg (ArZNode.before_iff.1 hb)]
    · rw [if_neg fun h => hb ((ArZNode.zcmp_eq_lt_iff hx hn).1 h),
        if_pos (by_contra fun h => hb (ArZNode.before_iff.2 h))]

/-- What `ZADD` makes of the map from members to scores. -/
def addScores (ns : List ArZNode) (f : Bytes → Option CDouble) : Bytes → Option CDouble :=
  ns.foldl (fun f n => Function.update f n.member (some n.score)) f

/-- What `ZREM` makes of it. -/
def dropScores (members : List Bytes) (f : Bytes → Option CDouble) : Bytes → Option CDouble :=
  members.foldl (fun f m => Function.update f m none) f

/-- The scores in an array. -/
def scoresOf (arr : List ArZNode) (m : Bytes) : Option CDouble := (Spec.member? arr m).map (·.score)

namespace ArZSet.Sorted

variable {arr : List ArZNode} {n : ArZNode}

theorem nil : Sorted [] := ⟨.nil, fun n hn => by cases hn⟩

theorem strict (h : Sorted arr) : arr.Pairwise ArZNode.Before :=
  (h.1.strict fun _ _ => ArZNode.Le.antisymm).imp fun hab => ArZNode.before_iff.2 hab.2

/-- One pair of `ZADD`. -/
theorem put (h : Sorted arr) (hn : n.score.isNaN = false) :
    ArZSet.insertNode n (arr.eraseP (·.member == n.member)) = Ranked.put ArZNode.Le ArZNode.member n arr ∧
      Sorted (Ranked.put ArZNode.Le ArZNode.member n arr) := by
  have hd : ∀ x ∈ Ranked.drop ArZNode.member n.member arr, x.score.isNaN = false := fun x hx =>
    h.2 x (Ranked.drop_sublist.subset hx)
  refine ⟨insertNode_eq hn hd, h.1.put_ranked n, fun x hx => ?_⟩
  rcases (Ranked.mem_put h.1.names).1 hx with rfl | ⟨hx, -⟩
  · exact hn
  · exact h.2 x hx

/-- One member of `ZREM`. -/
theorem drop (h : Sorted arr) (m : Bytes) : Sorted (arr.eraseP (·.member == m)) :=
  ⟨h.1.drop_ranked m, fun x hx => h.2 x (List.eraseP_sublist.subset hx)⟩

theorem scoresOf_put (h : Sorted arr) :
    scoresOf (Ranked.put ArZNode.Le ArZNode.member n arr) =
      Function.update (scoresOf arr) n.member (some n.score) := by
  funext m
  have hl : Spec.member? (Ranked.put ArZNode.Le ArZNode.member n arr) m =
      if m = n.member then some n else Spec.member? arr m := Ranked.look_put h.1.names
  unfold scoresOf
  rw [hl, Function.update_apply]
  split <;> rfl

theorem scoresOf_drop (h : Sorted arr) (k : Bytes) :
    scoresOf (arr.eraseP (·.member == k)) = Function.update (scoresOf arr) k none := by
  funext m
  have hl : Spec.member? (arr.eraseP (·.member == k)) m = if m = k then none else Spec.member? arr m :=
    Ranked.look_drop h.1.names
  unfold scoresOf
  rw [hl, Function.update_apply]
  split <;> rfl

/-- The loop of `ZADD`. -/
theorem zaddNodes {ns : List ArZNode} (h : Sorted arr) (hns : ∀ n ∈ ns, n.score.isNaN = false) (k : Nat) :
    Sorted (Spec.zaddNodes ns arr k).1 ∧
      scoresOf (Spec.zaddNodes ns arr k).1 = addScores ns (scoresOf arr) := by
  induction ns generalizing arr k with
  | nil => exact ⟨h, rfl⟩
  | cons n ns ih =>
    obtain ⟨he, hs⟩ := h.put (hns n (.head _))
    unfold Spec.zaddNodes addScores
    rw [he, List.foldl_cons, ← h.scoresOf_put]
    exact ih hs (fun x hx => hns x (.tail _ hx)) _

/-- The loop of `ZREM`. -/
theorem zremMembers (h : Sorted arr) (members : List Bytes) (k : Nat) :
    Sorted (Spec.zremMembers members arr k).1 ∧
      scoresOf (Spec.zremMembers members arr k).1 = dropScores members (scoresOf arr) := by
  induction members generalizing arr k with
  | nil => exact ⟨h, rfl⟩
  | cons m members ih =>
    unfold Spec.zremMembers dropScores
    rw [List.foldl_cons, ← h.scoresOf_drop]
    exact ih (h.drop m) _

/-- Only new members make the array longer. -/
theorem length_zaddNodes {ns : List ArZNode} (h : Sorted arr) (hns : ∀ n ∈ ns, n.score.isNaN = false)
    (k : Nat) : (Spec.zaddNodes ns arr k).1.length ≤
      arr.length + ns.countP fun n => (Spec.member? arr n.member).isNone := by
  induction ns generalizing arr k with
  | nil => simp [Spec.zaddNodes]
  | cons n ns ih =>
    obtain ⟨he, hs⟩ := h.put (hns n (.head _))
    have hlen : (Ranked.put ArZNode.Le ArZNode.member n arr).length =
        arr.length + if (Spec.member? arr n.member).isNone then 1 else 0 := Ranked.length_put
    have hnew : ns.countP (fun x =>
        (Spec.member? (Ranked.put ArZNode.Le ArZNode.member n arr) x.member).isNone) ≤
        ns.countP fun x => (Spec.member? arr x.member).isNone := by
      refine List.countP_mono_left fun x _ hx => ?_
      have hl : Spec.member? (Ranked.put ArZNode.Le ArZNode.member n arr) x.member =
        if x.member = n.member then some n else Spec.member? arr x.member := Ranked.look_put h.1.names
      rw [hl] at hx
      split at hx
      · cases hx
      · exact hx
    have := ih hs (fun x hx => hns x (.tail _ hx)) (k + if (Spec.member? arr n.member).isNone then 1 else 0)
    unfold Spec.zaddNodes
    rw [he, List.countP_cons]
    omega

end ArZSet.Sorted

/-! ## Runs -/

/-- The slot of an array without a deadline: an empty one is no key. -/
def zsetSlot (arr : List ArZNode) : Option Slot := if arr = [] then none else some (.zset arr, 0)

/-- A slot is that of an array in order, within the cap, with these scores. -/
def HoldsScores (f : Bytes → Option CDouble) (s : Option Slot) : Prop :=
  ∃ arr, ArZSet.Sorted arr ∧ arr.length ≤ ArCore.zsetMaxMembers ∧ scoresOf arr = f ∧ s = zsetSlot arr

theorem alive_zsetSlot (t : Nat) (arr : List ArZNode) : Store.alive t (zsetSlot arr) = zsetSlot arr := by
  unfold zsetSlot Store.alive
  split
  · rfl
  · simp [Due]

theorem zadd_zsetSlot {ns : List ArZNode} (hns : ns ≠ []) (arr : List ArZNode) :
    Spec.zadd ns (zsetSlot arr) =
      let new := ns.countP fun n => (Spec.member? arr n.member).isNone
      if new > 0 ∧ arr.length + new > ArCore.zsetMaxMembers then (some (.zset arr, 0), .oversize)
      else (some (.zset (Spec.zaddNodes ns arr 0).1, 0), .added (Spec.zaddNodes ns arr 0).2) := by
  unfold Spec.zadd zsetSlot Spec.orCreate
  rw [if_neg (by simpa using hns)]
  by_cases ha : arr = [] <;> simp [ha]

variable {f : Bytes → Option CDouble} {s : Option Slot}

theorem HoldsScores.alive (h : HoldsScores f s) (t : Nat) : Store.alive t s = s := by
  obtain ⟨arr, -, -, -, rfl⟩ := h
  exact alive_zsetSlot t arr

theorem HoldsScores.zadd {ns : List ArZNode} (h : HoldsScores f s) (hns : ∀ n ∈ ns, n.score.isNaN = false)
    (hok : (Spec.zadd ns s).2 ≠ .oversize) : HoldsScores (addScores ns f) (Spec.zadd ns s).1 := by
  by_cases he : ns = []
  · subst he
    exact h
  obtain ⟨arr, hs, hlen, rfl, rfl⟩ := h
  rw [zadd_zsetSlot he] at hok ⊢
  dsimp only at hok ⊢
  split at hok
  · exact absurd rfl hok
  · next hcap =>
    obtain ⟨hs', hf⟩ := hs.zaddNodes hns 0
    have := hs.length_zaddNodes hns 0
    rw [if_neg hcap]
    refine ⟨_, hs', ?_, hf, ?_⟩
    · rw [not_and] at hcap
      by_cases h0 : 0 < ns.countP fun n => (Spec.member? arr n.member).isNone
      · have := hcap h0
        omega
      · omega
    · rw [zsetSlot, if_neg (zaddNodes_ne_nil (.inr he) 0)]

theorem HoldsScores.zrem (h : HoldsScores f s) (members : List Bytes) :
    HoldsScores (dropScores members f) (Spec.zrem members s).1 := by
  obtain ⟨arr, hs, hlen, rfl, rfl⟩ := h
  obtain ⟨hs', hf⟩ := hs.zremMembers members 0
  have hsub : ∀ (ms : List Bytes) (l : List ArZNode) (k : Nat), (Spec.zremMembers ms l k).1.length ≤ l.length := by
    intro ms
    induction ms with
    | nil => exact fun l k => Nat.le_refl _
    | cons m ms ih =>
      intro l k
      unfold Spec.zremMembers
      exact (ih _ _).trans List.eraseP_sublist.length_le
  refine ⟨_, hs', (hsub members arr 0).trans hlen, hf, ?_⟩
  by_cases ha : arr = []
  · subst ha
    have h0 : (Spec.zremMembers members [] 0).1 = [] := by
      have := hsub members [] 0
      exact List.length_eq_zero_iff.1 (by simpa using this)
    simp [zsetSlot, Spec.zrem, h0]
  · unfold zsetSlot Spec.zrem
    rw [if_neg ha]
    simp

/-- A call of a run on a sorted set: it adds or removes members of the key's set, with numbers for scores,
reads it, or is about other keys; it chooses no kernel. -/
def ArOp.OnZset (key : Bytes) : ArOp → Prop
  | arZsetZadd k ns => k = key → ∀ n ∈ ns, n.score.isNaN = false
  | arZsetZrem _ _ | arZsetZcard _ | arZsetGet _ | arZsetZscore _ _ => True
  | op => key ∉ op.keys ∧ op.setsKernel = false

/-- What a call makes of the scores of a key. -/
def ArOp.score (key : Bytes) (f : Bytes → Option CDouble) : ArOp → Bytes → Option CDouble
  | arZsetZadd k ns => if k = key then addScores ns f else f
  | arZsetZrem k members => if k = key then dropScores members f else f
  | _ => f

/-- **The last score given to each member and not taken back.** -/
def scores (key : Bytes) (calls : List Call) : Bytes → Option CDouble :=
  calls.foldl (fun f x => x.op.score key f) fun _ => none

/-- A call that the cap on the members does not refuse. -/
def WithinCap (key : Bytes) (c : ArCore) (x : Call) : Prop :=
  ∀ ns, x.op = .arZsetZadd key ns → (c.arZsetZadd x.E key ns).2 ≠ .oversize

variable {c : ArCore} {key : Bytes}

theorem ArOp.OnZset.setsKernel {op : ArOp} (h : op.OnZset key) : op.setsKernel = false := by
  cases op <;> first | rfl | exact h.2

/-- What is asked of another key. -/
theorem ArOp.score_of_notMem {op : ArOp} (h : key ∉ op.keys) : op.score key f = f := by
  cases op with
  | arZsetZadd k ns =>
    simp only [ArOp.score]
    rw [if_neg fun he => h (Set.mem_singleton_iff.2 he.symm)]
  | arZsetZrem k members =>
    simp only [ArOp.score]
    rw [if_neg fun he => h (Set.mem_singleton_iff.2 he.symm)]
  | _ => rfl

/-- The slot after a call that means a step. -/
theorem HoldsScores.of_step {β : Type} {t : Nat} {st : Store} {g : Option Slot → Option Slot × β}
    {y : Store × β} (hy : y = st.step t key g) (h : HoldsScores f (g (st key)).1) :
    HoldsScores f (y.1 key) := by
  rw [slot_of_step hy, h.alive]
  exact h

/-- **One call.** -/
theorem HoldsScores.call {x : Call} (hwf : c.WF) (hn : c.cfg.evict = .noop) (ha : x.E.AllocOk)
    (hop : x.op.OnZset key) (hcap : WithinCap key c x) (h : HoldsScores f (c.view x.t key)) :
    HoldsScores (x.op.score key f) ((x.op.run x.E c).1.view x.t key) := by
  by_cases hk : key ∈ x.op.keys
  · obtain ⟨hm, -⟩ := means_run hwf hn ha hop.setsKernel
    obtain ⟨E, t, op, hE⟩ := x
    cases op with
    | arZsetZadd k ns =>
      obtain rfl : key = k := hk
      have hans : (Spec.zadd ns (c.view t key)).2 ≠ .oversize := by
        rw [show (Spec.zadd ns (c.view t key)).2 = _ from (congrArg Prod.snd hm).symm]
        exact hcap ns rfl
      have hnew := HoldsScores.of_step hm (h.zadd (hop rfl) hans)
      simpa only [ArOp.score, if_true] using hnew
    | arZsetZrem k members =>
      obtain rfl : key = k := hk
      have hnew := HoldsScores.of_step hm (h.zrem members)
      simpa only [ArOp.score, if_true] using hnew
    | arZsetZcard k =>
      obtain rfl : key = k := hk
      exact .of_step hm h
    | arZsetGet k =>
      obtain rfl : key = k := hk
      exact .of_step hm h
    | arZsetZscore k m =>
      obtain rfl : key = k := hk
      exact .of_step hm h
    | _ => exact absurd hk hop.1
  · rw [ArOp.score_of_notMem hk, view_of_notMem hwf hn hop.setsKernel hk]
    exact h

/-! ## Reads -/

/-- The members with a score are those of the array. -/
theorem ArZSet.Sorted.scoresOf_eq_some_iff {arr : List ArZNode} (h : ArZSet.Sorted arr) {m : Bytes}
    {d : CDouble} : scoresOf arr m = some d ↔ ⟨d, m⟩ ∈ arr := by
  have hl : ∀ n, Spec.member? arr m = some n ↔ n ∈ arr ∧ n.member = m := fun n =>
    Ranked.look_eq_some_iff h.1.names
  unfold scoresOf
  rw [Option.map_eq_some_iff]
  constructor
  · rintro ⟨n, hn, rfl⟩
    obtain ⟨hm, rfl⟩ := (hl n).1 hn
    exact hm
  · intro hm
    exact ⟨_, (hl ⟨d, m⟩).2 ⟨hm, rfl⟩, rfl⟩

theorem ArZSet.Sorted.ncard_scoresOf {arr : List ArZNode} (h : ArZSet.Sorted arr) :
    Set.ncard {m | (scoresOf arr m).isSome} = arr.length := by
  have hset : ({m | (scoresOf arr m).isSome} : Set Bytes) = ((arr.map ArZNode.member).toFinset : Set Bytes) := by
    ext m
    simp only [Set.mem_ofPred_eq, Option.isSome_iff_exists, h.scoresOf_eq_some_iff, List.coe_toFinset,
      List.mem_map]
    constructor
    · rintro ⟨d, hd⟩
      exact ⟨_, hd, rfl⟩
    · rintro ⟨n, hn, rfl⟩
      exact ⟨n.score, hn⟩
  rw [hset, Set.ncard_coe_finset, List.toFinset_card_of_nodup h.1.names, List.length_map]

section
variable {E : Env} {t : Nat} {arr : List ArZNode}

theorem zscore_of_view (hE : E.Frozen t) (ha : E.AllocOk) (hwf : c.WF) (hn : c.cfg.evict = .noop)
    (hv : c.view t key = zsetSlot arr) (m : Bytes) :
    (c.arZsetZscore E key m).2 = ((scoresOf arr m).map .found).getD .missing := by
  have hm : (_, (c.arZsetZscore E key m).2) = (c.view t).step t key (Spec.zscore m) :=
    (ArOp.sound hE hwf (.arZsetZscore key m) rfl).means ha hn
  have ha : (c.arZsetZscore E key m).2 = (Spec.zscore m (c.view t key)).2 := congrArg Prod.snd hm
  rw [ha, hv]
  by_cases h0 : arr = []
  · simp [h0, Spec.zscore, Spec.readZset, zsetSlot, scoresOf, Spec.member?]
  · simp only [Spec.zscore, Spec.readZset, zsetSlot, scoresOf, if_neg h0]
    cases Spec.member? arr m <;> rfl

theorem zcard_of_view (hE : E.Frozen t) (ha : E.AllocOk) (hwf : c.WF) (hn : c.cfg.evict = .noop)
    (hv : c.view t key = zsetSlot arr) :
    (c.arZsetZcard E key).2 = if arr = [] then .missing else .found arr.length := by
  have hm : (_, (c.arZsetZcard E key).2) = (c.view t).step t key Spec.zcard :=
    (ArOp.sound hE hwf (.arZsetZcard key) rfl).means ha hn
  have ha : (c.arZsetZcard E key).2 = (Spec.zcard (c.view t key)).2 := congrArg Prod.snd hm
  rw [ha, hv]
  by_cases h0 : arr = [] <;> simp [h0, Spec.zcard, Spec.readZset, zsetSlot]

theorem zget_of_view (hE : E.Frozen t) (ha : E.AllocOk) (hwf : c.WF) (hn : c.cfg.evict = .noop)
    (hv : c.view t key = zsetSlot arr) :
    (ArOp.run E c (.arZsetGet key)).2 = (Spec.zget (zsetSlot arr)).2 := by
  have hm : (_, (ArOp.run E c (.arZsetGet key)).2) = (c.view t).step t key Spec.zget :=
    (ArOp.sound hE hwf (.arZsetGet key) rfl).means ha hn
  rw [← hv]
  exact congrArg Prod.snd hm

end

/-- **The calls one after the other.** -/
theorem HoldsScores.run {t : Nat} {calls : List Call} (hwf : c.WF) (hn : c.cfg.evict = .noop)
    (ha : ∀ x ∈ calls, x.E.AllocOk ∧ x.op.OnZset key) (hcap : c.Each (WithinCap key) calls)
    (ht : (t :: calls.map Call.t).Pairwise (· ≤ ·)) (h : HoldsScores f (c.view t key)) :
    HoldsScores (calls.foldl (fun f x => x.op.score key f) f)
      ((c.runCalls calls).view (lastTime t calls) key) ∧ (c.runCalls calls).WF ∧
      (c.runCalls calls).cfg.evict = .noop := by
  refine holds_run HoldsScores (fun f op => op.score key f) (fun _ c x => x.op.OnZset key ∧ WithinCap key c x)
    (fun f s h => h.alive) (fun f c x hwf hn hax hmay hf => ?_) hwf hn (fun x hx => (ha x hx).1)
    (fun pre x post hp => ?_) ht h
  · exact ⟨hmay.1.setsKernel, hf.call hwf hn hax hmay.1 hmay.2⟩
  · refine ⟨(ha x ?_).2, hcap.at_prefix pre x post hp⟩
    rw [hp]
    exact List.mem_append_right pre (.head post)

end AuraRedis
