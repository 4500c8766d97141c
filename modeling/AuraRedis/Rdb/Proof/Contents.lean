import AuraRedis.Rdb.Proof.Lifetime
import AuraRedis.Server.Proof.PubSub

/-!
# The contents of a snapshot

A snapshot that keeps the format's limits is saved, and loaded again into an empty core: `saved_and_loaded`. The
core then shows what the saved one would show at the time of the load, with the deadlines of containers in whole
seconds from then on. `Puts` is the walk: what each piece of the restore makes of the map.
-/

set_option autoImplicit false

namespace AuraRedis

open Code Prog

namespace Rdb

/-! ## What comes back -/

/-- What a slot is when it has been loaded at `t`. -/
def reloaded (t : Nat) : Slot → Slot
  | (.string val, d) => (.string val, d)
  | (v, d) => (v, if d = 0 then 0 else t + (d - t + 999) / 1000 * 1000)

/-- The blobs of an entry's record. -/
def blobs (e : ArEntry) : List Bytes :=
  e.key :: match e.obj with
    | .string val => [val]
    | .hash h => h.buckets.flatten.flatMap fun f => [f.1, f.2]
    | .list l => l
    | .zset z => z.arr.map (·.member)

/-- The order of a sorted set's array. -/
def InOrder : ArObj → Prop
  | .zset z => z.arr.Pairwise fun a b => zcmp a b = .lt
  | _ => True

instance : DecidablePred InOrder := fun o => match o with
  | .zset z => inferInstanceAs (Decidable (z.arr.Pairwise fun a b => zcmp a b = .lt))
  | .string _ | .hash _ | .list _ => inferInstanceAs (Decidable True)

/-- An entry that the format can hold. -/
structure Holdable (e : ArEntry) : Prop where
  blobs : ∀ p ∈ Rdb.blobs e, p.length ≤ maxBlob
  count : Rdb.count e.obj ≤ maxElems
  full : e.obj.type = .string ∨ Rdb.count e.obj ≠ 0
  order : InOrder e.obj
  deadline : e.expireAt + 1000 ≤ 2 ^ 64

/-- A core whose snapshot the format can hold. -/
structure Savable (c : ArCore) (t : Nat) : Prop where
  wf : c.WF
  entries : ∀ e ∈ live c t, Holdable e
  lives : (live c t).length ≤ maxEntries

/-! ## Saving -/

theorem isSome_wrAll {α : Type} {f : α → Option Bytes} {as : List α} (h : ∀ a ∈ as, (f a).isSome) :
    (wrAll f as).isSome := by
  induction as with
  | nil => rfl
  | cons a as ih =>
    obtain ⟨s, hs⟩ := Option.isSome_iff_exists.1 (h a (.head _))
    obtain ⟨s', hs'⟩ := Option.isSome_iff_exists.1 (ih fun b hb => h b (.tail _ hb))
    unfold wrAll
    rw [hs, hs']
    rfl

theorem isSome_wrBlob {p : Bytes} (h : p.length ≤ maxBlob) : (wrBlob p).isSome := by
  have hle : maxBlob ≤ maxLen := by decide
  unfold wrBlob
  rw [if_neg (by omega)]
  rfl

variable {c : ArCore} {t t₀ : Nat} {e : ArEntry}

theorem isSome_writePayload (hw : e.obj.WF) (h : Holdable e) : (writePayload e.obj).isSome := by
  have hb : ∀ p ∈ blobs e, (wrBlob p).isSome := fun p hp => isSome_wrBlob (h.blobs p hp)
  unfold blobs at hb
  cases hobj : e.obj with
  | string val =>
    rw [hobj] at hb
    exact hb val (by simp)
  | hash m =>
    rw [hobj] at hb hw
    have hn : m.nfields = m.buckets.flatten.length := hw.nfields
    obtain ⟨s, hs⟩ := Option.isSome_iff_exists.1 (isSome_wrAll fun p hp => hb p (.tail _ hp))
    show (writeHash m).isSome
    unfold writeHash
    rw [hs, Option.bind_some, if_pos (by rw [hn])]
    rfl
  | list l =>
    rw [hobj] at hb
    have hall : (wrAll wrBlob l).isSome := isSome_wrAll fun p hp => hb p (.tail _ hp)
    show (writeList l).isSome
    unfold writeList
    rwa [Option.isSome_map]
  | zset z =>
    rw [hobj] at hb
    have hall : (wrAll (fun n : ArZNode => (wrBlob n.member).map fun s => le 8 n.score.bits.toNat ++ s)
        z.arr).isSome := isSome_wrAll fun n hn => by
      rw [Option.isSome_map]
      exact hb n.member (.tail _ (List.mem_map_of_mem hn))
    show (writeZset z).isSome
    unfold writeZset
    rwa [Option.isSome_map]

theorem isSome_writeEntryV2 (hw : e.obj.WF) (h : Holdable e) : (writeEntryV2 e).isSome := by
  obtain ⟨key, hkey⟩ := Option.isSome_iff_exists.1 (isSome_wrBlob (h.blobs e.key (.head _)))
  unfold writeEntryV2
  rw [hkey, Option.bind_some, Option.isSome_map]
  exact isSome_writePayload hw h

theorem wf_of_live (hwf : c.WF) (he : e ∈ live c t) : e.obj.WF := by
  refine hwf.objs e.toItem (Multiset.mem_map_of_mem _ ?_)
  rw [← coe_linked]
  exact Multiset.mem_coe.2 (mem_live.1 he).1

theorem Savable.dump (h : Savable c t) : ∃ s, dump c t = some s := by
  refine Option.isSome_iff_exists.1 ?_
  unfold Rdb.dump
  rw [Option.isSome_map]
  exact isSome_wrAll fun e he => isSome_writeEntryV2 (wf_of_live h.wf he) (h.entries e he)

/-! ## The walk -/

/-- The core is well formed, evicts nothing and shows the map at the time. -/
structure Showing (t : Nat) (s : Store) (w : World) : Prop where
  wf : w.core.WF
  noop : w.core.cfg.evict = .noop
  view : w.core.view t = s

/-- Wherever the map is `s`, the code succeeds and makes it `s'`. -/
def Puts (O : Outside) (t : Nat) (s : Store) (p : Code Unit) (s' : Store) : Prop :=
  ∀ w, Showing t s w → ∃ w', p.exec O w = (w', some ()) ∧ Showing t s' w'

variable {O : Outside} {s s₁ s' : Store} {key : Bytes}

theorem Puts.ret (s : Store) : Puts O t s (Prog.ret ()) s := fun w h => ⟨w, rfl, h⟩

theorem Puts.seq {p q : Code Unit} (hp : Puts O t s p s₁) (hq : Puts O t s₁ q s') :
    Puts O t s (p >>= fun _ => q) s' := by
  intro w h
  obtain ⟨w₁, hw₁, h₁⟩ := hp w h
  obtain ⟨w', hw', h'⟩ := hq w₁ h₁
  exact ⟨w', (exec_seq hw₁).trans hw', h'⟩

/-- One piece for each element; `st` is the map when some of them are in. -/
theorem Puts.each {α : Type} {f : α → Code Unit} (st : List α → Store) (as : List α)
    (h : ∀ pre a post, as = pre ++ a :: post → Puts O t (st pre) (f a) (st (pre ++ [a]))) :
    Puts O t (st []) (Prog.each f as) (st as) := by
  suffices hgen : ∀ post pre, as = pre ++ post → Puts O t (st pre) (Prog.each f post) (st as) from hgen as [] rfl
  intro post
  induction post with
  | nil =>
    intro pre hpre
    rw [hpre, List.append_nil]
    exact .ret _
  | cons a post ih =>
    intro pre hpre
    refine (h pre a post hpre).seq (ih (pre ++ [a]) ?_)
    rw [hpre, List.append_assoc, List.singleton_append]

section
variable (hO : ∀ n, (O.env n).Frozen t) (ha : O.AllocOk)
include ha

theorem puts_takeIn {p : Bytes} (hp : p.length ≤ maxBlob) (s : Store) : Puts O t s (takeIn p) s := by
  intro w h
  unfold takeIn alloc check
  rw [if_neg (by omega), exec_malloc ha]
  exact ⟨_, rfl, (Quiet.malloc (O.env w.calls) w.core).wf h.wf, h.noop, h.view⟩

include hO

/-- A call that comes to this by what it means. -/
theorem puts_call {o : ArOp} {k : o.Ans → Code Unit} (ho : o.isKnob = false)
    (hk : ∀ x : Store × o.Ans, o.Means t s x → x.1 = s' ∧ k x.2 = Prog.ret ()) :
    Puts O t s (call o >>= k) s' := by
  intro w h
  have hs := o.sound (hO w.calls) h.wf ho
  have hm := hs.means (ha w.calls) h.noop
  rw [h.view] at hm
  obtain ⟨hview, hret⟩ := hk _ hm
  refine ⟨_, (exec_call O w o k).trans (by rw [hret]; rfl), hs.evolves.wf h.wf, ?_, hview⟩
  exact (congrArg Cfg.evict hs.evolves.cfg).trans h.noop

end

/-! ## Slots -/

theorem alive_of_due {v : AVal} {d : Nat} (h : Due t d) : Store.alive t (some (v, d)) = none := by
  unfold Store.alive
  rw [Option.filter_some, if_neg (by simpa using h)]

theorem alive_of_not_due {v : AVal} {d : Nat} (h : ¬Due t d) : Store.alive t (some (v, d)) = some (v, d) := by
  unfold Store.alive
  rw [Option.filter_some, if_pos (by simpa using h)]

theorem alive_zero (t : Nat) (v : AVal) : Store.alive t (some (v, 0)) = some (v, 0) :=
  alive_of_not_due fun h => h.1 rfl

theorem expired_eq (exp now : Nat) : expired exp now = decide (Due now exp) := by
  unfold expired Due
  exact Bool.decide_and .. |>.symm

theorem step_update {β : Type} (s : Store) (key : Bytes) (o : Option Slot) (f : Option Slot → Option Slot × β) :
    Store.step t key f (Function.update s key o) =
      (Function.update s key (Store.alive t (f o).1), (f o).2) := by
  unfold Store.step
  rw [Function.update_idem, Function.update_self]

/-- A container with the elements it has so far. -/
def partly {α : Type} (mk : List α → AVal) (as : List α) : Option Slot :=
  if as.isEmpty then none else some (mk as, 0)

theorem partly_append {α : Type} (mk : List α → AVal) (as : List α) (a : α) :
    partly mk (as ++ [a]) = some (mk (as ++ [a]), 0) := by
  unfold partly
  simp

/-- A write to a container that has some elements. -/
theorem orCreate_partly {α β : Type} (mk : List α → AVal) {empty : AVal} (h0 : mk [] = empty) (as : List α)
    (f : AVal → Nat → Option Slot × β) : Spec.orCreate empty (partly mk as) f = f (mk as) 0 := by
  unfold partly
  cases as with
  | nil => rw [h0]; rfl
  | cons a as => rfl

/-- The fields of the pairs, one after the other. -/
def fieldsOf (fs : List (Bytes × Bytes)) : FieldMap := fs.foldl (fun m f => m.insert f.1 f.2) ∅

theorem fieldsOf_append (fs : List (Bytes × Bytes)) (f : Bytes × Bytes) :
    fieldsOf (fs ++ [f]) = (fieldsOf fs).insert f.1 f.2 := by
  unfold fieldsOf
  rw [List.foldl_append]
  rfl

theorem lookup_inserts {fs : List (Bytes × Bytes)} (hn : (fs.map Prod.fst).Nodup) (m : FieldMap) (field : Bytes) :
    (fs.foldl (fun m f => m.insert f.1 f.2) m).lookup field =
      (List.dlookup field (fs.map Prod.toSigma)).or (m.lookup field) := by
  induction fs generalizing m with
  | nil => rfl
  | cons f fs ih =>
    rw [List.map_cons, List.nodup_cons] at hn
    rw [List.foldl_cons, ih hn.2, List.map_cons]
    by_cases hf : field = f.1
    · subst hf
      have hnone : List.dlookup f.1 (fs.map Prod.toSigma) = none := by
        rw [List.dlookup_eq_none, List.keys, List.map_map]
        exact hn.1
      have hself : List.dlookup f.1 (f.toSigma :: fs.map Prod.toSigma) = some f.2 := List.dlookup_cons_eq ..
      rw [hnone, hself, Finmap.lookup_insert, Option.none_or]
      rfl
    · rw [Finmap.lookup_insert_of_ne _ hf]
      exact (congrArg (Option.or · _) (List.dlookup_cons_ne _ (Prod.toSigma f) hf)).symm

/-- The table's fields, inserted one by one, are the map. -/
theorem fieldsOf_flatten {h : ArHash} (hw : h.WF) : fieldsOf h.buckets.flatten = h.fields := by
  apply Finmap.ext_lookup
  intro field
  unfold fieldsOf ArHash.fields
  rw [lookup_inserts hw.nodup, Finmap.dlookup_list_toFinmap, Finmap.lookup_empty, Option.or_none]

/-- A member that comes after all of them goes to the end. -/
theorem insertNode_last {n : ArZNode} {arr : List ArZNode} (h : ∀ x ∈ arr, zcmp x n = .lt) :
    ArZSet.insertNode n arr = arr ++ [n] := by
  induction arr with
  | nil => rfl
  | cons x arr ih =>
    unfold ArZSet.insertNode
    rw [if_pos (h x (.head _)), ih fun y hy => h y (.tail _ hy)]
    rfl

/-! ## Entries -/

section
variable (hO : ∀ n, (O.env n).Frozen t) (ha : O.AllocOk)
include hO ha

theorem puts_item {l : List Bytes} (hb : ∀ p ∈ l, p.length ≤ maxBlob) (s : Store) (key : Bytes) :
    Puts O t (Function.update s key (partly .list [])) (Prog.each (restoreItem key) l)
      (Function.update s key (partly .list l)) := by
  refine .each (fun pre => Function.update s key (partly .list pre)) l fun pre p post hl => ?_
  refine (puts_takeIn ha (hb p (by simp [hl])) _).seq ?_
  refine puts_call hO ha rfl fun x hx => ?_
  have hpush : Spec.push false [p] (partly .list pre) =
      (some (.list (pre ++ [p]), 0), .found (pre ++ [p]).length) := by
    unfold Spec.push
    rw [if_neg (by simp), orCreate_partly _ rfl]
    rfl
  have hx : x = _ := hx
  rw [hx, step_update, hpush, partly_append, alive_zero]
  exact ⟨rfl, rfl⟩

theorem puts_field {h : ArHash} (hb : ∀ f ∈ h.buckets.flatten, f.1.length ≤ maxBlob ∧ f.2.length ≤ maxBlob)
    (s : Store) (key : Bytes) :
    Puts O t (Function.update s key (partly (fun fs => .hash (fieldsOf fs)) []))
      (Prog.each (restoreField key) h.buckets.flatten)
      (Function.update s key (partly (fun fs => .hash (fieldsOf fs)) h.buckets.flatten)) := by
  refine .each (fun pre => Function.update s key (partly (fun fs => .hash (fieldsOf fs)) pre)) h.buckets.flatten
    fun pre f post hl => ?_
  obtain ⟨hb₁, hb₂⟩ := hb f (hl ▸ List.mem_append_cons_self)
  refine (puts_takeIn ha hb₁ _).seq ((puts_takeIn ha hb₂ _).seq ?_)
  refine puts_call hO ha rfl fun x hx => ?_
  have hset : ∃ n, Spec.hset [f] (partly (fun fs => .hash (fieldsOf fs)) pre) =
      (some (.hash (fieldsOf (pre ++ [f])), 0), .found n) := by
    unfold Spec.hset
    rw [if_neg (by simp), fieldsOf_append]
    exact ⟨_, orCreate_partly (fun fs => .hash (fieldsOf fs)) rfl pre _⟩
  obtain ⟨n, hset⟩ := hset
  have hx : x = _ := hx
  rw [hx, step_update, hset, partly_append, alive_zero]
  exact ⟨rfl, rfl⟩

theorem puts_member {z : ArZSet} (hw : z.WF) (ho : z.arr.Pairwise fun a b => zcmp a b = .lt)
    (hb : ∀ n ∈ z.arr, n.member.length ≤ maxBlob) (s : Store) (key : Bytes) :
    Puts O t (Function.update s key (partly .zset [])) (Prog.each (restoreMember key) z.arr)
      (Function.update s key (partly .zset z.arr)) := by
  refine .each (fun pre => Function.update s key (partly .zset pre)) z.arr fun pre n post hl => ?_
  refine (puts_takeIn ha (hb n (by simp [hl])) _).seq ?_
  refine puts_call hO ha rfl fun x hx => ?_
  have hnames := hw.nodup
  rw [hl, List.map_append, List.map_cons] at hnames
  have hnew : n.member ∉ pre.map ArZNode.member := fun hm =>
    (List.nodup_append.1 hnames).2.2 _ hm _ (.head _) rfl
  have hlast : ∀ x ∈ pre, zcmp x n = .lt := fun x hx => by
    rw [hl, List.pairwise_append] at ho
    exact ho.2.2 x hx n (.head _)
  have hlen : pre.length + 1 ≤ ArCore.zsetMaxMembers := by
    have := hw.len
    rw [hl, List.length_append, List.length_cons] at this
    omega
  have hnone : Spec.member? pre n.member = none := by
    unfold Spec.member?
    rw [List.find?_eq_none]
    intro x hx he
    exact hnew (List.mem_map.2 ⟨x, hx, by simpa using he⟩)
  have herase : pre.eraseP (·.member == n.member) = pre := List.eraseP_of_forall_not fun x hx he =>
    hnew (List.mem_map.2 ⟨x, hx, by simpa using he⟩)
  have hadd : Spec.zadd [n] (partly .zset pre) = (some (.zset (pre ++ [n]), 0), .added 1) := by
    unfold Spec.zadd
    rw [if_neg (by simp), orCreate_partly _ rfl]
    simp only [List.countP_cons, List.countP_nil, hnone, Spec.zaddNodes, herase, insertNode_last hlast]
    rw [if_neg (by simp; omega)]
    rfl
  have hx : x = _ := hx
  rw [hx, step_update, hadd, partly_append, alive_zero]
  exact ⟨rfl, rfl⟩

/-- The deadline of a container. -/
theorem puts_expire {exp : Nat} (hd : exp + 1000 ≤ 2 ^ 64) (hnd : ¬Due t exp) {v : AVal}
    (hv : ∀ val, v ≠ .string val) (s : Store) (key : Bytes) :
    Puts O t (Function.update s key (some (v, 0))) (applyExpireAbs key exp t)
      (Function.update s key (some (reloaded t (v, exp)))) := by
  have hre : reloaded t (v, exp) = (v, if exp = 0 then 0 else t + (exp - t + 999) / 1000 * 1000) := by
    cases v with
    | string val => exact absurd rfl (hv val)
    | hash _ | list _ | zset _ => rfl
  unfold applyExpireAbs
  rw [hre]
  by_cases h0 : exp = 0
  · rw [if_pos (.inl h0), if_pos h0]
    exact .ret _
  have hlt : t < exp := by
    unfold Due at hnd
    omega
  rw [if_neg (by omega), if_neg h0]
  refine puts_call hO ha rfl fun x hx => ?_
  have hpos := expireSec_pos exp t
  have hsec : (t + uint64 (expireSec exp t) * 1000) % 2 ^ 64 = t + (exp - t + 999) / 1000 * 1000 := by
    rw [uint64_expireSec hlt (by omega), Nat.mod_eq_of_lt (a := exp - t + 999) (by omega)]
    omega
  have hx : x = _ := hx
  rw [hx, step_update, hsec]
  unfold Spec.expire
  rw [if_neg (by omega)]
  refine ⟨congrArg (Function.update s key) ?_, rfl⟩
  refine alive_of_not_due ?_
  unfold Due
  omega

/-- A container's record. -/
theorem puts_container {α : Type} {skip put : α → Code Unit} {mk : List α → AVal} {as : List α} {exp : Nat}
    (hlen : as.length ≤ maxElems) (hne : as ≠ []) (hmk : ∀ val, mk as ≠ .string val)
    (hd : exp + 1000 ≤ 2 ^ 64) (hskip : ∀ a ∈ as, Puts O t s (skip a) s)
    (hput : Puts O t (Function.update s key (partly mk [])) (Prog.each put as)
      (Function.update s key (partly mk as))) (hs : s key = none) :
    Puts O t s (restoreContainer skip put key exp t as)
      (Function.update s key ((Store.alive t (some (mk as, exp))).map (reloaded t))) := by
  have hnone : Function.update s key none = s := by rw [← hs, Function.update_eq_self]
  unfold restoreContainer
  rw [if_neg (by omega)]
  by_cases hdue : Due t exp
  · rw [expired_eq, if_pos (decide_eq_true hdue), alive_of_due hdue, Option.map_none, hnone]
    exact .each (fun _ => s) as fun pre a post hl => hskip a (by simp [hl])
  · have hall : partly mk as = some (mk as, 0) := by
      unfold partly
      rw [if_neg (by simpa using hne)]
    have hnil : partly mk [] = none := rfl
    rw [hnil, hnone, hall] at hput
    rw [expired_eq, if_neg (by simpa using hdue), alive_of_not_due hdue, Option.map_some]
    exact hput.seq (puts_expire hO ha hd hdue hmk s key)

/-- What an entry is when it has been loaded, if it lives then. -/
def back (t : Nat) (e : ArEntry) : Option Slot := (Store.alive t (some (e.obj.abs, e.expireAt))).map (reloaded t)

theorem puts_restore (h : Holdable e) (hw : e.obj.WF) (hs : s e.key = none) :
    Puts O t s (restore t e) (Function.update s e.key (back t e)) := by
  obtain ⟨hb, hcount, hfull, horder, hd⟩ := h
  unfold blobs at hb
  refine (puts_takeIn ha (hb e.key (.head _)) s).seq ?_
  have hmod : e.expireAt % 2 ^ 64 = e.expireAt := Nat.mod_eq_of_lt (by omega)
  rw [hmod]
  unfold back
  cases hobj : e.obj with
  | string val =>
    rw [hobj] at hb
    refine (puts_takeIn ha (hb val (by simp)) s).seq ?_
    rw [expired_eq]
    by_cases hdue : Due t e.expireAt
    · have hnone : Function.update s e.key none = s := by rw [← hs, Function.update_eq_self]
      rw [if_neg (by simpa using hdue), alive_of_due hdue, Option.map_none, hnone]
      exact .ret s
    · rw [if_pos (by simpa using hdue), alive_of_not_due hdue]
      refine puts_call hO ha rfl fun x hx => ?_
      have hx : x = (Function.update s e.key (Store.alive t (some (.string val, e.expireAt))), true) := hx
      rw [hx, alive_of_not_due hdue]
      exact ⟨rfl, rfl⟩
  | hash m =>
    rw [hobj] at hb hw hfull hcount
    have hf : ∀ f ∈ m.buckets.flatten, f.1.length ≤ maxBlob ∧ f.2.length ≤ maxBlob := fun f hf =>
      ⟨hb f.1 (.tail _ (List.mem_flatMap.2 ⟨f, hf, .head _⟩)),
        hb f.2 (.tail _ (List.mem_flatMap.2 ⟨f, hf, .tail _ (.head _)⟩))⟩
    have hne : m.buckets.flatten ≠ [] := List.length_pos_iff.1 (Nat.pos_of_ne_zero (hfull.resolve_left nofun))
    have habs : (ArObj.hash m).abs = .hash (fieldsOf m.buckets.flatten) := by
      rw [fieldsOf_flatten hw]
      rfl
    rw [habs]
    exact puts_container hO ha hcount hne (fun _ h => by cases h) hd
      (fun f hm => (puts_takeIn ha (hf f hm).1 s).seq (puts_takeIn ha (hf f hm).2 s)) (puts_field hO ha hf s e.key) hs
  | list l =>
    rw [hobj] at hb hfull hcount
    have hl : ∀ p ∈ l, p.length ≤ maxBlob := fun p hp => hb p (.tail _ hp)
    have hne : l ≠ [] := List.length_pos_iff.1 (Nat.pos_of_ne_zero (hfull.resolve_left nofun))
    exact puts_container hO ha hcount hne nofun hd (fun p hp => puts_takeIn ha (hl p hp) s)
      (puts_item hO ha hl s e.key) hs
  | zset z =>
    rw [hobj] at hb hw hfull hcount horder
    have hm : ∀ n ∈ z.arr, n.member.length ≤ maxBlob := fun n hn => hb _ (.tail _ (List.mem_map_of_mem hn))
    have hne : z.arr ≠ [] := List.length_pos_iff.1 (Nat.pos_of_ne_zero (hfull.resolve_left nofun))
    exact puts_container hO ha hcount hne nofun hd (fun n hn => puts_takeIn ha (hm n hn) s)
      (puts_member hO ha hw horder hm s e.key) hs

/-- The map when these entries have been put back. -/
def putBack (t : Nat) (es : List ArEntry) (s : Store) : Store :=
  es.foldl (fun s e => Function.update s e.key (back t e)) s

theorem puts_all {es : List ArEntry} (hn : (es.map (·.key)).Nodup) (h : ∀ e ∈ es, Holdable e ∧ e.obj.WF)
    (hs : ∀ e ∈ es, s e.key = none) : Puts O t s (restoreAll t es) (putBack t es s) := by
  induction es generalizing s with
  | nil => exact .ret s
  | cons e es ih =>
    rw [List.map_cons, List.nodup_cons] at hn
    obtain ⟨hh, hw⟩ := h e (.head _)
    refine (puts_restore hO ha hh hw (hs e (.head _))).seq (ih hn.2 (fun b hb => h b (.tail _ hb)) fun b hb => ?_)
    have hne : b.key ≠ e.key := fun heq => hn.1 (List.mem_map.2 ⟨b, hb, heq⟩)
    rw [Function.update_of_ne hne]
    exact hs b (.tail _ hb)

end

theorem putBack_of_notMem {es : List ArEntry} (h : key ∉ es.map (·.key)) (s : Store) : putBack t es s key = s key := by
  induction es generalizing s with
  | nil => rfl
  | cons e es ih =>
    rw [List.map_cons, List.mem_cons, not_or] at h
    exact (ih h.2 _).trans (Function.update_of_ne h.1 ..)

theorem putBack_of_mem {es : List ArEntry} (hn : (es.map (·.key)).Nodup) (he : e ∈ es) (s : Store) :
    putBack t es s e.key = back t e := by
  induction es generalizing s with
  | nil => cases he
  | cons a es ih =>
    rw [List.map_cons, List.nodup_cons] at hn
    rcases List.mem_cons.1 he with rfl | he
    · exact (putBack_of_notMem hn.1 _).trans (Function.update_self ..)
    · exact ih hn.2 he _

/-- The entries of the snapshot put back are what the saved core would show. -/
theorem putBack_live (hwf : c.WF) (ht : t₀ ≤ t) :
    putBack t (live c t₀) (fun _ => none) = fun key => (c.view t key).map (reloaded t) := by
  funext key
  rw [← view_at hwf ht]
  by_cases hk : key ∈ (live c t₀).map (·.key)
  · obtain ⟨e, he, rfl⟩ := List.mem_map.1 hk
    rw [putBack_of_mem (nodup_live hwf) he]
    unfold Store.at_ ArCore.view
    rw [peek_of_live hwf he]
    rfl
  · have hnone : c.peek t₀ key = none := by
      by_contra hne
      obtain ⟨i, hi⟩ := Option.ne_none_iff_exists'.1 hne
      obtain ⟨e, he, rfl⟩ := exists_live_of_peek hwf hi
      obtain ⟨-, rfl, -⟩ := (peek_eq_some_iff hwf).1 hi
      exact hk (List.mem_map_of_mem he)
    rw [putBack_of_notMem hk]
    unfold Store.at_ ArCore.view
    rw [hnone]
    rfl

/-! ## A snapshot there and back -/

theorem Showing.opened {w : World} (h : Showing t s w) : Showing t s (opened w) := ⟨⟨h.wf.dict, h.wf.objs⟩, h.noop, h.view⟩

theorem Showing.closed {w : World} (h : Showing t s w) : Showing t s (closed w) := ⟨⟨h.wf.dict, h.wf.objs⟩, h.noop, h.view⟩

theorem Savable.count_lt (h : Savable c t) : ∀ e ∈ live c t, count e.obj < 2 ^ 32 := fun e he =>
  ((h.entries e he).count.trans (by decide)).trans_lt (show maxElems < 2 ^ 32 by decide)

/-- The bytes of a snapshot, read into an empty core. -/
theorem puts_loadBytes (hO : ∀ n, (O.env n).Frozen t) (ha : O.AllocOk) (h : Savable c t₀) (ht : t₀ ≤ t) {data : Bytes}
    (hdump : dump c t₀ = some data) :
    Puts O t (fun _ => none) (loadBytes data) fun key => (c.view t key).map (reloaded t) := by
  intro w hw
  have hmax := h.lives
  have hcap : maxEntries < 2 ^ 64 := by decide
  rw [loadBytes_dump hdump h.count_lt (by omega), if_neg (by omega), exec_step]
  have hnow : ((Eff.now).perform O w).2 = t := hO w.calls _
  have hclocked : Showing t (fun _ => none) ((Eff.now).perform O w).1 :=
    ⟨(Quiet.arNowMs (O.env w.calls) w.core).wf hw.wf, hw.noop, hw.view⟩
  have hall := puts_all hO ha (nodup_live h.wf) (fun e he => ⟨h.entries e he, wf_of_live h.wf he⟩)
    (fun e _ => rfl) _ hclocked
  rw [hnow]
  rwa [putBack_live h.wf ht] at hall

theorem exec_writeFile {w : World} (hg : O.grants w.calls = true) (path data : Bytes) :
    Code.exec (eff (.writeFile path data)) O w =
      ({ w with calls := w.calls + 1, disk := Function.update w.disk path (some data) }, some true) := by
  show (((Eff.writeFile path data).perform O w).1, some ((Eff.writeFile path data).perform O w).2) = _
  simp only [Eff.perform, hg, if_true]

/-- The file is written whole. -/
theorem exec_saveToPath {w : World} (hO : (O.env w.calls).Frozen t) (hg : O.grants (w.calls + 1) = true)
    {data : Bytes} (hdump : dump w.core t = some data) (path : Bytes) :
    ∃ w', (saveToPath path).exec O w = (w', some true) ∧ w'.disk = Function.update w.disk path (some data) := by
  have hdata : dump ((Eff.core).perform O ((Eff.now).perform O w).1).2 ((Eff.now).perform O w).2 = some data := by
    rw [show ((Eff.now).perform O w).2 = t from hO _]
    exact hdump
  unfold saveToPath
  rw [exec_step, exec_step, hdata]
  dsimp only
  exact ⟨_, exec_writeFile (w := ((Eff.now).perform O w).1) hg path data, rfl⟩

theorem exec_arRdbSave {w : World} (hO : (O.env w.calls).Frozen t) (hg : O.grants (w.calls + 1) = true)
    {data : Bytes} (hdump : dump w.core t = some data) :
    (arRdbSave.exec O w).2 = some true ∧ (arRdbSave.exec O w).1.disk (buildPath w.core) = some data := by
  obtain ⟨w', hw', hdisk⟩ := exec_saveToPath hO hg hdump (buildPath w.core)
  unfold arRdbSave
  have hsave : (saveToPath (buildPath ((Eff.core).perform O w).2)).exec O ((Eff.core).perform O w).1 = (w', some true) := hw'
  rw [exec_step, exec_seq hsave]
  refine ⟨rfl, ?_⟩
  show w'.disk (buildPath w.core) = some data
  rw [hdisk, Function.update_self]

/-! ## A snapshot there and back -/

/-- **The contents of a snapshot**: a core that keeps the format's limits is saved, and whoever loads the file into an
empty core that evicts nothing sees what the saved core would show at that time, the deadlines of containers rounded
up to whole seconds. -/
theorem saved_and_loaded {O O₀ : Outside} {w w₀ : World} {t t₀ : Nat} (h : Savable w₀.core t₀)
    (hO₀ : (O₀.env w₀.calls).Frozen t₀) (hg₀ : O₀.grants (w₀.calls + 1) = true)
    (hw : Showing t (fun _ => none) w) (hO : ∀ n, (O.env n).Frozen t) (ha : O.AllocOk) (ht : t₀ ≤ t)
    (hg : O.grants w.calls = true)
    (hfile : w.disk (buildPath w.core) = (arRdbSave.exec O₀ w₀).1.disk (buildPath w₀.core)) :
    (arRdbSave.exec O₀ w₀).2 = some true ∧
      ∃ w', arRdbLoad.exec O w = (w', some true) ∧
        Showing t (fun key => (w₀.core.view t key).map (reloaded t)) w' := by
  obtain ⟨data, hdump⟩ := h.dump
  obtain ⟨hsaved, hdisk⟩ := exec_arRdbSave hO₀ hg₀ hdump
  obtain ⟨w', hload, hw'⟩ := puts_loadBytes hO ha h ht hdump (opened w) hw.opened
  refine ⟨hsaved, closed w', ?_, hw'.closed⟩
  rw [exec_arRdbLoad (hfile.trans hdisk) hg, hload]
  rfl

/-- A string with a deadline, a hash, a list and a sorted set. -/
def mixedCalls : List Call :=
  [.steady 0 (.arSetBinPx (lit "s") (lit "v") 1500), .steady 0 (.arHashHset (lit "h") [(lit "f", lit "v")]),
    .steady 0 (.arPexpire (lit "h") 1500), .steady 0 (.arListPush (lit "l") false [lit "a", lit "b"]),
    .steady 0 (.arZsetZadd (lit "z") [⟨⟨1⟩, lit "m"⟩, ⟨⟨0⟩, lit "n"⟩])]

def mixed : ArCore := ArCore.arCoreCreate.runCalls mixedCalls

theorem savable_mixed : Savable mixed 0 where
  wf := (ArCore.Reachable.create.runCalls _).wf
  entries e he := by
    have hall : ∀ e ∈ live mixed 0, (∀ p ∈ blobs e, p.length ≤ maxBlob) ∧ count e.obj ≤ maxElems ∧
        (e.obj.type = .string ∨ count e.obj ≠ 0) ∧ InOrder e.obj ∧ e.expireAt + 1000 ≤ 2 ^ 64 := by decide +kernel
    obtain ⟨hb, hc, hf, ho, hd⟩ := hall e he
    exact ⟨hb, hc, hf, ho, hd⟩
  lives := by decide +kernel

/-- The file that a save writes. -/
theorem disk_saved (h : Savable c 0) : (fileWorld c).disk (buildPath ArCore.arCoreCreate) =
    (arRdbSave.exec (.steady 0) { core := c }).1.disk (buildPath c) := by
  obtain ⟨data, hdump⟩ := h.dump
  exact hdump.trans (exec_arRdbSave (w := { core := c }) (fun _ => rfl) rfl hdump).2.symm

theorem showing_fileWorld (c : ArCore) (t : Nat) : Showing t (fun _ => none) (fileWorld c) :=
  ⟨wf_arCoreCreate, rfl, view_arCoreCreate⟩

/-- A string with a deadline, a hash with one, a list and a sorted set, saved at `0` and loaded at `200`. -/
theorem saved_and_loaded_mixed :
    (arRdbSave.exec (.steady 0) { core := mixed }).2 = some true ∧
      ∃ w', arRdbLoad.exec (.steady 200) (fileWorld mixed) = (w', some true) ∧
        Showing 200 (fun key => (mixed.view 200 key).map (reloaded 200)) w' := by
  have hsav := savable_mixed
  have hfile := disk_saved hsav
  have hempty := showing_fileWorld mixed 200
  generalize mixed = c at hsav hfile hempty ⊢
  exact @saved_and_loaded (.steady 200) (.steady 0) (fileWorld c) { core := c } 200 0 hsav (fun _ => rfl) rfl hempty
    (fun _ _ => rfl) (fun _ _ => rfl) (Nat.zero_le _) rfl hfile

end Rdb

end AuraRedis
