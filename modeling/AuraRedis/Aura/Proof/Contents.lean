import AuraRedis.Aura.Proof.Server
import AuraRedis.Lib.Alike

/-!
# Nothing empty is kept

`store-ensure-list!` and `store-ensure-hash!` make an entry with nothing in it, and what they are called by puts
something there; what takes the last element drops the key. So no run of the server leaves an empty list or hash
(`runFibers_full`).
-/

set_option autoImplicit false

namespace Aura

open StateM

/-- There is an element, or a field, in it. -/
def Value.Full : Value → Prop
  | .string _ => True
  | .list xs => xs ≠ []
  | .hash h => h ≠ ∅

/-- Every entry, but that of the key, has something in it. -/
def FullBut (key : Option Bytes) (s : Store) : Prop :=
  ∀ k e, some k ≠ key → s.db.lookup k = some e → e.value.Full

/-- Every list and every hash of the store has something in it. -/
def Store.Full (s : Store) : Prop := FullBut none s

section
variable {key : Bytes} {e : Entry} {o : Option Bytes}

theorem hashSet_full (he : e.value.Full) : Leaves (FullBut (some key)) (hashSet key e) fun _ => Store.Full :=
  .change fun s h k e' _ hk => by
    by_cases heq : k = key
    · subst heq
      rw [Finmap.lookup_insert] at hk
      rwa [← Option.some.inj hk]
    · rw [Finmap.lookup_insert_of_ne _ heq] at hk
      exact h k e' (fun hc => heq (Option.some.inj hc)) hk

theorem Store.Full.but {s : Store} (h : s.Full) : FullBut o s := fun k e _ => h k e (Option.some_ne_none k)

theorem hashSet_keeps (he : e.value.Full) : Leaves Store.Full (hashSet key e) fun _ => Store.Full :=
  (hashSet_full he).mono (fun _ h => h.but) fun _ _ => id

theorem hashRemove_keeps : Leaves Store.Full (hashRemove key) fun _ => Store.Full :=
  .change fun s h k e hk hl => by
    by_cases heq : k = key
    · subst heq
      rw [Finmap.lookup_erase] at hl
      cases hl
    · rw [Finmap.lookup_erase_ne heq] at hl
      exact h k e hk hl

/-- An entry that is set where something may not be full. -/
theorem hashSet_any : Leaves Store.Full (hashSet key e) fun _ => FullBut (some key) :=
  .change fun s h k e' hk hl => by
    rw [Finmap.lookup_insert_of_ne _ fun heq => hk (congrArg some heq)] at hl
    exact h k e' (Option.some_ne_none k) hl

end

section
variable [Host] {key : Bytes}

theorem currentTimeMs_keeps : Leaves Store.Full currentTimeMs fun _ => Store.Full := fun _ h => h

theorem hashKeys_keeps {α : Type} (h : Table α) : Leaves Store.Full (hashKeys h) fun _ => Store.Full := fun _ h => h

/-- What is found is full. -/
theorem storeTouch_keeps :
    Leaves Store.Full (storeTouch key) fun o s => (∀ e, o = some e → e.value.Full) ∧ s.Full := by
  have hread : Leaves Store.Full (hashRef key) fun o s => (∀ e, o = some e → e.value.Full) ∧ s.Full :=
    fun s h => ⟨fun e he => h key e (Option.some_ne_none key) he, h⟩
  refine hread.bind fun o => ?_
  cases o with
  | none => exact .ret fun _ h => h
  | some e =>
    refine .ite (fun _ => .ret fun _ h => h) fun _ => ?_
    refine Leaves.bind (J := fun _ s => (∀ e', some e = some e' → e'.value.Full) ∧ s.Full) (fun _ h => h) fun now => ?_
    refine .ite (fun _ => .ret fun _ h => h) fun _ => ?_
    exact Leaves.bind (hashRemove_keeps.mono (fun _ h => h.2) fun _ _ => id) fun _ =>
      .ret fun _ h => ⟨(fun e he => by cases he), h⟩

/-- The store stays full. -/
def Keeps {α : Type} (m : StateM Store α) : Prop := Leaves Store.Full m fun _ => Store.Full

omit [Host] in
theorem keeps_ret {α : Type} (a : α) : Keeps (pure a) := .ret fun _ => id

omit [Host] in
theorem keeps_bind {α β : Type} {m : StateM Store α} {f : α → StateM Store β} (h : Keeps m) (hf : ∀ a, Keeps (f a)) :
    Keeps (m >>= f) := Leaves.bind h hf

/-- A key is looked for, and the rest goes by what is found. -/
theorem keeps_touch {α : Type} {f : Option Entry → StateM Store α}
    (hf : ∀ o, (∀ e, o = some e → e.value.Full) → Keeps (f o)) : Keeps (storeTouch key >>= f) :=
  storeTouch_keeps.bind fun o s h => hf o h.1 s h.2

theorem storePurge_keeps : Keeps storePurge := by
  refine keeps_bind (fun _ h => h) fun now => keeps_bind (fun _ h => h) fun ks => keeps_bind (fun _ h => h) fun ks => ?_
  refine keeps_bind (.forIn fun k _ => keeps_bind (fun _ h => h) fun o => ?_) fun _ => keeps_ret _
  cases o with
  | none => exact keeps_ret _
  | some e => exact .ite (fun _ => keeps_bind hashRemove_keeps fun _ => keeps_ret _) fun _ => keeps_ret _

theorem storeDel_keeps (keys : List Bytes) : Keeps (storeDel keys) := by
  refine keeps_bind (.forIn fun k n => keeps_touch fun o _ => ?_) fun n => keeps_ret n
  exact .ite (fun _ => keeps_bind hashRemove_keeps fun _ => keeps_ret _) fun _ => keeps_ret _

theorem storeExists_keeps (keys : List Bytes) : Keeps (storeExists keys) := by
  refine keeps_bind (.forIn fun k n => keeps_touch fun o _ => ?_) fun n => keeps_ret n
  exact .ite (fun _ => keeps_ret _) fun _ => keeps_ret _

theorem storeKeys_keeps : Keeps storeKeys :=
  keeps_bind storePurge_keeps fun _ => keeps_bind (fun _ h => h) fun s => hashKeys_keeps s.db

theorem storeDbsize_keeps : Keeps storeDbsize :=
  keeps_bind storePurge_keeps fun _ => keeps_bind (fun _ h => h) fun _ => keeps_ret _

theorem storeType_keeps : Keeps (storeType key) := by
  refine keeps_touch fun o _ => ?_
  rcases o with _ | ⟨v | xs | h, ex⟩ <;> exact keeps_ret _

theorem storeTtl_keeps : Keeps (storeTtl key) := by
  refine keeps_touch fun o _ => ?_
  cases o with
  | none => exact keeps_ret _
  | some e => exact .ite (fun _ => keeps_ret _) fun _ => keeps_bind currentTimeMs_keeps fun _ => keeps_ret _

theorem storeExpire_keeps (seconds : Int) : Keeps (storeExpire key seconds) := by
  refine keeps_touch fun o ho => ?_
  cases o with
  | none => exact keeps_ret _
  | some e =>
    exact keeps_bind currentTimeMs_keeps fun _ => keeps_bind (hashSet_keeps (ho e rfl)) fun _ => keeps_ret _

theorem storeRename_keeps (src dst : Bytes) (nx : Bool) : Keeps (storeRename src dst nx) := by
  refine .ite (fun _ => keeps_ret _) fun _ => keeps_touch fun o ho => ?_
  cases o with
  | none => exact keeps_ret _
  | some e =>
    refine keeps_touch fun _ _ => keeps_bind (fun _ h => h) fun _ => .ite (fun _ => keeps_ret _) fun _ => ?_
    exact keeps_bind (hashSet_keeps (ho e rfl)) fun _ => keeps_bind hashRemove_keeps fun _ => keeps_ret _

omit [Host] in
theorem storeSetString_keeps (val : Bytes) (ex : Int) : Keeps (storeSetString key val ex) := hashSet_keeps trivial

theorem storeAppend_keeps (val : Bytes) : Keeps (storeAppend key val) := by
  refine keeps_touch fun o _ => ?_
  rcases o with _ | ⟨v | xs | h, ex⟩
  · exact keeps_bind (storeSetString_keeps _ _) fun _ => keeps_ret _
  · exact keeps_bind (hashSet_keeps trivial) fun _ => keeps_ret _
  · exact keeps_ret _
  · exact keeps_ret _

theorem storeStrlen_keeps : Keeps (storeStrlen key) := by
  refine keeps_touch fun o _ => ?_
  rcases o with _ | ⟨v | xs | h, ex⟩ <;> exact keeps_ret _

theorem storeGetset_keeps (val : Bytes) : Keeps (storeGetset key val) := by
  refine keeps_touch fun o _ => ?_
  rcases o with _ | ⟨v | xs | h, ex⟩
  · exact keeps_bind (storeSetString_keeps _ _) fun _ => keeps_ret _
  · exact keeps_bind (hashSet_keeps trivial) fun _ => keeps_ret _
  · exact keeps_ret _
  · exact keeps_ret _

omit [Host] in
/-- A list that is made has nothing in it yet. -/
theorem storeEnsureList_leaves : Leaves Store.Full (storeEnsureList key) fun o s =>
    (o = none → s.Full) ∧ FullBut (some key) s := by
  refine Leaves.bind (J := fun _ => Store.Full) (fun _ h => h) fun o => ?_
  rcases o with _ | ⟨v | xs | h, ex⟩
  · exact hashSet_any.bind fun _ => .ret fun _ h => ⟨nofun, h⟩
  all_goals exact .ret fun _ h => ⟨fun _ => h, h.but⟩

theorem storeListPush_keeps (val : Bytes) (left : Bool) : Keeps (storeListPush key val left) := by
  refine keeps_touch fun _ _ => storeEnsureList_leaves.bind fun o => ?_
  rcases o with _ | ⟨xs, ex⟩
  · exact .ret fun _ h => h.1 rfl
  · refine Leaves.bind ((hashSet_full ?_).mono (fun _ h => h.2) fun _ _ => id) fun _ => keeps_ret _
    show (if left then val :: xs else xs ++ [val]) ≠ []
    split <;> simp

omit [Host] in
theorem putList_keeps (xs : List Bytes) (ex : Int) : Keeps (putList key xs ex) :=
  .ite (fun _ => hashRemove_keeps) fun h => hashSet_keeps h

theorem storeListPop_keeps (left : Bool) : Keeps (storeListPop key left) := by
  refine keeps_touch fun o _ => ?_
  rcases o with _ | ⟨v | xs | h, ex⟩
  · exact keeps_ret _
  · exact keeps_ret _
  · dsimp only
    split
    · exact keeps_ret _
    · exact keeps_bind (putList_keeps _ _) fun _ => keeps_ret _
  · exact keeps_ret _

theorem storeListLen_keeps : Keeps (storeListLen key) := by
  refine keeps_touch fun o _ => ?_
  rcases o with _ | ⟨v | xs | h, ex⟩ <;> exact keeps_ret _

omit [Host] in
/-- A hash that is made has nothing in it yet. -/
theorem storeEnsureHash_leaves : Leaves Store.Full (storeEnsureHash key) fun o s =>
    (o = none → s.Full) ∧ FullBut (some key) s := by
  refine Leaves.bind (J := fun _ => Store.Full) (fun _ h => h) fun o => ?_
  rcases o with _ | ⟨v | xs | h, ex⟩
  · exact hashSet_any.bind fun _ => .ret fun _ h => ⟨nofun, h⟩
  all_goals exact .ret fun _ h => ⟨fun _ => h, h.but⟩

theorem storeHashSet_keeps (field val : Bytes) : Keeps (storeHashSet key field val) := by
  refine keeps_touch fun _ _ => storeEnsureHash_leaves.bind fun o => ?_
  rcases o with _ | ⟨h, ex⟩
  · exact .ret fun _ h => h.1 rfl
  · refine Leaves.bind ((hashSet_full ?_).mono (fun _ h => h.2) fun _ _ => id) fun _ => keeps_ret _
    intro he
    have hf : field ∈ h.insert field val := Finmap.mem_insert.mpr (.inl rfl)
    rw [he] at hf
    exact Finmap.notMem_empty hf

theorem storeHashGet_keeps (field : Bytes) : Keeps (storeHashGet key field) := by
  refine keeps_touch fun o _ => ?_
  rcases o with _ | ⟨v | xs | h, ex⟩ <;> exact keeps_ret _

theorem storeHashDel_keeps (fields : List Bytes) : Keeps (storeHashDel key fields) := by
  refine keeps_touch fun o _ => ?_
  rcases o with _ | ⟨v | xs | h, ex⟩
  · exact keeps_ret _
  · exact keeps_ret _
  · exact keeps_ret _
  · refine .ite (fun _ => keeps_bind hashRemove_keeps fun _ => keeps_ret _) fun hcard => ?_
    exact keeps_bind (hashSet_keeps fun he => hcard (by rw [he]; rfl)) fun _ => keeps_ret _

theorem storeHashGetall_keeps : Keeps (storeHashGetall key) := by
  refine keeps_touch fun o _ => ?_
  rcases o with _ | ⟨v | xs | h, ex⟩
  · exact keeps_ret _
  · exact keeps_ret _
  · exact keeps_ret _
  · exact keeps_bind (hashKeys_keeps h) fun _ => keeps_ret _

theorem infoBulk_keeps (start : Int) : Keeps (infoBulk start) :=
  keeps_bind storeDbsize_keeps fun _ => keeps_bind currentTimeMs_keeps fun _ => keeps_ret _

theorem mgetItems_keeps (keys : List Bytes) : Keeps (mgetItems keys) := by
  induction keys with
  | nil => exact keeps_ret _
  | cons k ks ih => exact keeps_touch fun o _ => keeps_bind ih fun _ => keeps_ret _

omit [Host] in
theorem msetPairs_keeps (args : List Bytes) : Keeps (msetPairs args) := by
  induction args using msetPairs.induct with
  | case1 k v rest ih => exact keeps_bind (storeSetString_keeps _ _) fun _ => ih
  | case2 args h =>
    unfold msetPairs
    split
    · next k v rest => exact absurd rfl (h k v rest)
    · exact keeps_ret _

variable [Runtime]

theorem storeIncr_keeps (delta : Int) : Keeps (storeIncr key delta) := by
  refine keeps_touch fun o _ => ?_
  rcases o with _ | ⟨v | xs | h, ex⟩
  · exact keeps_bind (storeSetString_keeps _ _) fun _ => keeps_ret _
  · cases hn : Runtime.stringToNumber v with
    | none =>
      simp only [hn]
      exact keeps_ret _
    | some cur =>
      simp only [hn]
      exact keeps_bind (hashSet_keeps trivial) fun _ => keeps_ret _
  · exact keeps_ret _
  · exact keeps_ret _

theorem setTimed_keeps (name : String) (scale : Int) (args : List Bytes) : Keeps (setTimed name scale args) := by
  refine .ite (fun _ => keeps_ret _) fun _ => ?_
  split
  · exact keeps_ret _
  · exact keeps_bind currentTimeMs_keeps fun _ => keeps_bind (storeSetString_keeps _ _) fun _ => keeps_ret _

theorem setWith_keeps (args : List Bytes) : Keeps (setWith args) := by
  have hopts : Keeps (parseSetOpts args) := by
    unfold parseSetOpts
    split
    · exact keeps_ret _
    · exact .ite (fun _ => keeps_bind currentTimeMs_keeps fun _ => keeps_ret _) fun _ => keeps_ret _
  refine keeps_bind hopts fun o => ?_
  rcases o with _ | ⟨ex, nx, xx⟩
  · exact keeps_ret _
  · refine keeps_touch fun o _ => .ite (fun _ => keeps_ret _) fun _ => .ite (fun _ => keeps_ret _) fun _ => ?_
    exact keeps_bind (storeSetString_keeps _ _) fun _ => keeps_ret _

theorem cmdDispatch_keeps (start : Int) (args : List Bytes) : Keeps (cmdDispatch start args) := by
  have hcount {c : Prop} [Decidable c] {reply : Bytes} {m : StateM Store Bytes} (h : Keeps m) :
      Keeps (if c then pure reply else m) := .ite (fun _ => keeps_ret _) fun _ => h
  have hget {k : Bytes} : Keeps (storeGet k) := storeTouch_keeps.post fun _ _ h => h.2
  unfold cmdDispatch
  refine hcount ?_
  refine .ite (fun _ => keeps_bind hget fun _ => keeps_ret _) fun _ => ?_
  refine .ite (fun _ => keeps_bind (storeSetString_keeps _ _) fun _ => keeps_ret _) fun _ => ?_
  refine .ite (fun _ => keeps_ret _) fun _ => ?_
  refine .ite (fun _ => keeps_ret _) fun _ => ?_
  refine .ite (fun _ => keeps_ret _) fun _ => ?_
  refine .ite (fun _ => hcount (setWith_keeps args)) fun _ => ?_
  refine .ite (fun _ => setTimed_keeps _ _ args) fun _ => ?_
  refine .ite (fun _ => setTimed_keeps _ _ args) fun _ => ?_
  refine .ite (fun _ => hcount (keeps_bind hget fun _ => keeps_ret _)) fun _ => ?_
  refine .ite (fun _ => hcount (keeps_bind (mgetItems_keeps _) fun _ => keeps_ret _)) fun _ => ?_
  refine .ite (fun _ => hcount (keeps_bind (msetPairs_keeps _) fun _ => keeps_ret _)) fun _ => ?_
  refine .ite (fun _ => hcount (keeps_bind (storeAppend_keeps _) fun _ => keeps_ret _)) fun _ => ?_
  refine .ite (fun _ => hcount (keeps_bind storeStrlen_keeps fun _ => keeps_ret _)) fun _ => ?_
  refine .ite (fun _ => hcount (keeps_bind (storeGetset_keeps _) fun old => ?_)) fun _ => ?_
  · cases old <;> exact keeps_ret _
  refine .ite (fun _ => hcount (keeps_bind (storeDel_keeps _) fun _ => keeps_ret _)) fun _ => ?_
  refine .ite (fun _ => hcount (keeps_bind (storeExists_keeps _) fun _ => keeps_ret _)) fun _ => ?_
  refine .ite (fun _ => hcount (keeps_bind (storeIncr_keeps _) fun _ => keeps_ret _)) fun _ => ?_
  refine .ite (fun _ => hcount (keeps_bind (storeIncr_keeps _) fun _ => keeps_ret _)) fun _ => ?_
  refine .ite (fun _ => keeps_bind storeKeys_keeps fun _ => keeps_ret _) fun _ => ?_
  refine .ite (fun _ => keeps_bind storeDbsize_keeps fun _ => keeps_ret _) fun _ => ?_
  refine .ite (fun _ => keeps_bind (infoBulk_keeps _) fun _ => keeps_ret _) fun _ => ?_
  refine .ite (fun _ => hcount (keeps_bind (storeRename_keeps _ _ _) fun _ => keeps_ret _)) fun _ => ?_
  refine .ite (fun _ => hcount (keeps_bind (storeRename_keeps _ _ _) fun _ => keeps_ret _)) fun _ => ?_
  refine .ite (fun _ => keeps_bind ?_ fun _ => keeps_ret _) fun _ => ?_
  · exact .change fun s _ k e _ hk => nomatch hk
  refine .ite (fun _ => hcount (keeps_bind storeType_keeps fun _ => keeps_ret _)) fun _ => ?_
  refine .ite (fun _ => hcount (keeps_bind storeTtl_keeps fun _ => keeps_ret _)) fun _ => ?_
  refine .ite (fun _ => hcount ?_) fun _ => ?_
  · split
    · exact keeps_ret _
    · exact keeps_bind (storeExpire_keeps _) fun _ => keeps_ret _
  refine .ite (fun _ => hcount (keeps_bind (storeListPush_keeps _ _) fun _ => keeps_ret _)) fun _ => ?_
  refine .ite (fun _ => hcount (keeps_bind (storeListPush_keeps _ _) fun _ => keeps_ret _)) fun _ => ?_
  refine .ite (fun _ => hcount (keeps_bind (storeListPop_keeps _) fun _ => keeps_ret _)) fun _ => ?_
  refine .ite (fun _ => hcount (keeps_bind (storeListPop_keeps _) fun _ => keeps_ret _)) fun _ => ?_
  refine .ite (fun _ => hcount (keeps_bind storeListLen_keeps fun _ => keeps_ret _)) fun _ => ?_
  refine .ite (fun _ => hcount (keeps_bind (storeHashSet_keeps _ _) fun _ => keeps_ret _)) fun _ => ?_
  refine .ite (fun _ => hcount (keeps_bind (storeHashGet_keeps _) fun _ => keeps_ret _)) fun _ => ?_
  refine .ite (fun _ => hcount (keeps_bind (storeHashDel_keeps _) fun _ => keeps_ret _)) fun _ => ?_
  refine .ite (fun _ => hcount (keeps_bind storeHashGetall_keeps fun _ => keeps_ret _)) fun _ => ?_
  exact keeps_ret _

/-- **No empty values**: whatever comes from the clients and however the fibers take turns, a store without an empty
list or hash stays one. -/
theorem runFibers_full (start : Int) (schedule : List Nat) : ∀ (fs : Fibers) (s : Store), s.Full →
    ((runFibers start schedule fs).run s).2.Full := by
  have hserve (f : Fiber) : Keeps (f.serve start) := by
    unfold Fiber.serve
    refine .ite (fun _ => keeps_ret _) fun _ => ?_
    split
    · exact keeps_ret _
    · exact keeps_bind (cmdDispatch_keeps start _) fun _ => keeps_ret _
  have hturn (f : Fiber) : Keeps (f.turn start) :=
    .ite (fun _ => keeps_ret _) fun _ => .ite (fun _ => hserve f) fun _ => keeps_ret _
  induction schedule with
  | nil => exact fun fs s h => h
  | cons i schedule ih => exact fun fs s h => ih _ _ (hturn (fs i) s h)

end

theorem runFibers_full_two :
    let _ : Host := sortedHost
    let _ : Runtime := decimalRuntime
    ((runFibers 0 [0, 1, 0, 1, 0, 1, 0, 0] fun i => { inbox := twoChunks i }).run {}).2.Full :=
  @runFibers_full sortedHost decimalRuntime 0 [0, 1, 0, 1, 0, 1, 0, 0] (fun i => { inbox := twoChunks i }) {}
    fun _ _ _ h => nomatch h

end Aura
