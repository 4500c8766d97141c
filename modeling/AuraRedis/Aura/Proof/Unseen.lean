import AuraRedis.Aura.Proof.Pairs
import AuraRedis.Lib.Alike

/-!
# Expired entries are not seen

The server drops an entry when a command comes upon it after its deadline, and drops all of them for a few commands
(`store-purge!`). Two stores that are the `Same` but for such entries answer every command alike and stay so
(`cmdDispatch_seen`): no client can tell when a purge was made (`purges_unseen`). The two may be on different machines,
which list the keys of a table each in its own order; `KEYS` and `HGETALL` show that order.
-/

set_option autoImplicit false

namespace Aura

open StateM

/-! ## What a store shows -/

/-- The entry of a key, unless its deadline is over. -/
def shown (t : Int) (db : Table Entry) (key : Bytes) : Option Entry :=
  (db.lookup key).bind fun e => if storeAlive e t then some e else none

/-- They show the same. -/
def Same (t : Int) (s s' : Store) : Prop := ∀ key, shown t s.db key = shown t s'.db key

/-- They show the same, and hold what they show of the key. -/
structure SameAt (t : Int) (key : Bytes) (o : Option Entry) (s s' : Store) : Prop where
  same : Same t s s'
  left : s.db.lookup key = o
  right : s'.db.lookup key = o

/-- Two machines while they do a command: the clock stands. -/
structure Steady (t : Int) (host host' : Host) : Prop where
  left : ∀ n, host.now n = t
  right : ∀ n, host'.now n = t

section
variable {t : Int} {db : Table Entry} {key k : Bytes} {e : Entry} {s s' : Store}

theorem shown_insert_self : shown t (db.insert key e) key = if storeAlive e t then some e else none := by
  simp [shown]

theorem shown_insert_of_ne (h : k ≠ key) : shown t (db.insert key e) k = shown t db k := by
  simp [shown, Finmap.lookup_insert_of_ne _ h]

theorem shown_erase_self : shown t (db.erase key) key = none := by simp [shown]

theorem shown_erase_of_ne (h : k ≠ key) : shown t (db.erase key) k = shown t db k := by
  simp [shown, Finmap.lookup_erase_ne h]

theorem erase_of_lookup_none (h : db.lookup key = none) : db.erase key = db := Finmap.ext_lookup fun k => by
  by_cases hk : k = key
  · rw [hk, Finmap.lookup_erase, h]
  · rw [Finmap.lookup_erase_ne hk]

/-- A key's entry is dropped when its deadline is over. -/
def swept (t : Int) (db : Table Entry) (key : Bytes) : Table Entry := if shown t db key = none then db.erase key else db

theorem lookup_swept_self : (swept t db key).lookup key = shown t db key := by
  unfold swept
  split
  · next h => rw [Finmap.lookup_erase, h]
  · next h =>
    cases hl : db.lookup key with
    | none => simp [shown, hl] at h
    | some e =>
      simp only [shown, hl, Option.bind_some, ite_eq_right_iff, reduceCtorEq, imp_false, not_not] at h ⊢
      rw [if_pos h]

theorem lookup_swept_of_ne (h : k ≠ key) : (swept t db key).lookup k = db.lookup k := by
  unfold swept
  split
  · exact Finmap.lookup_erase_ne h
  · rfl

theorem shown_swept : shown t (swept t db key) k = shown t db k := by
  by_cases hk : k = key
  · subst hk
    unfold swept
    split
    · next h => rw [shown_erase_self, h]
    · rfl
  · unfold shown
    rw [lookup_swept_of_ne hk]

/-- What is over stays so. -/
theorem Same.later {t' : Int} (h : Same t s s') (ht : t ≤ t') : Same t' s s' := by
  have hlater (e : Entry) (ha : storeAlive e t' = true) : storeAlive e t = true := by
    simp only [storeAlive, Bool.or_eq_true, beq_iff_eq, decide_eq_true_eq] at ha ⊢
    omega
  have hshown (db : Table Entry) (k : Bytes) :
      shown t' db k = (shown t db k).bind fun e => if storeAlive e t' then some e else none := by
    unfold shown
    rw [Option.bind_assoc]
    congr 1
    funext e
    cases ha : storeAlive e t' with
    | true => simp [hlater e ha, ha]
    | false => cases storeAlive e t <;> simp [ha]
  intro k
  rw [hshown, hshown, h k]

theorem Same.insert (h : Same t s s') (n n' : Nat) :
    Same t ⟨s.db.insert key e, n⟩ ⟨s'.db.insert key e, n'⟩ := fun k => by
  by_cases hk : k = key
  · subst hk
    simp [shown_insert_self]
  · simp [shown_insert_of_ne hk, h k]

theorem Same.erase (h : Same t s s') (n n' : Nat) : Same t ⟨s.db.erase key, n⟩ ⟨s'.db.erase key, n'⟩ := fun k => by
  by_cases hk : k = key
  · subst hk
    simp [shown_erase_self]
  · simp [shown_erase_of_ne hk, h k]

end

/-! ## Primitives -/

section
variable {t : Int} {key : Bytes} {o : Option Entry} {e : Entry} {R : Store → Store → Prop}

theorem hashSet_alike (h : ∀ s s', R s s' → Same t s s') :
    Alike R (hashSet key e) (hashSet key e) fun _ => SameAt t key (some e) :=
  .change fun s s' hr => ⟨(h s s' hr).insert _ _, by simp, by simp⟩

theorem hashRemove_alike (h : ∀ s s', R s s' → Same t s s') :
    Alike R (hashRemove key) (hashRemove key) fun _ => SameAt t key none :=
  .change fun s s' hr => ⟨(h s s' hr).erase _ _, by simp, by simp⟩

theorem hashRef_alike : Alike (SameAt t key o) (hashRef key) (hashRef key) fun a s s' => a = o ∧ SameAt t key o s s' :=
  fun _ _ h => ⟨h.left.trans h.right.symm, h.left, h⟩

/-- A turn of the loop of the purge. -/
def purgeTurn (now : Int) (k : Bytes) (_ : PUnit) : StateM Store (ForInStep PUnit) := do
  match ← hashRef k with
  | some e =>
    if !storeAlive e now then
      hashRemove k
      return .yield .unit
    else return .yield .unit
  | none => return .yield .unit

theorem purgeTurn_run (k : Bytes) (s : Store) :
    (purgeTurn t k .unit).run s = (.yield .unit, ⟨swept t s.db k, s.asked⟩) := by
  unfold purgeTurn hashRef hashRemove swept
  cases hl : s.db.lookup k with
  | none =>
    simp [hl, shown, erase_of_lookup_none hl]
    rfl
  | some e =>
    cases ha : storeAlive e t with
    | true =>
      simp [hl, shown, ha]
      rfl
    | false =>
      simp [hl, shown, ha]
      rfl

theorem purge_loop (ks : List Bytes) (k : Bytes) :
    ∀ s, ((forIn ks PUnit.unit (purgeTurn t)).run s).2.db.lookup k =
      if k ∈ ks then shown t s.db k else s.db.lookup k := by
  induction ks with
  | nil => exact fun s => rfl
  | cons key ks ih =>
    intro s
    rw [List.forIn_cons, StateM.run_bind, purgeTurn_run]
    refine (ih _).trans ?_
    by_cases hk : k = key
    · subst hk
      rw [shown_swept, lookup_swept_self, ite_self, if_pos List.mem_cons_self]
    · rw [shown_swept, lookup_swept_of_ne hk]
      simp only [List.mem_cons, hk, false_or]

section
variable [Host] (hnow : ∀ n, Host.now n = t)
include hnow

/-- What is looked for is what is shown; an entry that is over is dropped. -/
theorem storeTouch_run (key : Bytes) (s : Store) :
    ∃ n, (storeTouch key).run s = (shown t s.db key, ⟨swept t s.db key, n⟩) := by
  unfold storeTouch hashRef hashRemove currentTimeMs swept
  cases hl : s.db.lookup key with
  | none =>
    refine ⟨s.asked, ?_⟩
    simp [hl, shown, erase_of_lookup_none hl]
    rfl
  | some e =>
    by_cases hex : e.ex = 0
    · refine ⟨s.asked, ?_⟩
      simp [hl, shown, storeAlive, hex]
      rfl
    · refine ⟨s.asked + 1, ?_⟩
      by_cases hlive : t < e.ex
      · simp [hl, shown, storeAlive, hex, hlive, hnow]
        rfl
      · simp [hl, shown, storeAlive, hex, hlive, hnow]
        rfl

/-- The purge leaves what is shown. -/
theorem storePurge_run (s : Store) (k : Bytes) : (storePurge.run s).2.db.lookup k = shown t s.db k := by
  have hrun : (storePurge.run s).2 = ((forIn (Host.keys (s.asked + 1) s.db.keys) PUnit.unit
      (purgeTurn (Host.now s.asked))).run ⟨s.db, s.asked + 2⟩).2 := rfl
  rw [hrun, hnow, purge_loop]
  split
  · rfl
  · next h =>
    rw [Host.mem_keys, Finmap.mem_keys, ← Finmap.lookup_eq_none] at h
    rw [h, shown, h, Option.bind_none]

theorem storePurge_same (s : Store) : Same t (storePurge.run s).2 s := fun key => by
  have hkey := storePurge_run hnow s key
  unfold shown at hkey ⊢
  rw [hkey]
  cases s.db.lookup key with
  | none => rfl
  | some e => cases h : storeAlive e t <;> simp [h]

end

section
variable {host host' : Host} (hsteady : Steady t host host')
include hsteady

theorem currentTimeMs_alike (hR : ∀ s s' n n', R s s' → R ⟨s.db, n⟩ ⟨s'.db, n'⟩) :
    Alike R (@currentTimeMs host) (@currentTimeMs host') fun a s s' => a = t ∧ R s s' :=
  fun s s' h => ⟨(hsteady.left s.asked).trans (hsteady.right s'.asked).symm, hsteady.left _, hR _ _ _ _ h⟩

/-- A key is looked for alike, and what is held of it then is what is shown. -/
theorem storeTouch_alike (h : ∀ s s', R s s' → Same t s s') :
    Alike R (@storeTouch host key) (@storeTouch host' key) fun o => SameAt t key o := fun s s' hr => by
  have hsame := h s s' hr
  obtain ⟨n, hrun⟩ := @storeTouch_run t host hsteady.left key s
  obtain ⟨n', hrun'⟩ := @storeTouch_run t host' hsteady.right key s'
  rw [hrun, hrun']
  refine ⟨hsame key, fun k => ?_, lookup_swept_self, ?_⟩
  · rw [shown_swept, shown_swept, hsame k]
  · rw [hsame key]
    exact lookup_swept_self

theorem storePurge_alike (h : ∀ s s', R s s' → Same t s s') :
    Alike R (@storePurge host) (@storePurge host') fun _ s s' => Same t s s' ∧ s.db = s'.db := fun s s' hr => by
  have hsame := h s s' hr
  have hdb : ((@storePurge host).run s).2.db = ((@storePurge host').run s').2.db := Finmap.ext_lookup fun k => by
    rw [@storePurge_run t host hsteady.left, @storePurge_run t host' hsteady.right, hsame k]
  exact ⟨rfl, fun k => by rw [hdb], hdb⟩

omit hsteady in
/-- A table's keys, in two orders. -/
theorem hashKeys_perm {α : Type} (h : Table α) (n n' : Nat) : (host.keys n h.keys).Perm (host'.keys n' h.keys) :=
  (List.perm_ext_iff_of_nodup (host.nodup_keys _ _) (host'.nodup_keys _ _)).2 fun k => by
    rw [host.mem_keys, host'.mem_keys]

end

end

/-! ## The functions of the store -/

/-- What is over does not show in what a program does on two machines. -/
def Blind {α : Type} (t : Int) (m m' : StateM Store α) : Prop := Alike (Same t) m m' fun _ => Same t

theorem Blind.at {α : Type} {t : Int} {m m' : StateM Store α} (h : Blind t m m') (key : Bytes) (o : Option Entry) :
    Alike (SameAt t key o) m m' fun _ => Same t := h.mono (fun _ _ hs => hs.same) fun _ _ _ => id

section
variable {t : Int} {key : Bytes} {e : Entry}

theorem blind_ret {α : Type} (a : α) : Blind t (pure a) (pure a) := .ret fun _ _ => id

theorem hashSet_blind :
    Blind t (hashSet key e) (hashSet key e) := (hashSet_alike fun _ _ => id).post fun _ _ _ h => h.same

theorem hashRemove_blind :
    Blind t (hashRemove key) (hashRemove key) := (hashRemove_alike fun _ _ => id).post fun _ _ _ h => h.same

variable {host host' : Host} (hsteady : Steady t host host')
include hsteady

theorem storeTouch_blind : Blind t (@storeTouch host key) (@storeTouch host' key) :=
  (storeTouch_alike hsteady fun _ _ => id).post fun _ _ _ h => h.same

/-- A key is looked for, and the rest goes by what is held of it. -/
theorem blind_touch {α : Type} {f f' : Option Entry → StateM Store α}
    (hf : ∀ o, Alike (SameAt t key o) (f o) (f' o) fun _ => Same t) :
    Blind t (@storeTouch host key >>= f) (@storeTouch host' key >>= f') :=
  (storeTouch_alike hsteady fun _ _ => id).bind hf

theorem blind_now {α : Type} {f f' : Int → StateM Store α} (hf : ∀ now, Blind t (f now) (f' now)) :
    Blind t (@currentTimeMs host >>= f) (@currentTimeMs host' >>= f') :=
  (currentTimeMs_alike hsteady fun _ _ _ _ => id).bind fun now => (hf now).mono (fun _ _ h => h.2) fun _ _ _ => id

theorem storeDel_blind (keys : List Bytes) : Blind t (@storeDel host keys) (@storeDel host' keys) := by
  refine Alike.bind (.forIn fun k n => ?_) fun n => blind_ret n
  refine blind_touch hsteady fun o => .ite (fun _ => ?_) fun _ => (blind_ret _).at k o
  exact (hashRemove_blind.at k o).bind fun _ => blind_ret _

theorem storeExists_blind (keys : List Bytes) : Blind t (@storeExists host keys) (@storeExists host' keys) := by
  refine Alike.bind (.forIn fun k n => ?_) fun n => blind_ret n
  exact blind_touch hsteady fun o => .ite (fun _ => (blind_ret _).at k o) fun _ => (blind_ret _).at k o

/-- The keys are listed in two orders. -/
theorem storeKeys_related : Related (Same t) (@storeKeys host) (@storeKeys host') fun ks ks' s s' =>
    ks.Perm ks' ∧ Same t s s' := by
  refine (storePurge_alike hsteady fun _ _ => id).followed fun _ s s' h => ⟨?_, h.1⟩
  show (host.keys s.asked s.db.keys).Perm (host'.keys s'.asked s'.db.keys)
  rw [h.2]
  exact hashKeys_perm _ _ _

theorem storeDbsize_blind : Blind t (@storeDbsize host) (@storeDbsize host') := by
  refine (storePurge_alike hsteady fun _ _ => id).bind fun _ => ?_
  refine .get fun s s' h => ?_
  rw [h.2]
  exact .ret fun _ _ h => h.1

theorem storeType_blind : Blind t (@storeType host key) (@storeType host' key) := by
  refine blind_touch hsteady fun o => ?_
  rcases o with _ | ⟨v | xs | h, ex⟩ <;> exact (blind_ret _).at key _

theorem storeTtl_blind : Blind t (@storeTtl host key) (@storeTtl host' key) := by
  refine blind_touch hsteady fun o => ?_
  cases o with
  | none => exact (blind_ret _).at key _
  | some e =>
    refine .ite (fun _ => (blind_ret _).at key _) fun _ => ?_
    exact Blind.at (blind_now hsteady fun now => blind_ret _) key _

theorem storeExpire_blind (seconds : Int) :
    Blind t (@storeExpire host key seconds) (@storeExpire host' key seconds) := by
  refine blind_touch hsteady fun o => ?_
  cases o with
  | none => exact (blind_ret _).at key _
  | some e =>
    exact Blind.at (blind_now hsteady fun now => hashSet_blind.bind fun _ => blind_ret _) key _

theorem storeRename_blind (src dst : Bytes) (nx : Bool) :
    Blind t (@storeRename host src dst nx) (@storeRename host' src dst nx) := by
  refine .ite (fun _ => blind_ret _) fun _ => blind_touch hsteady fun o => ?_
  cases o with
  | none => exact (blind_ret _).at src _
  | some e =>
    refine Blind.at (blind_touch hsteady fun o => ?_) src _
    refine .get fun s s' h => ?_
    have hthere : decide (dst ∈ s.db) = decide (dst ∈ s'.db) := by
      rw [decide_eq_decide, ← Finmap.lookup_isSome, ← Finmap.lookup_isSome, h.left, h.right]
    rw [hthere]
    refine .ite (fun _ => (blind_ret _).at dst o) fun _ => ?_
    exact (hashSet_blind.at dst o).bind fun _ => hashRemove_blind.bind fun _ => blind_ret _

omit hsteady in
theorem storeSetString_blind (val : Bytes) (ex : Int) :
    Blind t (storeSetString key val ex) (storeSetString key val ex) := hashSet_blind

theorem storeIncr_blind [Runtime] (delta : Int) :
    Blind t (@storeIncr host _ key delta) (@storeIncr host' _ key delta) := by
  refine blind_touch hsteady fun o => ?_
  rcases o with _ | ⟨v | xs | h, ex⟩
  · exact Blind.at ((storeSetString_blind _ _).bind fun _ => blind_ret _) key _
  · refine Blind.at ?_ key _
    cases hn : Runtime.stringToNumber v with
    | none =>
      simp only [hn]
      exact blind_ret _
    | some cur =>
      simp only [hn]
      exact hashSet_blind.bind fun _ => blind_ret _
  · exact (blind_ret _).at key _
  · exact (blind_ret _).at key _

theorem storeAppend_blind (val : Bytes) : Blind t (@storeAppend host key val) (@storeAppend host' key val) := by
  refine blind_touch hsteady fun o => ?_
  rcases o with _ | ⟨v | xs | h, ex⟩
  · exact Blind.at ((storeSetString_blind _ _).bind fun _ => blind_ret _) key _
  · exact Blind.at (hashSet_blind.bind fun _ => blind_ret _) key _
  · exact (blind_ret _).at key _
  · exact (blind_ret _).at key _

theorem storeStrlen_blind : Blind t (@storeStrlen host key) (@storeStrlen host' key) := by
  refine blind_touch hsteady fun o => ?_
  rcases o with _ | ⟨v | xs | h, ex⟩ <;> exact (blind_ret _).at key _

theorem storeGetset_blind (val : Bytes) : Blind t (@storeGetset host key val) (@storeGetset host' key val) := by
  refine blind_touch hsteady fun o => ?_
  rcases o with _ | ⟨v | xs | h, ex⟩
  · exact Blind.at ((storeSetString_blind _ _).bind fun _ => blind_ret _) key _
  · exact Blind.at (hashSet_blind.bind fun _ => blind_ret _) key _
  · exact (blind_ret _).at key _
  · exact (blind_ret _).at key _

omit hsteady in
/-- The list is there, or is made. -/
theorem storeEnsureList_alike (o : Option Entry) :
    Alike (SameAt t key o) (storeEnsureList key) (storeEnsureList key) fun _ => Same t := by
  refine (hashRef_alike.post fun _ _ _ h => h.2.same).bind fun a => ?_
  rcases a with _ | ⟨v | xs | h, ex⟩
  · exact hashSet_blind.bind fun _ => blind_ret _
  all_goals exact blind_ret _

theorem storeListPush_blind (val : Bytes) (left : Bool) :
    Blind t (@storeListPush host key val left) (@storeListPush host' key val left) := by
  refine blind_touch hsteady fun o => (storeEnsureList_alike o).bind fun p => ?_
  cases p with
  | none => exact blind_ret _
  | some p => exact hashSet_blind.bind fun _ => blind_ret _

omit hsteady in
theorem putList_blind (xs : List Bytes) (ex : Int) : Blind t (putList key xs ex) (putList key xs ex) :=
  .ite (fun _ => hashRemove_blind) fun _ => hashSet_blind

theorem storeListPop_blind (left : Bool) : Blind t (@storeListPop host key left) (@storeListPop host' key left) := by
  refine blind_touch hsteady fun o => ?_
  rcases o with _ | ⟨v | xs | h, ex⟩
  · exact (blind_ret _).at key _
  · exact (blind_ret _).at key _
  · refine Blind.at ?_ key _
    dsimp only
    split
    · exact blind_ret _
    · exact (putList_blind _ _).bind fun _ => blind_ret _
  · exact (blind_ret _).at key _

theorem storeListLen_blind : Blind t (@storeListLen host key) (@storeListLen host' key) := by
  refine blind_touch hsteady fun o => ?_
  rcases o with _ | ⟨v | xs | h, ex⟩ <;> exact (blind_ret _).at key _

omit hsteady in
/-- The hash is there, or is made. -/
theorem storeEnsureHash_alike (o : Option Entry) :
    Alike (SameAt t key o) (storeEnsureHash key) (storeEnsureHash key) fun _ => Same t := by
  refine (hashRef_alike.post fun _ _ _ h => h.2.same).bind fun a => ?_
  rcases a with _ | ⟨v | xs | h, ex⟩
  · exact hashSet_blind.bind fun _ => blind_ret _
  all_goals exact blind_ret _

theorem storeHashSet_blind (field val : Bytes) :
    Blind t (@storeHashSet host key field val) (@storeHashSet host' key field val) := by
  refine blind_touch hsteady fun o => (storeEnsureHash_alike o).bind fun p => ?_
  cases p with
  | none => exact blind_ret _
  | some p => exact hashSet_blind.bind fun _ => blind_ret _

theorem storeHashGet_blind (field : Bytes) :
    Blind t (@storeHashGet host key field) (@storeHashGet host' key field) := by
  refine blind_touch hsteady fun o => ?_
  rcases o with _ | ⟨v | xs | h, ex⟩ <;> exact (blind_ret _).at key _

theorem storeHashDel_blind (fields : List Bytes) :
    Blind t (@storeHashDel host key fields) (@storeHashDel host' key fields) := by
  refine blind_touch hsteady fun o => ?_
  rcases o with _ | ⟨v | xs | h, ex⟩
  · exact (blind_ret _).at key _
  · exact (blind_ret _).at key _
  · exact (blind_ret _).at key _
  · refine Blind.at ?_ key _
    exact .ite (fun _ => hashRemove_blind.bind fun _ => blind_ret _) fun _ => hashSet_blind.bind fun _ => blind_ret _

/-- The fields are listed in two orders, each behind its value. -/
theorem storeHashGetall_related : Related (Same t) (@storeHashGetall host key) (@storeHashGetall host' key)
    fun xs xs' s s' => (∃ ps ps' : List (Bytes × Bytes), ps.Perm ps' ∧ (xs = ps.flatMap fun p => [p.1, p.2]) ∧
      xs' = ps'.flatMap fun p => [p.1, p.2]) ∧ Same t s s' := by
  refine (storeTouch_alike hsteady fun _ _ => id).followed fun o => ?_
  have hnone : Related (SameAt t key o) (pure ([] : List Bytes)) (pure []) fun xs xs' s s' =>
      (∃ ps ps' : List (Bytes × Bytes), ps.Perm ps' ∧ (xs = ps.flatMap fun p => [p.1, p.2]) ∧
        xs' = ps'.flatMap fun p => [p.1, p.2]) ∧ Same t s s' :=
    .ret fun s s' h => ⟨⟨[], [], .nil, rfl, rfl⟩, h.same⟩
  rcases o with _ | ⟨v | xs | h, ex⟩
  · exact hnone
  · exact hnone
  · exact hnone
  · intro s s' hs
    have hpairs (ks : List Bytes) : (gatherFields h ks []).reverse =
        (ks.map fun k => ((h.lookup k).getD [], k)).flatMap fun p => [p.1, p.2] := by
      rw [gatherFields_eq, List.flatMap_map]
      rfl
    exact ⟨⟨_, _, (hashKeys_perm h s.asked s'.asked).map _, hpairs _, hpairs _⟩, hs.same⟩

/-! ## The commands -/

/-- Two replies to a command are the same, but for the order of what `KEYS` and `HGETALL` list. -/
inductive SameReply : List Bytes × Bytes → List Bytes × Bytes → Prop
  | same (p : List Bytes × Bytes) : SameReply p p
  | keys {args ks ks' : List Bytes} (hname : cmdEq (argAt args 0) "KEYS" = true) (hperm : ks.Perm ks') :
    SameReply (args, respEncode (.array (ks.map .bulk))) (args, respEncode (.array (ks'.map .bulk)))
  | fields {args : List Bytes} {ps ps' : List (Bytes × Bytes)} (hname : cmdEq (argAt args 0) "HGETALL" = true)
    (hperm : ps.Perm ps') :
    SameReply (args, respEncode (.array ((ps.flatMap fun p => [p.1, p.2]).map .bulk)))
      (args, respEncode (.array ((ps'.flatMap fun p => [p.1, p.2]).map .bulk)))

/-- What is over does not show in the replies to a command. -/
def Seen (t : Int) (args : List Bytes) (m m' : StateM Store Bytes) : Prop :=
  Related (Same t) m m' fun reply reply' s s' => SameReply (args, reply) (args, reply') ∧ Same t s s'

omit hsteady in
theorem Blind.seen {t : Int} {args : List Bytes} {m m' : StateM Store Bytes} (h : Blind t m m') : Seen t args m m' := by
  intro s s' hs
  obtain ⟨hreply, hsame⟩ := h s s' hs
  rw [← hreply]
  exact ⟨.same _, hsame⟩

theorem infoBulk_blind (start : Int) : Blind t (@infoBulk host start) (@infoBulk host' start) :=
  (storeDbsize_blind hsteady).bind fun _ => blind_now hsteady fun _ => blind_ret _

theorem mgetItems_blind (keys : List Bytes) : Blind t (@mgetItems host keys) (@mgetItems host' keys) := by
  induction keys with
  | nil => exact blind_ret _
  | cons k ks ih => exact blind_touch hsteady fun o => Blind.at (ih.bind fun _ => blind_ret _) k o

omit hsteady in
theorem msetPairs_blind (args : List Bytes) : Blind t (msetPairs args) (msetPairs args) := by
  induction args using msetPairs.induct with
  | case1 k v rest ih => exact (storeSetString_blind _ _).bind fun _ => ih
  | case2 args h =>
    unfold msetPairs
    split
    · next k v rest => exact absurd rfl (h k v rest)
    · exact blind_ret _

variable [Runtime]

theorem parseSetOpts_blind (args : List Bytes) :
    Blind t (@parseSetOpts _ host args) (@parseSetOpts _ host' args) := by
  unfold parseSetOpts
  split
  · exact blind_ret _
  · exact .ite (fun _ => blind_now hsteady fun now => blind_ret _) fun _ => blind_ret _

theorem setWith_blind (args : List Bytes) : Blind t (@setWith _ host args) (@setWith _ host' args) := by
  refine (parseSetOpts_blind hsteady args).bind fun o => ?_
  rcases o with _ | ⟨ex, nx, xx⟩
  · exact blind_ret _
  · refine blind_touch hsteady fun o => Blind.at ?_ _ o
    exact .ite (fun _ => blind_ret _) fun _ => .ite (fun _ => blind_ret _) fun _ =>
      (storeSetString_blind _ _).bind fun _ => blind_ret _

theorem setTimed_blind (name : String) (scale : Int) (args : List Bytes) :
    Blind t (@setTimed _ host name scale args) (@setTimed _ host' name scale args) := by
  refine .ite (fun _ => blind_ret _) fun _ => ?_
  split
  · exact blind_ret _
  · exact blind_now hsteady fun _ => (storeSetString_blind _ _).bind fun _ => blind_ret _

/-- What is over shows in no reply. -/
theorem cmdDispatch_seen (start : Int) (args : List Bytes) :
    Seen t args (@cmdDispatch _ host start args) (@cmdDispatch _ host' start args) := by
  unfold cmdDispatch
  repeat' first
    | exact (blind_ret _).seen
    | exact (setTimed_blind hsteady _ _ args).seen
    | refine .ite (fun hname => ?_) fun _ => ?_
  · exact Blind.seen ((storeTouch_blind hsteady).bind fun _ => blind_ret _)
  · exact Blind.seen ((storeSetString_blind _ _).bind fun _ => blind_ret _)
  · exact (setWith_blind hsteady args).seen
  · exact Blind.seen ((storeTouch_blind hsteady).bind fun _ => blind_ret _)
  · exact Blind.seen ((mgetItems_blind hsteady _).bind fun _ => blind_ret _)
  · exact Blind.seen ((msetPairs_blind _).bind fun _ => blind_ret _)
  · exact Blind.seen ((storeAppend_blind hsteady _).bind fun _ => blind_ret _)
  · exact Blind.seen ((storeStrlen_blind hsteady).bind fun _ => blind_ret _)
  · refine Blind.seen ((storeGetset_blind hsteady _).bind fun old => ?_)
    cases old <;> exact blind_ret _
  · exact Blind.seen ((storeDel_blind hsteady _).bind fun _ => blind_ret _)
  · exact Blind.seen ((storeExists_blind hsteady _).bind fun _ => blind_ret _)
  · exact Blind.seen ((storeIncr_blind hsteady _).bind fun _ => blind_ret _)
  · exact Blind.seen ((storeIncr_blind hsteady _).bind fun _ => blind_ret _)
  · refine (storeKeys_related hsteady).bind fun ks ks' => .ret fun s s' h => ⟨?_, h.2⟩
    exact .keys hname (h.1.filter _)
  · exact Blind.seen ((storeDbsize_blind hsteady).bind fun _ => blind_ret _)
  · exact Blind.seen ((infoBulk_blind hsteady _).bind fun _ => blind_ret _)
  · exact Blind.seen ((storeRename_blind hsteady _ _ _).bind fun _ => blind_ret _)
  · exact Blind.seen ((storeRename_blind hsteady _ _ _).bind fun _ => blind_ret _)
  · refine Blind.seen (Alike.bind (T := fun _ => Same t) (.change fun _ _ _ _ => ?_) fun _ => blind_ret _)
    exact rfl
  · exact Blind.seen ((storeType_blind hsteady).bind fun _ => blind_ret _)
  · exact Blind.seen ((storeTtl_blind hsteady).bind fun _ => blind_ret _)
  · split
    · exact (blind_ret _).seen
    · exact Blind.seen ((storeExpire_blind hsteady _).bind fun _ => blind_ret _)
  · exact Blind.seen ((storeListPush_blind hsteady _ _).bind fun _ => blind_ret _)
  · exact Blind.seen ((storeListPush_blind hsteady _ _).bind fun _ => blind_ret _)
  · exact Blind.seen ((storeListPop_blind hsteady _).bind fun _ => blind_ret _)
  · exact Blind.seen ((storeListPop_blind hsteady _).bind fun _ => blind_ret _)
  · exact Blind.seen ((storeListLen_blind hsteady).bind fun _ => blind_ret _)
  · exact Blind.seen ((storeHashSet_blind hsteady _ _).bind fun _ => blind_ret _)
  · exact Blind.seen ((storeHashGet_blind hsteady _).bind fun _ => blind_ret _)
  · exact Blind.seen ((storeHashDel_blind hsteady _).bind fun _ => blind_ret _)
  · refine (storeHashGetall_related hsteady).bind fun xs xs' => .ret fun s s' h => ⟨?_, h.2⟩
    obtain ⟨ps, ps', hps, rfl, rfl⟩ := h.1
    exact .fields hname hps

end

/-! ## Runs -/

/-- A command, or a purge, on a machine whose clock is read once. -/
structure Event where
  host : Host
  now : Int
  steady : ∀ n, host.now n = now
  args : Option (List Bytes)

namespace Event

/-- The command and when it is done. -/
def sent (e : Event) : Option (Int × List Bytes) := e.args.map fun args => (e.now, args)

/-- The commands of them. -/
def commands (es : List Event) : List (Int × List Bytes) := es.filterMap sent

theorem now_of_sent {e e' : Event} (he : e.sent.isSome = true) (h : e.sent = e'.sent) : e.now = e'.now := by
  obtain ⟨c, hc⟩ := Option.isSome_iff_exists.mp he
  obtain ⟨args, -, hargs⟩ := Option.map_eq_some_iff.mp hc
  obtain ⟨args', -, hargs'⟩ := Option.map_eq_some_iff.mp (h.symm.trans hc)
  exact congrArg Prod.fst (hargs.trans hargs'.symm)

/-- A command that is to come has nothing but purges before it. -/
theorem exists_next {es : List Event} {c : Int × List Bytes} {cs : List (Int × List Bytes)}
    (h : commands es = c :: cs) (hclock : (es.map Event.now).Pairwise (· ≤ ·)) : ∃ ps e es', es = ps ++ e :: es' ∧
      (∀ p ∈ ps, p.sent = none) ∧ (∀ p ∈ ps, p.now ≤ e.now) ∧ e.sent = some c ∧ commands es' = cs ∧
      (es'.map Event.now).Pairwise (· ≤ ·) := by
  obtain ⟨ps, e, es', rfl, hps, hsent, hrest⟩ := List.filterMap_eq_cons_iff.mp h
  rw [List.map_append, List.map_cons, List.pairwise_append, List.pairwise_cons] at hclock
  obtain ⟨-, ⟨-, hlater⟩, hearlier⟩ := hclock
  exact ⟨ps, e, es', rfl, hps, fun p hp => hearlier _ (List.mem_map_of_mem hp) _ List.mem_cons_self, hsent, hrest,
    hlater⟩

variable [Runtime] (start : Int)

/-- A command with what the client is sent for it. -/
def run (e : Event) : StateM Store (List (List Bytes × Bytes)) :=
  let _ := e.host
  match e.args with
  | some args => do return [(args, ← cmdDispatch start args)]
  | none => do
    storePurge
    return []

/-- The events one after the other. -/
def replies : List Event → StateM Store (List (List Bytes × Bytes))
  | [] => return []
  | e :: es => do
    let sent ← e.run start
    return sent ++ (← replies es)

theorem replies_cons (e : Event) (es : List Event) (s : Store) :
    ((replies start (e :: es)).run s).1 =
      ((e.run start).run s).1 ++ ((replies start es).run ((e.run start).run s).2).1 ∧
    ((replies start (e :: es)).run s).2 = ((replies start es).run ((e.run start).run s).2).2 := ⟨rfl, rfl⟩

/-- A purge shows in nothing, and sends nothing. -/
theorem run_purge {e : Event} (h : e.sent = none) (s : Store) :
    ((e.run start).run s).1 = [] ∧ Same e.now ((e.run start).run s).2 s := by
  let _ := e.host
  have hrun : e.run start = (do
      storePurge
      return []) := by
    unfold run
    rw [Option.map_eq_none_iff.mp h]
  rw [hrun]
  exact ⟨rfl, storePurge_same e.steady s⟩

/-- A command at one time on two machines. -/
theorem run_seen {e e' : Event} (hargs : e.sent.isSome = true) (hsent : e.sent = e'.sent) {s s' : Store}
    (hs : Same e.now s s') :
    List.Forall₂ SameReply ((e.run start).run s).1 ((e'.run start).run s').1 ∧
      Same e.now ((e.run start).run s).2 ((e'.run start).run s').2 := by
  obtain ⟨host, now, steady, args⟩ := e
  obtain ⟨host', now', steady', args'⟩ := e'
  cases args with
  | none => cases hargs
  | some args =>
    cases args' with
    | none => cases hsent
    | some args' =>
      obtain ⟨rfl, rfl⟩ := Prod.mk.inj (Option.some.inj hsent)
      obtain ⟨hreply, hsame⟩ := cmdDispatch_seen ⟨steady, steady'⟩ start args s s' hs
      exact ⟨.cons hreply .nil, hsame⟩

/-- Purges before other events. -/
theorem replies_purges (ps es : List Event) (hps : ∀ e ∈ ps, e.sent = none) : ∀ s : Store, ∃ s' : Store,
    (∀ t, (∀ e ∈ ps, e.now ≤ t) → Same t s s') ∧ (replies start (ps ++ es)).run s = (replies start es).run s' := by
  induction ps with
  | nil => exact fun s => ⟨s, fun _ _ _ => rfl, rfl⟩
  | cons e ps ih =>
    intro s
    obtain ⟨hsent, hsame⟩ := run_purge start (hps e List.mem_cons_self) s
    obtain ⟨s', hs', hrun⟩ := ih (fun e he => hps e (List.mem_cons_of_mem _ he)) ((e.run start).run s).2
    obtain ⟨hreplies, hend⟩ := replies_cons start e (ps ++ es) s
    refine ⟨s', fun t ht key => ?_, ?_⟩
    · rw [← hsame.later (ht e List.mem_cons_self) key, hs' t (fun e he => ht e (List.mem_cons_of_mem _ he)) key]
    · rw [← hrun]
      refine Prod.ext ?_ hend
      rw [List.cons_append, hreplies, hsent, List.nil_append]

/-- Stores that show the same, and the same commands. -/
theorem replies_seen (es : List Event) : ∀ (es' : List Event) (t : Int) (s s' : Store),
    (es.map Event.now).Pairwise (· ≤ ·) → (es'.map Event.now).Pairwise (· ≤ ·) → commands es = commands es' →
    (∀ e ∈ es, t ≤ e.now) → Same t s s' →
    List.Forall₂ SameReply ((replies start es).run s).1 ((replies start es').run s').1 ∧
      ∀ t', (∀ e ∈ es ++ es', e.now ≤ t') → t ≤ t' →
        Same t' ((replies start es).run s).2 ((replies start es').run s').2 := by
  induction es with
  | nil =>
    intro es' t s s' _ _ hcommands _ hs
    obtain ⟨s'', hs'', hrun⟩ := replies_purges start es' [] (List.filterMap_eq_nil_iff.mp hcommands.symm) s'
    rw [List.append_nil] at hrun
    rw [hrun]
    exact ⟨.nil, fun t' hlast ht key => (hs.later ht key).trans (hs'' t' hlast key)⟩
  | cons e es ih =>
    intro es' t s s' hclock hclock' hcommands hafter hs
    rw [List.map_cons, List.pairwise_cons] at hclock
    have hnow := hs.later (hafter e List.mem_cons_self)
    have hnext (e' : Event) (he : e' ∈ es) : e.now ≤ e'.now := hclock.1 _ (List.mem_map_of_mem he)
    obtain ⟨hreplies, hend⟩ := replies_cons start e es s
    rw [hreplies, hend]
    cases hsent : e.sent with
    | none =>
      obtain ⟨hnone, hsame⟩ := run_purge start hsent s
      have hrest : commands es = commands es' := by rw [← hcommands, commands, commands, List.filterMap_cons_none hsent]
      obtain ⟨hafter', hlast'⟩ := ih es' e.now ((e.run start).run s).2 s' hclock.2 hclock' hrest hnext
        fun key => (hsame key).trans (hnow key)
      rw [hnone, List.nil_append]
      exact ⟨hafter', fun t' hlast _ => hlast' t' (fun e' he => hlast e' (List.mem_cons_of_mem _ he))
        (hlast e List.mem_cons_self)⟩
    | some c =>
      -- The other run comes to the command after some purges.
      rw [commands, List.filterMap_cons_some hsent] at hcommands
      obtain ⟨ps, e', es', rfl, hps, hearlier, hsent', hrest, hclock'⟩ := exists_next hcommands.symm hclock'
      have htime : e.now = e'.now := now_of_sent (hsent ▸ rfl) (hsent.trans hsent'.symm)
      obtain ⟨s'', hs'', hrun⟩ := replies_purges start ps (e' :: es') hps s'
      obtain ⟨hreplies', hend'⟩ := replies_cons start e' es' s''
      obtain ⟨hreply, hsame⟩ := run_seen start (hsent ▸ rfl) (hsent.trans hsent'.symm) fun key =>
        (hnow key).trans (hs'' e.now (htime ▸ hearlier) key)
      obtain ⟨hafter', hlast'⟩ := ih es' e.now _ _ hclock.2 hclock' hrest.symm hnext hsame
      rw [hrun, hreplies', hend']
      refine ⟨List.rel_append hreply hafter', fun t' hlast _ => hlast' t' (fun p hp => hlast p ?_)
        (hlast e List.mem_cons_self)⟩
      simp only [List.mem_append, List.mem_cons] at hp ⊢
      tauto

/-- **Purges are not seen**: wherever they are made, and on whatever machines, the commands get the same replies, but
for the order of what `KEYS` and `HGETALL` list, and the stores show the same afterwards. -/
theorem purges_unseen {es es' : List Event} (hclock : (es.map Event.now).Pairwise (· ≤ ·))
    (hclock' : (es'.map Event.now).Pairwise (· ≤ ·)) (hcommands : commands es = commands es') (s : Store) :
    List.Forall₂ SameReply ((replies start es).run s).1 ((replies start es').run s).1 ∧
      ∀ t, (∀ e ∈ es ++ es', e.now ≤ t) → Same t ((replies start es).run s).2 ((replies start es').run s).2 := by
  cases es with
  | nil =>
    have hseen (t : Int) := replies_seen start [] es' t s s hclock hclock' hcommands (fun e he => nomatch he) fun _ => rfl
    exact ⟨(hseen 0).1, fun t hlast => (hseen t).2 t hlast le_rfl⟩
  | cons e es =>
    have hafter : ∀ e' ∈ e :: es, e.now ≤ e'.now := by
      intro e' he
      rcases List.mem_cons.mp he with rfl | he
      · exact le_rfl
      · exact (List.pairwise_cons.mp hclock).1 _ (List.mem_map_of_mem he)
    obtain ⟨hreplies, hend⟩ := replies_seen start (e :: es) es' e.now s s hclock hclock' hcommands hafter fun _ => rfl
    exact ⟨hreplies, fun t hlast => hend t hlast (hlast e List.mem_cons_self)⟩

end Event

/-- The sorted machine at a time. -/
@[reducible] def hostAt (t : Int) : Host := { sortedHost with now := fun _ => t }

/-- One that lists a table's keys the other way. -/
@[reducible] def hostBackAt (t : Int) : Host where
  now _ := t
  keys n s := (sortedHost.keys n s).reverse
  nodup_keys n s := List.nodup_reverse.mpr (sortedHost.nodup_keys n s)
  mem_keys n s k := List.mem_reverse.trans (sortedHost.mem_keys n s k)

def eventAt (t : Int) (args : Option (List Bytes)) : Event := ⟨hostAt t, t, fun _ => rfl, args⟩

def eventBackAt (t : Int) (args : Option (List Bytes)) : Event := ⟨hostBackAt t, t, fun _ => rfl, args⟩

/-- A key that lasts a second, two that stay, and a list of all after that. -/
def lastsASecond (event : Int → Option (List Bytes) → Event) (purges : List Event) : List Event :=
  event 0 (some [lit "SETEX", lit "k", lit "1", lit "v"]) :: event 0 (some [lit "SET", lit "a", lit "x"]) ::
    event 1000 (some [lit "SET", lit "b", lit "y"]) :: (purges ++ [event 3000 (some [lit "KEYS"])])

/-- One machine purges, and the other does not, and lists the keys the other way. -/
theorem purges_unseen_once :
    let _ : Runtime := decimalRuntime
    let es := lastsASecond eventAt [eventAt 2000 none]
    let es' := lastsASecond eventBackAt []
    List.Forall₂ SameReply ((Event.replies 0 es).run {}).1 ((Event.replies 0 es').run {}).1 ∧
      ∀ t, (∀ e ∈ es ++ es', e.now ≤ t) → Same t ((Event.replies 0 es).run {}).2 ((Event.replies 0 es').run {}).2 :=
  @Event.purges_unseen decimalRuntime 0 (lastsASecond eventAt [eventAt 2000 none]) (lastsASecond eventBackAt [])
    (by decide) (by decide) rfl {}

end Aura
