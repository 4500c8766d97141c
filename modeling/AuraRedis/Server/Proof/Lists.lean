import AuraRedis.Core.Proof.Found
import AuraRedis.Lib.Occurrences
import AuraRedis.Server.Proof.Counter
import AuraRedis.Server.Proof.Propagate
import AuraRedis.Server.Proof.Zset

/-!
# LREM, LTRIM and LRANGE

`LREM` takes the first or the last occurrences of an element, as many as it is asked for: `lrem_exact` says where.
`LTRIM` leaves the elements that `LRANGE` shows: `ltrim_lrange`.
-/

set_option autoImplicit false

namespace AuraRedis

open Code Occurrences
open ArCore (lremWalk lremList)
open Decimal (ofInt)

/-! ## The walk of LREM -/

variable {elem : Bytes}

/-- With no limit. -/
theorem lremWalk_unlimited (l : List Bytes) (removed : Int) :
    lremWalk elem (fun _ => false) l removed = (l.filter (· ≠ elem), removed + l.count elem) := by
  induction l generalizing removed with
  | nil => simp [lremWalk]
  | cons v l ih =>
    unfold lremWalk
    by_cases hv : v = elem
    · subst hv
      rw [if_pos rfl, if_neg (by simp), ih, List.filter_cons_of_neg (by simp), List.count_cons_self]
      push_cast
      rw [Int.add_assoc, Int.add_comm 1]
    · rw [if_neg hv, ih, List.filter_cons_of_pos (by simpa using hv), List.count_cons_of_ne hv]

/-- With a limit: one occurrence goes in any case. -/
theorem lremWalk_limited (limit : Int) (l : List Bytes) (removed : Int) :
    lremWalk elem (fun n => decide (n ≥ limit)) l removed =
      (removeFirst elem (max 1 (limit - removed).toNat) l,
        removed + min (max 1 (limit - removed).toNat) (l.count elem)) := by
  induction l generalizing removed with
  | nil => simp [lremWalk]
  | cons v l ih =>
    unfold lremWalk
    obtain ⟨k, hk⟩ : ∃ k, max 1 (limit - removed).toNat = k + 1 :=
      ⟨max 1 (limit - removed).toNat - 1, by omega⟩
    rw [hk]
    by_cases hv : v = elem
    · subst hv
      rw [if_pos rfl, removeFirst_self, List.count_cons_self]
      by_cases hstop : removed + 1 ≥ limit
      · rw [if_pos (by simpa using hstop), show k = 0 by omega, removeFirst_zero]
        simp
      · rw [if_neg (by simpa using hstop), ih, show max 1 (limit - (removed + 1)).toNat = k by omega]
        refine Prod.ext rfl ?_
        show removed + 1 + ((min k (l.count v) : Nat) : Int) = removed + ((min (k + 1) (l.count v + 1) : Nat) : Int)
        omega
    · rw [if_neg hv, ih, hk, removeFirst_of_ne hv, List.count_cons_of_ne hv]

/-! ## What LREM should do -/

/-- The list without `|count|` occurrences of an element, from the head or from the tail, or without all of them,
and how many these are. -/
def lremSpec (l : List Bytes) (count : Int) (elem : Bytes) : List Bytes × Nat :=
  if count = 0 then (l.filter (· ≠ elem), l.count elem)
  else if 0 < count then (removeFirst elem count.natAbs l, min count.natAbs (l.count elem))
  else ((removeFirst elem count.natAbs l.reverse).reverse, min count.natAbs (l.count elem))

theorem lremList_eq (l : List Bytes) {count : Int} (h : Fits64 count) (hmin : count ≠ -2 ^ 63) (elem : Bytes) :
    lremList l count elem = ((lremSpec l count elem).1, ((lremSpec l count elem).2 : Int)) := by
  obtain ⟨hlo, hhi⟩ := h
  unfold lremList lremSpec
  rcases lt_trichotomy count 0 with hneg | rfl | hpos
  · have hlim : int64 (-count) = -count := int64_eq (by omega) (by omega)
    rw [if_neg (by omega), if_neg (by omega), if_neg (by omega), hlim]
    simp only [lremWalk_limited, List.count_reverse, Int.sub_zero, Int.zero_add]
    rw [show max 1 (-count).toNat = count.natAbs by omega]
  · simp only [ge_iff_le, le_refl, if_true, ne_eq, not_true_eq_false, decide_false, Bool.false_and,
      lremWalk_unlimited, Int.zero_add]
  · rw [if_pos hpos.le, if_neg (by omega), if_pos hpos]
    simp only [ne_eq, show ¬count = 0 by omega, not_false_eq_true, decide_true, Bool.true_and, lremWalk_limited,
      Int.sub_zero, Int.zero_add]
    rw [show max 1 count.toNat = count.natAbs by omega]

/-- The least count takes one occurrence. -/
theorem lremList_least (l : List Bytes) (elem : Bytes) :
    lremList l (-2 ^ 63) elem = ((removeFirst elem 1 l.reverse).reverse, ((min 1 (l.count elem) : Nat) : Int)) := by
  unfold lremList
  rw [if_neg (by decide), show int64 (-(-2 ^ 63)) = -2 ^ 63 by decide]
  simp only [lremWalk_limited, List.count_reverse, Int.sub_zero, Int.zero_add]
  rfl

/-- With the least count, it takes all there are when there is at most one. -/
theorem lremList_of_exact (l : List Bytes) {count : Int} (h : Fits64 count) (elem : Bytes)
    (hexact : count ≠ -2 ^ 63 ∨ l.count elem ≤ 1) :
    lremList l count elem = ((lremSpec l count elem).1, ((lremSpec l count elem).2 : Int)) := by
  by_cases hmin : count = -2 ^ 63
  · subst hmin
    have hle : l.count elem ≤ 1 := hexact.resolve_left fun hne => hne rfl
    have hle' : l.reverse.count elem ≤ 1 := by rwa [List.count_reverse]
    have hspec : lremSpec l (-2 ^ 63) elem =
        ((removeFirst elem (2 ^ 63) l.reverse).reverse, min (2 ^ 63) (l.count elem)) := rfl
    rw [lremList_least, hspec, removeFirst_all hle', removeFirst_all (hle'.trans (by decide)), Nat.min_eq_right hle,
      Nat.min_eq_right (hle.trans (by decide))]
  · exact lremList_eq l h hmin elem

/-! ## LREM -/

/-- What `LREM` replies. -/
def lremReply (c : Nat) (argv : List Bytes) : ArCore.Typed Int → Code Unit
  | .wrongType => replyWrongType c
  | .missing => replyRemoved c argv 0
  | .found n => replyRemoved c argv n

theorem lrem_eq {count : Int} (h : Fits64 count) (c : Nat) (key elem : Bytes) :
    Dispatch.lrem c [lit "LREM", key, ofInt count, elem] =
      call (.arListLrem key count elem) >>= lremReply c [lit "LREM", key, ofInt count, elem] := by
  have hn : intArg (arg [lit "LREM", key, ofInt count, elem] 2) = some count := intArg_ofInt h
  unfold Dispatch.lrem
  rw [if_neg (by simp), hn]
  refine congrArg (call (.arListLrem key count elem) >>= ·) (funext fun a => ?_)
  cases a <;> rfl

/-- **Where `LREM` takes as many as it is asked for**: unless the count is the least number, whose negation is not
in the type, and there are two occurrences to take. -/
theorem lrem_exact {E : Env} {t : Nat} {c : ArCore} {key : Bytes} {i : Item} {l : List Bytes} (hE : E.Frozen t)
    (hwf : c.WF) (hp : c.peek t key = some i) (ho : i.obj = .list l) {count : Int} (hcount : Fits64 count)
    (elem : Bytes) :
    (∀ conn, Dispatch.lrem conn [lit "LREM", key, ofInt count, elem] =
      call (.arListLrem key count elem) >>= lremReply conn [lit "LREM", key, ofInt count, elem]) ∧
    ((c.arListLrem E key count elem).2 = .found ((lremSpec l count elem).2 : Int) ∧
        (c.arListLrem E key count elem).1.peek t key = leftOver i (lremSpec l count elem).1 ↔
      count ≠ -2 ^ 63 ∨ l.count elem ≤ 1) := by
  refine ⟨fun conn => lrem_eq hcount conn key elem, ?_⟩
  obtain ⟨hans, hpeek⟩ := arListLrem_found hE hwf hp ho count elem
  rw [hans, hpeek]
  constructor
  · rintro ⟨hn, -⟩
    by_cases hmin : count = -2 ^ 63
    · subst hmin
      have hspec : (lremSpec l (-2 ^ 63) elem).2 = min (2 ^ 63) (l.count elem) := rfl
      rw [lremList_least, hspec] at hn
      have hmin : min 1 (l.count elem) = min (2 ^ 63) (l.count elem) := Int.ofNat.inj (ArCore.Typed.found.inj hn)
      omega
    · exact .inl hmin
  · intro hexact
    rw [lremList_of_exact l hcount elem hexact]
    exact ⟨rfl, rfl⟩

/-- At 1000 the list `k` has the elements `a`, `b` and `a`. -/
def listCalls : List Call := [.steady 1000 (.arListPush (lit "k") false [lit "a", lit "b", lit "a"])]

/-- The world after these calls. -/
def listWorld : World := { core := ArCore.arCoreCreate.runCalls listCalls }

theorem wf_listWorld : listWorld.core.WF := by
  have h := ArCore.Reachable.create.runCalls listCalls
  dsimp only [listWorld]
  exact h.wf

theorem peek_listWorld :
    listWorld.core.peek 1000 (lit "k") = some ⟨lit "k", .list [lit "a", lit "b", lit "a"], false, 0⟩ := by
  decide +kernel

theorem lrem_exact_last :
    (listWorld.core.arListLrem (.steady 1000) (lit "k") (-1) (lit "a")).2 = .found 1 ∧
      (listWorld.core.arListLrem (.steady 1000) (lit "k") (-1) (lit "a")).1.peek 1000 (lit "k") =
        leftOver ⟨lit "k", .list [lit "a", lit "b", lit "a"], false, 0⟩ [lit "a", lit "b"] :=
  (lrem_exact (E := .steady 1000) (t := 1000) (fun _ => rfl) wf_listWorld peek_listWorld rfl
    (show Fits64 (-1) by decide) (lit "a")).2.2 (.inl (by decide))

/-- `LREM k -9223372036854775808 a` takes one of two. -/
theorem lrem_least :
    (listWorld.core.arListLrem (.steady 1000) (lit "k") (-2 ^ 63) (lit "a")).2 = .found 1 ∧
      (lremSpec [lit "a", lit "b", lit "a"] (-2 ^ 63) (lit "a")).2 = 2 := by
  refine ⟨by decide +kernel, ?_⟩
  show min (2 ^ 63) _ = 2
  decide

/-! ## LTRIM and LRANGE -/

/-- `LTRIM` keeps the window that `LRANGE` shows. -/
theorem trimWindow_eq (len : Nat) (start stop : Int) : ArCore.trimWindow len start stop = rangeWindow len start stop := by
  unfold ArCore.trimWindow rangeWindow
  simp only
  congr 1
  apply propext
  split_ifs <;> omega

/-- The elements that `LRANGE` shows. -/
def lrangeElems (l : List Bytes) (start stop : Int) : List Bytes :=
  match rangeWindow l.length start stop with
  | none => []
  | some (from_, n) => (l.drop from_).take n

section
variable {l : List Bytes} {start stop : Int} {c : Nat}

theorem length_lrangeElems {m n : Nat} (h : rangeWindow l.length start stop = some (m, n)) :
    ((l.drop m).take n).length = n := by
  simp only [rangeWindow, Option.ite_none_left_eq_some, Option.some.injEq, not_or, Prod.mk.injEq] at h
  obtain ⟨⟨_, _⟩, rfl, rfl⟩ := h
  rw [List.length_take, List.length_drop]
  split_ifs at * <;> omega

/-- The reply of `LRANGE`, as long as the length is in the type `int`. -/
theorem Writes.lrange (hlen : l.length < 2 ^ 31) :
    Writes c
      (match rangeWindow l.length start stop with
        | none => replyEmpty c
        | some (from_, n) => replyArray c (int32 n) ((l.drop from_).take (int32 n).toNat) (replyBulk c))
      (Resp.arrayHdr (lrangeElems l start stop).length ++ (lrangeElems l start stop).flatMap Resp.bulk) := by
  unfold lrangeElems
  cases hw : rangeWindow l.length start stop with
  | none =>
    show Writes c (replyEmpty c) (Resp.arrayHdr 0 ++ [])
    rw [List.append_nil]
    exact .append c _
  | some x =>
    obtain ⟨m, n⟩ := x
    have hn : n < 2 ^ 31 := (rangeWindow_le hw).trans_lt hlen
    have hi : int32 (n : Int) = n := by
      unfold int32
      rw [Int.bmod_def]
      omega
    simp only [hi, Int.toNat_natCast, length_lrangeElems hw]
    exact (Writes.append c _).bind (.each (fun v => .append c _) _)

/-- **`LTRIM` and `LRANGE` agree**: what is left of a list by the one is what the other shows of it. -/
theorem ltrim_lrange {O : Outside} {w : World} {t : Nat} {key : Bytes} {i : Item} {argv : List Bytes}
    (hE : (O.env w.calls).Frozen t) (hwf : w.core.WF) (hp : w.core.peek t key = some i) (ho : i.obj = .list l)
    (hlen : l.length < 2 ^ 31) (hargc : argv.length = 4) (hkey : arg argv 1 = key)
    (hargs : rangeArgs argv = some (start, stop)) (c : Nat) :
    (O.AllocOk → c < w.core.conns.length →
      ∃ w', (Dispatch.lrange c argv).exec O w = (w', some ()) ∧ (w'.conn c).wbuf = (w.conn c).wbuf ++
        (Resp.arrayHdr (lrangeElems l start stop).length ++ (lrangeElems l start stop).flatMap Resp.bulk)) ∧
    ((Dispatch.ltrim c argv).exec O w).1.core.peek t key = leftOver i (lrangeElems l start stop) := by
  have hargc' : ¬argv.length ≠ 4 := fun h => h hargc
  constructor
  · intro hO hc
    unfold Dispatch.lrange
    rw [if_neg hargc', hargs, hkey]
    refine Writes.after_op _ hO hE hwf rfl hc ?_
    have hans : (ArOp.run (O.env w.calls) w.core (.arListGet key)).2 = .found l :=
      (readList_found hE hwf hp ho id).1
    rw [hans]
    exact .lrange hlen
  · obtain ⟨hans, hpeek⟩ := arListLtrim_found hE hwf hp ho start stop
    have hpass : (replPropagate argv >>= fun _ => replyOk c).Only fun e => ∃ r, Sends r e :=
      sends_replPropagate.bind fun _ => (sends_wbufAppend _).mono fun e he => ⟨c, he⟩
    unfold Dispatch.ltrim
    rw [if_neg hargc', hargs, hkey]
    have hans' : (ArOp.run (O.env w.calls) w.core (.arListLtrim key start stop)).2 = .found () := hans
    refine (congrArg (fun x : World × Option Unit => x.1.core.peek t key)
      (exec_call O w (.arListLtrim key start stop) _)).trans ?_
    rw [hans']
    refine (peek_of_dict (dict_of_sends hpass O _) t key).trans ?_
    refine hpeek.trans ?_
    rw [trimWindow_eq]
    unfold lrangeElems
    cases rangeWindow l.length start stop <;> rfl

end

theorem ltrim_lrange_sample :
    ((Dispatch.ltrim 0 [lit "LTRIM", lit "k", lit "-2", lit "9"]).exec (.steady 1000) listWorld).1.core.peek 1000
        (lit "k") =
      leftOver ⟨lit "k", .list [lit "a", lit "b", lit "a"], false, 0⟩
        (lrangeElems [lit "a", lit "b", lit "a"] (-2) 9) :=
  (ltrim_lrange (O := .steady 1000) (w := listWorld) (t := 1000) (fun _ => rfl) wf_listWorld peek_listWorld rfl
    (by decide) rfl rfl (by decide) 0).2

end AuraRedis
