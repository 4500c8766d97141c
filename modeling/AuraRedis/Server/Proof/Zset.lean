import AuraRedis.Core.Proof.Zset
import AuraRedis.Server.Proof.Writes

/-!
# ZRANGE, ZSCORE and ZCARD

What the sorted set commands show of a key after a run of `ZADD` and `ZREM`: the array in its order, and the
map from members to the scores last given.
-/

set_option autoImplicit false

namespace AuraRedis

open ArCore (Typed)
open Code

/-! ## The reply of ZRANGE -/

/-- What `ZRANGE` replies of an array: the members of a window, each with its score when asked for. -/
def zrangeReply [Libc] (withscores : Bool) (arr : List ArZNode) (start stop : Int) : Bytes :=
  match rangeWindow arr.length start stop with
  | none => Resp.arrayHdr 0
  | some (from_, n) =>
    Resp.arrayHdr (if withscores then 2 * n else n) ++
      ((arr.drop from_).take n).flatMap fun x =>
        Resp.bulk x.member ++ if withscores then Resp.bulk (Libc.fmt17g x.score) else []

theorem rangeWindow_le {len : Nat} {start stop : Int} {x : Nat × Nat}
    (h : rangeWindow len start stop = some x) : x.2 ≤ len := by
  simp only [rangeWindow, Option.ite_none_left_eq_some, Option.some.injEq, not_or] at h
  obtain ⟨⟨_, _⟩, rfl⟩ := h
  dsimp only
  split_ifs at * <;> omega

theorem int32_of_le {n : Int} (h0 : 0 ≤ n) (h : n ≤ 8192) : int32 n = n := by
  unfold int32
  rw [Int.bmod_def]
  omega

section
variable [Libc] {cid : Nat} {argv : List Bytes} {arr : List ArZNode} {start stop : Int}

theorem Writes.member (withscores : Bool) (n : ArZNode) :
    Writes cid (Dispatch.replyMember cid withscores n)
      (Resp.bulk n.member ++ if withscores then Resp.bulk (Libc.fmt17g n.score) else []) := by
  unfold Dispatch.replyMember
  refine (Writes.append cid _).bind ?_
  cases withscores with
  | false => exact .nil cid
  | true => exact .append cid _

/-- The members of an array's window. -/
theorem Writes.zrange (hlen : arr.length ≤ ArCore.zsetMaxMembers) (withscores : Bool) :
    Writes cid
      (match rangeWindow arr.length start stop with
        | none => replyEmpty cid
        | some (from_, n) => Dispatch.replyMembers cid withscores (int32 n) ((arr.drop from_).take n))
      (zrangeReply withscores arr start stop) := by
  unfold zrangeReply
  cases hw : rangeWindow arr.length start stop with
  | none => exact .append cid _
  | some x =>
    obtain ⟨from_, n⟩ := x
    have hn : n ≤ arr.length := rangeWindow_le hw
    have hcap : arr.length ≤ 4096 := hlen
    have hi : int32 (n : Int) = n := int32_of_le (by omega) (by omega)
    have h2 : int32 ((n : Int) * 2) = 2 * n := by rw [int32_of_le (by omega) (by omega), Int.mul_comm]
    dsimp only [Dispatch.replyMembers, replyArray]
    rw [hi, h2]
    cases withscores with
    | false => exact (Writes.append cid _).bind (.each (Writes.member false) _)
    | true => exact (Writes.append cid _).bind (.each (Writes.member true) _)

theorem zrangeReply_nil (withscores : Bool) : zrangeReply withscores [] start stop = Resp.arrayHdr 0 := by
  have hn : rangeWindow (([] : List ArZNode).length : Nat) start stop = none := by
    unfold rangeWindow
    dsimp only
    rw [if_pos]
    simp only [List.length_nil]
    omega
  unfold zrangeReply
  rw [hn]

/-- `ZRANGE` in a world that has the array. -/
theorem exec_zrange {O : Outside} {w : World} {t : Nat} {key : Bytes} (hO : O.AllocOk)
    (hE : (O.env w.calls).Frozen t) (hwf : w.core.WF) (hn : w.core.cfg.evict = .noop)
    (hv : w.core.view t key = zsetSlot arr) (hlen : arr.length ≤ ArCore.zsetMaxMembers)
    (hcid : cid < w.core.conns.length) (hkey : arg argv 1 = key) (hargs : rangeArgs argv = some (start, stop))
    (hargc : argv.length = 4 ∨ argv.length = 5 ∧ cmdEq (arg argv 4) "withscores" = true) :
    ∃ w', (Dispatch.zrange cid argv).exec O w = (w', some ()) ∧
      (w'.conn cid).wbuf = (w.conn cid).wbuf ++ zrangeReply (decide (argv.length = 5)) arr start stop := by
  have hans := zget_of_view hE (hO w.calls) hwf hn hv
  have hlt : ¬(argv.length < 4 ∨ argv.length > 5) := by omega
  have hws : ¬(argv.length = 5 ∧ cmdEq (arg argv 4) "withscores" = false) := by
    rintro ⟨h5, hf⟩
    rcases hargc with h4 | ⟨-, ht⟩
    · omega
    · rw [hf] at ht
      cases ht
  unfold Dispatch.zrange
  rw [if_neg hlt, if_neg hws, hargs, hkey]
  refine Writes.after_op _ hO hE hwf rfl hcid ?_
  rw [hans]
  by_cases ha : arr = []
  · subst ha
    rw [zrangeReply_nil]
    exact .append cid _
  · simp only [Spec.zget, Spec.readZset, zsetSlot, if_neg ha]
    exact .zrange hlen _

end

/-! ## After a run -/

/-- **A run of `ZADD` and `ZREM` keeps a sorted set in order**: the array is strictly increasing by score and
then by the bytes of the member, no member is in it twice, and its scores are the last ones given and not
taken back. `ZSCORE`, `ZCARD` and `ZRANGE` show that array. -/
theorem zset_order_runs [Libc] {c : ArCore} {key : Bytes} {t : Nat} {calls : List Call}
    (hc : ArCore.Reachable c) (hn : c.cfg.evict = .noop) (hk : c.view t key = none)
    (ha : ∀ x ∈ calls, x.E.AllocOk ∧ x.op.OnZset key) (hcap : c.Each (WithinCap key) calls)
    (ht : (t :: calls.map Call.t).Pairwise (· ≤ ·)) :
    ∃ arr : List ArZNode,
      (c.runCalls calls).view (lastTime t calls) key = zsetSlot arr ∧
      arr.Pairwise ArZNode.Before ∧
      (arr.map (·.member)).Nodup ∧
      (∀ m d, scores key calls m = some d ↔ ⟨d, m⟩ ∈ arr) ∧
      (∀ (E : Env) (t' : Nat), E.Frozen t' → E.AllocOk → lastTime t calls ≤ t' →
        (∀ m, ((c.runCalls calls).arZsetZscore E key m).2 =
          ((scores key calls m).map .found).getD .missing) ∧
        ((c.runCalls calls).arZsetZcard E key).2 = (if arr = [] then .missing
          else .found (Set.ncard {m | (scores key calls m).isSome}))) ∧
      ∀ (O : Outside) (w : World) (t' cid : Nat) (argv : List Bytes) (start stop : Int),
        w.core.dict = (c.runCalls calls).dict → w.core.cfg = (c.runCalls calls).cfg → O.AllocOk →
        (O.env w.calls).Frozen t' → lastTime t calls ≤ t' → cid < w.core.conns.length →
        arg argv 1 = key → rangeArgs argv = some (start, stop) →
        (argv.length = 4 ∨ argv.length = 5 ∧ cmdEq (arg argv 4) "withscores" = true) →
        ∃ w', (Dispatch.zrange cid argv).exec O w = (w', some ()) ∧
          (w'.conn cid).wbuf = (w.conn cid).wbuf ++ zrangeReply (decide (argv.length = 5)) arr start stop := by
  have hnil : HoldsScores (fun _ => none) (c.view t key) :=
    ⟨[], .nil, by simp, funext fun m => rfl, by rw [hk]; rfl⟩
  obtain ⟨⟨arr, hs, hlen, hf, hv⟩, hwf, hn'⟩ := hnil.run hc.wf hn ha hcap ht
  have hlater : ∀ t', lastTime t calls ≤ t' → (c.runCalls calls).view t' key = zsetSlot arr := by
    intro t' hle
    rw [← view_at hwf hle, Store.at_, hv, alive_zsetSlot]
  change scoresOf arr = scores key calls at hf
  refine ⟨arr, hv, hs.strict, hs.1.names, fun m d => ?_, fun E t' hE hal hle => ⟨fun m => ?_, ?_⟩, ?_⟩
  · rw [← hf, hs.scoresOf_eq_some_iff]
  · rw [← hf]
    exact zscore_of_view hE hal hwf hn' (hlater t' hle) m
  · rw [← hf, hs.ncard_scoresOf]
    exact zcard_of_view hE hal hwf hn' (hlater t' hle)
  · intro O w t' cid argv start stop hd hg hO hE hle hcid hkey hargs hargc
    have hwf' : w.core.WF := ⟨hd ▸ hwf.dict, fun i hi => hwf.objs i ?_⟩
    · refine exec_zrange hO hE hwf' (by rw [hg]; exact hn') ?_ hlen hcid hkey hargs hargc
      rw [← hlater t' hle]
      unfold ArCore.view ArCore.peek
      rw [hd]
    · unfold ArCore.items at hi ⊢
      rwa [← hd]

/-- A member twice in one command, one that moves and one that goes. -/
def zsetCalls : List Call :=
  [.steady 1 (.arZsetZadd (lit "z") [⟨⟨0x4000000000000000#64⟩, lit "a"⟩, ⟨⟨0x3FF0000000000000#64⟩, lit "b"⟩,
      ⟨⟨0#64⟩, lit "a"⟩, ⟨⟨0#64⟩, lit "c"⟩]),
    .steady 2 (.arZsetZrem (lit "z") [lit "c"])]

theorem zset_order_sample :
    ∃ arr : List ArZNode, (ArCore.arCoreCreate.runCalls zsetCalls).view 2 (lit "z") = zsetSlot arr ∧
      arr.Pairwise ArZNode.Before ∧ (arr.map (·.member)).Nodup ∧
      ∀ m d, scores (lit "z") zsetCalls m = some d ↔ ⟨d, m⟩ ∈ arr := by
  have hk : ArCore.arCoreCreate.view 0 (lit "z") = none := by decide +kernel
  have ha : ∀ x ∈ zsetCalls, x.E.AllocOk ∧ x.op.OnZset (lit "z") := by
    intro x hx
    simp only [zsetCalls, List.mem_cons, List.not_mem_nil, or_false] at hx
    obtain rfl | rfl := hx
    · exact ⟨fun _ => rfl, fun _ => by decide⟩
    · exact ⟨fun _ => rfl, trivial⟩
  have hcap : ArCore.arCoreCreate.Each (WithinCap (lit "z")) zsetCalls := by
    refine ⟨fun ns h => ?_, fun ns h => ?_, trivial⟩
    · cases h
      decide +kernel
    · cases h
  obtain ⟨arr, hv, hp, hn, hs, -⟩ := @zset_order_runs smallLibc _ _ 0 _ .create rfl hk ha hcap (by decide)
  exact ⟨arr, hv, hp, hn, hs⟩

end AuraRedis
