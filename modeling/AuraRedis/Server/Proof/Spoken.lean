import AuraRedis.Server.Proof.Fits
import AuraRedis.Server.Proof.Framing

/-!
# What the commands say

Every branch of `dispatch` but `SYNC` says one value (`SUBSCRIBE` and `UNSUBSCRIBE`, of one channel).
-/

set_option autoImplicit false

namespace AuraRedis

open Code Prog
open Resp (Values Wire crlf)

-- the loops over all slots are not to be unrolled
attribute [local irreducible] maxConn

namespace Dispatch

section
variable {mode : Option Bool} {c m n : Nat} {α β : Type} (argv : List Bytes)

/-! ## Strings and keys -/

theorem says_get : Says mode c 1 (Dispatch.get c argv) := by
  unfold Dispatch.get
  refine .ite (says_wrongArgs rfl rfl) ((silent_call _).andThen fun a => ?_)
  cases a with
  | wrongType => exact says_wrongType
  | missing => exact says_nullBulk
  | found v => exact says_bulk v

theorem silent_entrySet (key val : Bytes) (expireAt : Nat) : Silent mode c (entrySet key val expireAt) :=
  (silent_call _).bind fun _ => silent_call _

theorem silent_setWrite (key val : Bytes) (o : SetOpts) : Silent mode c (setWrite key val o) := by
  unfold setWrite
  exact .ite (silent_call _) (.ite (silent_call _) (.ite (silent_entrySet ..) (.ite (silent_entrySet ..)
    (.ite ((silent_call _).bind fun _ => silent_entrySet ..) (silent_entrySet ..)))))

/-- A write, and its reply when it has been done. -/
theorem says_written {w : Code Bool} {p q : Code Unit} (hw : Silent mode c w) (hp : Says mode c 1 p)
    (hq : Says mode c 1 q) :
    Says mode c 1 (w >>= fun ok => if ok then replPropagate argv >>= fun _ => p else q) :=
  hw.andThen fun _ => .ite (says_propagated hp) hq

/-- An error without a line end in it, if it is one. -/
def Plainly {α : Type} (x : Except String α) : Prop := ∀ e, x = .error e → Resp.Line (lit e)

theorem plainly_ok {α : Type} (a : α) : Plainly (.ok a : Except String α) := fun _ h => by cases h

theorem plainly_error {α : Type} {s : String} {l : List Char} (hs : s = String.ofList l) (h : plain l = true) :
    Plainly (.error s : Except String α) := fun _ he => by
  cases he
  exact line_ofList hs h

theorem plainly_ite {α : Type} {b : Prop} [Decidable b] {x y : Except String α} (hx : Plainly x) (hy : Plainly y) :
    Plainly (if b then x else y) := by
  split
  · exact hx
  · exact hy

theorem plainly_bind {α β : Type} {x : Except String α} {f : α → Except String β} (hx : Plainly x)
    (hf : ∀ a, Plainly (f a)) : Plainly (x >>= f) := by
  cases x with
  | error e =>
    intro e' he
    cases he
    exact hx e rfl
  | ok a => exact hf a

theorem plainly_setTime (o : SetOpts) (v : Bytes) : Plainly (setTime o v) := by
  unfold setTime
  refine plainly_ite (plainly_error rfl rfl) ?_
  split
  · exact plainly_error rfl rfl
  · exact plainly_ite (plainly_error rfl rfl) (plainly_ok _)

theorem plainly_setOpts (l : List Bytes) (o : SetOpts) : Plainly (setOpts l o) := by
  induction hn : l.length using Nat.strong_induction_on generalizing l o with
  | h n ih =>
    cases l with
    | nil => exact plainly_ok o
    | cons a rest =>
      have hrest : ∀ o, Plainly (setOpts rest o) := fun o => ih _ (by rw [← hn]; exact Nat.lt_succ_self _) rest o rfl
      unfold setOpts
      refine plainly_ite (plainly_ite (plainly_error rfl rfl) (hrest _))
        (plainly_ite (plainly_ite (plainly_error rfl rfl) (hrest _))
        (plainly_ite (plainly_ite (plainly_error rfl rfl) (hrest _)) ?_))
      cases rest with
      | nil => exact plainly_error rfl rfl
      | cons v rest =>
        have hnext : ∀ f : Int → SetOpts, Plainly (setTime o v >>= fun n => setOpts rest (f n)) := fun f =>
          plainly_bind (plainly_setTime o v) fun _ => ih _ (by rw [← hn, List.length_cons, List.length_cons]; omega) rest _ rfl
        exact plainly_ite (hnext _) (plainly_ite (hnext _) (plainly_ite (hnext _) (plainly_ite (hnext _)
          (plainly_error rfl rfl))))

theorem says_set : Says mode c 1 (Dispatch.set c argv) := by
  unfold Dispatch.set
  refine .ite (says_wrongArgs rfl rfl) ?_
  split
  · exact says_error (plainly_setOpts _ _ _ ‹_›)
  · refine (silent_call _).andThen fun _ => .ite says_nullBulk (.ite says_nullBulk ?_)
    exact says_written argv (silent_setWrite ..) says_ok (says_err rfl rfl)

theorem says_setnx : Says mode c 1 (setnx c argv) := by
  unfold setnx
  exact .ite (says_wrongArgs rfl rfl) ((silent_call _).andThen fun _ => .ite (says_int 0)
    (says_written argv (silent_entrySet ..) (says_int 1) (says_err rfl rfl)))

/-- `SETEX` and `PSETEX`. -/
theorem says_setTimed {name : String} {write : Bytes → Bytes → Int → Code Bool} (h : Resp.Line (lit name))
    (hw : ∀ key val n, Silent mode c (write key val n)) : Says mode c 1 (setTimed name write c argv) := by
  unfold setTimed
  refine .ite (says_misused h) ?_
  split
  · exact says_error (line_quoted (line_ofList rfl rfl) h (line_ofList rfl rfl))
  · exact .ite (says_error (line_quoted (line_ofList rfl rfl) h (line_ofList rfl rfl))) (says_written argv (hw ..) says_ok (says_err rfl rfl))

theorem says_getsetWrite {reply : Code Unit} (hr : Says mode c 1 reply) : Says mode c 1 (getsetWrite c argv reply) := by
  unfold getsetWrite
  exact (silent_call _).andThen fun _ => says_written argv (silent_call _) hr (says_err rfl rfl)

theorem says_getset : Says mode c 1 (getset c argv) := by
  unfold getset
  refine .ite (says_wrongArgs rfl rfl) ((silent_call _).andThen fun a => ?_)
  cases a with
  | wrongType => exact says_wrongType
  | missing => exact says_getsetWrite argv says_nullBulk
  | found v => exact .step trivial (fun _ => rfl) fun _ _ => .ite (says_getsetWrite argv (says_bulk v)) (says_err rfl rfl)

theorem says_append : Says mode c 1 (append c argv) := by
  unfold append
  refine .ite (says_wrongArgs rfl rfl) ((silent_call _).andThen fun a => ?_)
  cases a with
  | wrongType => exact says_wrongType
  | missing => exact says_err rfl rfl
  | found n => exact says_propagated (says_int n)

theorem says_strlen : Says mode c 1 (strlen c argv) := by
  unfold strlen
  refine .ite (says_wrongArgs rfl rfl) ((silent_call _).andThen fun a => ?_)
  cases a with
  | wrongType => exact says_wrongType
  | missing => exact says_int 0
  | found n => exact says_int n

theorem says_mgetSlot (key : Bytes) : Says mode c 1 (mgetSlot c key) := by
  refine (silent_call _).andThen fun a => ?_
  cases a with
  | found v => exact says_bulk v
  | wrongType | missing => exact says_nullBulk

theorem says_mget : Says mode c 1 (mget c argv) := by
  unfold mget
  split
  · exact says_wrongArgs rfl rfl
  · refine says_replyArray ?_ (says_mgetSlot ·)
    rw [List.length_drop]
    omega

theorem silent_msetPairs (l : List Bytes) : Silent mode c (msetPairs l) := by
  fun_induction msetPairs l with
  | case1 key val rest ih => exact (silent_entrySet key val 0).bind fun _ => .ite ih (.pure false)
  | case2 => exact .pure true

theorem says_mset : Says mode c 1 (mset c argv) := by
  unfold mset
  exact .ite (says_wrongArgs rfl rfl) (says_written argv (silent_msetPairs _) says_ok (says_err rfl rfl))

theorem says_incrWith (delta : Int) : Says mode c 1 (incrWith c argv delta) := by
  refine (silent_call _).andThen fun a => ?_
  cases a with
  | none => exact says_notInt
  | some v => exact says_propagated (says_int v)

theorem says_incr : Says mode c 1 (incr c argv) := by
  unfold incr
  exact .ite (says_wrongArgs rfl rfl) (says_incrWith argv 1)

theorem says_decr : Says mode c 1 (decr c argv) := by
  unfold decr
  exact .ite (says_wrongArgs rfl rfl) (says_incrWith argv (-1))

theorem says_incrBy {name : String} (h : Resp.Line (lit name)) (sign : Int → Int) :
    Says mode c 1 (incrBy name sign c argv) := by
  unfold incrBy
  refine .ite (says_misused h) ?_
  split
  · exact says_notInt
  · exact says_incrWith argv _

theorem says_expireWith {name : String} {f : Bytes → Int → Code Bool} (h : Resp.Line (lit name))
    (hf : ∀ key n, Silent mode c (f key n)) : Says mode c 1 (expireWith name f c argv) := by
  unfold expireWith
  refine .ite (says_misused h) ?_
  split
  · exact says_notInt
  · refine (hf ..).andThen fun ok => (silent_call _).andThen fun _ => ?_
    exact .ite (says_propagated (says_int _)) (says_int _)

theorem says_ttlWith {name : String} {f : Bytes → Code Int} (h : Resp.Line (lit name))
    (hf : ∀ key, Silent mode c (f key)) : Says mode c 1 (ttlWith name f c argv) := by
  unfold ttlWith
  exact .ite (says_misused h) ((hf _).andThen fun n => (silent_call _).andThen fun _ => says_int n)

theorem says_delWith {name : String} (h : Resp.Line (lit name)) : Says mode c 1 (delWith name c argv) := by
  unfold delWith
  refine .ite (says_misused h) ((silent_countKeys (fun _ => silent_call _) ..).andThen fun n => ?_)
  exact .ite (says_propagated (says_int n)) (says_int n)

theorem says_exist : Says mode c 1 (exist c argv) := by
  unfold exist
  exact .ite (says_wrongArgs rfl rfl) ((silent_countKeys (fun _ => silent_call _) ..).andThen fun n =>
    (silent_call _).andThen fun _ => says_int n)

theorem says_renameWith {name : String} (h : Resp.Line (lit name)) (nx : Bool) :
    Says mode c 1 (renameWith name nx c argv) := by
  unfold renameWith
  refine .ite (says_misused h) ((silent_call _).andThen fun rc => .ite (says_err rfl rfl) (.ite (says_err rfl rfl) (.ite ?_ ?_)))
  · exact .ite (says_int 0) (says_propagated (says_int 1))
  · exact says_propagated says_ok

theorem says_type : Says mode c 1 (type c argv) := by
  unfold type
  refine .ite (says_wrongArgs rfl rfl) ((silent_call _).andThen fun a => ?_)
  cases a with
  | none => exact says_bulk _
  | some e => exact says_bulk _

theorem says_dbsize : Says mode c 1 (dbsize c argv) := by
  unfold dbsize
  exact .ite (says_wrongArgs rfl rfl) ((silent_call _).andThen fun n => says_int _)

theorem says_flushdb : Says mode c 1 (flushdb c argv) := (silent_call _).andThen fun _ => says_propagated says_ok

theorem says_page (next : Nat) (elems : List Bytes) : Says mode c 1 (replyPage c next elems) := by
  unfold replyPage
  exact .array (n := 2) rfl ((says_bulk _).andThen (says_bulks elems))

theorem plainly_scanOpts (l : List Bytes) (o : ScanOpts) : Plainly (scanOpts l o) := by
  fun_induction scanOpts l o with
  | case1 o => exact plainly_ok o
  | case3 | case6 => assumption
  | _ => exact plainly_error rfl rfl

theorem says_scan : Says mode c 1 (scan c argv) := by
  unfold scan
  refine .ite (says_wrongArgs rfl rfl) ?_
  split
  · exact says_err rfl rfl
  · split
    · exact says_error (plainly_scanOpts _ _ _ ‹_›)
    · exact (silent_call _).andThen fun r => says_page ..

theorem says_keys : Says mode c 1 (keys c argv) := by
  unfold keys
  exact .ite (says_wrongArgs rfl rfl) ((silent_call _).andThen fun r => says_bulks r)

/-! ## Sorted sets -/

theorem says_removed (n : Int) : Says mode c 1 (replyRemoved c argv n) := by
  unfold replyRemoved
  exact .ite (says_propagated (says_int n)) (says_int n)

theorem says_zadd [Libc] : Says mode c 1 (zadd c argv) := by
  unfold zadd
  refine .ite (says_wrongArgs rfl rfl) (.ite (says_err rfl rfl) ?_)
  split
  · exact says_err rfl rfl
  · refine (silent_call _).andThen fun a => ?_
    cases a with
    | wrongType => exact says_wrongType
    | oversize => exact says_err rfl rfl
    | noMemory => exact says_err rfl rfl
    | added n => exact says_propagated (says_int n)

theorem says_zscore [Libc] : Says mode c 1 (zscore c argv) := by
  unfold zscore
  refine .ite (says_wrongArgs rfl rfl) ((silent_call _).andThen fun a => ?_)
  cases a with
  | wrongType => exact says_wrongType
  | missing => exact says_nullBulk
  | found s => exact says_bulk _

theorem says_zrem : Says mode c 1 (zrem c argv) := by
  unfold zrem
  refine .ite (says_wrongArgs rfl rfl) (.ite (says_err rfl rfl) ((silent_call _).andThen fun a => ?_))
  cases a with
  | wrongType => exact says_wrongType
  | missing => exact says_removed argv 0
  | found n => exact says_removed argv n

theorem says_zcard : Says mode c 1 (zcard c argv) := by
  unfold zcard
  exact .ite (says_wrongArgs rfl rfl) ((silent_call _).andThen fun a => says_count a)

theorem says_member [Libc] (withscores : Bool) (n : ArZNode) :
    Says mode c (if withscores then 2 else 1) (replyMember c withscores n) := by
  unfold replyMember
  cases withscores with
  | false => exact (says_bulk _).andSilent fun _ => .pure ()
  | true => exact (says_bulk _).andThen (says_bulk _)

/-- As many members as the header counts. -/
theorem says_members [Libc] (withscores : Bool) {ns : List ArZNode} {n : Nat} (hn : ns.length = n) (h : n < 2 ^ 30) :
    Says mode c 1 (replyMembers c withscores n ns) := by
  subst hn
  unfold replyMembers
  refine says_replyArray ?_ (says_member withscores)
  cases withscores with
  | false => simp
  | true =>
    rw [if_pos rfl, if_pos rfl, Nat.mul_comm]
    exact (int32_eq_iff (ns.length * 2)).2 (by omega)

theorem plainly_byScoreOpts (l : List Bytes) (o : ByScoreOpts) : Plainly (byScoreOpts l o) := by
  fun_induction byScoreOpts l o with
  | case1 o => exact plainly_ok o
  | case2 | case3 => assumption
  | _ => exact plainly_error rfl rfl

/-- Not more are shown than are left. -/
theorem byScoreWindow_le (nm : Nat) (o : ByScoreOpts) :
    (byScoreWindow nm o).2 ≤ nm - (byScoreWindow nm o).1 := by
  unfold byScoreWindow
  dsimp only
  omega

theorem says_window [Libc] {hits : List ArZNode} (o : ByScoreOpts) (h : hits.length ≤ rangeMatchCap) :
    Says mode c 1 (replyMembers c o.withscores (byScoreWindow hits.length o).2
      ((hits.drop (byScoreWindow hits.length o).1).take (byScoreWindow hits.length o).2)) := by
  have hw := byScoreWindow_le hits.length o
  refine says_members o.withscores ?_ ?_
  · rw [List.length_take, List.length_drop]
    omega
  · unfold rangeMatchCap at h
    omega

theorem says_zrangebyscore [Libc] : Says mode c 1 (zrangebyscore c argv) := by
  unfold zrangebyscore
  refine .ite (says_wrongArgs rfl rfl) ?_
  split
  · split
    · exact says_error (plainly_byScoreOpts _ _ _ ‹_›)
    · rename_i o _
      refine (silent_call _).andThen fun a => ?_
      cases a with
      | wrongType => exact says_wrongType
      | missing => exact says_empty
      | found ns =>
        refine .ite says_empty ?_
        dsimp only
        generalize hh : List.take rangeMatchCap _ = hits
        have hlen : hits.length ≤ rangeMatchCap := hh ▸ List.length_take_le ..
        exact says_window o hlen
  · exact says_err rfl rfl

/-- A window ends where the elements do. -/
theorem rangeWindow_le {len : Nat} {start stop : Int} {i k : Nat} (h : rangeWindow len start stop = some (i, k)) :
    i + k ≤ len := by
  unfold rangeWindow at h
  simp only [Option.ite_none_left_eq_some, Option.some.injEq, Prod.mk.injEq] at h
  obtain ⟨hc, rfl, rfl⟩ := h
  omega

theorem says_zrange [Libc] : Says mode c 1 (zrange c argv) := by
  unfold zrange
  refine .ite (says_wrongArgs rfl rfl) (.ite (says_err rfl rfl) ?_)
  split
  · exact says_notInt
  · refine Says.step (e := .op (.arZsetGet (arg argv 1))) trivial (fun _ => rfl) fun a ha => ?_
    cases a with
    | wrongType => exact says_wrongType
    | missing => exact says_empty
    | found ns =>
      have hlen : ns.length < 2 ^ 30 := ha ns rfl
      dsimp only
      split
      · exact says_empty
      · next i k hw =>
        have hle := rangeWindow_le hw
        rw [(int32_eq_iff k).2 (by omega)]
        exact says_members _ (by rw [List.length_take, List.length_drop]; omega) (by omega)

/-! ## Lists and hashes -/

theorem says_pushWith {name : String} (h : Resp.Line (lit name)) (left : Bool) :
    Says mode c 1 (pushWith name left c argv) := by
  unfold pushWith
  refine .ite (says_misused h) (.ite (says_err rfl rfl) ((silent_call _).andThen fun a => ?_))
  cases a with
  | found n => exact says_propagated (says_int n)
  | wrongType | missing => exact says_wrongType

theorem says_popWith {name : String} (h : Resp.Line (lit name)) (left : Bool) :
    Says mode c 1 (popWith name left c argv) := by
  unfold popWith
  refine .ite (says_misused h) ((silent_call _).andThen fun a => ?_)
  cases a with
  | wrongType => exact says_wrongType
  | missing => exact says_nullBulk
  | found v => exact says_propagated (says_bulk v)

theorem says_llen : Says mode c 1 (llen c argv) := by
  unfold llen
  exact .ite (says_wrongArgs rfl rfl) ((silent_call _).andThen fun a => says_count a)

theorem says_lindex : Says mode c 1 (lindex c argv) := by
  unfold lindex
  refine .ite (says_wrongArgs rfl rfl) ?_
  split
  · exact says_notInt
  · exact (silent_call _).andThen fun a => says_value a

theorem says_lrange : Says mode c 1 (lrange c argv) := by
  unfold lrange
  refine .ite (says_wrongArgs rfl rfl) ?_
  split
  · exact says_notInt
  · refine Says.step (e := .op (.arListGet (arg argv 1))) trivial (fun _ => rfl) fun a ha => ?_
    cases a with
    | wrongType => exact says_wrongType
    | missing => exact says_empty
    | found l =>
      have hlen : l.length < 2 ^ 30 := ha l rfl
      dsimp only
      split
      · exact says_empty
      · next i k hw =>
        have hle := rangeWindow_le hw
        rw [(int32_eq_iff k).2 (by omega), Int.toNat_natCast]
        refine says_replyArray ?_ says_bulk
        rw [Nat.one_mul, List.length_take, List.length_drop]
        omega

theorem says_lrem : Says mode c 1 (lrem c argv) := by
  unfold lrem
  refine .ite (says_wrongArgs rfl rfl) ?_
  split
  · exact says_notInt
  · refine (silent_call _).andThen fun a => ?_
    cases a with
    | wrongType => exact says_wrongType
    | missing => exact says_removed argv 0
    | found n => exact says_removed argv n

theorem says_ltrim : Says mode c 1 (ltrim c argv) := by
  unfold ltrim
  refine .ite (says_wrongArgs rfl rfl) ?_
  split
  · exact says_notInt
  · refine (silent_call _).andThen fun a => ?_
    cases a with
    | wrongType => exact says_wrongType
    | missing | found _ => exact says_propagated says_ok

theorem says_hset : Says mode c 1 (hset c argv) := by
  unfold hset
  refine .ite (says_wrongArgs rfl rfl) (.ite (says_err rfl rfl) ((silent_call _).andThen fun a => ?_))
  cases a with
  | wrongType => exact says_wrongType
  | missing => exact says_err rfl rfl
  | found n => exact says_propagated (says_int n)

theorem says_hget : Says mode c 1 (hget c argv) := by
  unfold hget
  exact .ite (says_wrongArgs rfl rfl) ((silent_call _).andThen fun a => says_value a)

theorem says_hmgetField (key field : Bytes) : Says mode c 1 (hmgetField c key field) := by
  refine (silent_call _).andThen fun a => ?_
  cases a with
  | found v => exact says_bulk v
  | wrongType | missing => exact says_nullBulk

theorem says_hmget : Says mode c 1 (hmget c argv) := by
  unfold hmget
  split
  · exact says_wrongArgs rfl rfl
  · have hlen : (argv.length : Int) - 2 = (1 * (argv.drop 2).length : Nat) := by
      rw [List.length_drop]
      omega
    refine (silent_call _).andThen fun a => ?_
    cases a with
    | wrongType => exact says_wrongType
    | missing => exact says_replyArray hlen fun _ => says_nullBulk
    | found _ => exact says_replyArray hlen (says_hmgetField _)

theorem says_field (f : Bytes × Bytes) : Says mode c 2 (replyField c f) := (says_bulk f.1).andThen (says_bulk f.2)

theorem says_hgetall : Says mode c 1 (hgetall c argv) := by
  unfold hgetall
  refine .ite (says_wrongArgs rfl rfl) (Says.step (e := .op (.hashGet (arg argv 1))) trivial (fun _ => rfl) fun a ha => ?_)
  cases a with
  | wrongType => exact says_wrongType
  | missing => exact says_empty
  | found h =>
    obtain ⟨hlen, hfields⟩ : h.nfields < 2 ^ 30 ∧ h.nfields = h.buckets.flatten.length := ha h rfl
    refine says_replyArray ?_ says_field
    rw [Nat.mul_comm 2, ← hfields]
    exact (int32_eq_iff (h.nfields * 2)).2 (by omega)

theorem says_hdel : Says mode c 1 (hdel c argv) := by
  unfold hdel
  refine .ite (says_wrongArgs rfl rfl) (.ite (says_err rfl rfl) ((silent_call _).andThen fun a => ?_))
  cases a with
  | wrongType => exact says_wrongType
  | missing => exact says_removed argv 0
  | found n => exact says_removed argv n

theorem says_hexists : Says mode c 1 (hexists c argv) := by
  unfold hexists
  refine .ite (says_wrongArgs rfl rfl) ((silent_call _).andThen fun a => ?_)
  cases a with
  | wrongType => exact says_wrongType
  | missing => exact says_int 0
  | found ex => exact says_int _

theorem says_hlen : Says mode c 1 (hlen c argv) := by
  unfold hlen
  exact .ite (says_wrongArgs rfl rfl) ((silent_call _).andThen fun a => says_count a)

theorem says_hincrby : Says mode c 1 (hincrby c argv) := by
  unfold hincrby
  refine .ite (says_wrongArgs rfl rfl) ?_
  split
  · exact says_notInt
  · refine (silent_call _).andThen fun a => ?_
    cases a with
    | wrongType => exact says_wrongType
    | notInt => exact says_err rfl rfl
    | value v => exact says_propagated (says_int v)

theorem says_hscan : Says mode c 1 (hscan c argv) := by
  unfold hscan
  refine .ite (says_wrongArgs rfl rfl) ?_
  split
  · exact says_err rfl rfl
  · split
    · exact says_error (plainly_scanOpts _ _ _ ‹_›)
    · refine (silent_call _).andThen fun a => ?_
      cases a with
      | wrongType => exact says_wrongType
      | missing => exact says_page ..
      | found r => exact says_page ..

/-! ## Configuration -/

theorem silent_ask : Silent mode c (eff .ask) := Silent.eff trivial fun _ => rfl

theorem silent_arConfigRewrite : Silent mode c arConfigRewrite := by
  unfold arConfigRewrite
  refine .step trivial (fun _ => rfl) fun core _ => .ite (.pure false) ?_
  exact .bind silent_ask fun _ => .ite (.pure false) (.bind silent_ask fun _ => .ite (.pure false)
    (Silent.eff trivial fun _ => rfl))

theorem says_configSetOk : Says mode c 1 (configSetOk c) := by
  unfold configSetOk
  refine .step trivial (fun _ => rfl) fun core _ => .ite ?_ says_ok
  exact silent_arConfigRewrite.andThen fun _ => says_ok

theorem says_setOption {name : String} (h : Resp.Line (lit name)) (ok : Bool) {set : Code Unit}
    (hs : Silent mode c set) : Says mode c 1 (setOption c name ok set) := by
  unfold setOption
  exact .ite (hs.andThen fun _ => says_configSetOk) (says_error (line_append (line_ofList rfl rfl) h))

theorem silent_setCfg (f : Cfg → Cfg) : Silent mode c (eff (.setCfg f)) := Silent.eff trivial fun _ => rfl

theorem silent_setSrv (f : ArSrv → ArSrv) : Silent mode c (eff (.setSrv f)) := Silent.eff trivial fun _ => rfl

theorem silent_malloc : Silent mode c (eff .malloc) := Silent.eff trivial fun _ => rfl

theorem silent_setRequirepass (val : Bytes) : Silent mode c (setRequirepass val) := by
  unfold setRequirepass
  refine (silent_setCfg _).bind fun _ => .ite (.pure true) (silent_malloc.bind fun _ => .ite (.pure false) ?_)
  exact (silent_setCfg _).bind fun _ => .pure true

theorem silent_setShadowPolicy (name : Bytes) : Silent mode c (setShadowPolicy name) := by
  unfold setShadowPolicy
  exact .ite (.pure false) ((silent_setCfg _).bind fun _ => .pure true)

theorem says_configSetTo (key val : Bytes) : Says mode c 1 (configSetTo c key val) := by
  have hsetOption : ∀ (name : String), Resp.Line (lit name) → ∀ (ok : Bool) (set : Code Unit), Silent mode c set →
      Says mode c 1 (setOption c name ok set) := fun name h ok set hs => says_setOption h ok hs
  unfold configSetTo
  refine .ite ?_ (.ite ?_ (.ite ?_ (.ite ?_ (.ite ?_ (.ite ?_ (.ite ?_ (.ite ?_ (.ite ?_ (.ite ?_ (.ite ?_ (.ite ?_
    (.ite ?_ (.ite ?_ (.ite ?_ (.ite ?_ (says_err rfl rfl))))))))))))))))
  case refine_2 => exact (silent_setRequirepass val).andThen fun _ => .ite says_configSetOk (says_err rfl rfl)
  case refine_12 => exact (silent_setShadowPolicy val).andThen fun _ => .ite says_configSetOk (says_err rfl rfl)
  case refine_9 =>
    exact says_setOption (line_ofList rfl rfl) _ ((silent_setCfg _).bind fun _ => silent_setSrv _)
  case refine_3 | refine_5 | refine_6 | refine_7 | refine_8 | refine_10 | refine_11 | refine_13 =>
    exact says_setOption (line_ofList rfl rfl) _ (silent_setCfg _)
  all_goals exact says_setOption (line_ofList rfl rfl) _ (silent_call _)

/-- A name and its value, as `CONFIG GET` writes them. -/
def cfgPair (nv : Bytes × Bytes) : Bytes := Resp.bulk nv.1 ++ Resp.bulk nv.2

theorem length_bulk {s : Bytes} (h : s.length ≤ 255) : (Resp.bulk s).length ≤ s.length + 8 := by
  have hdigits : (Decimal.ofNat s.length).length ≤ 3 := Decimal.length_ofNat_le (by decide) (by omega)
  simp only [Resp.bulk, crlf, List.length_cons, List.length_append, List.length_nil]
  omega

theorem arCfgAdd_eq {p : Pairs} {pat : Bytes} {nv : Bytes × Bytes} (hv : nv.2.length ≤ 255)
    (hroom : p.bytes.length + (cfgPair nv).length < 2048) : arCfgAdd pat p nv.1 nv.2 =
      if pat ≠ lit "*" ∧ pat ≠ nv.1 then p else ⟨p.bytes ++ cfgPair nv, p.nitems + 2⟩ := by
  obtain ⟨name, v⟩ := nv
  dsimp only at hv ⊢
  have hbulk : cfgBulk v = Resp.bulk v := by
    unfold cfgBulk Resp.bulk
    rw [List.take_of_length_le hv, List.append_assoc]
  unfold cfgPair at hroom ⊢
  simp only [List.length_append] at hroom
  unfold arCfgAdd
  split
  · rfl
  · dsimp only
    rw [if_neg (by omega), hbulk]
    unfold Pairs.put
    rw [if_pos (by omega : p.bytes.length + (Resp.bulk name).length < 2048)]
    dsimp only
    rw [if_pos (by rw [List.length_append]; omega), List.append_assoc]

/-- While there is room, a name has its value behind it. -/
theorem values_cfgPairs {pat : Bytes} {vs : List (Bytes × Bytes)} (hv : ∀ nv ∈ vs, nv.2.length ≤ 255) {p : Pairs}
    (hroom : p.bytes.length + (vs.map fun nv => (cfgPair nv).length).sum < 2048) (hp : Values p.nitems p.bytes) :
    Values (vs.foldl (fun p nv => arCfgAdd pat p nv.1 nv.2) p).nitems
      (vs.foldl (fun p nv => arCfgAdd pat p nv.1 nv.2) p).bytes := by
  induction vs generalizing p with
  | nil => exact hp
  | cons nv vs ih =>
    rw [List.map_cons, List.sum_cons] at hroom
    rw [List.foldl_cons, arCfgAdd_eq (hv nv (.head _)) (by omega)]
    split
    · exact ih (fun nv h => hv nv (.tail _ h)) (by omega) hp
    · refine ih (fun nv h => hv nv (.tail _ h)) ?_ (hp.append ((Wire.bulk _).append (Wire.bulk _)))
      dsimp only
      rw [List.length_append]
      omega

/-- A pair that is not cut, and what it takes. -/
def Takes (nv : Bytes × Bytes) (n : Nat) : Prop := nv.2.length ≤ 255 ∧ (cfgPair nv).length ≤ n

theorem takes_pair {name v : Bytes} {m n : Nat} (hm : name.length ≤ m) (hn : v.length ≤ n) (hm' : m ≤ 255) (hn' : n ≤ 255) :
    Takes (name, v) (m + n + 16) := by
  have h₁ := length_bulk (hm.trans hm')
  have h₂ := length_bulk (hn.trans hn')
  refine ⟨hn.trans hn', ?_⟩
  show (Resp.bulk name ++ Resp.bulk v).length ≤ _
  rw [List.length_append]
  omega

theorem takes_cfgValues {core : ArCore} (h : core.Modest) : List.Forall₂ Takes (cfgValues core)
    [9 + 63 + 16, 11 + 255 + 16, 14 + 3 + 16, 13 + 31 + 16, 4 + 63 + 16, 10 + 31 + 16, 7 + 31 + 16, 11 + 31 + 16,
     23 + 31 + 16, 15 + 31 + 16, 3 + 255 + 16, 10 + 127 + 16, 13 + 31 + 16, 17 + 31 + 16, 16 + 31 + 16, 16 + 31 + 16,
     18 + 3 + 16, 11 + 255 + 16] := by
  have hnum : ∀ {name : Bytes} {m n : Nat} (v : Bytes), name.length ≤ m → m ≤ 255 → n ≤ 255 →
      Takes (name, v.take n) (m + n + 16) := fun v hm hm' hn' => takes_pair hm (List.length_take_le ..) hm' hn'
  have hyes : ∀ {name : Bytes} {m : Nat} (b : Bool), name.length ≤ m → m ≤ 255 → Takes (name, yesNo b) (m + 3 + 16) :=
    fun b hm hm' => takes_pair hm (by cases b <;> decide) hm' (by decide)
  have hbind : core.binding.length ≤ 63 := by
    unfold ArCore.binding
    split
    · decide
    · exact Nat.le_of_lt_succ core.cfg.bindAddr.fits
  have hdir : core.arCoreRdbDir.length ≤ 255 := by
    unfold ArCore.arCoreRdbDir
    split
    · decide
    · exact Nat.le_of_lt_succ core.cfg.rdbDir.fits
  have hfile : core.arCoreRdbFilename.length ≤ 127 := by
    unfold ArCore.arCoreRdbFilename
    split
    · decide
    · exact Nat.le_of_lt_succ core.cfg.rdbFilename.fits
  have hshadow : core.cfg.shadowPolicy.val.length ≤ 31 := Nat.le_of_lt_succ core.cfg.shadowPolicy.fits
  unfold cfgValues
  dsimp only [Nat.reduceSub]
  refine .cons (hnum _ ?_ ?_ ?_) (.cons (takes_pair ?_ h.requirepass ?_ ?_) (.cons (hyes _ ?_ ?_) (.cons (hnum _ ?_ ?_ ?_)
    (.cons (takes_pair ?_ hbind ?_ ?_) (.cons (hnum _ ?_ ?_ ?_) (.cons (hnum _ ?_ ?_ ?_) (.cons (hnum _ ?_ ?_ ?_)
    (.cons (hnum _ ?_ ?_ ?_) (.cons (hnum _ ?_ ?_ ?_) (.cons (takes_pair ?_ hdir ?_ ?_) (.cons (takes_pair ?_ hfile ?_ ?_)
    (.cons (takes_pair ?_ hshadow ?_ ?_) (.cons (hnum _ ?_ ?_ ?_) (.cons (hnum _ ?_ ?_ ?_) (.cons (hnum _ ?_ ?_ ?_)
    (.cons (hyes _ ?_ ?_) (.cons (takes_pair ?_ h.configPath ?_ ?_) .nil))))))))))))))))) <;> decide

/-- There is room for all of them. -/
theorem cfgValues_room {core : ArCore} (h : core.Modest) : (∀ nv ∈ cfgValues core, nv.2.length ≤ 255) ∧
    ((cfgValues core).map fun nv => (cfgPair nv).length).sum < 2048 := by
  have hsum : ∀ {vs : List (Bytes × Bytes)} {ns : List Nat}, List.Forall₂ Takes vs ns →
      (∀ nv ∈ vs, nv.2.length ≤ 255) ∧ (vs.map fun nv => (cfgPair nv).length).sum ≤ ns.sum := by
    intro vs ns hall
    induction hall with
    | nil => exact ⟨List.forall_mem_nil _, Nat.le_refl 0⟩
    | cons hd _ ih => exact ⟨List.forall_mem_cons.2 ⟨hd.1, ih.1⟩, Nat.add_le_add hd.2 ih.2⟩
  obtain ⟨hlen, hle⟩ := hsum (takes_cfgValues h)
  exact ⟨hlen, hle.trans_lt (by decide)⟩

theorem says_configGet : Says mode c 1 (configGet c argv) := by
  unfold configGet
  refine .ite (says_wrongArgs rfl rfl) (.step trivial (fun _ => rfl) fun core hcore => ?_)
  dsimp only
  have hvalues : Values (cfgPairs (cut 64 (arg argv 2)) (cfgValues core)).nitems
      (cfgPairs (cut 64 (arg argv 2)) (cfgValues core)).bytes := by
    obtain ⟨hlen, hroom⟩ := cfgValues_room hcore.1
    refine values_cfgPairs hlen ?_ .nil
    rwa [List.length_nil, Nat.zero_add]
  generalize cfgPairs (cut 64 (arg argv 2)) (cfgValues core) = p at hvalues
  refine .array rfl ?_
  split
  · exact .append hvalues
  · have hnil : p.bytes = [] := not_not.1 ‹_›
    rw [hnil] at hvalues
    exact hvalues

theorem says_configSet : Says mode c 1 (configSet c argv) := by
  unfold configSet
  exact .ite (says_wrongArgs rfl rfl) (says_configSetTo ..)

theorem says_configRewrite : Says mode c 1 (configRewrite c argv) := by
  unfold configRewrite
  refine .ite (says_wrongArgs rfl rfl) (.step trivial (fun _ => rfl) fun core _ => .ite (says_error (line_append (line_ofList rfl rfl) (line_ofList rfl rfl))) ?_)
  exact silent_arConfigRewrite.andThen fun _ => .ite says_ok (says_err rfl rfl)

theorem says_config : Says mode c 1 (config c argv) := by
  unfold config
  exact .ite (says_wrongArgs rfl rfl) (.ite (says_configGet argv) (.ite (says_configSet argv)
    (.ite (says_configRewrite argv) (says_err rfl rfl))))

/-! ## The control plane -/

theorem says_info : Says mode c 1 (info c argv) := by
  unfold info
  refine .step trivial (fun _ => rfl) fun core _ => ?_
  exact .ite (says_text ..) (.step trivial (fun _ => rfl) fun now _ => says_text ..)

theorem says_evict : Says mode c 1 (evict c argv) := by
  unfold evict
  refine .ite (.step trivial (fun _ => rfl) fun core _ => says_bulk _) (.ite ?_ (.ite ?_ (says_wrongArgs rfl rfl)))
  · split
    · exact says_err rfl rfl
    · exact (silent_call _).andThen fun _ => says_ok
  · split
    · exact says_err rfl rfl
    · exact (silent_call _).andThen fun _ => says_ok

theorem says_shadow : Says mode c 1 (shadow c argv) := by
  unfold shadow
  refine .ite (.step trivial (fun _ => rfl) fun core _ => says_text ..) (.ite ?_ (.ite ?_ (.ite ?_ (.ite ?_
    (says_wrongArgs rfl rfl)))))
  · exact .step trivial (fun _ => rfl) fun _ _ => says_ok
  · exact .step trivial (fun _ => rfl) fun _ _ => says_ok
  · split
    · exact says_err rfl rfl
    · exact (silent_setShadowPolicy _).andThen fun _ => .ite says_ok (says_err rfl rfl)
  · split
    · exact says_err rfl rfl
    · exact (silent_setCfg _).andThen fun _ => says_ok

theorem says_hotcold : Says mode c 1 (hotcold c argv) := by
  unfold hotcold
  refine .ite (.step trivial (fun _ => rfl) fun core _ => says_text ..) (.ite ?_ (.ite ?_ (.ite ?_ (says_wrongArgs rfl rfl))))
  all_goals
    split
    · exact says_err rfl rfl
    · exact (silent_call _).andThen fun _ => says_ok

theorem says_policyExplain : Says mode c 1 (policyExplain c argv) := by
  unfold policyExplain
  exact .ite (.step trivial (fun _ => rfl) fun core _ => says_bulk _)
    (.ite ((silent_setSrv _).andThen fun _ => says_ok) (says_wrongArgs rfl rfl))

theorem says_policy : Says mode c 1 (policy c argv) := by
  unfold policy
  refine .ite (says_policyExplain argv) (.ite (.step trivial (fun _ => rfl) fun core _ => says_bulk _)
    (.ite (.step trivial (fun _ => rfl) fun core _ => ?_) (says_wrongArgs rfl rfl)))
  split
  · exact says_err rfl rfl
  · exact (silent_setSrv _).andThen fun _ => says_ok

theorem silent_listPinned (es : List ArEntry) (room : Nat) : Silent mode c (listPinned es room) := by
  induction es generalizing room with
  | nil => exact .pure []
  | cons e es ih =>
    unfold listPinned
    exact .ite (.pure []) (.ite (ih room) (silent_malloc.bind fun _ => .ite ((ih _).bind fun _ => .pure _) (ih room)))

theorem says_pin : Says mode c 1 (pin c argv) := by
  unfold pin
  refine .ite (.step trivial (fun _ => rfl) fun core _ => ?_) (.ite ?_ (says_wrongArgs rfl rfl))
  · exact (silent_listPinned ..).andThen fun keys => says_bulks keys
  · exact (silent_call _).andThen fun _ => .ite says_ok (says_err rfl rfl)

theorem says_unpin : Says mode c 1 (unpin c argv) := by
  unfold unpin
  exact .ite (says_wrongArgs rfl rfl) ((silent_call _).andThen fun _ => says_int _)

theorem says_layout : Says mode c 1 (layout c argv) := by
  unfold layout
  refine .ite (.step trivial (fun _ => rfl) fun core _ => says_text ..) (.ite ?_ (says_wrongArgs rfl rfl))
  split
  · exact says_err rfl rfl
  · exact (silent_call _).andThen fun _ => .ite says_ok (says_err rfl rfl)

theorem says_plugin : Says mode c 1 (plugin c argv) := by
  unfold plugin
  refine .ite (.step trivial (fun _ => rfl) fun core _ => says_text ..) (.ite ?_ (says_wrongArgs rfl rfl))
  split
  · exact says_err rfl rfl
  · refine .step trivial (fun _ => rfl) fun deny _ => .ite (says_err rfl rfl) (.step trivial (fun _ => rfl) fun kernel _ => ?_)
    cases kernel with
    | none => exact says_err rfl rfl
    | some kernel => exact (silent_call _).andThen fun _ => says_ok

theorem says_slowEntry (e : ArSlowEntry) : Says mode c 1 (replySlowEntry c e) := by
  unfold replySlowEntry
  exact .array (n := 4) rfl ((says_int _).andThen ((says_int _).andThen ((says_int _).andThen (says_bulks e.args))))

theorem slowlogWant_nonneg {len want : Int} (h0 : 0 ≤ len) (h : slowlogWant len argv = .ok want) : 0 ≤ want := by
  unfold slowlogWant at h
  split at h
  · split at h
    · cases h
    · dsimp only at h
      split at h
      · cases h
      · cases h
        split <;> omega
  · split at h
    · cases h
    · cases h
      exact h0

theorem plainly_slowlogWant (len : Int) : Plainly (slowlogWant len argv) := by
  unfold slowlogWant
  refine plainly_ite ?_ (plainly_ite (plainly_error rfl rfl) (plainly_ok _))
  split
  · exact plainly_error rfl rfl
  · exact plainly_ite (plainly_error rfl rfl) (plainly_ok _)

theorem says_slowlog : Says mode c 1 (slowlog c argv) := by
  unfold slowlog
  refine .ite (says_wrongArgs rfl rfl) (.ite (.ite (says_wrongArgs rfl rfl) ?_) (.ite (.ite (says_wrongArgs rfl rfl) ?_)
    (.ite (.step trivial (fun _ => rfl) fun core hcore => ?_) (says_err rfl rfl))))
  · exact .step trivial (fun _ => rfl) fun core _ => says_int _
  · exact (silent_setSrv _).andThen fun _ => says_ok
  · split
    · exact says_error (plainly_slowlogWant _ _ _ ‹_›)
    · next want hwant =>
      have h0 := slowlogWant_nonneg argv hcore.1.slowlogLen hwant
      refine says_replyArray ?_ fun i => says_slowEntry _
      rw [Nat.one_mul, List.length_range]
      omega

/-! ## Connections -/

theorem says_auth : Says mode c 1 (auth c argv) := by
  unfold auth
  refine .step trivial (fun _ => rfl) fun core _ => .ite (says_error ?_) ?_
  · exact line_quoted (line_ofList rfl rfl) (line_ofList rfl rfl) (line_ofList rfl rfl)
  split
  · exact says_wrongArgs rfl rfl
  · exact .ite (.step trivial (fun _ => rfl) fun _ _ => says_ok) (says_err rfl rfl)

theorem silent_helloAuth (pass : Bytes) (l : List Bytes) : Silent mode c (helloAuth c pass l) := by
  fun_induction helloAuth c pass l with
  | case1 a b rest h heq ih => exact .step trivial (fun _ => rfl) fun _ _ => ih
  | case2 => exact .pure false
  | case3 a b rest h ih => exact ih
  | case4 => exact .pure true

theorem says_hello : Says mode c 1 (hello c argv) := by
  unfold hello
  refine .step trivial (fun _ => rfl) fun core _ => (silent_helloAuth ..).andThen fun _ =>
    .ite (.append ?_) (says_err rfl rfl)
  have hinfo : lit "*4\r\n$6\r\nserver\r\n$10\r\naura-redis\r\n" ++ lit "$7\r\nversion\r\n$3\r\n0.1\r\n" =
      Resp.arrayHdr 4 ++ [lit "server", lit "aura-redis", lit "version", lit "0.1"].flatMap Resp.bulk := by decide
  rw [hinfo]
  exact Wire.array (n := 4) (Values.flatMap Wire.bulk [lit "server", lit "aura-redis", lit "version", lit "0.1"])

theorem says_ping : Says mode c 1 (ping c argv) := by
  unfold ping
  exact .ite (says_status rfl rfl) (.ite (says_bulk _) (says_wrongArgs rfl rfl))

/-- `+OK`, and the connection is to be closed. -/
theorem says_bye {p : Code Unit} (hp : Silent mode c p) :
    Says mode c 1 ((replyOk c).attempt >>= fun _ => p) :=
  Delivers.bind (Delivers.attempt (Delivers.mono says_ok fun o _ ho => Delivers.mono hp fun o' _ ho' => by
    rwa [ho', List.append_nil]))

theorem says_quit : Says mode c 1 (quit c argv) := says_bye (Silent.eff trivial fun _ => rfl)

theorem says_shutdown : Says mode c 1 (shutdown c argv) := by
  unfold shutdown
  exact .ite (says_wrongArgs rfl rfl) (says_bye (.step trivial (fun _ => rfl) fun _ _ => silent_setSrv _))

theorem silent_saveToPath (path : Bytes) : Silent mode c (Rdb.saveToPath path) := by
  unfold Rdb.saveToPath
  refine .step trivial (fun _ => rfl) fun now _ => .step trivial (fun _ => rfl) fun core _ => ?_
  split
  · exact .pure false
  · exact Silent.eff trivial fun _ => rfl

theorem silent_arRdbSave : Silent mode c Rdb.arRdbSave := by
  unfold Rdb.arRdbSave
  refine .step trivial (fun _ => rfl) fun core _ => (silent_saveToPath _).bind fun _ => .ite ?_ (.pure false)
  exact .step trivial (fun _ => rfl) fun t _ => (silent_setSrv _).bind fun _ => .pure true

theorem says_save : Says mode c 1 (save c argv) := by
  unfold save
  exact .ite (says_wrongArgs rfl rfl) (silent_arRdbSave.andThen fun _ => .ite says_ok (says_err rfl rfl))

theorem silent_arRdbPollBgsave : Silent mode c Rdb.arRdbPollBgsave := by
  unfold Rdb.arRdbPollBgsave
  refine .step trivial (fun _ => rfl) fun core _ => .ite (.pure ()) (.step trivial (fun _ => rfl) fun done _ => ?_)
  cases done with
  | none => exact .pure ()
  | some ok => exact .step trivial (fun _ => rfl) fun t _ => silent_setSrv _

theorem silent_arRdbBgsave : Silent mode c Rdb.arRdbBgsave := by
  unfold Rdb.arRdbBgsave
  refine silent_arRdbPollBgsave.bind fun _ => .step trivial (fun _ => rfl) fun core _ => .ite (.pure _)
    (.step trivial (fun _ => rfl) fun now _ => .step trivial (fun _ => rfl) fun pid _ => ?_)
  cases pid with
  | none => exact silent_arRdbSave.bind fun _ => .pure _
  | some pid => exact (silent_setSrv _).bind fun _ => .pure _

theorem says_bgsave : Says mode c 1 (bgsave c argv) := by
  unfold bgsave
  exact .ite (says_wrongArgs rfl rfl) (silent_arRdbBgsave.andThen fun _ => .ite (says_err rfl rfl) (.ite (says_err rfl rfl) says_ok))

theorem says_command : Says mode c 1 (command c argv) := .append (Wire.array (n := 0) .nil)

theorem silent_clientLines (now : Nat) (xs : List ArConn) (out : Bytes) (cap : Nat) :
    Silent mode c (clientLines now xs out cap) := by
  induction xs generalizing out cap with
  | nil => exact .pure _
  | cons x xs ih =>
    unfold clientLines
    refine .ite (ih ..) ?_
    dsimp only
    exact .ite (ih ..) (silent_malloc.bind fun _ => .ite (ih ..) (.pure none))

theorem says_clientList : Says mode c 1 (clientList c argv) := by
  unfold clientList
  refine .ite (says_wrongArgs rfl rfl) (.step trivial (fun _ => rfl) fun now _ => .step trivial (fun _ => rfl) fun core _ => ?_)
  refine (silent_clientLines ..).andThen fun out => ?_
  cases out with
  | none => exact says_err rfl rfl
  | some out => exact says_bulk out

theorem says_clientKillBy (is : ArConn → Bool) : Says mode c 1 (clientKillBy c is) := by
  unfold clientKillBy
  refine .step trivial (fun _ => rfl) fun core _ => ?_
  split
  · exact says_err rfl rfl
  · split
    · exact .step trivial (fun _ => rfl) fun _ _ => says_ok
    · exact (silent_close ‹_›).andThen fun _ => says_ok

theorem says_clientKill : Says mode c 1 (clientKill c argv) := by
  unfold clientKill
  exact .ite (says_clientKillBy _) (.ite (says_clientKillBy _) (says_err rfl rfl))

theorem says_client : Says mode c 1 (client c argv) := by
  unfold client
  refine .ite (says_wrongArgs rfl rfl) (.ite (says_clientList argv) (.ite (.ite (says_wrongArgs rfl rfl) ?_) (.ite (.ite (says_wrongArgs rfl rfl) ?_)
    (.ite (says_clientKill argv) (says_error (line_append (line_ofList rfl rfl) (line_ofList rfl rfl)))))))
  · exact .step trivial (fun _ => rfl) fun core _ => says_int _
  · exact .step trivial (fun _ => rfl) fun _ _ => says_ok

/-! ## Replication -/

theorem silent_replCloseMasterLinks : Silent mode c replCloseMasterLinks := by
  unfold replCloseMasterLinks
  generalize List.range maxConn = is
  refine .each (fun i => Silent.step (e := Eff.core) trivial (fun _ => rfl) fun core hcore => ?_) is
  by_cases hi : i = c
  · -- no link
    dsimp only
    rw [hi, if_neg (by rw [hcore.2.isMasterLink, Bool.and_false]; exact Bool.false_ne_true)]
    exact .pure ()
  · exact .ite (silent_close hi) (.pure ())

theorem silent_replConnectMaster (host : Bytes) (port : Int) : Silent mode c (replConnectMaster host port) := by
  unfold replConnectMaster
  refine .ite (.pure false) (silent_replCloseMasterLinks.bind fun _ => .step trivial (fun _ => rfl) fun fd _ => ?_)
  cases fd with
  | none => exact .pure false
  | some fd =>
    refine .step trivial (fun _ => rfl) fun slot hslot => ?_
    cases slot with
    | none => exact .pure false
    | some i =>
      have hi : i ≠ c := fun h => hslot (congrArg some h)
      have hclose : Silent mode c (eff (.close i) >>= fun _ => pure false) := (silent_close hi).bind fun _ => .pure false
      refine .step hi (fun _ => rfl) fun _ _ => silent_ask.bind fun _ => .ite hclose ?_
      refine (silent_respAppendCommand hi _).attempt.bind fun sent => ?_
      cases sent with
      | none => exact hclose
      | some _ => exact (silent_flush hi).bind fun _ => .ite hclose ((silent_setSrv _).bind fun _ => .pure true)

theorem says_replicaof : Says mode c 1 (replicaof c argv) := by
  unfold replicaof
  refine .ite (silent_replCloseMasterLinks.andThen fun _ => (silent_setSrv _).andThen fun _ => says_ok)
    (.ite (says_wrongArgs rfl rfl) (.ite (says_err rfl rfl) ?_))
  exact (silent_replConnectMaster ..).andThen fun _ => .ite says_ok (says_err rfl rfl)

/-! ## Publish and subscribe -/

theorem says_respAppendBulk (p : Bytes) : Says mode c 1 (respAppendBulk c p) := by
  have hw : ∀ (data : Bytes) {Q : List UInt8 → Unit → Prop}, Q data () → (wbufAppend c data).Delivers (talk mode c) Q := by
    intro data Q hQ
    refine ⟨trivial, fun ok hok => ?_⟩
    have htrue : ok = true := hok
    rw [htrue]
    show Q ((if c = c then data else []) ++ []) ()
    rwa [if_pos rfl, List.append_nil]
  unfold respAppendBulk
  refine .bind (hw _ ?_)
  dsimp only
  split
  · refine .bind (hw p (hw crlf ?_))
    simpa [Resp.bulk, Wire] using Wire.bulk p
  · refine hw crlf ?_
    have hp : p = [] := by simpa using ‹¬p ≠ []›
    simpa [Resp.bulk, Wire, hp] using Wire.bulk p

theorem says_pubsubMsg (kind : String) (chan : Bytes) (n : Int) : Says mode c 1 (replyPubsubMsg c kind chan n) :=
  .array (n := 3) rfl ((says_respAppendBulk _).andThen ((says_respAppendBulk _).andThen (says_int n)))

theorem silent_connAddSub (chan : Bytes) : Silent none c (connAddSub c chan) := by
  unfold connAddSub
  refine .step trivial (fun _ => rfl) fun core _ => .ite (.pure _) (.ite (.pure _) (silent_malloc.bind fun _ => .ite (.pure _) ?_))
  exact .step (fun _ => rfl) (fun _ => rfl) fun _ _ => .pure _

theorem silent_connDelSub (chan : Bytes) : Silent none c (connDelSub c chan) := by
  unfold connDelSub
  refine .step trivial (fun _ => rfl) fun core _ => .ite (.pure _) ?_
  exact .step (fun _ => rfl) (fun _ => rfl) fun _ _ => .pure _

theorem says_subscribe (h : argv.length ≤ 2) : Says none c 1 (subscribe c argv) := by
  unfold subscribe
  split
  · exact says_wrongArgs rfl rfl
  · obtain ⟨chan, hchan⟩ : ∃ chan, argv.drop 1 = [chan] := List.length_eq_one_iff.1 (by rw [List.length_drop]; omega)
    rw [hchan]
    refine (silent_connAddSub chan).andThen fun r => ?_
    cases r with
    | none => exact says_err rfl rfl
    | some n => exact (says_pubsubMsg ..).andSilent fun _ => .pure ()

theorem says_unsubscribeFrom (chan : Bytes) : Says none c 1 (unsubscribeFrom c chan) :=
  (silent_connDelSub chan).andThen fun _ => says_pubsubMsg ..

theorem says_unsubscribe (h : argv.length = 2) : Says none c 1 (unsubscribe c argv) := by
  obtain ⟨chan, hchan⟩ : ∃ chan, argv.drop 1 = [chan] := List.length_eq_one_iff.1 (by rw [List.length_drop, h])
  unfold unsubscribe
  rw [if_neg (by omega), hchan]
  exact (says_unsubscribeFrom chan).andSilent fun _ => .pure ()

theorem silent_publishTo (chan msg : Bytes) (i : Nat) : Silent (some false) c (publishTo chan msg i) := by
  unfold publishTo
  refine .step trivial (fun _ => rfl) fun core hcore => ?_
  by_cases hi : i = c
  · -- it has no channels
    dsimp only
    rw [hi, if_pos (by rw [hcore.2.pubsubMode false rfl, Bool.not_false, Bool.or_true, Bool.true_or])]
    exact .pure false
  · refine .ite (.pure false) ((silent_respAppendCommand hi _).attempt.bind fun sent => ?_)
    cases sent with
    | none => exact .pure false
    | some _ => exact (silent_flush hi).bind fun _ => .pure true

theorem silent_publishLocal (chan msg : Bytes) (is : List Nat) (n : Int) :
    Silent (some false) c (publishLocal chan msg is n) := by
  induction is generalizing n with
  | nil => exact .pure n
  | cons i is ih => exact (silent_publishTo chan msg i).bind fun _ => ih _

theorem says_publish : Says (some false) c 1 (publish c argv) := by
  unfold publish
  generalize List.range maxConn = is
  exact .ite (says_wrongArgs rfl rfl) ((silent_publishLocal ..).andThen fun n => says_int n)

/-! ## Transactions -/

variable {b : Bool}

theorem says_watchKeys (keys : List Bytes) : Says (some b) c 1 (watchKeys c keys) := by
  induction keys with
  | nil => exact says_ok
  | cons key rest ih =>
    unfold watchKeys
    refine .step trivial (fun _ => rfl) fun core _ => .ite ih (.ite (says_err rfl rfl) (silent_malloc.andThen fun _ => ?_))
    exact .ite (.step (fun _ => ⟨Option.some_ne_none b, fun _ h => h⟩) (fun _ => rfl) fun _ _ => ih) (says_err rfl rfl)

theorem says_watch : Says (some b) c 1 (watch c argv) := by
  unfold watch
  exact .ite (says_wrongArgs rfl rfl) (.step trivial (fun _ => rfl) fun core _ => .ite (says_err rfl rfl) (says_watchKeys _))

theorem says_unwatch : Says (some b) c 1 (unwatch c argv) := by
  unfold unwatch
  exact .ite (says_wrongArgs rfl rfl) (.step (fun _ => ⟨Option.some_ne_none b, fun _ h => h⟩) (fun _ => rfl) fun _ _ => says_ok)

/-- The queue is emptied. -/
theorem says_cleared {f : ArTx → ArTx} {k : Unit → Code Unit} (hf : ∀ tx, (f tx).multiQ = [])
    (hk : ∀ a, Says (some b) c 1 (k a)) : Says (some b) c 1 (eff (.setTx c f) >>= k) := by
  refine .step (fun _ => ⟨Option.some_ne_none b, fun tx _ argv hm => ?_⟩) (fun _ => rfl) fun a _ => hk a
  rw [hf tx] at hm
  exact absurd hm List.not_mem_nil

theorem says_multi : Says (some b) c 1 (multi c argv) := by
  unfold multi
  exact .ite (says_wrongArgs rfl rfl) (.step trivial (fun _ => rfl) fun core _ => .ite (says_err rfl rfl)
    (says_cleared (fun _ => rfl) fun _ => says_ok))

theorem says_discard : Says (some b) c 1 (discard c argv) := by
  unfold discard
  exact .ite (says_wrongArgs rfl rfl) (.step trivial (fun _ => rfl) fun core _ => .ite (says_err rfl rfl)
    (says_cleared (fun _ => rfl) fun _ => says_ok))

theorem silent_copyArgs (args : List Bytes) : Silent (some b) c (copyArgs args) := by
  induction args with
  | nil => exact .pure true
  | cons a rest ih => exact silent_malloc.bind fun _ => .ite ih (.pure false)

theorem says_queue (h : queueable argv = true) : Says (some b) c 1 (queue c argv) := by
  unfold queue
  refine .step trivial (fun _ => rfl) fun core _ => .ite (says_err rfl rfl) (.ite (says_err rfl rfl) ?_)
  refine (silent_copyArgs argv).andThen fun _ => .ite (.step (fun _ => ⟨Option.some_ne_none b, fun tx hq a ha => ?_⟩) (fun _ => rfl) fun _ _ => ?_)
    (says_err rfl rfl)
  · obtain ha | ha := List.mem_append.1 ha
    · exact hq a ha
    · rw [List.mem_singleton.1 ha]
      exact h
  · have hq : lit "+QUEUED\r\n" = 43 :: (lit "QUEUED" ++ crlf) := by decide
    rw [hq]
    exact says_status rfl rfl

/-- **`EXEC`**: a header, and one value for each command of the queue. -/
theorem says_exec {nested : Nat → List Bytes → Code Unit}
    (hn : ∀ argv, queueable argv = true → Says (some b) c 1 (nested c argv)) :
    Says (some b) c 1 (exec nested c argv) := by
  unfold exec
  refine .ite (says_wrongArgs rfl rfl) (.step trivial (fun _ => rfl) fun core hcore => ?_)
  dsimp only
  have hrun : Says (some b) c 1 (runQueue nested c (core.conn c).tx.multiQ) :=
    .array (by rw [Nat.one_mul]) (.each fun argv hm => hn argv (hcore.2.queue argv hm))
  refine .ite (says_err rfl rfl) (.ite (says_cleared (fun _ => rfl) fun _ => says_nullArray) ?_)
  refine .step (fun _ => ⟨Option.some_ne_none b, fun _ h => h⟩) (fun _ => rfl) fun _ _ => Delivers.bind (Delivers.attempt (Delivers.mono hrun ?_))
  intro o _ ho
  refine ⟨fun _ => ⟨Option.some_ne_none b, fun tx _ argv hm => absurd hm List.not_mem_nil⟩, fun _ _ => ?_⟩
  show Values 1 (o ++ ([] ++ []))
  rwa [List.append_nil, List.append_nil]

end

/-! ## dispatch -/

section
variable {mode : Option Bool} {c : Nat} {argv : List Bytes}

/-- Whether a command is answered by one value in this mode, when it is not refused. -/
def Answerable (argv : List Bytes) : Option Bool → Prop
  | none => (cmdEq (arg argv 0) "subscribe" = true ∧ argv.length ≤ 2) ∨
      (cmdEq (arg argv 0) "unsubscribe" = true ∧ argv.length = 2)
  | some b => speaksOnce argv = true ∧
      (b = true → cmdEq (arg argv 0) "publish" = false ∧ cmdEq (arg argv 0) "exec" = false)

/-- A branch of `dispatch` says one value. -/
def SaysOne (b : String × (Nat → List Bytes → Code Unit)) : Prop :=
  ∀ mode c argv, cmdEq (arg argv 0) b.1 = true → Answerable argv mode → Says mode c 1 (b.2 c argv)

theorem saysOne {name : String} {h : Nat → List Bytes → Code Unit} (hs : ∀ mode c argv, Says mode c 1 (h c argv)) :
    SaysOne (name, h) := fun mode c argv _ _ => hs mode c argv

/-- A command has one name. -/
theorem speaksOnce_of_name {name : String} (hname : cmdEq (arg argv 0) name = true) :
    speaksOnce argv = speaksOnce [lit name] := by
  unfold speaksOnce
  rw [funext fun s => cmdEq_congr hname s]
  rfl

theorem not_answerable {name : String} (hname : cmdEq (arg argv 0) name = true) (hs : speaksOnce [lit name] = false)
    {b : Bool} : ¬Answerable argv (some b) := fun h => by
  have h₁ := h.1
  rw [speaksOnce_of_name hname, hs] at h₁
  cases h₁

/-- No other command has a reply for each channel. -/
theorem not_answerable_none {name : String} (hname : cmdEq (arg argv 0) name = true)
    (hsub : cmdEq (lit name) "subscribe" = false) (hunsub : cmdEq (lit name) "unsubscribe" = false) :
    ¬Answerable argv none := fun h => by
  obtain ⟨h, -⟩ | ⟨h, -⟩ := h
  · rw [cmdEq_congr hname, hsub] at h
    cases h
  · rw [cmdEq_congr hname, hunsub] at h
    cases h

theorem saysOne_sync [Libc] : SaysOne ("sync", sync) := fun mode c argv hname h => by
  have hname : cmdEq (arg argv 0) "sync" = true := hname
  cases mode with
  | none => exact absurd h (not_answerable_none hname (by decide) (by decide))
  | some b => exact absurd h (not_answerable hname (by decide))

theorem saysOne_subscribe : SaysOne ("subscribe", subscribe) := fun mode c argv hname h => by
  cases mode with
  | none =>
    obtain ⟨-, hlen⟩ | ⟨-, hlen⟩ := h
    · exact says_subscribe argv hlen
    · exact says_subscribe argv (by omega)
  | some b => exact absurd h (not_answerable hname (by decide))

theorem saysOne_unsubscribe : SaysOne ("unsubscribe", unsubscribe) := fun mode c argv hname h => by
  cases mode with
  | none =>
    obtain ⟨hsub, -⟩ | ⟨-, hlen⟩ := h
    · rw [cmdEq_congr hname] at hsub
      exact absurd hsub (by decide)
    · exact says_unsubscribe argv hlen
  | some b => exact absurd h (not_answerable hname (by decide))

theorem saysOne_publish : SaysOne ("publish", publish) := fun mode c argv hname h => by
  cases mode with
  | none => exact absurd h (not_answerable_none hname (by decide) (by decide))
  | some b =>
    cases b with
    | true => exact absurd (h.2 rfl).1 (by rw [hname]; exact Bool.noConfusion)
    | false => exact says_publish argv

theorem saysOne_commands [Libc] : ∀ b ∈ commands, SaysOne b := by
  unfold commands
  simp only [List.forall_mem_cons]
  exact ⟨saysOne_sync,
    saysOne fun _ _ a => says_replicaof a,
    saysOne fun _ _ a => says_replicaof a,
    saysOne fun _ _ a => says_auth a,
    saysOne fun _ _ a => says_hello a,
    saysOne fun _ _ a => says_ping a,
    saysOne fun _ _ a => says_quit a,
    saysOne fun _ _ a => says_shutdown a,
    saysOne fun _ _ a => says_save a,
    saysOne fun _ _ a => says_bgsave a,
    saysOne fun _ _ a => says_get a,
    saysOne fun _ _ a => says_set a,
    saysOne fun _ _ a => says_setnx a,
    saysOne fun _ _ a => says_setTimed a (line_ofList rfl rfl) fun _ _ _ => silent_call _,
    saysOne fun _ _ a => says_setTimed a (line_ofList rfl rfl) fun _ _ _ => silent_call _,
    saysOne fun _ _ a => says_getset a,
    saysOne fun _ _ a => says_expireWith a (line_ofList rfl rfl) fun _ _ => silent_call _,
    saysOne fun _ _ a => says_ttlWith a (line_ofList rfl rfl) fun _ => silent_call _,
    saysOne fun _ _ a => says_ttlWith a (line_ofList rfl rfl) fun _ => silent_call _,
    saysOne fun _ _ a => says_expireWith a (line_ofList rfl rfl) fun _ _ => silent_call _,
    saysOne fun _ _ a => says_expireWith a (line_ofList rfl rfl) fun _ _ => silent_call _,
    saysOne fun _ _ a => says_expireWith a (line_ofList rfl rfl) fun _ _ => silent_call _,
    saysOne fun _ _ a => says_delWith a (line_ofList rfl rfl),
    saysOne fun _ _ a => says_delWith a (line_ofList rfl rfl),
    saysOne fun _ _ a => says_append a,
    saysOne fun _ _ a => says_strlen a,
    saysOne fun _ _ a => says_renameWith a (line_ofList rfl rfl) _,
    saysOne fun _ _ a => says_renameWith a (line_ofList rfl rfl) _,
    saysOne fun _ _ a => says_exist a,
    saysOne fun _ _ a => says_mget a,
    saysOne fun _ _ a => says_mset a,
    saysOne fun _ _ a => says_incr a,
    saysOne fun _ _ a => says_decr a,
    saysOne fun _ _ a => says_incrBy a (line_ofList rfl rfl) _,
    saysOne fun _ _ a => says_incrBy a (line_ofList rfl rfl) _,
    saysOne fun _ _ a => says_dbsize a,
    saysOne fun _ _ a => says_flushdb a,
    saysOne fun _ _ a => says_command a,
    saysOne fun _ _ a => says_evict a,
    saysOne fun _ _ a => says_client a,
    saysOne fun _ _ a => says_config a,
    saysOne fun _ _ a => says_info a,
    saysOne fun _ _ a => says_shadow a,
    saysOne fun _ _ a => says_hotcold a,
    saysOne fun _ _ a => says_hotcold a,
    saysOne fun _ _ a => says_policy a,
    saysOne fun _ _ a => says_pin a,
    saysOne fun _ _ a => says_unpin a,
    saysOne fun _ _ a => says_layout a,
    saysOne fun _ _ a => says_plugin a,
    saysOne fun _ _ a => says_zadd a,
    saysOne fun _ _ a => says_zscore a,
    saysOne fun _ _ a => says_zrem a,
    saysOne fun _ _ a => says_zcard a,
    saysOne fun _ _ a => says_zrange a,
    saysOne fun _ _ a => says_zrangebyscore a,
    saysOne fun _ _ a => says_pushWith a (line_ofList rfl rfl) _,
    saysOne fun _ _ a => says_pushWith a (line_ofList rfl rfl) _,
    saysOne fun _ _ a => says_popWith a (line_ofList rfl rfl) _,
    saysOne fun _ _ a => says_popWith a (line_ofList rfl rfl) _,
    saysOne fun _ _ a => says_llen a,
    saysOne fun _ _ a => says_lindex a,
    saysOne fun _ _ a => says_lrange a,
    saysOne fun _ _ a => says_lrem a,
    saysOne fun _ _ a => says_ltrim a,
    saysOne fun _ _ a => says_type a,
    saysOne fun _ _ a => says_hset a,
    saysOne fun _ _ a => says_hget a,
    saysOne fun _ _ a => says_hmget a,
    saysOne fun _ _ a => says_hgetall a,
    saysOne fun _ _ a => says_hdel a,
    saysOne fun _ _ a => says_hexists a,
    saysOne fun _ _ a => says_hlen a,
    saysOne fun _ _ a => says_hincrby a,
    saysOne fun _ _ a => says_hscan a,
    saysOne_subscribe,
    saysOne_unsubscribe,
    saysOne_publish,
    saysOne fun _ _ a => says_scan a,
    saysOne fun _ _ a => says_keys a,
    saysOne fun _ _ a => says_slowlog a, List.forall_mem_nil _⟩

theorem says_runCommand [Libc] (h : Answerable argv mode) : Says mode c 1 (runCommand c argv) := by
  unfold runCommand
  split
  · next g hg =>
    obtain ⟨b, hb, rfl, hname⟩ := mem_of_lookup hg
    exact saysOne_commands b hb mode c argv hname h
  · exact says_err rfl rfl

theorem line_refusal {core : ArCore} {x : ArConn} {e : String} (h : refusal core x argv = some e) : Resp.Line (lit e) := by
  unfold refusal at h
  dsimp only at h
  split at h
  · cases h
    exact line_ofList rfl rfl
  split at h
  · cases h
    exact line_ofList rfl rfl
  split at h
  · cases h
    exact line_ofList rfl rfl
  split at h
  · cases h
    exact line_ofList rfl rfl
  · cases h

/-- What a subscriber may ask for. -/
theorem allowed_of_refusal {core : ArCore} {x : ArConn} (h : refusal core x argv = none) (hp : x.pubsubMode = true) :
    pubsubIsAllowed (arg argv 0) = true := by
  unfold refusal at h
  dsimp only at h
  split at h
  · cases h
  split at h
  · cases h
  split at h
  · cases h
  split at h
  · cases h
  · next hn => simpa [hp] using hn

theorem pubsubIsAllowed_congr {name : String} (hname : cmdEq (arg argv 0) name = true) :
    pubsubIsAllowed (arg argv 0) = pubsubIsAllowed (lit name) := by
  unfold pubsubIsAllowed
  rw [funext fun s => cmdEq_congr hname s]

/-- Whether a command is answered by one value in this mode. -/
def Turn (argv : List Bytes) : Option Bool → Prop
  | none => Answerable argv none
  | some _ => speaksOnce argv = true

theorem Turn.answerable {core : ArCore} (h : Turn argv mode) (hc : core.Speaking mode c)
    (hr : refusal core (core.conn c) argv = none) : Answerable argv mode := by
  cases mode with
  | none => exact h
  | some b =>
    refine ⟨h, fun hb => ?_⟩
    subst hb
    have hallowed := allowed_of_refusal hr (hc.pubsubMode true rfl)
    constructor <;>
    · refine Bool.eq_false_iff.2 fun hname => ?_
      rw [pubsubIsAllowed_congr hname] at hallowed
      exact absurd hallowed (by decide)

/-- What is no command of a transaction can be queued. -/
theorem queueable_of_lookup {nested : Nat → List Bytes → Code Unit} (h : speaksOnce argv = true)
    (hl : lookup (txCommands nested) (arg argv 0) = none) : queueable argv = true := by
  rw [lookup, Option.map_eq_none_iff, List.find?_eq_none] at hl
  simp only [txCommands, List.forall_mem_cons] at hl
  simp [queueable, h, hl]

/-- `SUBSCRIBE` and `UNSUBSCRIBE` are no commands of a transaction. -/
theorem lookup_of_answerable {nested : Nat → List Bytes → Code Unit} (h : Answerable argv none) :
    lookup (txCommands nested) (arg argv 0) = none := by
  rw [lookup, Option.map_eq_none_iff, List.find?_eq_none]
  simp only [txCommands, List.forall_mem_cons]
  obtain ⟨hname, -⟩ | ⟨hname, -⟩ := h
  all_goals simp only [cmdEq_congr hname]; decide

/-- **`dispatch` says one value**, where the commands of a queue do. -/
theorem says_dispatchBy [Libc] {nested : Nat → List Bytes → Code Unit}
    (hn : mode = some false → cmdEq (arg argv 0) "exec" = true → ∀ a, queueable a = true → Says mode c 1 (nested c a))
    (h : Turn argv mode) : Says mode c 1 (dispatchBy nested c argv) := by
  unfold dispatchBy
  refine .ite (says_err rfl rfl) (.step trivial (fun _ => rfl) fun _ _ => .step trivial (fun _ => rfl) fun core hcore => ?_)
  split
  · exact says_error (line_refusal ‹_›)
  · next hr =>
    have hans := h.answerable hcore.2 hr
    cases mode with
    | none =>
      rw [lookup_of_answerable hans, hcore.2.idle rfl]
      exact says_runCommand hans
    | some b =>
      split
      · next g hg =>
        obtain ⟨x, hx, rfl, hname⟩ := mem_of_lookup hg
        simp only [txCommands, List.mem_cons, List.not_mem_nil, or_false] at hx
        obtain rfl | rfl | rfl | rfl | rfl := hx
        · exact says_watch argv
        · exact says_unwatch argv
        · exact says_multi argv
        · exact says_discard argv
        · have hname : cmdEq (arg argv 0) "exec" = true := hname
          cases b with
          | true => exact absurd (hans.2 rfl).2 (by rw [hname]; exact Bool.noConfusion)
          | false => exact says_exec argv (hn rfl hname)
      · exact .ite (says_queue argv (queueable_of_lookup h ‹_›)) (says_runCommand hans)

/-- **One value for a command.** -/
theorem says_dispatch [Libc] (h : Turn argv mode) : Says mode c 1 (dispatch c argv) := by
  refine says_dispatchBy (fun hm _ a ha => ?_) h
  rw [queueable, Bool.and_eq_true] at ha
  refine says_dispatchBy (fun _ hexec => ?_) (by rw [hm]; exact ha.1)
  simp [hexec] at ha

end

end Dispatch

end AuraRedis
