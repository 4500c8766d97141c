import AuraRedis.Core.Proof.Reads
import AuraRedis.Server.Dispatch

/-!
# What the commands ask for

`Eff.Fits write c` is what a command on the connection `c` may ask for: the key space and the role of the
server it changes only if it is a writer, and another connection's name, password and subscriptions never.
`fits_lookup`: every branch of `dispatch` but `REPLICAOF` asks for no more.
-/

set_option autoImplicit false

namespace AuraRedis

open Code Prog

/-- What a command on `c` may ask for. -/
def Eff.Fits (write : Bool) (c : Nat) : Eff → Prop
  | op o => o.Fills ∧ (write = false → o.isRead = true)
  | setTx _ _ | connAlloc _ | becomeMasterLink _ => False
  | setSubs i _ _ | noteLastCmd i _ | setName i _ | authenticate i | becomeReplica i | closeSoon i => i = c
  | setSrv f => write = false → ∀ s, (f s).replReadonly = s.replReadonly
  | core | now | time | malloc | append _ _ | flush _ | close _ | setCfg _ | setStats _ => True
  | ask | connect | fork _ _ | wait | stack _ | plugin | denyPlugin | readFile _ | writeFile _ _ => True

/-- The code asks for no more. -/
abbrev Code.Fits {α : Type} (write : Bool) (c : Nat) (p : Code α) : Prop := p.Only (Eff.Fits write c)

-- the loops over all slots are not to be unrolled
attribute [local irreducible] maxConn

attribute [local grind =] Eff.Fits ArOp.isRead ArOp.Fills
attribute [local grind ←] Prog.Only.bind Prog.Only.attempt Prog.Only.each

section
variable {write : Bool} {c i : Nat} {α : Type} (argv : List Bytes)

@[grind ←] theorem fits_pure (a : α) : (pure a : Code α).Fits write c := trivial

@[grind ←] theorem fits_fail : (Code.fail : Code α).Fits write c := trivial

@[grind ←] theorem fits_eff {e : Eff} (he : e.Fits write c) : (eff e).Fits write c := .perform he

@[grind ←] theorem fits_call {o : ArOp} (ho : (Eff.op o).Fits write c) : (call o).Fits write c := .perform ho

/-! ## Replies -/

@[grind ←] theorem fits_wbufAppend (data : Bytes) : (wbufAppend i data).Fits write c := by
  unfold wbufAppend Code.check
  grind

@[grind ←] theorem fits_replyErr (s : String) : (replyErr i s).Fits write c := fits_wbufAppend _

@[grind ←] theorem fits_replyInt (v : Int) : (replyInt i v).Fits write c := fits_wbufAppend _

@[grind ←] theorem fits_replyNullBulk : (replyNullBulk i).Fits write c := fits_wbufAppend _

@[grind ←] theorem fits_replyNullArray : (replyNullArray i).Fits write c := fits_wbufAppend _

@[grind ←] theorem fits_replyBulk (data : Bytes) : (replyBulk i data).Fits write c := fits_wbufAppend _

@[grind ←] theorem fits_replyOk : (replyOk i).Fits write c := fits_wbufAppend _

@[grind ←] theorem fits_replyPong : (replyPong i).Fits write c := fits_wbufAppend _

@[grind ←] theorem fits_replyWrongType : (replyWrongType i).Fits write c := fits_wbufAppend _

@[grind ←] theorem fits_wrongArgs (name : String) : (wrongArgs i name).Fits write c := fits_wbufAppend _

@[grind ←] theorem fits_replyNotInt : (replyNotInt i).Fits write c := fits_wbufAppend _

@[grind ←] theorem fits_replyEmpty : (replyEmpty i).Fits write c := fits_wbufAppend _

@[grind ←] theorem fits_respAppendArrayHdr (n : Int) : (respAppendArrayHdr i n).Fits write c := fits_wbufAppend _

@[grind ←] theorem fits_replyArray {n : Int} {as : List α} {f : α → Code Unit} (hf : ∀ a, (f a).Fits write c) :
    (replyArray i n as f).Fits write c := by
  unfold replyArray
  grind

@[grind ←] theorem fits_respAppendBulk (p : Bytes) : (respAppendBulk i p).Fits write c := by
  unfold respAppendBulk
  grind

@[grind ←] theorem fits_replyCount (a : ArCore.Typed Nat) : (replyCount i a).Fits write c := by
  unfold replyCount
  grind

@[grind ←] theorem fits_replyValue (a : ArCore.Typed Bytes) : (replyValue i a).Fits write c := by
  unfold replyValue
  grind

@[grind ←] theorem fits_replyText (size : Nat) (text : Bytes) : (replyText i size text).Fits write c := by
  unfold replyText
  grind

/-! ## Replication -/

@[grind ←] theorem fits_respAppendCommand : (respAppendCommand i argv).Fits write c := by
  unfold respAppendCommand
  grind

@[grind ←] theorem fits_replFeed : (replFeed argv i).Fits write c := by
  unfold replFeed replArmFlush
  grind

@[grind ←] theorem fits_replPropagate : (replPropagate argv).Fits write c := by
  unfold replPropagate
  grind

@[grind ←] theorem fits_replEmitExpire (e : ArEntry) (now : Nat) : (replEmitExpire i e now).Fits write c := by
  unfold replEmitExpire
  grind

@[grind ←] theorem fits_replSyncString (e : ArEntry) (val : Bytes) (now : Nat) :
    (replSyncString i e val now).Fits write c := by
  unfold replSyncString
  generalize ttlSec e now = secs
  grind

@[grind ←] theorem fits_replSyncContainer (e : ArEntry) (now len : Nat) (argc : Int) (name : String)
    (args : List Bytes) : (replSyncContainer i e now len argc name args).Fits write c := by
  unfold replSyncContainer
  grind

@[grind ←] theorem fits_replSyncEntry [Libc] (now : Nat) (e : ArEntry) : (replSyncEntry i now e).Fits write c := by
  unfold replSyncEntry
  split
  · exact fits_pure ()
  · split
    · exact fits_replSyncString e _ now
    all_goals exact fits_replSyncContainer ..

@[grind ←] theorem fits_replFullsync [Libc] : (replFullsync i).Fits write c := by
  unfold replFullsync
  grind

@[grind ←] theorem fits_replCloseMasterLinks : replCloseMasterLinks.Fits write c := by
  unfold replCloseMasterLinks
  grind

namespace Dispatch

/-! ## Strings and keys -/

@[grind ←] theorem fits_countKeys {f : Bytes → Code Bool} (hf : ∀ key, (f key).Fits write c) (keys : List Bytes) (n : Int) :
    (countKeys f keys n).Fits write c := by
  induction keys generalizing n with
  | nil => exact fits_pure n
  | cons key keys ih => exact (hf key).bind fun ok => ih _

theorem fits_get : (Dispatch.get c argv).Fits write c := by
  unfold Dispatch.get
  grind

@[grind ←] theorem fits_entrySet (key val : Bytes) (expireAt : Nat) : (entrySet key val expireAt).Fits true c := by
  unfold entrySet
  grind

@[grind ←] theorem fits_setWrite (key val : Bytes) (o : SetOpts) : (setWrite key val o).Fits true c := by
  unfold setWrite
  grind

theorem fits_set : (Dispatch.set c argv).Fits true c := by
  unfold Dispatch.set
  grind

theorem fits_setnx : (setnx c argv).Fits true c := by
  unfold setnx
  grind

theorem fits_setTimed (name : String) {f : Bytes → Bytes → Int → Code Bool} (hf : ∀ k v n, (f k v n).Fits true c) :
    (setTimed name f c argv).Fits true c := by
  unfold setTimed
  grind

@[grind ←] theorem fits_getsetWrite {reply : Code Unit} (hr : reply.Fits true c) :
    (getsetWrite c argv reply).Fits true c := by
  unfold getsetWrite
  grind

theorem fits_getset : (getset c argv).Fits true c := by
  unfold getset
  grind

theorem fits_append : (append c argv).Fits true c := by
  unfold append
  grind

theorem fits_strlen : (strlen c argv).Fits write c := by
  unfold strlen
  grind

@[grind ←] theorem fits_mgetSlot (key : Bytes) : (mgetSlot c key).Fits write c := by
  refine .bind (fits_call (by grind)) fun a => ?_
  cases a <;> grind

theorem fits_mget : (mget c argv).Fits write c := by
  unfold mget
  grind

theorem fits_msetPairs (l : List Bytes) : (msetPairs l).Fits true c := by
  fun_induction msetPairs l with
  | case1 key val rest ih => exact (fits_entrySet key val 0).bind fun ok => by grind
  | case2 => exact fits_pure true

theorem fits_mset : (mset c argv).Fits true c := by
  unfold mset
  grind [fits_msetPairs]

theorem fits_incrWith (delta : Int) : (incrWith c argv delta).Fits true c := by
  unfold incrWith
  grind

theorem fits_incr : (incr c argv).Fits true c := by
  unfold incr
  grind [fits_incrWith]

theorem fits_decr : (decr c argv).Fits true c := by
  unfold decr
  grind [fits_incrWith]

theorem fits_incrBy (name : String) (sign : Int → Int) : (incrBy name sign c argv).Fits true c := by
  unfold incrBy
  grind [fits_incrWith]

theorem fits_expireWith (name : String) {f : Bytes → Int → Code Bool} (hf : ∀ k n, (f k n).Fits true c) :
    (expireWith name f c argv).Fits true c := by
  unfold expireWith
  grind

theorem fits_ttlWith (name : String) {f : Bytes → Code Int} (hf : ∀ k, (f k).Fits write c) :
    (ttlWith name f c argv).Fits write c := by
  unfold ttlWith
  grind

theorem fits_delWith (name : String) : (delWith name c argv).Fits true c := by
  unfold delWith
  grind

theorem fits_exist : (exist c argv).Fits write c := by
  unfold exist
  grind

theorem fits_renameWith (name : String) (nx : Bool) : (renameWith name nx c argv).Fits true c := by
  unfold renameWith
  grind

theorem fits_type : (type c argv).Fits write c := by
  unfold type
  grind

theorem fits_dbsize : (dbsize c argv).Fits write c := by
  unfold dbsize
  grind

theorem fits_flushdb : (flushdb c argv).Fits true c := by
  unfold flushdb
  grind

@[grind ←] theorem fits_replyPage (next : Nat) (elems : List Bytes) : (replyPage c next elems).Fits write c := by
  unfold replyPage
  grind

theorem fits_scan : (scan c argv).Fits write c := by
  unfold scan
  grind

theorem fits_keys : (keys c argv).Fits write c := by
  unfold keys
  grind

/-! ## Sorted sets, lists and hashes -/

@[grind ←] theorem fits_replyRemoved (n : Int) : (replyRemoved c argv n).Fits write c := by
  unfold replyRemoved
  grind

/-- A pair takes two arguments. -/
theorem length_zaddArgs [Libc] (l : List Bytes) {ns : List ArZNode} (h : zaddArgs l = some ns) :
    2 * ns.length ≤ l.length := by
  fun_induction zaddArgs l generalizing ns with
  | case1 score member rest hs => cases h
  | case2 score member rest s hs ih =>
    obtain ⟨ns', hns', rfl⟩ := Option.map_eq_some_iff.1 h
    have := ih hns'
    simp only [List.length_cons]
    omega
  | case3 => cases h; simp

theorem fits_zadd [Libc] : (zadd c argv).Fits true c := by
  unfold zadd
  split
  · exact fits_wrongArgs _
  · split
    · exact fits_replyErr _
    · rename_i hmany
      split
      · exact fits_replyErr _
      · rename_i ns hns
        have hlen := length_zaddArgs _ hns
        have hfills : (ArOp.arZsetZadd (arg argv 1) ns).Fills := by
          show ns.length ≤ ArCore.zsetMaxMembers
          rw [List.length_drop] at hlen
          unfold maxNames at hmany
          unfold ArCore.zsetMaxMembers
          omega
        refine .bind (fits_call ⟨hfills, fun h => by cases h⟩) fun a => ?_
        cases a <;> grind

theorem fits_zscore [Libc] : (zscore c argv).Fits write c := by
  unfold zscore
  grind

theorem fits_zrem : (zrem c argv).Fits true c := by
  unfold zrem
  grind

theorem fits_zcard : (zcard c argv).Fits write c := by
  unfold zcard
  grind

@[grind ←] theorem fits_replyMember [Libc] (withscores : Bool) (n : ArZNode) : (replyMember c withscores n).Fits write c := by
  unfold replyMember
  grind

@[grind ←] theorem fits_replyMembers [Libc] (withscores : Bool) (count : Int) (ns : List ArZNode) :
    (replyMembers c withscores count ns).Fits write c := by
  unfold replyMembers
  grind

theorem fits_zrange [Libc] : (zrange c argv).Fits write c := by
  unfold zrange
  grind

theorem fits_zrangebyscore [Libc] : (zrangebyscore c argv).Fits write c := by
  unfold zrangebyscore
  grind

theorem fits_pushWith (name : String) (left : Bool) : (pushWith name left c argv).Fits true c := by
  unfold pushWith
  split
  · exact fits_wrongArgs _
  · split
    · exact fits_replyErr _
    · refine .bind (fits_call (by grind)) fun a => ?_
      cases a <;> grind

theorem fits_popWith (name : String) (left : Bool) : (popWith name left c argv).Fits true c := by
  unfold popWith
  grind

theorem fits_llen : (llen c argv).Fits write c := by
  unfold llen
  grind

theorem fits_lindex : (lindex c argv).Fits write c := by
  unfold lindex
  grind

theorem fits_lrange : (lrange c argv).Fits write c := by
  unfold lrange
  split
  · exact fits_wrongArgs _
  · split
    · exact fits_replyNotInt
    · refine .bind (fits_call (by grind)) fun a => ?_
      cases a <;> grind

theorem fits_lrem : (lrem c argv).Fits true c := by
  unfold lrem
  grind

theorem fits_ltrim : (ltrim c argv).Fits true c := by
  unfold ltrim
  grind

theorem fits_hset : (hset c argv).Fits true c := by
  unfold hset
  grind

theorem fits_hget : (hget c argv).Fits write c := by
  unfold hget
  grind

@[grind ←] theorem fits_hmgetField (key field : Bytes) : (hmgetField c key field).Fits write c := by
  refine .bind (fits_call (by grind)) fun a => ?_
  cases a <;> grind

theorem fits_hmget : (hmget c argv).Fits write c := by
  unfold hmget
  grind

@[grind ←] theorem fits_replyField (f : Bytes × Bytes) : (replyField c f).Fits write c := by
  unfold replyField
  grind

theorem fits_hgetall : (hgetall c argv).Fits write c := by
  unfold hgetall
  grind

theorem fits_hdel : (hdel c argv).Fits true c := by
  unfold hdel
  grind

theorem fits_hexists : (hexists c argv).Fits write c := by
  unfold hexists
  grind

theorem fits_hlen : (hlen c argv).Fits write c := by
  unfold hlen
  grind

theorem fits_hincrby : (hincrby c argv).Fits true c := by
  unfold hincrby
  grind

theorem fits_hscan : (hscan c argv).Fits write c := by
  unfold hscan
  grind

/-! ## The configuration -/

@[grind ←] theorem fits_arConfigRewrite : arConfigRewrite.Fits write c := by
  unfold arConfigRewrite
  grind

@[grind ←] theorem fits_configSetOk : (configSetOk c).Fits write c := by
  unfold configSetOk
  grind

@[grind ←] theorem fits_setOption (name : String) (ok : Bool) {set : Code Unit} (hs : set.Fits write c) :
    (setOption c name ok set).Fits write c := by
  unfold setOption
  grind

@[grind ←] theorem fits_setRequirepass (val : Bytes) : (setRequirepass val).Fits write c := by
  unfold setRequirepass
  grind

@[grind ←] theorem fits_setSlowlogMaxLen (n : Int) : (setSlowlogMaxLen n).Fits write c := by
  unfold setSlowlogMaxLen
  grind

@[grind ←] theorem fits_setShadowPolicy (name : Bytes) : (setShadowPolicy name).Fits write c := by
  unfold setShadowPolicy
  grind

@[grind ←] theorem fits_setShadowSamplePct (pct : Int) : (setShadowSamplePct pct).Fits write c := by
  unfold setShadowSamplePct
  grind

theorem fits_configSetTo (key val : Bytes) : (configSetTo c key val).Fits true c := by
  unfold configSetTo
  repeat' refine .ite ?_ ?_
  all_goals grind

theorem fits_configGet : (configGet c argv).Fits write c := by
  unfold configGet
  grind

theorem fits_configSet : (configSet c argv).Fits true c := by
  unfold configSet
  grind [fits_configSetTo]

theorem fits_configRewrite : (configRewrite c argv).Fits write c := by
  unfold configRewrite
  split
  · exact fits_wrongArgs _
  · refine .bind (fits_eff trivial) fun core => ?_
    split
    · exact fits_replyErr _
    · grind

/-! ## The control plane -/

theorem fits_info : (info c argv).Fits write c := by
  unfold info
  grind

theorem fits_evict : (evict c argv).Fits true c := by
  unfold evict
  grind

theorem fits_shadow : (shadow c argv).Fits write c := by
  unfold shadow
  grind

theorem fits_hotcold : (hotcold c argv).Fits write c := by
  unfold hotcold
  grind

theorem fits_policyExplain : (policyExplain c argv).Fits write c := by
  unfold policyExplain
  grind

theorem fits_policy : (policy c argv).Fits write c := by
  unfold policy
  grind [fits_policyExplain]

@[grind ←] theorem fits_listPinned (es : List ArEntry) (room : Nat) : (listPinned es room).Fits write c := by
  induction es generalizing room with
  | nil => exact fits_pure []
  | cons e es ih =>
    unfold listPinned
    grind

theorem fits_pin : (pin c argv).Fits true c := by
  unfold pin
  grind

theorem fits_unpin : (unpin c argv).Fits true c := by
  unfold unpin
  grind

theorem fits_layout : (layout c argv).Fits true c := by
  unfold layout
  grind

theorem fits_plugin : (plugin c argv).Fits true c := by
  unfold plugin
  split
  · grind
  · split
    · split
      · exact fits_replyErr _
      · refine .bind (fits_eff trivial) fun deny => ?_
        grind
    · exact fits_wrongArgs _

@[grind ←] theorem fits_replySlowEntry (e : ArSlowEntry) : (replySlowEntry c e).Fits write c := by
  unfold replySlowEntry
  grind

theorem fits_slowlog : (slowlog c argv).Fits write c := by
  unfold slowlog
  grind

theorem fits_config (h : cmdEq (arg argv 1) "set" = true → write = true) : (config c argv).Fits write c := by
  unfold config
  refine .ite (fits_wrongArgs _) (.ite (fits_configGet argv) ?_)
  split
  · rename_i hs
    rw [h hs]
    exact fits_configSet argv
  · exact .ite (fits_configRewrite argv) (fits_replyErr _)

/-! ## Connections -/

theorem fits_sync [Libc] : (sync c argv).Fits write c := by
  unfold sync
  grind

theorem fits_auth : (auth c argv).Fits write c := by
  unfold auth
  refine .bind (fits_eff trivial) fun core => .ite (fits_replyErr _) ?_
  grind

@[grind ←] theorem fits_helloAuth (pass : Bytes) (l : List Bytes) : (helloAuth c pass l).Fits write c := by
  fun_induction helloAuth c pass l <;> grind

theorem fits_hello : (hello c argv).Fits write c := by
  unfold hello
  refine .bind (fits_eff trivial) fun core => .bind (fits_helloAuth _ _) fun ok => ?_
  exact .ite (fits_wbufAppend _) (fits_replyErr _)

theorem fits_ping : (ping c argv).Fits write c := by
  unfold ping
  grind

theorem fits_quit : (quit c argv).Fits write c := by
  unfold quit
  grind

theorem fits_shutdown : (shutdown c argv).Fits write c := by
  unfold shutdown
  grind

@[grind ←] theorem fits_saveToPath (path : Bytes) : (Rdb.saveToPath path).Fits write c := by
  unfold Rdb.saveToPath
  grind

@[grind ←] theorem fits_arRdbSave : Rdb.arRdbSave.Fits write c := by
  unfold Rdb.arRdbSave
  grind

theorem fits_save : (save c argv).Fits write c := by
  unfold save
  grind

@[grind ←] theorem fits_arRdbPollBgsave : Rdb.arRdbPollBgsave.Fits write c := by
  unfold Rdb.arRdbPollBgsave
  grind

@[grind ←] theorem fits_arRdbBgsave : Rdb.arRdbBgsave.Fits write c := by
  unfold Rdb.arRdbBgsave
  refine .bind fits_arRdbPollBgsave fun _ => .bind (fits_eff trivial) fun core => .ite (fits_pure _) ?_
  refine .bind (fits_eff trivial) fun now => .bind (fits_eff trivial) fun pid => ?_
  cases pid <;> grind

theorem fits_bgsave : (bgsave c argv).Fits write c := by
  unfold bgsave
  grind

theorem fits_command : (command c argv).Fits write c := fits_wbufAppend _

@[grind ←] theorem fits_clientLines (now : Nat) (xs : List ArConn) (out : Bytes) (cap : Nat) :
    (clientLines now xs out cap).Fits write c := by
  induction xs generalizing out cap with
  | nil => exact fits_pure _
  | cons x xs ih =>
    unfold clientLines
    grind

@[grind ←] theorem fits_clientList : (clientList c argv).Fits write c := by
  unfold clientList
  grind

@[grind ←] theorem fits_clientKillBy (is : ArConn → Bool) : (clientKillBy c is).Fits write c := by
  unfold clientKillBy
  grind

@[grind ←] theorem fits_clientKill : (clientKill c argv).Fits write c := by
  unfold clientKill
  grind

theorem fits_client : (client c argv).Fits write c := by
  unfold client
  repeat' refine .ite ?_ ?_
  all_goals grind

@[grind ←] theorem fits_replyPubsubMsg (kind : String) (chan : Bytes) (nsubs : Int) :
    (replyPubsubMsg c kind chan nsubs).Fits write c := by
  unfold replyPubsubMsg
  grind

@[grind ←] theorem fits_connAddSub (chan : Bytes) : (connAddSub c chan).Fits write c := by
  unfold connAddSub
  grind

@[grind ←] theorem fits_connDelSub (chan : Bytes) : (connDelSub c chan).Fits write c := by
  unfold connDelSub
  grind

@[grind ←] theorem fits_subscribeTo (chans : List Bytes) : (subscribeTo c chans).Fits write c := by
  induction chans with
  | nil => exact fits_pure ()
  | cons chan rest ih =>
    unfold subscribeTo
    grind

theorem fits_subscribe : (subscribe c argv).Fits write c := by
  unfold subscribe
  grind

theorem fits_unsubscribe : (unsubscribe c argv).Fits write c := by
  unfold unsubscribe unsubscribeOne unsubscribeFrom
  grind

@[grind ←] theorem fits_publishTo (chan msg : Bytes) (i : Nat) : (publishTo chan msg i).Fits write c := by
  unfold publishTo
  grind

@[grind ←] theorem fits_publishLocal (chan msg : Bytes) (is : List Nat) (n : Int) :
    (publishLocal chan msg is n).Fits write c := by
  induction is generalizing n with
  | nil => exact fits_pure n
  | cons i is ih =>
    unfold publishLocal
    grind

theorem fits_publish : (publish c argv).Fits write c := by
  unfold publish
  grind

/-! ## The table -/

/-- A command that the replica refuses to any but its master. -/
def asksToWrite (argv : List Bytes) : Bool :=
  cmdIsWrite (arg argv 0) || (cmdEq (arg argv 0) "config" && decide (argv.length ≥ 2) &&
    (cmdEq (arg argv 1) "set" || cmdEq (arg argv 1) "rewrite"))

/-- `REPLICAOF` or `SLAVEOF`. -/
def isReplicaof (argv : List Bytes) : Bool := cmdEq (arg argv 0) "replicaof" || cmdEq (arg argv 0) "slaveof"

theorem mem_of_lookup {table : List (String × (Nat → List Bytes → Code Unit))} {cmd : Bytes}
    {h : Nat → List Bytes → Code Unit} (hl : lookup table cmd = some h) :
    ∃ b ∈ table, b.2 = h ∧ cmdEq cmd b.1 = true := by
  obtain ⟨b, hb, hh⟩ := Option.map_eq_some_iff.1 hl
  have hc := List.find?_some hb
  exact ⟨b, List.mem_of_find?_eq_some hb, hh, hc⟩

/-- A branch of `dispatch` is that of `REPLICAOF`, or asks for no more than its command may. -/
def Behaves (b : String × (Nat → List Bytes → Code Unit)) : Prop :=
  (b.2 = replicaof ∧ ∀ argv, cmdEq (arg argv 0) b.1 = true → isReplicaof argv = true) ∨
    ∀ c argv, cmdEq (arg argv 0) b.1 = true → (b.2 c argv).Fits (asksToWrite argv) c

theorem behaves {name : String} {h : Nat → List Bytes → Code Unit} (hf : ∀ write c argv, (h c argv).Fits write c) :
    Behaves (name, h) := .inr fun c argv _ => hf _ c argv

theorem cmdEq_congr {cmd : Bytes} {name : String} (h : cmdEq cmd name = true) (s : String) :
    cmdEq cmd s = cmdEq (lit name) s := by
  unfold cmdEq at h ⊢
  rw [eq_of_beq h]

theorem cmdIsWrite_congr {cmd : Bytes} {name : String} (h : cmdEq cmd name = true) :
    cmdIsWrite cmd = cmdIsWrite (lit name) := by
  unfold cmdIsWrite
  rw [funext fun s => cmdEq_congr h s]

theorem behaves_writer {name : String} {h : Nat → List Bytes → Code Unit} (hf : ∀ c argv, (h c argv).Fits true c)
    (hw : cmdIsWrite (lit name) = true := by decide) : Behaves (name, h) := by
  refine .inr fun c argv hc => ?_
  have hasks : asksToWrite argv = true := by
    unfold asksToWrite
    rw [cmdIsWrite_congr hc, hw]
    rfl
  rw [hasks]
  exact hf c argv

theorem behaves_replicaof {name : String} (hr : isReplicaof [lit name] = true := by decide) :
    Behaves (name, replicaof) := by
  refine .inl ⟨rfl, fun argv hc => ?_⟩
  rw [← hr]
  unfold isReplicaof
  rw [cmdEq_congr hc, cmdEq_congr hc]
  rfl

theorem behaves_config : Behaves ("config", config) := by
  refine .inr fun c argv hc => fits_config argv fun hs => ?_
  by_cases hl : argv.length ≥ 2
  · unfold asksToWrite
    simp [hc, hs, hl]
  · have hnil : arg argv 1 = [] := by
      unfold arg
      rw [List.getD_eq_getElem?_getD, List.getElem?_eq_none (by omega)]
      rfl
    rw [hnil] at hs
    exact absurd hs (by decide)

theorem behaves_commands [Libc] : ∀ b ∈ commands, Behaves b := by
  unfold commands
  simp only [List.forall_mem_cons]
  exact ⟨behaves fun _ _ a => fits_sync a,
    behaves_replicaof,
    behaves_replicaof,
    behaves fun _ _ a => fits_auth a,
    behaves fun _ _ a => fits_hello a,
    behaves fun _ _ a => fits_ping a,
    behaves fun _ _ a => fits_quit a,
    behaves fun _ _ a => fits_shutdown a,
    behaves_writer fun _ a => fits_save a,
    behaves_writer fun _ a => fits_bgsave a,
    behaves fun _ _ a => fits_get a,
    behaves_writer fun _ a => fits_set a,
    behaves_writer fun _ a => fits_setnx a,
    behaves_writer fun _ a => fits_setTimed a _ fun _ _ _ => fits_call (by grind),
    behaves_writer fun _ a => fits_setTimed a _ fun _ _ _ => fits_call (by grind),
    behaves_writer fun _ a => fits_getset a,
    behaves_writer fun _ a => fits_expireWith a _ fun _ _ => fits_call (by grind),
    behaves fun _ _ a => fits_ttlWith a _ fun _ => fits_call (by grind),
    behaves fun _ _ a => fits_ttlWith a _ fun _ => fits_call (by grind),
    behaves_writer fun _ a => fits_expireWith a _ fun _ _ => fits_call (by grind),
    behaves_writer fun _ a => fits_expireWith a _ fun _ _ => fits_call (by grind),
    behaves_writer fun _ a => fits_expireWith a _ fun _ _ => fits_call (by grind),
    behaves_writer fun _ a => fits_delWith a _,
    behaves_writer fun _ a => fits_delWith a _,
    behaves_writer fun _ a => fits_append a,
    behaves fun _ _ a => fits_strlen a,
    behaves_writer fun _ a => fits_renameWith a _ _,
    behaves_writer fun _ a => fits_renameWith a _ _,
    behaves fun _ _ a => fits_exist a,
    behaves fun _ _ a => fits_mget a,
    behaves_writer fun _ a => fits_mset a,
    behaves_writer fun _ a => fits_incr a,
    behaves_writer fun _ a => fits_decr a,
    behaves_writer fun _ a => fits_incrBy a _ _,
    behaves_writer fun _ a => fits_incrBy a _ _,
    behaves fun _ _ a => fits_dbsize a,
    behaves_writer fun _ a => fits_flushdb a,
    behaves fun _ _ a => fits_command a,
    behaves_writer fun _ a => fits_evict a,
    behaves fun _ _ a => fits_client a,
    behaves_config,
    behaves fun _ _ a => fits_info a,
    behaves fun _ _ a => fits_shadow a,
    behaves fun _ _ a => fits_hotcold a,
    behaves fun _ _ a => fits_hotcold a,
    behaves fun _ _ a => fits_policy a,
    behaves_writer fun _ a => fits_pin a,
    behaves_writer fun _ a => fits_unpin a,
    behaves_writer fun _ a => fits_layout a,
    behaves_writer fun _ a => fits_plugin a,
    behaves_writer fun _ a => fits_zadd a,
    behaves fun _ _ a => fits_zscore a,
    behaves_writer fun _ a => fits_zrem a,
    behaves fun _ _ a => fits_zcard a,
    behaves fun _ _ a => fits_zrange a,
    behaves fun _ _ a => fits_zrangebyscore a,
    behaves_writer fun _ a => fits_pushWith a _ _,
    behaves_writer fun _ a => fits_pushWith a _ _,
    behaves_writer fun _ a => fits_popWith a _ _,
    behaves_writer fun _ a => fits_popWith a _ _,
    behaves fun _ _ a => fits_llen a,
    behaves fun _ _ a => fits_lindex a,
    behaves fun _ _ a => fits_lrange a,
    behaves_writer fun _ a => fits_lrem a,
    behaves_writer fun _ a => fits_ltrim a,
    behaves fun _ _ a => fits_type a,
    behaves_writer fun _ a => fits_hset a,
    behaves fun _ _ a => fits_hget a,
    behaves fun _ _ a => fits_hmget a,
    behaves fun _ _ a => fits_hgetall a,
    behaves_writer fun _ a => fits_hdel a,
    behaves fun _ _ a => fits_hexists a,
    behaves fun _ _ a => fits_hlen a,
    behaves_writer fun _ a => fits_hincrby a,
    behaves fun _ _ a => fits_hscan a,
    behaves fun _ _ a => fits_subscribe a,
    behaves fun _ _ a => fits_unsubscribe a,
    behaves fun _ _ a => fits_publish a,
    behaves fun _ _ a => fits_scan a,
    behaves fun _ _ a => fits_keys a,
    behaves fun _ _ a => fits_slowlog a, List.forall_mem_nil _⟩

end Dispatch

/-! ## dispatch -/

/-- What `dispatch` may ask for on a connection, a link to a master among it. -/
def Eff.Asks (c : Nat) (e : Eff) : Prop :=
  e.Fits true c ∨ match e with
    | setTx i _ => i = c
    | connAlloc _ | becomeMasterLink _ => True
    | _ => False

theorem Eff.asks_of_fits {e : Eff} (h : e.Fits write c) : e.Asks c := by
  left
  cases e with
  | op o => exact ⟨h.1, fun h => by cases h⟩
  | setSrv f => exact fun h => by cases h
  | _ => exact h

/-- The code asks for no more. -/
abbrev Code.Asks {α : Type} (c : Nat) (p : Code α) : Prop := p.Only (Eff.Asks c)

theorem Code.Fits.asks {p : Code α} (h : p.Fits write c) : p.Asks c := h.mono fun _ => Eff.asks_of_fits

theorem asks_of_writer {p : Code α} (h : p.Fits true c) : p.Asks c := h.asks

@[grind ←] theorem asks_setTx (f : ArTx → ArTx) : (eff (.setTx c f)).Asks c := .perform (.inr rfl)

@[grind ←] theorem asks_core : (eff .core).Asks c := .perform (.inl trivial)

@[grind ←] theorem asks_malloc : (eff .malloc).Asks c := .perform (.inl trivial)

@[grind ←] theorem asks_reply (data : Bytes) : (wbufAppend c data).Asks c :=
  asks_of_writer (fits_wbufAppend data)

namespace Dispatch

theorem asks_replConnectMaster (host : Bytes) (port : Int) : (replConnectMaster host port).Asks c := by
  have hclose : replCloseMasterLinks.Fits true c := fits_replCloseMasterLinks
  unfold replConnectMaster
  refine .ite trivial (.bind hclose.asks fun _ => .bind (.perform (.inl trivial)) fun fd => ?_)
  cases fd with
  | none => trivial
  | some fd =>
    refine .bind (.perform (.inr trivial)) fun i => ?_
    cases i with
    | none => trivial
    | some i =>
      refine .bind (.perform (.inr trivial)) fun _ => asks_of_writer ?_
      grind

theorem asks_replicaof : (replicaof c argv).Asks c := by
  unfold replicaof
  split
  · exact asks_of_writer (by grind)
  · refine .ite (asks_reply _) ?_
    dsimp only
    refine .ite (asks_reply _) (.bind (asks_replConnectMaster _ _) fun ok => ?_)
    exact .ite (asks_reply _) (asks_reply _)

theorem asks_runCommand [Libc] : (runCommand c argv).Asks c := by
  unfold runCommand
  split
  · rename_i h hl
    obtain ⟨b, hb, rfl, hc⟩ := mem_of_lookup hl
    rcases behaves_commands b hb with ⟨hr, -⟩ | hf
    · rw [hr]
      exact asks_replicaof argv
    · exact (hf c argv hc).asks
  · exact asks_reply _

theorem asks_watchKeys (keys : List Bytes) : (watchKeys c keys).Asks c := by
  induction keys with
  | nil => exact asks_reply _
  | cons key rest ih =>
    unfold watchKeys
    refine .bind asks_core fun core => .ite ih (.ite (asks_reply _) (.bind asks_malloc fun ok => ?_))
    exact .ite (.bind (asks_setTx _) fun _ => ih) (asks_reply _)

theorem asks_copyArgs (args : List Bytes) : (copyArgs args).Asks c := by
  induction args with
  | nil => trivial
  | cons a rest ih =>
    unfold copyArgs
    exact .bind asks_malloc fun ok => .ite ih trivial

theorem asks_queue : (queue c argv).Asks c := by
  unfold queue
  refine .bind asks_core fun core => .ite (asks_reply _) (.ite (asks_reply _) ?_)
  refine .bind (asks_copyArgs _) fun ok => .ite (.bind (asks_setTx _) fun _ => asks_reply _) (asks_reply _)

theorem asks_txCommands {nested : Nat → List Bytes → Code Unit} (hn : ∀ argv, (nested c argv).Asks c) :
    ∀ b ∈ txCommands nested, (b.2 c argv).Asks c := by
  unfold txCommands
  simp only [List.forall_mem_cons]
  refine ⟨?_, ?_, ?_, ?_, ?_, List.forall_mem_nil _⟩
  · exact .ite (asks_reply _) (.bind asks_core fun core => .ite (asks_reply _) (asks_watchKeys _))
  · exact .ite (asks_reply _) (.bind (asks_setTx _) fun _ => asks_reply _)
  · exact .ite (asks_reply _) (.bind asks_core fun core => .ite (asks_reply _)
      (.bind (asks_setTx _) fun _ => asks_reply _))
  · exact .ite (asks_reply _) (.bind asks_core fun core => .ite (asks_reply _)
      (.bind (asks_setTx _) fun _ => asks_reply _))
  · refine .ite (asks_reply _) (.bind asks_core fun core => .ite (asks_reply _) (.ite ?_ ?_))
    · exact .bind (asks_setTx _) fun _ => asks_reply _
    · refine .bind (asks_setTx _) fun _ => .bind (.attempt ?_) fun ran => ?_
      · exact .bind (asks_reply _) fun _ => .each hn _
      · exact .bind (asks_setTx _) fun _ => .ite trivial trivial

theorem asks_dispatchBy [Libc] {nested : Nat → List Bytes → Code Unit} (hn : ∀ argv, (nested c argv).Asks c) :
    (dispatchBy nested c argv).Asks c := by
  unfold dispatchBy
  refine .ite (asks_reply _) (.bind (.perform (.inl rfl)) fun _ => .bind asks_core fun core => ?_)
  split
  · exact asks_reply _
  · split
    · rename_i h hl
      obtain ⟨b, hb, rfl, -⟩ := mem_of_lookup hl
      exact asks_txCommands argv hn b hb
    · exact .ite (asks_queue argv) (asks_runCommand argv)

end Dispatch

/-- **What `dispatch` asks for.** -/
theorem asks_dispatch [Libc] : (dispatch c argv).Asks c :=
  Dispatch.asks_dispatchBy argv fun argv => Dispatch.asks_dispatchBy argv fun _ => trivial

end

end AuraRedis
