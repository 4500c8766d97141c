import AuraRedis.Server.Proof.FrontEnds
import AuraRedis.Server.Proof.Propagate

/-!
# Publish and subscribe

What the connections have subscribed to is, to a reader, one set of channels each (`Subs`); `subs_run` says
that the array of every connection is that set, in every state that `SUBSCRIBE`, `UNSUBSCRIBE`, `PUBLISH`,
new connections and lost ones lead to, and what each of the commands sends to whom.
-/

set_option autoImplicit false

namespace AuraRedis

open Code Prog Dispatch

/-! ## Sets of channels -/

/-- The channels of each connection. -/
abbrev Subs : Type := Nat → Finset Bytes

inductive SubsCmd
  | subscribe (chans : List Bytes)
  | unsubscribe (chans : List Bytes)
  | publish (chan msg : Bytes)

namespace SubsCmd

def name : SubsCmd → String
  | subscribe _ => "subscribe"
  | unsubscribe _ => "unsubscribe"
  | publish _ _ => "publish"

def args : SubsCmd → List Bytes
  | subscribe chans | unsubscribe chans => chans
  | publish chan msg => [chan, msg]

end SubsCmd

/-- One channel after the other is subscribed to, until one is too many. -/
def joined (s : Finset Bytes) : List Bytes → Finset Bytes
  | [] => s
  | chan :: rest => if chan ∈ s ∨ s.card < pubsubMax then joined (insert chan s) rest else s

/-- `subscribe` or `unsubscribe`, a channel, and how many there are now. -/
def ackReply (kind : String) (chan : Bytes) (n : Nat) : Bytes :=
  Resp.arrayHdr 3 ++ (Resp.bulk (lit kind) ++ (Resp.bulk chan ++ intReply n))

def joinedReply (s : Finset Bytes) : List Bytes → Bytes
  | [] => []
  | chan :: rest =>
    if chan ∈ s ∨ s.card < pubsubMax then
      ackReply "subscribe" chan (insert chan s).card ++ joinedReply (insert chan s) rest
    else errReply "ERR subscribe failed"

def leftReply (s : Finset Bytes) : List Bytes → Bytes
  | [] => []
  | chan :: rest => ackReply "unsubscribe" chan (s.erase chan).card ++ leftReply (s.erase chan) rest

/-- A message, as those that listen are sent it. -/
def messageReply (chan msg : Bytes) : Bytes := Resp.command [lit "message", chan, msg]

/-- The refusal of `PUBLISH` on a connection that has channels. -/
def onlyInContext : String := "ERR only (P)SUBSCRIBE / (P)UNSUBSCRIBE / PING / QUIT allowed in this context"

namespace Subs

/-- The connections that have a channel. -/
def audience (s : Subs) (chan : Bytes) : Finset Nat := (Finset.range maxConn).filter fun i => chan ∈ s i

/-- The sets after a command. -/
def after (s : Subs) (i : Nat) : SubsCmd → Subs
  | .subscribe chans => Function.update s i (joined (s i) chans)
  | .unsubscribe [] => Function.update s i ∅
  | .unsubscribe chans => Function.update s i (s i \ chans.toFinset)
  | .publish _ _ => s

/-- What may be replied to a command: `UNSUBSCRIBE` without channels leaves them in some order, and `PUBLISH` is
not for connections that have channels. -/
def Replied (s : Subs) (i : Nat) : SubsCmd → Bytes → Prop
  | .subscribe [], r => r = errReply "ERR wrong number of arguments for 'subscribe'"
  | .subscribe chans, r => r = joinedReply (s i) chans
  | .unsubscribe [], r => ∃ l : List Bytes, l.Nodup ∧ l.toFinset = s i ∧ r = leftReply (s i) l
  | .unsubscribe chans, r => r = leftReply (s i) chans
  | .publish chan _, r =>
    r = if s i = ∅ then intReply (s.audience chan).card
      else errReply onlyInContext

/-- What the connection `j` hears of a command of `i`. -/
def heard (s : Subs) (i : Nat) (j : Nat) : SubsCmd → Bytes
  | .publish chan msg => if s i = ∅ ∧ chan ∈ s j then messageReply chan msg else []
  | _ => []

end Subs

/-! ## Connections -/

/-- A connection that has these channels, is not about to be closed and is in no transaction. -/
structure ArConn.Listens (x : ArConn) (s : Finset Bytes) : Prop where
  nodup : x.subChannels.Nodup
  chans : x.subChannels.toFinset = s
  mode : x.pubsubMode = true ↔ s.Nonempty
  room : s.card ≤ pubsubMax
  inUse : s.Nonempty → x.inUse = true
  stays : x.shouldClose = false
  idle : x.tx.inMulti = false
  sent : x.woff ≤ x.wbuf.length

/-- A server, and what its connections have subscribed to. -/
structure World.Serves (w : World) (s : Subs) : Prop where
  slots : w.core.conns.length = maxConn
  conns : ∀ i, (w.conn i).Listens (s i)

namespace ArConn.Listens

variable {x : ArConn} {s : Finset Bytes}

theorem subscribed (h : x.Listens s) (chan : Bytes) : x.subscribed chan = true ↔ chan ∈ s := by
  rw [← h.chans, List.mem_toFinset]
  exact List.contains_iff_mem

theorem length (h : x.Listens s) : x.subChannels.length = s.card := by
  rw [← h.chans, List.toFinset_card_of_nodup h.nodup]

/-- The mode says whether there are channels. -/
theorem pubsubMode (h : x.Listens s) : x.pubsubMode = decide (s.Nonempty) := by
  rw [Bool.eq_iff_iff, h.mode, decide_eq_true_iff]

/-- More in the write buffer. -/
theorem write (h : x.Listens s) (cap : Nat) (data : Bytes) :
    ArConn.Listens { x with wcap := cap, wbuf := x.wbuf ++ data } s :=
  { h with sent := h.sent.trans (by simp) }

theorem out_write (h : x.Listens s) (cap : Nat) (data : Bytes) :
    ArConn.out { x with wcap := cap, wbuf := x.wbuf ++ data } = x.out ++ data := by
  unfold ArConn.out
  rw [List.drop_append_of_le_length h.sent, List.append_assoc]

/-- A slot that has been given back. -/
theorem reset (x : ArConn) : x.reset.Listens ∅ where
  nodup := .nil
  chans := rfl
  mode := by simp [ArConn.reset]
  room := Nat.zero_le _
  inUse h := absurd h Finset.not_nonempty_empty
  stays := rfl
  idle := rfl
  sent := Nat.le_refl _

/-- Other channels: the write buffer stays. -/
theorem withSubs (h : x.Listens s) {mode : Bool} {subs : List Bytes} {t : Finset Bytes} (hn : subs.Nodup)
    (ht : subs.toFinset = t) (hm : mode = true ↔ t.Nonempty) (hr : t.card ≤ pubsubMax) (hu : x.inUse = true) :
    ArConn.Listens { x with pubsubMode := mode, subChannels := subs } t :=
  { h with nodup := hn, chans := ht, mode := hm, room := hr, inUse := fun _ => hu }

end ArConn.Listens

/-! ## What connections are told -/

/-- The one connection is told something. -/
def only (i : Nat) (data : Bytes) (j : Nat) : Bytes := if j = i then data else []

theorem only_append (i : Nat) (a b : Bytes) : (fun j => only i a j ++ only i b j) = only i (a ++ b) := by
  funext j
  unfold only
  split <;> simp

theorem only_nil (i : Nat) : only i [] = fun _ => [] := by
  funext j
  exact ite_self _

/-- The server goes on to these sets, and what each connection is told meanwhile. -/
structure Tells (s : Subs) (said : Nat → Bytes) (w w' : World) : Prop where
  serves : w'.Serves s
  out : ∀ i, (w'.conn i).out = (w.conn i).out ++ said i
  inUse : ∀ i, (w'.conn i).inUse = (w.conn i).inUse

namespace Tells

variable {s s' : Subs} {said said' : Nat → Bytes} {w w' w'' : World} {c : Nat} {data : Bytes}

theorem refl (h : w.Serves s) : Tells s (fun _ => []) w w := ⟨h, fun _ => (List.append_nil _).symm, fun _ => rfl⟩

theorem trans (h : Tells s said w w') (h' : Tells s' said' w' w'') :
    Tells s' (fun i => said i ++ said' i) w w'' where
  serves := h'.serves
  out i := by rw [h'.out, h.out, List.append_assoc]
  inUse i := (h'.inUse i).trans (h.inUse i)

/-- One slot changes. -/
theorem of_slot (h : w.Serves s) {t : Finset Bytes} (hlen : w'.core.conns.length = w.core.conns.length)
    (hne : ∀ i, i ≠ c → w'.conn i = w.conn i)
    (ht : (w'.conn c).Listens t) (hout : (w'.conn c).out = (w.conn c).out ++ data)
    (hu : (w'.conn c).inUse = (w.conn c).inUse) : Tells (Function.update s c t) (only c data) w w' where
  serves :=
    { slots := hlen.trans h.slots
      conns := fun i => by
        by_cases hi : i = c
        · subst hi
          rw [Function.update_self]
          exact ht
        · rw [Function.update_of_ne hi, hne i hi]
          exact h.conns i }
  out i := by
    unfold only
    by_cases hi : i = c
    · rw [if_pos hi, hi, hout]
    · rw [if_neg hi, hne i hi, List.append_nil]
  inUse i := by
    by_cases hi : i = c
    · rw [hi, hu]
    · rw [hne i hi]

/-- One slot changes, and keeps its channels. -/
theorem of_same (h : w.Serves s) (hlen : w'.core.conns.length = w.core.conns.length)
    (hne : ∀ i, i ≠ c → w'.conn i = w.conn i)
    (ht : (w'.conn c).Listens (s c)) (hout : (w'.conn c).out = (w.conn c).out ++ data)
    (hu : (w'.conn c).inUse = (w.conn c).inUse) : Tells s (only c data) w w' := by
  have h' := of_slot h hlen hne ht hout hu
  rwa [Function.update_eq_self] at h'

end Tells

section
variable {O : Outside} {s : Subs} {w w' : World} {c : Nat} {data : Bytes}

/-! ### Writing -/

/-- The write buffer of one connection. -/
def AppendsTo (c : Nat) : Eff → Prop
  | .append i _ => i = c
  | _ => False

theorem conn_updConn_of (core : ArCore) {P : ArConn → Prop} {f : ArConn → ArConn} (c : Nat)
    (hx : P (core.conn c)) (hf : P (f (core.conn c))) : P ((core.updConn c f).conn c) := by
  rcases conn_updConn_cases core c c f with h | ⟨-, h⟩
  · exact h ▸ hx
  · exact h ▸ hf

theorem conn_wbufAppend (E : Env) (core : ArCore) (c : Nat) (data : Bytes) :
    ∃ cap buf, (core.wbufAppend E c data).1.conn c = { core.conn c with wcap := cap, wbuf := buf } := by
  let P : ArConn → Prop := fun y => ∃ cap buf, y = { core.conn c with wcap := cap, wbuf := buf }
  have hx : P (core.conn c) := ⟨_, _, rfl⟩
  unfold ArCore.wbufAppend
  dsimp only
  split
  · exact conn_updConn_of (P := P) core c hx ⟨_, _, rfl⟩
  · split
    · exact hx
    · exact conn_updConn_of (P := P) (core.malloc E).1 c hx ⟨_, _, rfl⟩

/-- Of the connection, only the write buffer. -/
theorem conn_of_appendsTo {p : Code Unit} (hp : p.Only (AppendsTo c)) (O : Outside) (w : World) :
    ∃ cap buf, (p.exec O w).1.conn c = { w.conn c with wcap := cap, wbuf := buf } := by
  refine Code.exec_invariant (I := fun w₁ : World => ∃ cap buf, w₁.conn c =
    { w.conn c with wcap := cap, wbuf := buf }) hp ?_ ⟨_, _, rfl⟩
  rintro e w₁ he ⟨cap, buf, hw₁⟩
  cases e with
  | append i data =>
    obtain rfl : i = c := he
    obtain ⟨cap', buf', hperf⟩ := conn_wbufAppend (O.env w₁.calls) w₁.core i data
    refine ⟨cap', buf', hperf.trans ?_⟩
    rw [show w₁.core.conn i = _ from hw₁]
  | _ => exact he.elim

/-- What is written is told. -/
theorem tells_of_writes {p : Code Unit} (hO : O.AllocOk) (h : w.Serves s) (hc : c < maxConn)
    (hp : Writes c p data) (ho : p.Only (AppendsTo c)) :
    ∃ w', p.exec O w = (w', some ()) ∧ Tells s (only c data) w w' := by
  obtain ⟨w', hrun, happ⟩ := hp O w hO (h.slots ▸ hc)
  obtain ⟨cap, buf, hconn⟩ := conn_of_appendsTo ho O w
  rw [hrun] at hconn
  obtain rfl : buf = (w.conn c).wbuf ++ data := (congrArg ArConn.wbuf hconn).symm.trans happ.wbuf
  refine ⟨w', hrun, .of_same h happ.slots happ.others ?_ ?_ ?_⟩
  · rw [hconn]
    exact (h.conns c).write cap data
  · rw [hconn]
    exact (h.conns c).out_write cap data
  · rw [hconn]

theorem appendsTo_append (c : Nat) (data : Bytes) : (wbufAppend c data).Only (AppendsTo c) :=
  .step rfl fun _ => .ite (.ret _ _) (.fail _)

theorem appendsTo_bulk (c : Nat) (p : Bytes) : (respAppendBulk c p).Only (AppendsTo c) :=
  (appendsTo_append c _).bind fun _ =>
    .ite ((appendsTo_append c p).bind fun _ => appendsTo_append c _) (appendsTo_append c _)

theorem Writes.bulk (c : Nat) (p : Bytes) : Writes c (respAppendBulk c p) (Resp.bulk p) := by
  have hbulk : Resp.bulk p = 36 :: (Decimal.ofNat p.length ++ Resp.crlf) ++ (p ++ Resp.crlf) := rfl
  rw [hbulk]
  refine (Writes.append c _).bind ?_
  by_cases hp : p = []
  · rw [if_neg (by simpa using hp), hp]
    exact .append c _
  · rw [if_pos hp]
    exact (Writes.append c p).bind (.append c _)

theorem tells_wbufAppend (hO : O.AllocOk) (h : w.Serves s) (hc : c < maxConn) (data : Bytes) :
    ∃ w', (wbufAppend c data).exec O w = (w', some ()) ∧ Tells s (only c data) w w' :=
  tells_of_writes hO h hc (.append c data) (appendsTo_append c data)

theorem tells_pubsubMsg (hO : O.AllocOk) (h : w.Serves s) (hc : c < maxConn) (kind : String) (chan : Bytes) (n : Nat) :
    ∃ w', (replyPubsubMsg c kind chan n).exec O w = (w', some ()) ∧
      Tells s (only c (ackReply kind chan n)) w w' := by
  refine tells_of_writes hO h hc ?_ ?_
  · exact (Writes.append c _).bind ((Writes.bulk c _).bind ((Writes.bulk c chan).bind (.append c _)))
  · exact (appendsTo_append c _).bind fun _ => (appendsTo_bulk c _).bind fun _ =>
      (appendsTo_bulk c chan).bind fun _ => appendsTo_append c _

theorem tells_message (hO : O.AllocOk) (h : w.Serves s) (hc : c < maxConn) (chan msg : Bytes) :
    ∃ w', (respAppendCommand c [lit "message", chan, msg]).exec O w = (w', some ()) ∧
      Tells s (only c (messageReply chan msg)) w w' := by
  refine tells_of_writes hO h hc ?_ ?_
  · exact (Writes.append c _).bind (.each (Writes.bulk c) _)
  · exact (appendsTo_append c _).bind fun _ => .each (appendsTo_bulk c) _

/-! ### Other effects -/

/-- A change of one slot that is not seen outside. -/
theorem tells_updConn (h : w.Serves s) (hc : c < maxConn) {f : ArConn → ArConn} {t : Finset Bytes}
    (ht : (f (w.conn c)).Listens t) (hout : (f (w.conn c)).out = (w.conn c).out)
    (hu : (f (w.conn c)).inUse = (w.conn c).inUse) :
    Tells (Function.update s c t) (fun _ => []) w { w with core := w.core.updConn c f } := by
  have hconn : World.conn { w with core := w.core.updConn c f } c = f (w.conn c) :=
    conn_updConn_self (h.slots ▸ hc) f
  rw [← only_nil c]
  refine .of_slot h (List.length_modify ..) (fun i hi => conn_updConn_of_ne _ hi f) ?_ ?_ ?_
  · rw [hconn]
    exact ht
  · rw [hconn, hout, List.append_nil]
  · rw [hconn, hu]

theorem tells_setSubs (h : w.Serves s) (hc : c < maxConn) (hu : (w.conn c).inUse = true) {mode : Bool}
    {subs : List Bytes} {t : Finset Bytes} (hn : subs.Nodup) (ht : subs.toFinset = t)
    (hm : mode = true ↔ t.Nonempty) (hr : t.card ≤ pubsubMax) :
    Tells (Function.update s c t) (fun _ => []) w ((Eff.setSubs c mode subs).perform O w).1 :=
  tells_updConn h hc ((h.conns c).withSubs hn ht hm hr hu) rfl rfl

theorem tells_noteLastCmd (h : w.Serves s) (hc : c < maxConn) (cmd : Bytes) :
    Tells s (fun _ => []) w ((Eff.noteLastCmd c cmd).perform O w).1 := by
  have hl : ArConn.Listens { w.conn c with lastCmd := Eff.lastCmd cmd } (s c) := { h.conns c with }
  have h' := tells_updConn (f := fun x => { x with lastCmd := Eff.lastCmd cmd }) h hc hl rfl rfl
  rwa [Function.update_eq_self] at h'

theorem tells_malloc (h : w.Serves s) : Tells s (fun _ => []) w ((Eff.malloc).perform O w).1 :=
  ⟨⟨h.slots, h.conns⟩, fun _ => (List.append_nil _).symm, fun _ => rfl⟩

/-- A flush moves what is to be sent, and closes no connection that is to stay. -/
theorem flushed {core : ArCore} {t : Finset Bytes} (hx : (core.conn c).Listens t) (taken : Nat) (fails : Bool) :
    ((core.flushWrites c taken fails).1.conn c).Listens t ∧
      ((core.flushWrites c taken fails).1.conn c).out = (core.conn c).out ∧
      ((core.flushWrites c taken fails).1.conn c).inUse = (core.conn c).inUse := by
  let P : ArConn → Prop := fun y => y.Listens t ∧ y.out = (core.conn c).out ∧ y.inUse = (core.conn c).inUse
  have hP : P (core.conn c) := ⟨hx, rfl, rfl⟩
  unfold ArCore.flushWrites
  dsimp only
  split
  · rw [hx.stays, if_neg Bool.false_ne_true]
    refine conn_updConn_of (P := P) core c hP ⟨{ hx with sent := Nat.le_refl _ }, ?_, rfl⟩
    exact List.append_nil _
  · next hlt =>
    refine conn_updConn_of (P := P) core c hP ⟨{ hx with sent := ?_ }, ?_, rfl⟩
    · show (core.conn c).woff + taken ≤ (core.conn c).wbuf.length
      omega
    · unfold ArConn.out
      rw [List.append_assoc, ← List.drop_drop, List.take_append_drop]

theorem tells_flush (h : w.Serves s) (c : Nat) : Tells s (fun _ => []) w ((Eff.flush c).perform O w).1 := by
  obtain ⟨hl, hout, hu⟩ := flushed (h.conns c) (O.write w.calls).1 (O.write w.calls).2
  rw [← only_nil c]
  have hsends : Sends c (.flush c) := rfl
  refine .of_same h (slots_perform (c := c) hsends).2.1
    (fun i hi => (slots_perform hsends).2.2 hi) hl ?_ hu
  rw [List.append_nil]
  exact hout

/-! ### SUBSCRIBE -/

theorem exec_malloc {α : Type} (hO : O.AllocOk) (w : World) (k : Bool → Code α) :
    (eff .malloc >>= k).exec O w = (k true).exec O ((Eff.malloc).perform O w).1 := by
  rw [exec_step]
  have hans : ((Eff.malloc).perform O w).2 = true := hO w.calls w.core.pos.alloc
  rw [hans]

theorem exec_connAddSub (hO : O.AllocOk) (h : w.Serves s) (hc : c < maxConn) (hu : (w.conn c).inUse = true)
    {chan : Bytes} (hroom : chan ∈ s c ∨ (s c).card < pubsubMax) :
    ∃ w', (connAddSub c chan).exec O w = (w', some (some (insert chan (s c)).card)) ∧
      Tells (Function.update s c (insert chan (s c))) (fun _ => []) w w' := by
  have hx := h.conns c
  have hlen : (w.conn c).subChannels.length = (s c).card := hx.length
  by_cases hm : chan ∈ s c
  · refine ⟨w, ?_, ?_⟩
    · unfold connAddSub
      rw [exec_step]
      show (if (w.conn c).subscribed chan = true then _ else _ : Code (Option Nat)).exec O w = _
      rw [if_pos ((hx.subscribed chan).2 hm), Finset.insert_eq_of_mem hm, ← hlen]
      rfl
    · rw [Finset.insert_eq_of_mem hm, Function.update_eq_self]
      exact .refl h
  · have hcard : (s c).card < pubsubMax := hroom.resolve_left hm
    have hins : (insert chan (s c)).card = (s c).card + 1 := Finset.card_insert_of_notMem hm
    have hmem : chan ∉ (w.conn c).subChannels := fun hin => hm (hx.chans ▸ List.mem_toFinset.2 hin)
    have hm₁ := tells_malloc (O := O) h
    have hn : ((w.conn c).subChannels ++ [chan]).Nodup :=
      hx.nodup.append (List.nodup_singleton chan) (by simpa using hmem)
    have hset : ((w.conn c).subChannels ++ [chan]).toFinset = insert chan (s c) := by
      rw [List.toFinset_append, hx.chans, Finset.union_comm]
      rfl
    refine ⟨_, ?_, hm₁.trans (tells_setSubs (O := O) hm₁.serves hc hu hn hset
      (iff_of_true rfl (Finset.insert_nonempty chan _)) (by omega))⟩
    unfold connAddSub
    rw [exec_step]
    show (if (w.conn c).subscribed chan = true then _ else if (w.conn c).subChannels.length ≥ pubsubMax then _ else
      eff .malloc >>= _ : Code (Option Nat)).exec O w = _
    rw [if_neg (fun hin => hm ((hx.subscribed chan).1 hin)), if_neg (by omega), exec_malloc hO, hins, ← hlen]
    rfl

theorem exec_connAddSub_full (h : w.Serves s) {chan : Bytes} (hfull : ¬(chan ∈ s c ∨ (s c).card < pubsubMax)) :
    (connAddSub c chan).exec O w = (w, some none) := by
  have hx := h.conns c
  have hlen : (w.conn c).subChannels.length = (s c).card := hx.length
  rw [not_or, not_lt] at hfull
  unfold connAddSub
  rw [exec_step]
  show (if (w.conn c).subscribed chan = true then _ else if (w.conn c).subChannels.length ≥ pubsubMax then _ else _ :
    Code (Option Nat)).exec O w = _
  rw [if_neg (fun hin => hfull.1 ((hx.subscribed chan).1 hin)), if_pos (by omega)]
  rfl

/-- The loop of `SUBSCRIBE`. -/
theorem exec_subscribeTo (hO : O.AllocOk) (hc : c < maxConn) (chans : List Bytes) :
    ∀ {s : Subs} {w : World}, w.Serves s → (w.conn c).inUse = true →
      ∃ w', (subscribeTo c chans).exec O w = (w', some ()) ∧
        Tells (Function.update s c (joined (s c) chans)) (only c (joinedReply (s c) chans)) w w' := by
  induction chans with
  | nil =>
    intro s w h _
    refine ⟨w, rfl, ?_⟩
    rw [joined, joinedReply, Function.update_eq_self, only_nil]
    exact .refl h
  | cons chan rest ih =>
    intro s w h hu
    rw [subscribeTo]
    unfold joined joinedReply
    by_cases hroom : chan ∈ s c ∨ (s c).card < pubsubMax
    · rw [if_pos hroom, if_pos hroom]
      obtain ⟨w₁, hrun₁, h₁⟩ := exec_connAddSub hO h hc hu hroom
      obtain ⟨w₂, hrun₂, h₂⟩ := tells_pubsubMsg hO h₁.serves hc "subscribe" chan (insert chan (s c)).card
      have hu₂ : (w₂.conn c).inUse = true := (h₂.inUse c).trans ((h₁.inUse c).trans hu)
      obtain ⟨w₃, hrun₃, h₃⟩ := ih h₂.serves hu₂
      refine ⟨w₃, ?_, ?_⟩
      · rw [exec_seq hrun₁]
        exact (exec_seq hrun₂).trans hrun₃
      · have hall := h₁.trans (h₂.trans h₃)
        rw [Function.update_self, Function.update_idem] at hall
        rw [← only_append]
        exact hall
    · rw [if_neg hroom, if_neg hroom]
      obtain ⟨w₁, hrun, h₁⟩ := tells_wbufAppend hO h hc (errReply "ERR subscribe failed")
      refine ⟨w₁, ?_, ?_⟩
      · rw [exec_seq (exec_connAddSub_full h hroom)]
        exact hrun
      · rwa [Function.update_eq_self]

/-! ### UNSUBSCRIBE -/

/-- The array without a channel. -/
theorem ArConn.Listens.erase {x : ArConn} {t : Finset Bytes} (h : x.Listens t) {chan : Bytes} (hm : chan ∈ t) :
    (x.subChannels.erase chan).toFinset = t.erase chan ∧
      ((x.pubsubMode && !(x.subChannels.erase chan).isEmpty) = true ↔ (t.erase chan).Nonempty) := by
  have herase : (x.subChannels.erase chan).toFinset = t.erase chan := by
    ext a
    rw [List.mem_toFinset, h.nodup.mem_erase_iff, Finset.mem_erase, ← h.chans, List.mem_toFinset]
  refine ⟨herase, ?_⟩
  rw [h.mode.2 ⟨chan, hm⟩, Bool.true_and, ← herase, List.toFinset_nonempty_iff]
  cases x.subChannels.erase chan <;> simp

theorem exec_connDelSub (h : w.Serves s) (hc : c < maxConn) (chan : Bytes) :
    ∃ w', (connDelSub c chan).exec O w = (w', some ((s c).erase chan).card) ∧
      Tells (Function.update s c ((s c).erase chan)) (fun _ => []) w w' := by
  have hx := h.conns c
  by_cases hm : chan ∈ s c
  · obtain ⟨herase, hmode⟩ := hx.erase hm
    have hnodup : ((w.conn c).subChannels.erase chan).Nodup := hx.nodup.erase chan
    have hlen : ((w.conn c).subChannels.erase chan).length = ((s c).erase chan).card := by
      rw [← herase, List.toFinset_card_of_nodup hnodup]
    refine ⟨_, ?_, tells_setSubs (O := O) h hc (hx.inUse ⟨chan, hm⟩) hnodup herase hmode
      (Finset.card_erase_le.trans hx.room)⟩
    unfold connDelSub
    rw [exec_step]
    show (if (!(w.conn c).subscribed chan) = true then _ else _ : Code Nat).exec O w = _
    rw [(hx.subscribed chan).2 hm, ← hlen]
    rfl
  · refine ⟨w, ?_, ?_⟩
    · have hnot : (w.conn c).subscribed chan = false := Bool.eq_false_iff.2 fun hin => hm ((hx.subscribed chan).1 hin)
      have hlen : (w.conn c).subChannels.length = (s c).card := hx.length
      unfold connDelSub
      rw [exec_step]
      show (if (!(w.conn c).subscribed chan) = true then _ else _ : Code Nat).exec O w = _
      rw [hnot, Finset.erase_eq_of_notMem hm, ← hlen]
      rfl
    · rw [Finset.erase_eq_of_notMem hm, Function.update_eq_self]
      exact .refl h

/-- One channel is left, and that is acknowledged. -/
def Unsubscribes (O : Outside) (c : Nat) (f : Bytes → Code Unit) : Prop :=
  ∀ (chan : Bytes) {s : Subs} {w : World}, w.Serves s → ∃ w', (f chan).exec O w = (w', some ()) ∧
    Tells (Function.update s c ((s c).erase chan))
      (only c (ackReply "unsubscribe" chan ((s c).erase chan).card)) w w'

theorem leaves_unsubscribeFrom (hO : O.AllocOk) (hc : c < maxConn) : Unsubscribes O c (unsubscribeFrom c) := by
  intro chan s w h
  obtain ⟨w₁, hrun₁, h₁⟩ := exec_connDelSub h hc chan
  obtain ⟨w₂, hrun₂, h₂⟩ := tells_pubsubMsg hO h₁.serves hc "unsubscribe" chan ((s c).erase chan).card
  refine ⟨w₂, ?_, h₁.trans h₂⟩
  unfold unsubscribeFrom
  rw [exec_seq hrun₁]
  exact hrun₂

theorem leaves_unsubscribeOne (hO : O.AllocOk) (hc : c < maxConn) : Unsubscribes O c (unsubscribeOne c) := by
  intro chan s w h
  have hm := tells_malloc (O := O) h
  obtain ⟨w₁, hrun₁, h₁⟩ := exec_connDelSub hm.serves hc chan
  obtain ⟨w₂, hrun₂, h₂⟩ := tells_pubsubMsg hO h₁.serves hc "unsubscribe" chan ((s c).erase chan).card
  refine ⟨w₂, ?_, hm.trans (h₁.trans h₂)⟩
  unfold unsubscribeOne
  rw [exec_malloc hO, exec_seq hrun₁]
  exact hrun₂

/-- The loops of `UNSUBSCRIBE`. -/
theorem exec_leaves {f : Bytes → Code Unit} (hf : Unsubscribes O c f) (chans : List Bytes) :
    ∀ {s : Subs} {w : World}, w.Serves s → ∃ w', Code.exec (Prog.each f chans) O w = (w', some ()) ∧
      Tells (Function.update s c (s c \ chans.toFinset)) (only c (leftReply (s c) chans)) w w' := by
  induction chans with
  | nil =>
    intro s w h
    refine ⟨w, rfl, ?_⟩
    rw [List.toFinset_nil, Finset.sdiff_empty, leftReply, Function.update_eq_self, only_nil]
    exact .refl h
  | cons chan rest ih =>
    intro s w h
    obtain ⟨w₁, hrun₁, h₁⟩ := hf chan h
    obtain ⟨w₂, hrun₂, h₂⟩ := ih h₁.serves
    have hset : (s c).erase chan \ rest.toFinset = s c \ (chan :: rest).toFinset := by
      rw [List.toFinset_cons, Finset.sdiff_insert, Finset.erase_sdiff_comm]
    refine ⟨w₂, ?_, ?_⟩
    · exact (exec_seq hrun₁).trans hrun₂
    · have hall := h₁.trans h₂
      rw [Function.update_self, Function.update_idem, only_append, hset] at hall
      exact hall

/-! ### PUBLISH -/

theorem exec_attempt {α : Type} {p : Code α} {a : α} (h : p.exec O w = (w', some a)) :
    Code.exec p.attempt O w = (w', some (some a)) := by
  unfold Code.exec at h ⊢
  rw [Prog.run_attempt, h]

/-- One connection is sent the message exactly when it has the channel. -/
theorem exec_publishTo (hO : O.AllocOk) (h : w.Serves s) (hc : c < maxConn) (chan msg : Bytes) :
    ∃ w', (publishTo chan msg c).exec O w = (w', some (decide (chan ∈ s c))) ∧
      Tells s (only c (if chan ∈ s c then messageReply chan msg else [])) w w' := by
  have hx := h.conns c
  by_cases hm : chan ∈ s c
  · obtain ⟨w₁, hrun, h₁⟩ := tells_message hO h hc chan msg
    have hskip : (!(w.conn c).inUse || !(w.conn c).pubsubMode || !(w.conn c).subscribed chan) = false := by
      rw [hx.inUse ⟨chan, hm⟩, hx.mode.2 ⟨chan, hm⟩, (hx.subscribed chan).2 hm]
      rfl
    refine ⟨((Eff.flush c).perform O w₁).1, ?_, ?_⟩
    · unfold publishTo
      rw [exec_step]
      show (if (!(w.conn c).inUse || !(w.conn c).pubsubMode || !(w.conn c).subscribed chan) = true then _ else _ :
        Code Bool).exec O w = _
      rw [hskip, if_neg Bool.false_ne_true, exec_seq (exec_attempt hrun), decide_eq_true hm]
      rfl
    · have hall := h₁.trans (tells_flush (O := O) h₁.serves c)
      simp only [List.append_nil] at hall
      rwa [if_pos hm]
  · have hskip : (!(w.conn c).inUse || !(w.conn c).pubsubMode || !(w.conn c).subscribed chan) = true := by
      rw [Bool.eq_false_iff.2 fun hin => hm ((hx.subscribed chan).1 hin)]
      exact Bool.or_true _
    refine ⟨w, ?_, ?_⟩
    · unfold publishTo
      rw [exec_step]
      show (if (!(w.conn c).inUse || !(w.conn c).pubsubMode || !(w.conn c).subscribed chan) = true then _ else _ :
        Code Bool).exec O w = _
      rw [hskip, if_pos rfl, decide_eq_false hm]
      rfl
    · rw [if_neg hm, only_nil]
      exact .refl h

/-- The connections among `is` that have a channel. -/
def Subs.having (s : Subs) (chan : Bytes) (is : List Nat) : Finset Nat := is.toFinset.filter fun i => chan ∈ s i

theorem Subs.having_cons {i : Nat} {is : List Nat} (hi : i ∉ is) (s : Subs) (chan : Bytes) :
    (s.having chan (i :: is)).card = (s.having chan is).card + if chan ∈ s i then 1 else 0 := by
  unfold Subs.having
  rw [List.toFinset_cons, Finset.filter_insert]
  split
  · refine Finset.card_insert_of_notMem ?_
    simp [hi]
  · rfl

/-- What the connections among `is` hear. -/
def Subs.hears (s : Subs) (chan msg : Bytes) (is : List Nat) (j : Nat) : Bytes :=
  if j ∈ is ∧ chan ∈ s j then messageReply chan msg else []

/-- **The loop of `publish_local`.** -/
theorem exec_publishLocal (hO : O.AllocOk) (chan msg : Bytes) (is : List Nat) :
    ∀ {w : World} (n : Int), w.Serves s → is.Nodup → (∀ i ∈ is, i < maxConn) →
      ∃ w', (publishLocal chan msg is n).exec O w = (w', some (n + (s.having chan is).card)) ∧
        Tells s (s.hears chan msg is) w w' := by
  induction is with
  | nil =>
    intro w n h _ _
    refine ⟨w, ?_, ?_⟩
    · exact congrArg (fun z : Int => (w, some z)) (Int.add_zero n).symm
    · have hnone : s.hears chan msg [] = fun _ => [] := by
        funext j
        simp [Subs.hears]
      rw [hnone]
      exact .refl h
  | cons i is ih =>
    intro w n h hnd hlt
    obtain ⟨hi, hnd'⟩ := List.nodup_cons.1 hnd
    obtain ⟨w₁, hrun₁, h₁⟩ := exec_publishTo hO h (hlt i (.head is)) chan msg
    obtain ⟨w₂, hrun₂, h₂⟩ := ih (if chan ∈ s i then n + 1 else n) h₁.serves hnd' fun j hj => hlt j (.tail i hj)
    refine ⟨w₂, ?_, ?_⟩
    · rw [publishLocal, exec_seq hrun₁]
      simp only [decide_eq_true_eq]
      rw [hrun₂, Subs.having_cons hi]
      split
      · simp only [Nat.cast_add, Nat.cast_one, Prod.mk.injEq, Option.some.injEq, true_and]
        omega
      · rfl
    · have hsaid : (fun j => only i (if chan ∈ s i then messageReply chan msg else []) j ++ s.hears chan msg is j) =
          s.hears chan msg (i :: is) := by
        funext j
        unfold only Subs.hears
        by_cases hj : j = i
        · subst hj
          simp [hi]
        · simp [hj]
      rw [← hsaid]
      exact h₁.trans h₂

/-! ## Commands -/

namespace SubsCmd

/-- The branch of a command. -/
def branch : SubsCmd → Nat → List Bytes → Code Unit
  | .subscribe _ => Dispatch.subscribe
  | .unsubscribe _ => Dispatch.unsubscribe
  | .publish _ _ => Dispatch.publish

/-- Where the commands stand. -/
theorem place_branch : ∀ p ∈ [("subscribe", 75), ("unsubscribe", 76), ("publish", 77)],
    place txNames (lit p.1) = none ∧ place commandNames (lit p.1) = some p.2 := by decide +kernel

theorem lookup_branch [Libc] (nested : Nat → List Bytes → Code Unit) (cmd : SubsCmd) :
    lookup (txCommands nested) (lit cmd.name) = none ∧ lookup commands (lit cmd.name) = some cmd.branch := by
  unfold name branch
  cases cmd
  all_goals dsimp only
  · obtain ⟨htx, hcmd⟩ := place_branch _ (.head _)
    exact ⟨lookup_txCommands htx nested, lookup_commands hcmd⟩
  · obtain ⟨htx, hcmd⟩ := place_branch _ (.tail _ (.head _))
    exact ⟨lookup_txCommands htx nested, lookup_commands hcmd⟩
  · obtain ⟨htx, hcmd⟩ := place_branch _ (.tail _ (.tail _ (.head _)))
    exact ⟨lookup_txCommands htx nested, lookup_commands hcmd⟩

def isPublish : SubsCmd → Bool
  | .publish _ _ => true
  | _ => false

theorem gates_name {name : Bytes} {cmd : SubsCmd} (hn : cmdEq name cmd.name = true) :
    pubsubIsAllowed name = !cmd.isPublish ∧ cmdIsWrite name = cmd.isPublish ∧ cmdEq name "config" = false := by
  unfold pubsubIsAllowed cmdIsWrite
  rw [funext fun t => cmdEq_congr hn t]
  unfold SubsCmd.name isPublish
  cases cmd
  all_goals
    dsimp only
    decide

end SubsCmd

/-- The connection has said the password, and messages are published where commands may write. -/
structure SubsCmd.Admitted (cmd : SubsCmd) (w : World) (c : Nat) : Prop where
  password : w.core.cfg.requirepass = [] ∨ (w.conn c).authenticated = true
  master : cmd.isPublish = true → w.core.srv.replReadonly = false ∨ (w.conn c).isMasterLink = true

theorem World.Serves.refusal (h : w.Serves s) {name : Bytes} {cmd : SubsCmd} (hn : cmdEq name cmd.name = true)
    (ha : cmd.Admitted w c) : Dispatch.refusal w.core (w.core.conn c) (name :: cmd.args) =
      if cmd.isPublish = true ∧ s c ≠ ∅ then some onlyInContext else none := by
  have hmode : (w.core.conn c).pubsubMode = decide (s c).Nonempty := (h.conns c).pubsubMode
  have harg : arg (name :: cmd.args) 0 = name := rfl
  obtain ⟨hallowed, hwrite, hconfig⟩ := SubsCmd.gates_name hn
  have hpass : ¬(w.core.cfg.requirepass ≠ [] ∧ (!(w.core.conn c).authenticated) = true ∧
      (!cmdAllowedUnauth name) = true) := by
    rintro ⟨hp, hauth, -⟩
    rcases ha.password with h | h
    · exact hp h
    · rw [show (w.core.conn c).authenticated = true from h] at hauth
      cases hauth
  have hmaster : ¬(w.core.srv.replReadonly = true ∧ cmdIsWrite name = true ∧
      (!(w.core.conn c).isMasterLink) = true) := by
    rintro ⟨hr, hw, hl⟩
    rcases ha.master (hwrite ▸ hw) with h | h
    · rw [h] at hr
      cases hr
    · rw [show (w.core.conn c).isMasterLink = true from h] at hl
      cases hl
  unfold Dispatch.refusal
  rw [harg]
  dsimp only
  rw [if_neg hpass, if_neg hmaster, if_neg (by simp [hconfig]), hallowed, hmode]
  simp only [onlyInContext, Finset.nonempty_iff_ne_empty, Bool.not_not, decide_eq_true_eq, and_comm]

/-- **`dispatch` comes to the branch**, and refuses `PUBLISH` on a connection that has channels. -/
theorem exec_dispatch_subs [Libc] (h : w.Serves s) (hc : c < maxConn) {name : Bytes} {cmd : SubsCmd}
    (hn : cmdEq name cmd.name = true) (ha : cmd.Admitted w c) :
    ∃ w₁, Tells s (fun _ => []) w w₁ ∧ (dispatch c (name :: cmd.args)).exec O w =
      (if cmd.isPublish = true ∧ s c ≠ ∅ then replyErr c onlyInContext
        else cmd.branch c (name :: cmd.args)).exec O w₁ := by
  have h₁ := tells_noteLastCmd (O := O) h hc name
  refine ⟨_, h₁, ?_⟩
  obtain ⟨htx, hcmd⟩ := SubsCmd.lookup_branch dispatchQueued cmd
  rw [← lookup_congr _ hn] at htx hcmd
  have hmulti := (h₁.serves.conns c).idle
  have hsame : (w.conn c).Same (((Eff.noteLastCmd c name).perform O w).1.conn c) :=
    same_updConn _ _ _ fun _ => ⟨rfl, rfl, rfl, rfl, rfl, rfl, rfl, rfl, rfl⟩
  have ha₁ : cmd.Admitted ((Eff.noteLastCmd c name).perform O w).1 c :=
    ⟨ha.password.imp_right hsame.authenticated.trans, fun hp => (ha.master hp).imp_right hsame.isMasterLink.trans⟩
  have hrefusal := h₁.serves.refusal hn ha₁
  generalize hw₁ : ((Eff.noteLastCmd c name).perform O w).1 = w₁ at *
  unfold dispatch dispatchBy
  rw [if_neg (by simp), exec_step]
  show Code.exec _ O ((Eff.noteLastCmd c name).perform O w).1 = _
  rw [hw₁, exec_step]
  have hcore : Eff.core.perform O w₁ = (w₁, w₁.core) := rfl
  rw [hcore]
  dsimp only
  rw [hrefusal]
  by_cases hr : cmd.isPublish = true ∧ s c ≠ ∅
  · rw [if_pos hr, if_pos hr]
  · rw [if_neg hr, if_neg hr]
    rw [show arg (name :: cmd.args) 0 = name from rfl, htx]
    show Code.exec (if (w₁.conn c).tx.inMulti = true then _ else _) O w₁ = _
    rw [hmulti, if_neg Bool.false_ne_true]
    unfold runCommand
    rw [show arg (name :: cmd.args) 0 = name from rfl, hcmd]

/-! ### The branches -/

/-- What a connection and the others are told by a command. -/
structure Obeyed (s : Subs) (c : Nat) (cmd : SubsCmd) (w w' : World) : Prop where
  serves : w'.Serves (s.after c cmd)
  told : ∃ r, s.Replied c cmd r ∧ ∀ i, (w'.conn i).out = (w.conn i).out ++ if i = c then r else s.heard c i cmd

/-- A command after which nobody else has heard anything. -/
theorem Tells.obeyed {s' : Subs} {cmd : SubsCmd} {r : Bytes} (h : Tells s' (only c r) w w') (hs : s.after c cmd = s')
    (hr : s.Replied c cmd r) (hheard : ∀ i, i ≠ c → s.heard c i cmd = []) : Obeyed s c cmd w w' := by
  refine ⟨hs ▸ h.serves, r, hr, fun i => ?_⟩
  rw [h.out i]
  unfold only
  split
  · rfl
  · next hi => rw [hheard i hi]

theorem exec_subscribe (hO : O.AllocOk) (h : w.Serves s) (hc : c < maxConn) (hu : (w.conn c).inUse = true)
    (name : Bytes) (chans : List Bytes) :
    ∃ w', (Dispatch.subscribe c (name :: chans)).exec O w = (w', some ()) ∧ Obeyed s c (.subscribe chans) w w' := by
  cases chans with
  | nil =>
    obtain ⟨w', hrun, ht⟩ := tells_wbufAppend hO h hc (errReply "ERR wrong number of arguments for 'subscribe'")
    exact ⟨w', hrun, ht.obeyed (Function.update_eq_self c s) rfl fun _ _ => rfl⟩
  | cons chan rest =>
    obtain ⟨w', hrun, ht⟩ := exec_subscribeTo hO hc (chan :: rest) h hu
    refine ⟨w', ?_, ht.obeyed rfl rfl fun _ _ => rfl⟩
    unfold Dispatch.subscribe
    rw [if_neg (by simp)]
    exact hrun

theorem exec_unsubscribe (hO : O.AllocOk) (h : w.Serves s) (hc : c < maxConn) (name : Bytes) (chans : List Bytes) :
    ∃ w', (Dispatch.unsubscribe c (name :: chans)).exec O w = (w', some ()) ∧
      Obeyed s c (.unsubscribe chans) w w' := by
  unfold Dispatch.unsubscribe
  cases chans with
  | nil =>
    have hx := h.conns c
    obtain ⟨w', hrun, ht⟩ := exec_leaves (leaves_unsubscribeOne hO hc) (w.conn c).subChannels h
    rw [hx.chans, Finset.sdiff_self] at ht
    exact ⟨w', hrun, ht.obeyed rfl ⟨_, hx.nodup, hx.chans, rfl⟩ fun _ _ => rfl⟩
  | cons chan rest =>
    obtain ⟨w', hrun, ht⟩ := exec_leaves (leaves_unsubscribeFrom hO hc) (chan :: rest) h
    refine ⟨w', ?_, ht.obeyed rfl rfl fun _ _ => rfl⟩
    rw [if_neg (by simp)]
    exact hrun

/-- A connection has a slot. -/
theorem World.Serves.lt_of_inUse (h : w.Serves s) (hu : (w.conn c).inUse = true) : c < maxConn := by
  by_contra hc
  have hconn : w.conn c = {} := by
    unfold World.conn ArCore.conn
    rw [List.getD_eq_getElem?_getD, List.getElem?_eq_none (h.slots ▸ Nat.le_of_not_lt hc)]
    rfl
  rw [hconn] at hu
  cases hu

theorem exec_publish (hO : O.AllocOk) (h : w.Serves s) (hc : c < maxConn) (hs : s c = ∅) (name chan msg : Bytes) :
    ∃ w', (Dispatch.publish c [name, chan, msg]).exec O w = (w', some ()) ∧
      Obeyed s c (.publish chan msg) w w' := by
  obtain ⟨w₁, hrun₁, h₁⟩ := exec_publishLocal hO chan msg (List.range maxConn) 0 h List.nodup_range
    fun i hi => List.mem_range.1 hi
  have hcard : (0 : Int) + (s.having chan (List.range maxConn)).card = (s.audience chan).card := by
    have hall : (List.range maxConn).toFinset = Finset.range maxConn := Multiset.toFinset_range maxConn
    rw [Int.zero_add, Subs.having, hall]
    rfl
  rw [hcard] at hrun₁
  obtain ⟨w₂, hrun₂, h₂⟩ := tells_wbufAppend hO h₁.serves hc (intReply (s.audience chan).card)
  refine ⟨w₂, (exec_seq hrun₁).trans hrun₂, h₂.serves, _, (if_pos hs).symm, fun i => ?_⟩
  rw [(h₁.trans h₂).out i]
  unfold Subs.hears only Subs.heard
  by_cases hi : i = c
  · subst hi
    have hm : chan ∉ s i := by rw [hs]; exact Finset.notMem_empty chan
    rw [if_neg (fun h => hm h.2), if_pos rfl, if_pos rfl, List.nil_append]
  · have hslot : chan ∈ s i → i < maxConn := fun hm => h.lt_of_inUse ((h.conns i).inUse ⟨chan, hm⟩)
    by_cases hm : chan ∈ s i
    · simp [hi, hs, hm, hslot hm]
    · simp [hi, hs, hm]

/-- **A command of a connection.** -/
theorem exec_subsCmd [Libc] (hO : O.AllocOk) (h : w.Serves s) (hu : (w.conn c).inUse = true)
    {name : Bytes} {cmd : SubsCmd} (hn : cmdEq name cmd.name = true) (ha : cmd.Admitted w c) :
    ∃ w', (dispatch c (name :: cmd.args)).exec O w = (w', some ()) ∧ Obeyed s c cmd w w' := by
  have hc : c < maxConn := h.lt_of_inUse hu
  obtain ⟨w₁, h₁, hrun⟩ := exec_dispatch_subs (O := O) h hc hn ha
  rw [hrun]
  have hobey : ∀ w', Obeyed s c cmd w₁ w' → Obeyed s c cmd w w' := by
    intro w' ⟨hserves, r, hr, hout⟩
    refine ⟨hserves, r, hr, fun i => ?_⟩
    rw [hout i, h₁.out i, List.append_nil]
  have hu₁ : (w₁.conn c).inUse = true := (h₁.inUse c).trans hu
  cases cmd with
  | subscribe chans =>
    obtain ⟨w', hexec, ho⟩ := exec_subscribe hO h₁.serves hc hu₁ name chans
    exact ⟨w', hexec, hobey w' ho⟩
  | unsubscribe chans =>
    obtain ⟨w', hexec, ho⟩ := exec_unsubscribe hO h₁.serves hc name chans
    exact ⟨w', hexec, hobey w' ho⟩
  | publish chan msg =>
    by_cases hs : s c = ∅
    · obtain ⟨w', hexec, ho⟩ := exec_publish hO h₁.serves hc hs name chan msg
      refine ⟨w', ?_, hobey w' ho⟩
      rw [if_neg fun hr => hr.2 hs]
      exact hexec
    · obtain ⟨w', hexec, ht⟩ := tells_wbufAppend hO h₁.serves hc (errReply onlyInContext)
      refine ⟨w', ?_, hobey w' (ht.obeyed rfl (if_neg hs).symm fun i _ => if_neg fun hr => hs hr.1)⟩
      rw [if_pos ⟨rfl, hs⟩]
      exact hexec

/-! ## Connections come and go -/

/-- One slot has no channels any more, or yet. -/
theorem serves_without {c : Nat} (h : w.Serves s) (hlen : w'.core.conns.length = w.core.conns.length)
    (hne : ∀ i, i ≠ c → w'.conn i = w.conn i) (hc : (w'.conn c).Listens ∅) : w'.Serves (Function.update s c ∅) where
  slots := hlen.trans h.slots
  conns i := by
    by_cases hi : i = c
    · subst hi
      rw [Function.update_self]
      exact hc
    · rw [Function.update_of_ne hi, hne i hi]
      exact h.conns i

theorem World.Serves.free (h : w.Serves s) (hu : (w.conn c).inUse = false) : s c = ∅ := by
  refine Finset.not_nonempty_iff_eq_empty.1 fun hne => ?_
  rw [(h.conns c).inUse hne] at hu
  cases hu

/-- A slot is given back. -/
theorem serves_close (h : w.Serves s) (c : Nat) :
    ((Eff.close c).perform O w).1.Serves (Function.update s c ∅) ∧
      ∀ i, i ≠ c → ((Eff.close c).perform O w).1.conn i = w.conn i := by
  have hsends : Sends c (.close c) := rfl
  have hne : ∀ i, i ≠ c → ((Eff.close c).perform O w).1.conn i = w.conn i := fun i hi =>
    (slots_perform hsends).2.2 hi
  refine ⟨serves_without h (slots_perform (c := c) hsends).2.1 hne ?_, hne⟩
  show ((w.core.connClose c).conn c).Listens ∅
  unfold ArCore.connClose
  cases hu : (w.core.conn c).inUse with
  | true =>
    rw [if_pos rfl, conn_updConn_self (h.slots ▸ h.lt_of_inUse hu)]
    exact .reset _
  | false =>
    rw [if_neg Bool.false_ne_true]
    exact h.free hu ▸ h.conns c

/-- A first buffer, when there is memory. -/
theorem buffer_of_allocOk {E : Env} (hE : E.AllocOk) (core : ArCore) (cap : Nat) (f : ArConn → ArConn) (i : Nat) :
    (core.buffer E cap f i).2 = true ∧ ∀ j, j ≠ i → (core.buffer E cap f i).1.conn j = core.conn j := by
  unfold ArCore.buffer
  split
  · exact ⟨rfl, fun _ _ => rfl⟩
  · have hans : (core.malloc E).2 = true := hE core.pos.alloc
    dsimp only
    rw [hans]
    exact ⟨rfl, fun j hj => conn_updConn_of_ne (core.malloc E).1 hj f⟩

/-- A slot is taken, unless there is none. -/
theorem connAlloc_of_allocOk {E : Env} (hE : E.AllocOk) (core : ArCore) (fd : Int) :
    (core.connAlloc E fd).1 = core ∨
      ∃ i, (core.connAlloc E fd).2 = some i ∧ (core.connAlloc E fd).1.conns.length = core.conns.length ∧
        ∀ j, j ≠ i → (core.connAlloc E fd).1.conn j = core.conn j := by
  unfold ArCore.connAlloc
  split
  · exact .inl rfl
  · next i hi =>
    obtain ⟨hr, hr'⟩ := buffer_of_allocOk hE core (core.conn i).rcap (fun x => { x with rcap := bufInit }) i
    have hlen := length_buffer E core i (core.conn i).rcap fun x => { x with rcap := bufInit }
    dsimp only
    generalize core.buffer E (core.conn i).rcap (fun x => { x with rcap := bufInit }) i = r at hr hr' hlen ⊢
    obtain ⟨hw, hw'⟩ := buffer_of_allocOk hE r.1 (r.1.conn i).wcap (fun x => { x with wcap := bufInit }) i
    have hlen' := length_buffer E r.1 i (r.1.conn i).wcap fun x => { x with wcap := bufInit }
    generalize r.1.buffer E (r.1.conn i).wcap (fun x => { x with wcap := bufInit }) i = u at hw hw' hlen' ⊢
    rw [hr, hw]
    refine .inr ⟨i, rfl, (List.length_modify ..).trans (hlen'.trans hlen), fun j hj => ?_⟩
    exact (conn_updConn_of_ne (u.1.arNowMs E).1 hj _).trans ((hw' j hj).trans (hr' j hj))

/-- A new connection: those there are stay as they are. -/
theorem serves_connAlloc (hO : O.AllocOk) (h : w.Serves s) (fd : Int) :
    ((Eff.connAlloc fd).perform O w).1.Serves s ∧
      ∀ i, (w.conn i).inUse = true → ((Eff.connAlloc fd).perform O w).1.conn i = w.conn i := by
  rcases connAlloc_of_allocOk (hO w.calls) w.core fd with heq | ⟨i, hi, hlen, hne⟩
  · have hconn : ∀ i, ((Eff.connAlloc fd).perform O w).1.conn i = w.conn i := fun i =>
      congrArg (fun core : ArCore => core.conn i) heq
    refine ⟨⟨?_, fun i => ?_⟩, fun i _ => hconn i⟩
    · exact (congrArg (fun core : ArCore => core.conns.length) heq).trans h.slots
    · rw [hconn i]
      exact h.conns i
  · obtain ⟨hfree, x, now, hx⟩ := connAlloc_some (O.env w.calls) i hi
    have hnew : (((Eff.connAlloc fd).perform O w).1.conn i).Listens ∅ := by
      show ((w.core.connAlloc (O.env w.calls) fd).1.conn i).Listens ∅
      rw [hx]
      exact { ArConn.Listens.reset x with inUse := fun hs => absurd hs Finset.not_nonempty_empty }
    have hserves := serves_without h hlen hne hnew
    rw [← h.free hfree, Function.update_eq_self] at hserves
    refine ⟨hserves, fun j hj => hne j fun hji => ?_⟩
    rw [hji, show (w.conn i).inUse = false from hfree] at hj
    cases hj

end

/-! ## Runs -/

inductive SubsEvent
  /-- A new connection. -/
  | accept (fd : Int)
  /-- `conn_close`. -/
  | close (c : Nat)
  /-- A socket takes some of what is to be sent. -/
  | flush (c : Nat)
  /-- A command, under a name for it. -/
  | command (c : Nat) (name : Bytes) (cmd : SubsCmd)

namespace SubsEvent

/-- What the server does. -/
def code [Libc] : SubsEvent → Code Unit
  | accept fd => eff (.connAlloc fd) >>= fun _ => pure ()
  | close c => eff (.close c)
  | flush c => eff (.flush c) >>= fun _ => pure ()
  | command c name cmd => dispatch c (name :: cmd.args)

/-- A command comes from a connection that is admitted. -/
def Valid (w : World) : SubsEvent → Prop
  | command c name cmd => (w.conn c).inUse = true ∧ cmdEq name cmd.name = true ∧ cmd.Admitted w c
  | _ => True

end SubsEvent

/-- The sets after an event. -/
def Subs.step (s : Subs) : SubsEvent → Subs
  | .close c => Function.update s c ∅
  | .command c _ cmd => s.after c cmd
  | _ => s

/-- What the connections are told by an event: a new connection and a lost one are no matter of the others. -/
def Subs.Tells (s : Subs) (w w' : World) : SubsEvent → Prop
  | .accept _ => ∀ i, (w.conn i).inUse = true → w'.conn i = w.conn i
  | .close c => ∀ i, i ≠ c → w'.conn i = w.conn i
  | .flush _ => ∀ i, (w'.conn i).out = (w.conn i).out
  | .command c _ cmd =>
    ∃ r, s.Replied c cmd r ∧ ∀ i, (w'.conn i).out = (w.conn i).out ++ if i = c then r else s.heard c i cmd

section
variable [Libc] (O : Outside)

/-- The world after events, one after the other. -/
def runEvents : World → List SubsEvent → World
  | w, [] => w
  | w, e :: es => runEvents (e.code.exec O w).1 es

/-- The commands come from connections that are there by then. -/
def ValidRun : World → List SubsEvent → Prop
  | _, [] => True
  | w, e :: es => e.Valid w ∧ ValidRun (e.code.exec O w).1 es

end

section
variable [Libc] {O : Outside} {s : Subs} {w : World} {e : SubsEvent} {es : List SubsEvent}

/-- **One event.** -/
theorem subs_step (hO : O.AllocOk) (h : w.Serves s) (he : e.Valid w) :
    (e.code.exec O w).2 = some () ∧ (e.code.exec O w).1.Serves (s.step e) ∧ s.Tells w (e.code.exec O w).1 e := by
  cases e with
  | accept fd => exact ⟨rfl, serves_connAlloc hO h fd⟩
  | close c => exact ⟨rfl, serves_close (O := O) h c⟩
  | flush c =>
    have ht := tells_flush (O := O) h c
    exact ⟨rfl, ht.serves, fun i => (ht.out i).trans (List.append_nil _)⟩
  | command c name cmd =>
    obtain ⟨w', hrun, ho⟩ := exec_subsCmd hO h he.1 he.2.1 he.2.2
    have hcode : (SubsEvent.command c name cmd).code.exec O w = (w', some ()) := hrun
    rw [hcode]
    exact ⟨rfl, ho.serves, ho.told⟩

/-- The sets in every state of a run. -/
theorem serves_run (hO : O.AllocOk) (h : w.Serves s) (hv : ValidRun O w es) :
    (runEvents O w es).Serves (es.foldl Subs.step s) := by
  induction es generalizing s w with
  | nil => exact h
  | cons e es ih => exact ih (subs_step hO h hv.1).2.1 hv.2

/-- **Publish and subscribe**: after any run the array of each connection is its set, each channel once, and the
mode says whether there are any; and the next command is answered, and its message delivered, by these sets. -/
theorem subs_run (hO : O.AllocOk) (h : w.Serves s) (hv : ValidRun O w es) :
    let sets := es.foldl Subs.step s
    let w₁ := runEvents O w es
    (∀ i, (w₁.conn i).subChannels.Nodup ∧ (w₁.conn i).subChannels.toFinset = sets i ∧
      ((w₁.conn i).pubsubMode = true ↔ (sets i).Nonempty)) ∧
    ∀ e : SubsEvent, e.Valid w₁ → (e.code.exec O w₁).2 = some () ∧ sets.Tells w₁ (e.code.exec O w₁).1 e := by
  intro sets w₁
  have hserves := serves_run hO h hv
  refine ⟨fun i => ?_, fun e he => ?_⟩
  · exact ⟨(hserves.conns i).nodup, (hserves.conns i).chans, (hserves.conns i).mode⟩
  · obtain ⟨hret, -, ht⟩ := subs_step hO hserves he
    exact ⟨hret, ht⟩

end

/-- A server that has just started. -/
def startedWorld : World := { core := .arCoreCreate }

theorem serves_started : startedWorld.Serves fun _ => ∅ := by
  refine ⟨List.length_replicate, fun i => ?_⟩
  have hconn : startedWorld.conn i = {} := by
    unfold World.conn ArCore.conn startedWorld ArCore.arCoreCreate
    rw [List.getD_eq_getElem?_getD, List.getElem?_replicate]
    split <;> rfl
  rw [hconn]
  exact .reset {}

/-- One connection listens to two channels, and another has none. -/
def listenEvents : List SubsEvent :=
  [.accept 7, .accept 8, .command 0 (lit "SUBSCRIBE") (.subscribe [lit "a", lit "b"])]

theorem validRun_listen : let _ : Libc := smallLibc; ValidRun (.steady 0) startedWorld listenEvents := by
  intro _
  refine ⟨trivial, trivial, ⟨?_, ?_, .inl ?_, fun h => by cases h⟩, trivial⟩
  all_goals decide

/-- Both connections are open there, and neither a password nor a replica is in the way. -/
theorem open_listen {w : World} :
    let _ : Libc := smallLibc
    w = runEvents (.steady 0) startedWorld listenEvents → (w.conn 0).inUse = true ∧ (w.conn 1).inUse = true ∧
      w.core.cfg.requirepass = [] ∧ w.core.srv.replReadonly = false := by
  rintro _ rfl
  decide

theorem subs_run_sample :
    let _ : Libc := smallLibc
    let w := runEvents (.steady 0) startedWorld listenEvents
    let e : SubsEvent := .command 1 (lit "PUBLISH") (.publish (lit "a") (lit "hi"))
    (w.conn 0).subChannels.Nodup ∧ (w.conn 0).subChannels.toFinset = {lit "a", lit "b"} ∧
      (e.code.exec (.steady 0) w).2 = some () := by
  intro _ w e
  obtain ⟨harr, hnext⟩ := subs_run (fun _ _ => rfl) serves_started validRun_listen
  obtain ⟨-, hopen, hpass, hmaster⟩ := open_listen (w := w) rfl
  have hv : e.Valid w := ⟨hopen, by decide, ⟨.inl hpass, fun _ => .inl hmaster⟩⟩
  refine ⟨(harr 0).1, ?_, (hnext e hv).1⟩
  rw [(harr 0).2.1]
  decide

/-- More channels than a connection may have. -/
def manyChannels : List Bytes := (List.range 65).map fun n => [UInt8.ofNat n]

/-- The parser hands on no more than 64 words at once. -/
def firstChannels : SubsEvent := .command 1 (lit "SUBSCRIBE") (.subscribe (manyChannels.take 2))

def otherChannels : SubsEvent := .command 1 (lit "SUBSCRIBE") (.subscribe (manyChannels.drop 2))

theorem validRun_append [Libc] {O : Outside} {w : World} {es es' : List SubsEvent} (h : ValidRun O w es)
    (h' : ValidRun O (runEvents O w es) es') : ValidRun O w (es ++ es') := by
  induction es generalizing w with
  | nil => exact h'
  | cons e es ih => exact ⟨h.1, ih h.2 h'⟩

theorem valid_subscribe {w : World} {cs : List Bytes} (h : (w.conn 1).inUse = true)
    (hp : w.core.cfg.requirepass = []) : (SubsEvent.command 1 (lit "SUBSCRIBE") (.subscribe cs)).Valid w :=
  ⟨h, (by decide : cmdEq (lit "SUBSCRIBE") "subscribe" = true), .inl hp, fun h => by cases h⟩

theorem validRun_many :
    let _ : Libc := smallLibc
    ValidRun (.steady 0) startedWorld (listenEvents ++ [firstChannels, otherChannels]) := by
  intro _
  have hopen : let w := (firstChannels.code.exec (.steady 0) (runEvents (.steady 0) startedWorld listenEvents)).1
      (w.conn 1).inUse = true ∧ w.core.cfg.requirepass = [] := by decide +kernel
  refine validRun_append validRun_listen ?_
  obtain ⟨-, hopen₁, hpass₁, -⟩ := open_listen rfl
  generalize runEvents (.steady 0) startedWorld listenEvents = w at hopen hopen₁ hpass₁ ⊢
  exact ⟨valid_subscribe hopen₁ hpass₁, valid_subscribe hopen.1 hopen.2, trivial⟩

theorem card_manyChannels : manyChannels.toFinset.card = 65 := by
  rw [List.toFinset_card_of_nodup (by decide +kernel)]
  rfl

/-- A connection that listens may not publish, and one that asks for 65 channels does not get them. -/
theorem subs_limits :
    let _ : Libc := smallLibc
    let w := runEvents (.steady 0) startedWorld listenEvents
    let published := ((SubsEvent.command 0 (lit "PUBLISH") (.publish (lit "a") (lit "hi"))).code.exec (.steady 0) w).1
    let full := runEvents (.steady 0) startedWorld (listenEvents ++ [firstChannels, otherChannels])
    lit "a" ∈ (w.conn 0).subChannels ∧ (published.conn 0).out = (w.conn 0).out ++ errReply onlyInContext ∧
      (full.conn 1).subChannels.toFinset ≠ manyChannels.toFinset := by
  intro _ w published full
  have hO : (Outside.steady 0).AllocOk := fun _ _ => rfl
  have hs := serves_run hO serves_started validRun_listen
  obtain ⟨hopen₀, -, hpass, hmaster⟩ := open_listen (w := w) rfl
  have ha : lit "a" ∈ listenEvents.foldl Subs.step (fun _ => ∅) 0 := by decide
  refine ⟨?_, ?_, fun heq => ?_⟩
  · rw [← List.mem_toFinset, (hs.conns 0).chans]
    exact ha
  · have hv : (SubsEvent.command 0 (lit "PUBLISH") (.publish (lit "a") (lit "hi"))).Valid w :=
      ⟨hopen₀, by decide, ⟨.inl hpass, fun _ => .inl hmaster⟩⟩
    obtain ⟨-, -, r, hr, hout⟩ := subs_step hO hs hv
    rw [hout 0, if_pos rfl, show r = _ from hr, if_neg (Finset.ne_empty_of_mem ha)]
  · have hroom := ((serves_run hO serves_started validRun_many).conns 1).room
    rw [← ((serves_run hO serves_started validRun_many).conns 1).chans, heq, card_manyChannels] at hroom
    exact absurd hroom (by decide)

end AuraRedis
