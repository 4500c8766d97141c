import AuraRedis.Core.Typed

/-!
# Connections

The slots of `conns`: their transaction state, their write buffer and what becomes of it, and how a slot is
taken and given back. A connection is named by the index of its slot.
-/

set_option autoImplicit false

namespace AuraRedis

/-! ## One connection -/

namespace ArTx

/-- `multi_clear`. -/
def multiClear (tx : ArTx) : ArTx := { tx with inMulti := false, multiQ := [] }

/-- `watch_clear`. -/
def watchClear (tx : ArTx) : ArTx := { tx with watchKeys := [], watchDirty := false }

end ArTx

namespace ArConn

/-- `conn_reset`: the buffers stay with the slot. -/
def reset (x : ArConn) : ArConn :=
  { rcap := x.rcap, wcap := x.wcap, sock := x.sock, lastActiveMs := x.lastActiveMs }

/-- What the peer has been sent or will be. -/
def out (x : ArConn) : Bytes := x.sock ++ x.wbuf.drop x.woff

/-- `conn_subscribed`. -/
def subscribed (x : ArConn) (chan : Bytes) : Bool := x.subChannels.contains chan

end ArConn

/-- `AR_RBUF_INIT` and `AR_WBUF_INIT`. -/
def bufInit : Nat := 64 * 1024

namespace ArCore

def conn (c : ArCore) (i : Nat) : ArConn := c.conns.getD i {}

def updConn (c : ArCore) (i : Nat) (f : ArConn → ArConn) : ArCore := { c with conns := c.conns.modify i f }

/-- `conn_close`. -/
def connClose (c : ArCore) (i : Nat) : ArCore :=
  if (c.conn i).inUse then c.updConn i ArConn.reset else c

/-- `connected_clients`. -/
def connectedClients (c : ArCore) : Nat := c.conns.countP (·.inUse)

section
variable (E : Env)

/-! ## The write buffer -/

/-- `wbuf_reserve`, and the bytes put into the room: `wbuf_append` and the `reply_` functions. -/
def wbufAppend (c : ArCore) (i : Nat) (data : Bytes) : ArCore × Bool :=
  let x := c.conn i
  let need := x.wbuf.length + data.length
  if need ≤ x.wcap then (c.updConn i fun x => { x with wbuf := x.wbuf ++ data }, true)
  else
    let p := c.malloc E
    if !p.2 then (p.1, false)
    else
      let cap := ArZSet.growCap need need x.wcap
      (p.1.updConn i fun x => { x with wcap := cap, wbuf := x.wbuf ++ data }, true)

/-- `flush_writes`, when the socket takes `taken` bytes and then blocks, or fails. -/
def flushWrites (c : ArCore) (i : Nat) (taken : Nat) (fails : Bool) : ArCore × Bool :=
  let x := c.conn i
  if x.wbuf.length - x.woff ≤ taken then
    let c := c.updConn i fun x => { x with sock := x.out, wbuf := [], woff := 0 }
    (if x.shouldClose then c.connClose i else c, true)
  else
    (c.updConn i fun x =>
      { x with sock := x.sock ++ (x.wbuf.drop x.woff).take taken, woff := x.woff + taken }, !fails)

/-! ## Slots -/

/-- A slot's first buffer of a kind. -/
def buffer (c : ArCore) (cap : Nat) (f : ArConn → ArConn) (i : Nat) : ArCore × Bool :=
  if cap ≠ 0 then (c, true)
  else
    let p := c.malloc E
    (if p.2 then p.1.updConn i f else p.1, p.2)

/-- `conn_alloc`: the first free slot, with no password configured authenticated. -/
def connAlloc (c : ArCore) (fd : Int) : ArCore × Option Nat :=
  match c.conns.findIdx? fun x => !x.inUse with
  | none => (c, none)
  | some i =>
    let r := c.buffer E (c.conn i).rcap (fun x => { x with rcap := bufInit }) i
    let w := r.1.buffer E (r.1.conn i).wcap (fun x => { x with wcap := bufInit }) i
    if !r.2 || !w.2 then (w.1, none)
    else
      let t := w.1.arNowMs E
      (t.1.updConn i fun x => { x.reset with
        sock := [], fd := fd, inUse := true, lastActiveMs := t.2
        authenticated := t.1.cfg.requirepass.isEmpty }, some i)

end

end ArCore

end AuraRedis
