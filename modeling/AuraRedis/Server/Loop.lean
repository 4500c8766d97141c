import AuraRedis.Resp.Drain
import AuraRedis.Server.Dispatch
import AuraRedis.Server.Latency

/-!
# The event loop

A `Proc` is the world with the read buffers of its connections. What a round of the loop is woken up for is its
input: a `Wake` is the result of `epoll_wait`, with what each `accept` and each `read` then gives. Connections are
plain ones: `Proc.socket` is what `handle_read` and `process_reads` act on. `none` is undefined behaviour.
-/

set_option autoImplicit false

namespace AuraRedis

open Code
open CString (CArray)
open Resp (ReadBuf Ending)

/-! ## Read buffers -/

/-- The read buffer of a slot. `got` and `done` are not in the source: what has come from the peer, and the commands
of it that have been carried out, since the buffer was last emptied by `conn_reset` or as the noise of a replica. -/
structure Inbox where
  buf : ReadBuf := .init
  got : Bytes := []
  done : List (List Bytes) := []

namespace Inbox

/-- `c->rlen = 0`. -/
def empty (b : Inbox) : Inbox := { buf := b.buf.set [] (Nat.zero_le _) }

/-- What `handle_read` has drained from the socket. -/
def receive (b : Inbox) (buf : ReadBuf) (data : Bytes) : Inbox := { b with buf, got := b.got ++ data }

def didCommand (b : Inbox) (argv : List Bytes) : Inbox := { b with done := b.done ++ [argv] }

/-- `memmove(c->rbuf, c->rbuf + pos, remain)`. -/
def consume (b : Inbox) (pos : Nat) : Inbox :=
  { b with buf := b.buf.set (b.buf.rbuf.drop pos) (Nat.le_trans (List.drop_sublist pos _).length_le b.buf.fits) }

end Inbox

/-- The outside of the loop. -/
structure Host extends Outside where
  /-- How many microseconds a command takes. -/
  us : Nat → Nat
  /-- Whether a read buffer can be had of a size. -/
  realloc : Nat → Nat → Bool

structure Proc where
  world : World
  inbox : Nat → Inbox := fun _ => {}
  /-- `listen_fd >= 0`. -/
  listens : Bool := true
  /-- What sockets that are closed again have been told. -/
  turnedAway : List (Int × Bytes) := []

namespace Proc

def conn (p : Proc) (c : Nat) : ArConn := p.world.conn c

/-- What there is to parse. -/
def rbuf (p : Proc) (c : Nat) : Bytes := (p.inbox c).buf.rbuf

def updConn (p : Proc) (c : Nat) (f : ArConn → ArConn) : Proc :=
  { p with world := { p.world with core := p.world.core.updConn c f } }

def updInbox (p : Proc) (c : Nat) (f : Inbox → Inbox) : Proc :=
  { p with inbox := Function.update p.inbox c (f (p.inbox c)) }

theorem inbox_updInbox_self (p : Proc) (c : Nat) (f : Inbox → Inbox) : (p.updInbox c f).inbox c = f (p.inbox c) :=
  Function.update_self ..

theorem inbox_updInbox_of_ne (p : Proc) {c i : Nat} (f : Inbox → Inbox) (h : i ≠ c) :
    (p.updInbox c f).inbox i = p.inbox i := Function.update_of_ne h ..

/-- `c->should_close = 1`. -/
def closeSoon (p : Proc) (c : Nat) : Proc := p.updConn c fun x => { x with shouldClose := true }

/-- A number from the outside. -/
def tick (p : Proc) : Proc := { p with world := { p.world with calls := p.world.calls + 1 } }

/-- The read buffers after an effect: `conn_reset` empties that of its slot. -/
def inboxAfter (inbox : Nat → Inbox) (w : World) : (e : Eff) → e.Ans → Nat → Inbox
  | .connAlloc _, some c => Function.update inbox c (inbox c).empty
  | .flush c, _ | .close c, _ => if (w.conn c).inUse then inbox else Function.update inbox c (inbox c).empty
  | _, _ => inbox

/-- An effect, on the whole process. -/
def perform (O : Outside) (e : Eff) (p : Proc) : Proc × e.Ans :=
  let r := e.perform O p.world
  ({ p with world := r.1, inbox := inboxAfter p.inbox r.1 e r.2 }, r.2)

variable (H : Host)

/-- Code of the server, run on the process; `none` is `-1`. -/
def run {α : Type} (code : Code α) (p : Proc) : Proc × Option α := code.run (perform H.toOutside) p

def flush (c : Nat) (p : Proc) : Proc × Bool := p.perform H.toOutside (.flush c)

def close (c : Nat) (p : Proc) : Proc := (p.perform H.toOutside (.close c)).1

def now (p : Proc) : Proc × Nat := p.perform H.toOutside .now

/-! ## Reading -/

/-- A master's command is applied, and nothing of it sent back. -/
def applying (p : Proc) (c : Nat) (b : Bool) : Proc :=
  if (p.conn c).isMasterLink then
    { p with world := { p.world with core := { p.world.core with srv := { p.world.core.srv with replApplying := b } } } }
  else p

/-- `c->wlen = 0; c->woff = 0`. -/
def dropOutput (p : Proc) (c : Nat) : Proc :=
  if (p.conn c).isMasterLink then p.updConn c fun x => { x with wbuf := [], woff := 0 } else p

/-- One command of `process_reads`; whether `dispatch` has not failed. -/
def command [Libc] (c : Nat) (argv : List Bytes) (p : Proc) : Proc × Bool :=
  let r := (p.applying c true).run H (dispatch c argv)
  let p := (r.1.applying c false).dropOutput c
  let us := H.us p.world.calls
  let p := (p.tick.run H (noteCmdLatency us argv)).1
  (p, r.2.isSome)

/-- After a command that has not failed. -/
def commandDone (c : Nat) (argv : List Bytes) (p : Proc) : Proc :=
  let t := p.now H
  (t.1.updConn c fun x => { x with lastActiveMs := t.2 }).updInbox c fun b => b.didCommand argv

/-- The connection in a slot, to `handle_read`. -/
def socket [Libc] (c : Nat) : Resp.Socket Proc where
  rbuf p := p.rbuf c
  isReplica p := (p.conn c).isReplica
  shouldClose p := (p.conn c).shouldClose
  command argv p := p.command H c argv
  commandDone argv p := p.commandDone H c argv
  replyErr text p := (p.run H (replyErr c text)).1
  closeSoon p := p.closeSoon c
  empty p := p.updInbox c .empty
  consume pos p := p.updInbox c fun b => b.consume pos
  flush p := p.flush H c
  buf p := (p.inbox c).buf
  inUse p := (p.conn c).inUse
  receive buf data p := p.tick.updInbox c fun b => b.receive buf data
  close p := p.close H c

end Proc

/-! ## Accepting -/

/-- A connection that `accept` returns. -/
structure Peer where
  fd : Int
  ip : BitVec 32
  port : BitVec 16

namespace Peer

/-- `peer_is_loopback`. -/
def isLoopback (peer : Peer) : Bool := peer.ip >>> 24 = 127#32

/-- `inet_ntop`, and the port. -/
def text (peer : Peer) : Bytes :=
  let part (n : Nat) : Bytes := Decimal.ofNat (peer.ip.toNat / 2 ^ n % 2 ^ 8)
  part 24 ++ lit "." ++ part 16 ++ lit "." ++ part 8 ++ lit "." ++ part 0 ++ lit ":" ++ Decimal.ofNat peer.port.toNat

end Peer

namespace Proc

variable (H : Host)

def denied : Bytes :=
  lit "-DENIED aura-redis is running in protected mode because " ++
  lit "protected-mode is enabled and no requirepass is set. Connect " ++
  lit "from loopback, set --requirepass, or --protected-mode no.\r\n"

def full : Bytes := lit "-ERR max number of clients reached\r\n"

def turnAway (p : Proc) (peer : Peer) (data : Bytes) : Proc :=
  { p with turnedAway := p.turnedAway ++ [(peer.fd, data)] }

/-- `core->next_client_id++`, which is never zero. -/
def nextClientId (n : Nat) : Nat := if (n + 1) % 2 ^ 64 = 0 then 1 else (n + 1) % 2 ^ 64

/-- The slot of a new connection, and `epoll_ctl`. -/
def greet (peer : Peer) (c : Nat) (p : Proc) : Proc :=
  let id := p.world.core.srv.nextClientId
  let t := p.now H
  let p := t.1.updConn c fun x => { x with
    peerAddr := .ofBytes 48 peer.text, clientId := id, ctimeMs := t.2, name := .empty 64, lastCmd := .empty 48 }
  let p := (p.perform H.toOutside (.setSrv fun s => { s with nextClientId := nextClientId id })).1
  let a := p.perform H.toOutside .ask
  if a.2 then a.1 else a.1.close H c

/-- A turn of the loop of `accept_clients_on`. -/
def accept (peer : Peer) (p : Proc) : Proc :=
  let cfg := p.world.core.cfg
  if cfg.protectedMode ∧ cfg.requirepass = [] ∧ !peer.isLoopback then p.turnAway peer denied
  else if (p.world.core.connectedClients : Int) ≥ cfg.maxclients then p.turnAway peer full
  else
    let r := p.perform H.toOutside (.connAlloc peer.fd)
    match r.2 with
    | none => r.1.turnAway peer full
    | some c => r.1.greet H peer c

/-- `accept_clients_on`, of the listener without TLS. -/
def acceptClientsOn (peers : List Peer) (p : Proc) : Proc :=
  if p.world.core.srv.shuttingDown || !p.listens then p else peers.foldl (fun p peer => p.accept H peer) p

end Proc

/-! ## A round -/

/-- Whether `close_idle_clients` closes a connection. -/
def ArConn.isIdle (x : ArConn) (now limit : Nat) : Bool :=
  x.inUse && !(x.isReplica || x.isMasterLink) &&
    (x.lastActiveMs ≠ 0 && now > x.lastActiveMs && now - x.lastActiveMs ≥ limit)

/-- `close_idle_clients`. -/
def closeIdleClients : Code Unit := do
  let core ← eff .core
  if core.cfg.timeoutSec ≤ 0 then return
  let now ← eff .now
  Prog.each (fun c => do
    let x := (← eff .core).conn c
    if x.isIdle now (core.cfg.timeoutSec.toNat * 1000) then eff (.close c)) (List.range maxConn)

/-- What comes before `epoll_wait`. -/
def housekeeping : Code Unit := do
  let core ← eff .core
  if core.mem.keysWithTtl ≠ 0 then
    let _ ← call (.arCoreActiveExpire 16)
  Rdb.arRdbPollBgsave
  closeIdleClients

inductive Event
  | accept (peers : List Peer)
  /-- An event of a connection: whether it has an error or is hung up, what it has to read, and whether it can be
  written to. -/
  | conn (c : Nat) (hup : Bool) (input : Option (List Bytes × Ending)) (output : Bool)

/-- What `epoll_wait` returns. -/
inductive Wake
  | failed
  | interrupted
  | events (es : List Event)

namespace Proc

variable (H : Host)

/-- `EPOLLIN`. -/
def handleInput [Libc] (c : Nat) (p : Proc) : Option (List Bytes × Ending) → Option Proc
  | none => some p
  | some (offers, ending) => (socket H c).handleInput (H.realloc p.world.calls) offers ending p

/-- `EPOLLOUT`. -/
def handleOutput (c : Nat) (output : Bool) (p : Proc) : Proc :=
  if (p.conn c).inUse && output then
    let r := p.flush H c
    if r.2 then r.1 else r.1.close H c
  else p

/-- An event of `serve_once`. -/
def handleEvent [Libc] (p : Proc) : Event → Option Proc
  | .accept peers => some (p.acceptClientsOn H peers)
  | .conn c hup input output =>
    if !(p.conn c).inUse then some p
    else if hup then some (p.close H c)
    else (p.handleInput H c input).map (handleOutput H c output)

/-- `serve_once`; whether it has not failed. -/
def serveOnce [Libc] (wake : Wake) (p : Proc) : Option (Proc × Bool) :=
  let p := (p.run H housekeeping).1
  match wake with
  | .failed => some (p, false)
  | .interrupted => some (p, true)
  | .events es => (es.foldlM (fun (p : Proc) e => p.handleEvent H e) p).map fun p => (p, true)

/-- The `while (!core->quit)` loop, as far as it is woken up. -/
def serve [Libc] : List Wake → Proc → Option Proc
  | [], p => some p
  | wake :: wakes, p =>
    if p.world.core.srv.quit then some p
    else (p.serveOnce H wake).bind fun r => if r.2 then serve wakes r.1 else some r.1

end Proc

end AuraRedis
