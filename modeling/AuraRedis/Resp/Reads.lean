import AuraRedis.Resp.Parse

/-!
# The read loop of a connection

`Endpoint.processReads` is `process_reads`: commands are parsed off the read buffer and dispatched until the parser
asks for more, the parser fails, or the connection is to be closed; then the output is flushed. An `Endpoint σ` is
what the loop needs of a connection and of the server behind it, and `σ` the state of both. `none` is undefined
behaviour: the parser's, or more is taken out of a read buffer than is in it.

A `Handler` is a server that its commands alone act on, and `Handler.endpoint` a connection to it (`Link`). A
connection whose `should_close` is set is closed by the flush that takes all its output; while the socket blocks it
is read on.
-/

set_option autoImplicit false

namespace Resp

universe u v

/-- The connection the loop reads for, and what the loop calls. -/
structure Endpoint (σ : Type u) where
  rbuf : σ → Bytes
  isReplica : σ → Bool
  shouldClose : σ → Bool
  /-- `dispatch`, with the bookkeeping around the call; whether it has not failed. -/
  command : List Bytes → σ → σ × Bool
  /-- After a command that has not failed. -/
  commandDone : List Bytes → σ → σ
  replyErr : String → σ → σ
  /-- `c->should_close = 1`. -/
  closeSoon : σ → σ
  /-- `c->rlen = 0`. -/
  empty : σ → σ
  /-- `memmove(c->rbuf, c->rbuf + pos, remain)`. -/
  consume : Nat → σ → σ
  /-- `flush_writes`, and whether it does not return `-1`. -/
  flush : σ → σ × Bool

namespace Endpoint

variable {σ : Type u} (C : Endpoint σ)

/-- The `while (pos < c->rlen)` loop, and `pos`. A turn consumes at least one byte. -/
def readLoop : Nat → Nat → σ → Option (σ × Nat)
  | 0, pos, s => some (s, pos)
  | fuel + 1, pos, s =>
    if pos < (C.rbuf s).length then
      match parseCommand ((C.rbuf s).drop pos) with
      | .incomplete => some (s, pos)
      | .error => some (C.closeSoon (C.replyErr "ERR Protocol error" s), pos)
      | .undefined => none
      | .ok argv rest =>
        let r := C.command argv s
        if !r.2 then some (C.closeSoon r.1, pos)
        else
          let s' := C.commandDone argv r.1
          let pos := (C.rbuf s).length - rest.length
          if C.shouldClose s' then some (s', pos) else readLoop fuel pos s'
    else some (s, pos)

/-- `process_reads`. -/
def processReads (s : σ) : Option (σ × Bool) :=
  if C.isReplica s then some (C.flush (C.empty s))
  else
    (C.readLoop (C.rbuf s).length 0 s).bind fun r =>
      if r.2 = 0 then some (C.flush r.1)
      else if r.2 ≤ (C.rbuf r.1).length then some (C.flush (C.consume r.2 r.1))
      else none

end Endpoint

/-! ## A server and its commands -/

/-- A server whose state only its commands change. -/
structure Handler (σ : Type u) where
  isReplica : σ → Bool
  shouldClose : σ → Bool
  /-- `dispatch`, with the bookkeeping around the call, and its result. -/
  dispatch : σ → List Bytes → σ × Int
  replyErr : σ → Bytes → σ
  /-- `c->should_close = 1`. -/
  setClose : σ → σ
  shouldClose_setClose : ∀ s, shouldClose (setClose s) = true

/-- What becomes of the output at the end of a read: the socket takes all of it, or blocks, or fails. -/
inductive Flush
  | whole
  | blocked
  | failed
  deriving DecidableEq

/-- A buffer of bytes from which the first are taken away. -/
class Buffer (β : Type v) where
  bytes : β → Bytes
  drop : Nat → β → β
  bytes_drop : ∀ n b, bytes (drop n b) = (bytes b).drop n

instance : Buffer Bytes := ⟨id, List.drop, fun _ _ => rfl⟩

/-- A connection to a server: what of the stream is not served yet, and the argument vectors that have been passed
to `dispatch`. -/
structure Link (σ : Type u) (β : Type v) where
  server : σ
  buf : β
  inUse : Bool := true
  dispatched : List (List Bytes) := []

section
variable {σ : Type u} {β : Type v} [Buffer β]

/-- What there is to parse. -/
def Link.rbuf (x : Link σ β) : Bytes := Buffer.bytes x.buf

def Link.consume (pos : Nat) (x : Link σ β) : Link σ β := { x with buf := Buffer.drop pos x.buf }

def Link.empty (x : Link σ β) : Link σ β := x.consume x.rbuf.length

/-- `conn_close`. -/
def Link.close (x : Link σ β) : Link σ β := { x.empty with inUse := false }

end

namespace Handler

variable {σ : Type u} {β : Type v} (H : Handler σ)

/-- A connection at a read that ends in a flush. -/
def endpoint [Buffer β] (flush : Flush) : Endpoint (Link σ β) where
  rbuf := Link.rbuf
  isReplica x := H.isReplica x.server
  shouldClose x := H.shouldClose x.server
  command argv x :=
    let r := H.dispatch x.server argv
    ({ x with server := r.1, dispatched := x.dispatched ++ [argv] }, decide (0 ≤ r.2))
  commandDone _ x := x
  replyErr text x := { x with server := H.replyErr x.server (lit text) }
  closeSoon x := { x with server := H.setClose x.server }
  empty := Link.empty
  consume := Link.consume
  flush x :=
    match flush with
    | .whole => (if H.shouldClose x.server then x.close else x, true)
    | .blocked => (x, true)
    | .failed => (x, false)

/-- A read, after which a connection is closed for which `process_reads` returns `-1`. -/
def read [Buffer β] (flush : Flush) (x : Link σ β) : Option (Link σ β) :=
  ((H.endpoint flush).processReads x).map fun r => if r.2 then r.1 else r.1.close

/-- Successive reads of a connection, each of which appends to what the last one has left. -/
def reads : Link σ Bytes → List (Bytes × Flush) → Option (Link σ Bytes)
  | x, [] => some x
  | x, r :: rs =>
    if !x.inUse then some x
    else (H.read r.2 { x with buf := x.buf ++ r.1 }).bind fun x => reads x rs

/-- What the reads of a connection pass to `dispatch`. -/
def dispatches (s : σ) (rs : List (Bytes × Flush)) : Option (List (List Bytes)) :=
  (H.reads { server := s, buf := [] } rs).map Link.dispatched

/-! ## Serving argument vectors -/

/-- One command: a failing dispatch closes the connection. -/
def step (s : σ) (argv : List Bytes) : σ :=
  let r := H.dispatch s argv
  if r.2 < 0 then H.setClose r.1 else r.1

/-- Commands served in a row, until the connection is to be closed: the state, and what was
dispatched. -/
def serve : σ → List (List Bytes) → σ × List (List Bytes)
  | s, [] => (s, [])
  | s, argv :: cmds =>
    if H.shouldClose (H.step s argv) then (H.step s argv, [argv])
    else
      let t := serve (H.step s argv) cmds
      (t.1, argv :: t.2)

/-- What a connection in state `s` dispatches of `cmds`. -/
def served (s : σ) (cmds : List (List Bytes)) : List (List Bytes) :=
  if H.isReplica s then [] else (H.serve s cmds).2

/-! ## Read boundaries -/

/-- What a read may leave of the commands `todo`: nothing when there are none, else a strict prefix
of the next one. -/
def Partial : List (List Bytes) → Bytes → Prop
  | [], q => q = []
  | argv :: _, q => StrictPrefix q (command argv)

/-- `p`, the part of the stream of `cmds` read so far, ends in the middle of the stream: `done` are
the commands it completes, `todo` the others, `q` what it has of the next. -/
structure Boundary (cmds : List (List Bytes)) (p : Bytes) (done todo : List (List Bytes))
    (q : Bytes) : Prop where
  split : cmds = done ++ todo
  stream : p = done.flatMap command ++ q
  rest : Partial todo q

/-- The next command is cut where one of its bulks begins. -/
def CutNext : List (List Bytes) → Bytes → Prop
  | [], _ => False
  | argv :: _, q => Cut argv q

/-- The connection is to be closed at the end of a read: a command wants it to be, or the parser fails. -/
def Ends (s : σ) (done todo : List (List Bytes)) (q : Bytes) : Prop :=
  CutNext todo q ∨ H.shouldClose (H.serve s done).1 = true

/-- The rest of the stream is given up at the end of a read: the connection is closed, or has become a replica's. -/
def GivesUp (s : σ) (done todo : List (List Bytes)) (q : Bytes) (flush : Flush) : Prop :=
  H.Ends s done todo q ∨ H.isReplica (H.serve s done).1 = true ∨ flush = .failed

/-- What the reads bring. -/
def received (rs : List (Bytes × Flush)) : Bytes := (rs.map Prod.fst).flatten

/-- At a boundary between two of the reads `rs`, of the stream of `cmds` after `pending`, there is `P`. -/
def AtBoundaries (P : List (List Bytes) → List (List Bytes) → Bytes → Flush → Prop) (cmds : List (List Bytes))
    (pending : Bytes) (rs : List (Bytes × Flush)) : Prop :=
  ∀ i r, rs[i]? = some r → ∀ done todo q, Boundary cmds (pending ++ received (rs.take (i + 1))) done todo q →
    P done todo q r.2

/-- A read at whose end the connection is to be closed does not block at its flush. -/
def Closes (s : σ) : List (List Bytes) → Bytes → List (Bytes × Flush) → Prop :=
  AtBoundaries fun done todo q flush => H.Ends s done todo q → flush ≠ .blocked

/-- Every read at whose end the rest of the stream is given up comes when there is nothing more to dispatch. -/
def Harmless (s : σ) (cmds : List (List Bytes)) : Bytes → List (Bytes × Flush) → Prop :=
  AtBoundaries (fun done todo q flush => H.GivesUp s done todo q flush → H.served s done = H.served s cmds) cmds

end Handler

end Resp
