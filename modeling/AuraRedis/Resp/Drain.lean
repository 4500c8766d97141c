import AuraRedis.Resp.Reads

/-!
# The drain loop of a connection

`handle_read` reads until the socket would block, the read buffer doubling when it is full, and gives what
it has to `process_reads`. What the socket hands it in one event is `offers`, a list of chunks: a `read`
takes what it has room for of the first, and the event is over when there are none. A `Socket σ` is what it needs
of a connection beside an `Endpoint`.
-/

set_option autoImplicit false

namespace Resp

/-- `AR_RBUF_INIT`. -/
def rbufInit : Nat := 64 * 1024

/-- The read buffer's cap, `16 * 1024 * 1024`. -/
def rbufMax : Nat := 16 * 1024 * 1024

/-- `c->rbuf` with its `rlen` bytes, and `c->rcap`. -/
structure ReadBuf where
  rcap : Nat
  rbuf : Bytes
  size : ∃ n ≤ 8, rcap = rbufInit * 2 ^ n
  fits : rbuf.length ≤ rcap

/-- How the loop ends, when the socket neither fails nor is at its end. -/
inductive Drained
  /-- The buffer is full and would pass the cap. -/
  | limit
  | noMemory
  | blocked (b : ReadBuf)

namespace ReadBuf

/-- A buffer of `AR_RBUF_INIT` bytes. -/
def init : ReadBuf := ⟨rbufInit, [], ⟨0, by decide, rfl⟩, Nat.zero_le _⟩

/-- The buffer with other bytes. -/
def set (b : ReadBuf) (s : Bytes) (h : s.length ≤ b.rcap) : ReadBuf := { b with rbuf := s, fits := h }

theorem double_size {b : ReadBuf} (h : b.rcap * 2 ≤ rbufMax) : ∃ n ≤ 8, b.rcap * 2 = rbufInit * 2 ^ n := by
  obtain ⟨n, -, hn⟩ := b.size
  refine ⟨n + 1, ?_, by rw [hn, Nat.pow_succ, Nat.mul_assoc]⟩
  by_contra hlt
  have hp : 2 ^ 8 ≤ 2 ^ n := Nat.pow_le_pow_right (by decide) (by omega)
  have : rbufInit * 2 ^ 8 = rbufMax := rfl
  have := Nat.mul_le_mul_left rbufInit hp
  rw [hn] at h
  have : 0 < rbufInit := by decide
  omega

/-- `realloc` to twice the size. -/
def double (b : ReadBuf) (h : b.rcap * 2 ≤ rbufMax) : ReadBuf :=
  { b with rcap := b.rcap * 2, size := double_size h, fits := Nat.le_trans b.fits (by omega) }

variable (realloc : Nat → Bool)

/-- `if (c->rlen == c->rcap)`: room for the next `read`. -/
def grow (b : ReadBuf) : Drained :=
  if b.rbuf.length = b.rcap then
    if h : b.rcap * 2 ≤ rbufMax then
      if realloc (b.rcap * 2) then .blocked (b.double h) else .noMemory
    else .limit
  else .blocked b

/-- `read(c->fd, c->rbuf + c->rlen, c->rcap - c->rlen)`. -/
def read (b : ReadBuf) (chunk : Bytes) : ReadBuf :=
  b.set (b.rbuf ++ chunk.take (b.rcap - b.rbuf.length)) <| by
    have := b.fits
    rw [List.length_append, List.length_take]
    omega

/-- The `for (;;)` loop. A turn takes a chunk, or fills a buffer that had room. -/
def drain : Nat → ReadBuf → List Bytes → Drained
  | 0, b, _ => .blocked b
  | fuel + 1, b, offers =>
    match b.grow realloc with
    | .limit => .limit
    | .noMemory => .noMemory
    | .blocked b =>
      match offers with
      | [] => .blocked b
      | chunk :: offers =>
        let left := chunk.drop (b.rcap - b.rbuf.length)
        drain fuel (b.read chunk) (if left = [] then offers else left :: offers)

/-- The turns of the loop, at most. -/
def turns (offers : List Bytes) : Nat := offers.flatten.length + offers.length + 1

end ReadBuf

instance : Buffer ReadBuf := ⟨ReadBuf.rbuf, fun n b => b.set (b.rbuf.drop n) <| by
  rw [List.length_drop]
  exact (Nat.sub_le ..).trans b.fits, fun _ _ => rfl⟩

/-! ## An event -/

/-- What a socket says after what it has. -/
inductive Ending
  | blocked
  | eof
  | failed

universe u

/-- A connection with its socket. -/
structure Socket (σ : Type u) extends Endpoint σ where
  buf : σ → ReadBuf
  inUse : σ → Bool
  /-- The buffer after the `read`s, and what they have brought. -/
  receive : ReadBuf → Bytes → σ → σ
  /-- `conn_close`. -/
  close : σ → σ

namespace Socket

variable {σ : Type u} (C : Socket σ) (realloc : Nat → Bool)

/-- `handle_read`, of the chunks `offers`. -/
def handleRead (offers : List Bytes) (ending : Ending) (s : σ) : Option (σ × Bool) :=
  match (C.buf s).drain realloc (ReadBuf.turns offers) offers with
  | .limit | .noMemory => some (C.closeSoon s, false)
  | .blocked buf =>
    let s := C.receive buf offers.flatten s
    match ending with
    | .failed => some (s, false)
    | .eof => some (C.close s, true)
    | .blocked => if C.inUse s then C.processReads s else some (s, true)

/-- `handle_read` as `serve_once` calls it: a failure closes the connection. -/
def handleInput (offers : List Bytes) (ending : Ending) (s : σ) : Option σ :=
  (C.handleRead realloc offers ending s).map fun r => if r.2 then r.1 else C.close r.1

end Socket

namespace Handler

variable {σ : Type u} (H : Handler σ) (realloc : Nat → Bool)

/-- A connection whose socket blocks after what it has. -/
def socket (flush : Flush) : Socket (Link σ ReadBuf) where
  toEndpoint := H.endpoint flush
  buf := Link.buf
  inUse := Link.inUse
  receive buf _ x := { x with buf }
  close := Link.close

/-- Whether the cap closes the connection at an event. -/
def capped (x : Link σ ReadBuf) (offers : List Bytes) : Bool :=
  match x.buf.drain realloc (ReadBuf.turns offers) offers with
  | .limit => true
  | _ => false

/-- Successive `handle_read`s of a connection, one for each event, and whether the cap has closed it. -/
def handleReads : Link σ ReadBuf → List (List Bytes × Flush) → Option (Link σ ReadBuf × Bool)
  | x, [] => some (x, false)
  | x, e :: events =>
    if !x.inUse then some (x, false)
    else ((H.socket e.2).handleInput realloc e.1 .blocked x).bind fun y =>
      (handleReads y events).map fun t => (t.1, capped realloc x e.1 || t.2)

/-- The events as reads of all that they bring. -/
def asReads (events : List (List Bytes × Flush)) : List (Bytes × Flush) := events.map fun e => (e.1.flatten, e.2)

/-- At every event that finds the connection open, what is kept of the next command and what the event
brings is less than the cap. -/
def Fits (s : σ) (cmds : List (List Bytes)) (pending : Bytes) (rs : List (Bytes × Flush)) : Prop :=
  ∀ i r, rs[i]? = some r → ∀ done todo q, Boundary cmds (pending ++ received (rs.take i)) done todo q →
    H.shouldClose (H.serve s done).1 = false → q.length + r.1.length < rbufMax

end Handler

end Resp
