import AuraRedis.Lib.Delivers
import AuraRedis.Server.Proof.Writes
import AuraRedis.Server.Status

/-!
# What code says

`Says mode c n p`: while there is memory, the code `p` returns and puts `n` complete RESP values behind what the
connection `c` is to be sent, and never gives `c` back, flushes it or makes it a link. `Silent` code says nothing.
The connection is in use and no link. `mode` is its mode, when that is to stay; when it is not, there is no transaction.
-/

set_option autoImplicit false

namespace AuraRedis

open Code Prog
open Resp (Values Wire crlf)

/-! ## What is asked of the core -/

/-- How many elements a value has. -/
def ArObj.size : ArObj → Nat
  | .string _ => 0
  | .hash h => h.nfields
  | .list l => l.length
  | .zset z => z.arr.length

/-- The core has nothing that an `int` cannot count or that `CONFIG GET` has no room for. -/
structure ArCore.Modest (core : ArCore) : Prop where
  size : ∀ i ∈ core.items, i.obj.size < 2 ^ 30
  requirepass : core.cfg.requirepass.length ≤ 255
  configPath : core.cfg.configPath.val.length ≤ 255
  slowlogLen : 0 ≤ core.srv.slowlogLen

/-- A command that neither feeds a replica nor has a reply for each channel. -/
def speaksOnce (argv : List Bytes) : Bool := !(["sync", "subscribe", "unsubscribe"].any (cmdEq (arg argv 0)))

/-- Such a command, and one that a transaction can queue. -/
def queueable (argv : List Bytes) : Bool :=
  speaksOnce argv && !(["watch", "unwatch", "multi", "discard", "exec"].any (cmdEq (arg argv 0)))

/-- The connection `c` as the code finds it. -/
structure ArCore.Speaking (mode : Option Bool) (c : Nat) (core : ArCore) : Prop where
  isReplica : (core.conn c).isReplica = false
  isMasterLink : (core.conn c).isMasterLink = false
  pubsubMode : ∀ b ∈ mode, (core.conn c).pubsubMode = b
  idle : mode = none → (core.conn c).tx.inMulti = false
  queue : ∀ argv ∈ (core.conn c).tx.multiQ, queueable argv = true

/-! ## The contract -/

/-- What code that speaks to `c` asks for and is answered, and what it puts behind its output. -/
def talk (mode : Option Bool) (c : Nat) : Contract Eff.Ans UInt8 where
  may
    | .flush i | .close i | .becomeReplica i | .becomeMasterLink i => i ≠ c
    | .setSubs i _ _ => i = c → mode = none
    | .setTx i f => i = c → mode ≠ none ∧ ∀ tx : ArTx, (∀ argv ∈ tx.multiQ, queueable argv = true) →
        ∀ argv ∈ (f tx).multiQ, queueable argv = true
    | _ => True
  answers
    | .append _ _, ok => ok = true
    | .connAlloc _, r => r ≠ some c
    | .core, core => core.Modest ∧ core.Speaking mode c
    | .op (.hashGet _), a => ∀ h, a = .found h → h.nfields < 2 ^ 30 ∧ h.nfields = h.buckets.flatten.length
    | .op (.arListGet _), a => ∀ l, a = .found l → l.length < 2 ^ 30
    | .op (.arZsetGet _), a => ∀ ns, a = .found ns → ns.length < 2 ^ 30
    | _, _ => True
  writes
    | .append i data, _ => if i = c then data else []
    | _, _ => []

/-- The code says `n` values. -/
def Says (mode : Option Bool) (c n : Nat) (p : Code Unit) : Prop := p.Delivers (talk mode c) fun o _ => Values n o

/-- The code says nothing. -/
def Silent {α : Type} (mode : Option Bool) (c : Nat) (p : Code α) : Prop := p.Delivers (talk mode c) fun o _ => o = []

-- the loops over all slots are not to be unrolled
attribute [local irreducible] maxConn

section
variable {mode : Option Bool} {c m n : Nat} {α β : Type}

/-! ## Composition -/

namespace Silent

variable {p q : Code α}

theorem pure (a : α) : Silent mode c (Pure.pure a : Code α) := rfl

theorem bind {f : α → Code β} (hp : Silent mode c p) (hf : ∀ a, Silent mode c (f a)) :
    Silent mode c (p >>= f) := by
  refine Delivers.bind (Delivers.mono hp fun o a ho => Delivers.mono (hf a) fun o' _ ho' => ?_)
  rw [ho, ho', List.append_nil]

/-- Silence, and then something is said. -/
theorem andThen {f : α → Code Unit} (hp : Silent mode c p) (hf : ∀ a, Says mode c n (f a)) :
    Says mode c n (p >>= f) := by
  refine Delivers.bind (Delivers.mono hp fun o a ho => Delivers.mono (hf a) fun o' _ ho' => ?_)
  rwa [ho, List.nil_append]

theorem ite {b : Prop} [Decidable b] (hp : Silent mode c p) (hq : Silent mode c q) :
    Silent mode c (if b then p else q) := by
  split
  · exact hp
  · exact hq

theorem attempt (hp : Silent mode c p) : Silent mode c p.attempt := Delivers.attempt hp

theorem each {f : α → Code Unit} (hf : ∀ a, Silent mode c (f a)) (as : List α) : Silent mode c (Prog.each f as) :=
  Delivers.each (P := fun _ o => o = []) rfl fun a _ _ => Delivers.mono (hf a) fun o _ ho o' ho' => by
    rw [ho, ho', List.append_nil]

/-- After a look at the core, or after another effect that says nothing. -/
theorem step {e : Eff} {f : e.Ans → Code α} (he : (talk mode c).may e) (hw : ∀ a, (talk mode c).writes e a = [])
    (hf : ∀ a, (talk mode c).answers e a → Silent mode c (f a)) : Silent mode c (eff e >>= f) := by
  refine ⟨he, fun a ha => Delivers.mono (hf a ha) fun o _ ho => ?_⟩
  rw [hw a, ho]
  rfl

/-- An effect that is about no connection. -/
theorem eff {e : Eff} (he : (talk mode c).may e) (hw : ∀ a, (talk mode c).writes e a = []) :
    Silent mode c (eff e) := ⟨he, fun a _ => by rw [hw a]; rfl⟩

end Silent

namespace Says

variable {p q : Code Unit}

theorem ite {b : Prop} [Decidable b] (hp : Says mode c n p) (hq : Says mode c n q) :
    Says mode c n (if b then p else q) := by
  split
  · exact hp
  · exact hq

theorem step {e : Eff} {f : e.Ans → Code Unit} (he : (talk mode c).may e)
    (hw : ∀ a, (talk mode c).writes e a = []) (hf : ∀ a, (talk mode c).answers e a → Says mode c n (f a)) :
    Says mode c n (eff e >>= f) := by
  refine ⟨he, fun a ha => Delivers.mono (hf a ha) fun o _ ho => ?_⟩
  rw [hw a]
  exact ho

/-- One thing after the other. -/
theorem andThen (hp : Says mode c m p) (hq : Says mode c n q) : Says mode c (m + n) (p >>= fun _ => q) :=
  Delivers.bind (Delivers.mono hp fun _ _ ho => Delivers.mono hq fun _ _ ho' => ho.append ho')

theorem andSilent {f : Unit → Code Unit} (hp : Says mode c n p) (hf : ∀ a, Silent mode c (f a)) :
    Says mode c n (p >>= f) := by
  refine Delivers.bind (Delivers.mono hp fun o a ho => Delivers.mono (hf a) fun o' _ ho' => ?_)
  rwa [ho', List.append_nil]

theorem each {f : α → Code Unit} {as : List α} (hf : ∀ a ∈ as, Says mode c n (f a)) :
    Says mode c (n * as.length) (Prog.each f as) := by
  refine Delivers.each (P := fun as o => Values (n * as.length) o) ?_ fun a ha as => Delivers.mono (hf a ha) ?_
  · rw [List.length_nil, Nat.mul_zero]
    exact .nil
  · intro o _ ho o' ho'
    rw [List.length_cons, Nat.mul_succ, Nat.add_comm]
    exact ho.append ho'

/-- What is written to `c`. -/
theorem append {data : Bytes} (h : Values n data) : Says mode c n (wbufAppend c data) := by
  refine ⟨trivial, fun ok hok => ?_⟩
  have htrue : ok = true := hok
  rw [htrue]
  show Values n ((if c = c then data else []) ++ [])
  rwa [if_pos rfl, List.append_nil]

/-- A header and its elements. -/
theorem array {p : Code Unit} {z : Int} (hz : z = n) (hp : Says mode c n p) :
    Says mode c 1 (wbufAppend c (Resp.arrayHdr z) >>= fun _ => p) := by
  subst hz
  refine ⟨trivial, fun ok hok => ?_⟩
  have htrue : ok = true := hok
  rw [htrue]
  refine Delivers.mono hp fun o _ ho => ?_
  show Values 1 ((if c = c then Resp.arrayHdr n else []) ++ o)
  rw [if_pos rfl]
  exact Wire.array ho

end Says

/-! ## Replies -/

theorem lit_append (s s' : String) : lit (s ++ s') = lit s ++ lit s' := by
  unfold lit
  rw [String.toList_append, List.map_append]

/-- The characters of a text without a line end in it. -/
def plain (l : List Char) : Bool := l.all fun x => UInt8.ofNat x.toNat != 13 && UInt8.ofNat x.toNat != 10

theorem line_ofList {s : String} {l : List Char} (hs : s = String.ofList l) (h : plain l = true) : Resp.Line (lit s) := by
  rw [hs, lit, String.toList_ofList]
  intro b hb
  obtain ⟨x, hx, rfl⟩ := List.mem_map.1 hb
  have := List.all_eq_true.1 h x hx
  simpa [Resp.Line] using this

theorem line_append {s s' : String} (h : Resp.Line (lit s)) (h' : Resp.Line (lit s')) : Resp.Line (lit (s ++ s')) := by
  rw [lit_append]
  exact h.append h'

/-- A name in a text. -/
theorem line_quoted {s name s' : String} (h : Resp.Line (lit s)) (hn : Resp.Line (lit name))
    (h' : Resp.Line (lit s')) : Resp.Line (lit (s ++ name ++ s')) :=
  line_append (line_append h hn) h'

theorem says_error {s : String} (h : Resp.Line (lit s)) : Says mode c 1 (replyErr c s) := .append (Wire.error h)

theorem says_err {s : String} {l : List Char} (hs : s = String.ofList l) (h : plain l = true) : Says mode c 1 (replyErr c s) :=
  says_error (line_ofList hs h)

theorem says_status {s : String} {l : List Char} (hs : s = String.ofList l) (h : plain l = true) : Says mode c 1 (replyStatus c s) :=
  .append (Wire.status (line_ofList hs h))

theorem says_ok : Says mode c 1 (replyOk c) := says_status rfl rfl

theorem says_int (v : Int) : Says mode c 1 (replyInt c v) := .append (Wire.int v)

theorem says_bulk (data : Bytes) : Says mode c 1 (replyBulk c data) := .append (Wire.bulk data)

theorem says_nullBulk : Says mode c 1 (replyNullBulk c) := .append Wire.nullBulk

theorem says_nullArray : Says mode c 1 (replyNullArray c) := .append Wire.nullArray

theorem says_wrongType : Says mode c 1 (replyWrongType c) := says_err rfl rfl

theorem says_notInt : Says mode c 1 (replyNotInt c) := says_err rfl rfl

/-- A command with a wrong number of arguments. -/
theorem says_misused {name : String} (h : Resp.Line (lit name)) : Says mode c 1 (wrongArgs c name) :=
  says_error (line_quoted (line_ofList rfl rfl) h (line_ofList rfl rfl))

theorem says_wrongArgs {name : String} {l : List Char} (hs : name = String.ofList l)
    (h : plain l = true) : Says mode c 1 (wrongArgs c name) :=
  says_misused (line_ofList hs h)

theorem says_empty : Says mode c 1 (replyEmpty c) := .append (Wire.array (n := 0) .nil)

theorem says_replyArray {f : α → Code Unit} {k : Nat} {z : Int} {as : List α} (hz : z = (k * as.length : Nat))
    (hf : ∀ a, Says mode c k (f a)) : Says mode c 1 (replyArray c z as f) := .array hz (.each fun a _ => hf a)

/-- An array of bulks. -/
theorem says_bulks (as : List Bytes) : Says mode c 1 (replyArray c as.length as (replyBulk c)) :=
  says_replyArray (by rw [Nat.one_mul]) says_bulk

theorem says_count (a : ArCore.Typed Nat) : Says mode c 1 (replyCount c a) := by
  cases a with
  | wrongType => exact says_wrongType
  | missing => exact says_int 0
  | found n => exact says_int n

theorem says_value (a : ArCore.Typed Bytes) : Says mode c 1 (replyValue c a) := by
  cases a with
  | wrongType => exact says_wrongType
  | missing => exact says_nullBulk
  | found v => exact says_bulk v

theorem says_text (size : Nat) (text : Bytes) : Says mode c 1 (replyText c size text) := by
  unfold replyText
  exact .ite (says_bulk text) (.step trivial (fun _ => rfl) fun _ _ => says_bulk _)

/-! ## Silence -/

theorem silent_call (o : ArOp) : Silent mode c (call o) := .eff trivial fun _ => rfl

/-- What is sent to another connection. -/
theorem silent_other {i : Nat} (hi : i ≠ c) (data : Bytes) : Silent mode c (wbufAppend i data) := by
  refine ⟨trivial, fun ok hok => ?_⟩
  have htrue : ok = true := hok
  rw [htrue]
  show (if i = c then data else []) ++ [] = []
  rw [if_neg hi]
  rfl

theorem silent_respAppendBulk {i : Nat} (hi : i ≠ c) (p : Bytes) : Silent mode c (respAppendBulk i p) := by
  unfold respAppendBulk
  exact (silent_other hi _).bind fun _ => .ite ((silent_other hi p).bind fun _ => silent_other hi _) (silent_other hi _)

theorem silent_respAppendCommand {i : Nat} (hi : i ≠ c) (argv : List Bytes) :
    Silent mode c (respAppendCommand i argv) :=
  (silent_other hi _).bind fun _ => .each (fun p => silent_respAppendBulk hi p) argv

theorem silent_flush {i : Nat} (hi : i ≠ c) : Silent mode c (eff (.flush i)) := .eff hi fun _ => rfl

theorem silent_close {i : Nat} (hi : i ≠ c) : Silent mode c (eff (.close i)) := .eff hi fun _ => rfl

theorem silent_replFeed (argv : List Bytes) (i : Nat) : Silent mode c (replFeed argv i) := by
  refine .step trivial (fun _ => rfl) fun core hcore => ?_
  by_cases hi : i = c
  · -- no feed
    dsimp only
    rw [hi, if_pos (by rw [hcore.2.isReplica, Bool.not_false, Bool.or_true])]
    exact .pure ()
  · refine .ite (.pure ()) (.bind (silent_respAppendCommand hi argv).attempt fun r => ?_)
    cases r with
    | none => exact silent_close hi
    | some _ =>
      unfold replArmFlush
      exact .step trivial (fun _ => rfl) fun _ _ => .ite (.pure ())
        (.bind (silent_flush hi) fun _ => .ite (silent_close hi) (.pure ()))

theorem silent_replPropagate (argv : List Bytes) : Silent mode c (replPropagate argv) := by
  unfold replPropagate
  generalize List.range maxConn = is
  exact .ite (.pure ()) (.step trivial (fun _ => rfl) fun _ _ => .ite (.pure ()) (.each (silent_replFeed argv) is))

theorem silent_countKeys {f : Bytes → Code Bool} (hf : ∀ key, Silent mode c (f key)) (keys : List Bytes) (n : Int) :
    Silent mode c (countKeys f keys n) := by
  induction keys generalizing n with
  | nil => exact .pure n
  | cons key keys ih => exact (hf key).bind fun _ => ih _

/-- The command is passed on, and answered. -/
theorem says_propagated {argv : List Bytes} {p : Code Unit} (hp : Says mode c n p) :
    Says mode c n (replPropagate argv >>= fun _ => p) := (silent_replPropagate argv).andThen fun _ => hp

end

end AuraRedis
