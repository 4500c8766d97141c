import AuraRedis.Aura.Proof.Pairs
import AuraRedis.Lib.Alike

/-!
# What a command replies

A reply is one complete value, but for a name that is not known and has a line end in it, which the error repeats
(`framed_iff`). The numbers are integers, as in `Runtime`: the sum that `INCR` makes of another would be no value.
-/

set_option autoImplicit false

namespace Aura

open StateM

/-! ## Replies -/

/-- One complete value. -/
def Framed (reply : Bytes) : Prop := ∃ v : Wire, v.WellFormed ∧ reply = respEncode v

/-- The names that are asked for. -/
def commandNames : List String :=
  namesBefore ++ ["HGET", "HDEL", "HGETALL"]

/-- The name is one of them, in any letter case. -/
def known (cmd : Bytes) : Bool := commandNames.any (cmdEq cmd)

/-- The reply to another name. -/
def unknownCommand (cmd : Bytes) : Bytes := respEncodeError (lit "ERR unknown command '" ++ cmd ++ lit "'")

theorem framed_error {s : Bytes} (h : Line s) : Framed (respEncodeError s) := ⟨.error s, .error h, by rw [respEncode]⟩

theorem framed_lit {s : String} (h : 10 ∉ lit s) : Framed (respEncodeError (lit s)) := framed_error (line_of_notMem h)

theorem framed_bulk (s : Bytes) : Framed (respEncodeBulk s) := ⟨.bulk s, .bulk s, by rw [respEncode]⟩

theorem framed_int (n : Int) : Framed (respEncodeInt n) := ⟨.int n, .int n, by rw [respEncode]⟩

theorem framed_null : Framed respNull := ⟨.null, .null, by rw [respEncode]⟩

theorem framed_ok : Framed respOk := ⟨.simple (lit "OK"), .simple (line_of_notMem (by decide)), by decide⟩

theorem framed_pong : Framed respPong := ⟨.simple (lit "PONG"), .simple (line_of_notMem (by decide)), by decide⟩

/-- Two line ends make no difference to where the text between them begins. -/
theorem framed_error_iff {s : Bytes} : Framed (respEncodeError s) ↔ Line s := by
  refine ⟨?_, framed_error⟩
  rintro ⟨v, hv, h⟩
  have hhead : (respEncode v).head? = some 45 := by rw [← h]; rfl
  cases hv with
  | error hl =>
    rw [respEncode, respEncodeError, respEncodeError, List.cons.injEq] at h
    rwa [List.append_cancel_right h.2]
  | simple | bulk | array => simp [respEncode, respEncodeSimple, respEncodeBulk] at hhead
  | null => exact absurd hhead (by decide)
  | int n =>
    rw [respEncode, respEncodeInt_eq] at hhead
    simp at hhead

theorem line_append_left {a s : Bytes} (h : 13 ∉ a) : Line (a ++ s) ↔ Line s := by
  induction a with
  | nil => rfl
  | cons c a ih =>
    rw [List.mem_cons, not_or] at h
    have hfirst : ¬respCrlf <+: c :: (a ++ s) := fun hp => h.1 (List.cons_prefix_cons.mp hp).1
    rw [← ih h.2, List.cons_append, Line, List.infix_cons_iff, or_iff_right hfirst, Line]

theorem line_concat {s : Bytes} {c : UInt8} (h : c ≠ 10) : Line (s ++ [c]) ↔ Line s := by
  have hlast : ¬respCrlf <:+ s ++ [c] := fun hs => by
    obtain ⟨a, ha⟩ := hs
    have hlasts := congrArg List.getLast? ha
    rw [List.getLast?_append, List.getLast?_concat] at hlasts
    exact h (Option.some.inj hlasts).symm
  rw [Line, List.infix_concat_iff, or_iff_right hlast, Line]

theorem framed_unknown_iff {cmd : Bytes} : Framed (unknownCommand cmd) ↔ Line cmd := by
  have hquote : lit "'" = [39] := by decide
  rw [unknownCommand, framed_error_iff, hquote, line_concat (by decide), line_append_left (by decide)]

theorem notMem_of_cmdEq {cmd : Bytes} {name : String} (h : cmdEq cmd name = true) (hname : 10 ∉ lit name) :
    10 ∉ cmd := fun hm => by
  refine hname ?_
  have hup : asciiUpcase cmd = lit name := eq_of_beq h
  rw [← hup]
  exact List.mem_map.mpr ⟨10, hm, by decide⟩

/-- A name that is known has no line end in it. -/
theorem line_of_known {cmd : Bytes} (h : known cmd = true) : Line cmd := by
  have hlines : ∀ name ∈ commandNames, 10 ∉ lit name := by decide
  obtain ⟨name, hname, heq⟩ := List.any_eq_true.mp h
  exact line_of_notMem (notMem_of_cmdEq heq (hlines name hname))

theorem framed_wrongArgs {name : Bytes} (h : 10 ∉ name) : Framed (wrongArgs name) := by
  refine framed_error (line_of_notMem ?_)
  rw [List.mem_append, List.mem_append, not_or, not_or]
  exact ⟨⟨by decide, h⟩, by decide⟩

theorem framed_intOr {err : Bytes} (h : Framed err) (o : Option Int) : Framed (intOr err o) := by
  cases o with
  | none => exact h
  | some n => exact framed_int n

theorem framed_wrongType : Framed wrongType := framed_lit (by decide)

theorem framed_replyString (o : Option Entry) : Framed (replyString o) := by
  rcases o with _ | ⟨v | xs | h, ex⟩
  · exact framed_null
  · exact framed_bulk v
  · exact framed_wrongType
  · exact framed_wrongType

theorem framed_bulkOrNull (o : Option Bytes) : Framed (respEncode (wireBulkOrNull o)) := by
  cases o with
  | none => exact ⟨.null, .null, rfl⟩
  | some s => exact ⟨.bulk s, .bulk s, rfl⟩

theorem framed_array {xs : List Wire} (h : ∀ x ∈ xs, x.WellFormed) : Framed (respEncode (.array xs)) :=
  ⟨.array xs, .array h, rfl⟩

theorem framed_bulks (xs : List Bytes) : Framed (respEncode (.array (xs.map .bulk))) :=
  ⟨_, wellFormed_bulks xs, rfl⟩

theorem framed_renameReply (r : Renamed) : Framed (renameReply r) := by
  cases r
  case missing => exact framed_lit (by decide)
  all_goals exact framed_ok

theorem framed_renamenxReply (r : Renamed) : Framed (renamenxReply r) := by
  cases r
  case missing => exact framed_lit (by decide)
  case busy => exact framed_int 0
  all_goals exact framed_int 1

/-! ## The commands -/

/-- What is returned is as `Q` says, whatever the store. -/
def Gives {α : Type} (m : StateM Store α) (Q : α → Prop) : Prop := Leaves (fun _ => True) m fun a _ => Q a

section
variable {α β : Type} {Q : α → Prop} {m : StateM Store β} {a : α}

theorem gives_ret (h : Q a) : Gives (pure a) Q := .ret fun _ _ => h

theorem gives_bind {f : β → StateM Store α} (h : ∀ b, Gives (f b) Q) : Gives (m >>= f) Q :=
  Leaves.bind (J := fun _ _ => True) (fun _ _ => trivial) h

end

section
variable [Host] {start : Int} {args : List Bytes}

theorem mgetItems_gives (keys : List Bytes) : Gives (mgetItems keys) fun xs => ∀ x ∈ xs, x.WellFormed := by
  induction keys with
  | nil => exact gives_ret fun x hx => nomatch hx
  | cons k ks ih =>
    refine gives_bind fun o => Leaves.bind ih fun xs => .ret fun _ hxs x hx => ?_
    rcases List.mem_cons.mp hx with rfl | hx
    · rcases o with _ | ⟨v | xs | h, ex⟩
      · exact .null
      · exact .bulk v
      · exact .null
      · exact .null
    · exact hxs x hx

theorem storeType_gives (key : Bytes) : Gives (storeType key) fun name => 10 ∉ name := by
  refine gives_bind fun o => ?_
  rcases o with _ | ⟨v | xs | h, ex⟩ <;> exact gives_ret (by decide)

variable [Runtime]

theorem setTimed_gives {name : String} (h : 10 ∉ lit name) (scale : Int) :
    Gives (setTimed name scale args) Framed := by
  refine .ite (fun _ => gives_ret (framed_wrongArgs h)) fun _ => ?_
  split
  · exact gives_ret (framed_lit (by decide))
  · exact gives_bind fun _ => gives_bind fun _ => gives_ret framed_ok

theorem setWith_gives : Gives (setWith args) Framed := by
  refine gives_bind fun o => ?_
  rcases o with _ | ⟨ex, nx, xx⟩
  · exact gives_ret (framed_lit (by decide))
  · refine gives_bind fun o => ?_
    exact .ite (fun _ => gives_ret framed_null) fun _ => .ite (fun _ => gives_ret framed_null) fun _ =>
      gives_bind fun _ => gives_ret framed_ok

/-- A reply is a value, or it is to a name that is not known. -/
theorem cmdDispatch_gives (start : Int) (args : List Bytes) :
    Gives (cmdDispatch start args) fun reply => Framed reply ∨ reply = unknownCommand (argAt args 0) := by
  have hvalue {m : StateM Store Bytes} (h : Gives m Framed) :
      Gives m fun reply => Framed reply ∨ reply = unknownCommand (argAt args 0) := h.post fun _ _ => .inl
  have hpure {reply : Bytes} (h : Framed reply) :
      Gives (pure reply) fun reply => Framed reply ∨ reply = unknownCommand (argAt args 0) := gives_ret (.inl h)
  unfold cmdDispatch
  refine .ite (fun _ => hpure (framed_lit (by decide))) fun _ => ?_
  refine .ite (fun _ => hvalue (gives_bind fun o => gives_ret (framed_replyString o))) fun _ => ?_
  refine .ite (fun _ => hvalue (gives_bind fun _ => gives_ret framed_ok)) fun _ => ?_
  refine .ite (fun _ => hpure ?_) fun _ => ?_
  · split
    · exact framed_bulk _
    · exact framed_pong
  refine .ite (fun _ => hpure ?_) fun _ => ?_
  · split
    · exact framed_wrongArgs (by decide)
    · exact framed_bulk _
  refine .ite (fun _ => hpure framed_ok) fun _ => ?_
  refine .ite (fun _ => .ite (fun _ => hpure (framed_wrongArgs (by decide))) fun _ => hvalue setWith_gives) fun _ => ?_
  refine .ite (fun _ => hvalue (setTimed_gives (by decide) _)) fun _ => ?_
  refine .ite (fun _ => hvalue (setTimed_gives (by decide) _)) fun _ => ?_
  -- The others first count their arguments.
  have hcount {c : Prop} [Decidable c] {name : Bytes} {m : StateM Store Bytes} (hname : 10 ∉ name)
      (h : Gives m Framed) : Gives (if c then pure (wrongArgs name) else m) fun reply =>
        Framed reply ∨ reply = unknownCommand (argAt args 0) :=
    .ite (fun _ => hpure (framed_wrongArgs hname)) fun _ => hvalue h
  refine .ite (fun _ => hcount (by decide) (gives_bind fun o => gives_ret (framed_replyString o))) fun _ => ?_
  refine .ite (fun _ => hcount (by decide) ?_) fun _ => ?_
  · exact Leaves.bind (mgetItems_gives _) fun xs => .ret fun _ hxs => framed_array hxs
  refine .ite (fun _ => hcount (by decide) (gives_bind fun _ => gives_ret framed_ok)) fun _ => ?_
  refine .ite (fun _ => hcount (by decide) (gives_bind fun o => gives_ret (framed_intOr framed_wrongType o))) fun _ => ?_
  refine .ite (fun _ => hcount (by decide) (gives_bind fun o => gives_ret (framed_intOr framed_wrongType o))) fun _ => ?_
  refine .ite (fun _ => hcount (by decide) (gives_bind fun old => ?_)) fun _ => ?_
  · cases old with
    | none => exact gives_ret framed_wrongType
    | some old => exact gives_ret (framed_bulkOrNull old)
  refine .ite (fun hname => hcount ?_ (gives_bind fun n => gives_ret (framed_int n))) fun _ => ?_
  · rcases Bool.or_eq_true_iff.mp hname with h | h
    · exact notMem_of_cmdEq h (by decide)
    · exact notMem_of_cmdEq h (by decide)
  refine .ite (fun _ => hcount (by decide) (gives_bind fun n => gives_ret (framed_int n))) fun _ => ?_
  have hnotInt : Framed notInt := framed_lit (by decide)
  refine .ite (fun _ => hcount (by decide) (gives_bind fun o => gives_ret (framed_intOr hnotInt o))) fun _ => ?_
  refine .ite (fun _ => hcount (by decide) (gives_bind fun o => gives_ret (framed_intOr hnotInt o))) fun _ => ?_
  refine .ite (fun _ => hvalue (gives_bind fun ks => gives_ret (framed_bulks _))) fun _ => ?_
  refine .ite (fun _ => hvalue (gives_bind fun n => gives_ret (framed_int n))) fun _ => ?_
  refine .ite (fun _ => hvalue (gives_bind fun s => gives_ret (framed_bulk s))) fun _ => ?_
  refine .ite (fun _ => hcount (by decide) (gives_bind fun r => gives_ret (framed_renameReply r))) fun _ => ?_
  refine .ite (fun _ => hcount (by decide) (gives_bind fun r => gives_ret (framed_renamenxReply r))) fun _ => ?_
  refine .ite (fun _ => hvalue (gives_bind fun _ => gives_ret framed_ok)) fun _ => ?_
  refine .ite (fun _ => hcount (by decide) ?_) fun _ => ?_
  · exact Leaves.bind (storeType_gives _) fun name => .ret fun _ h => ⟨.simple name, .simple (line_of_notMem h), by rw [respEncode]⟩
  refine .ite (fun _ => hcount (by decide) (gives_bind fun n => gives_ret (framed_int n))) fun _ => ?_
  refine .ite (fun _ => hcount (by decide) ?_) fun _ => ?_
  · split
    · exact gives_ret hnotInt
    · exact gives_bind fun n => gives_ret (framed_int n)
  refine .ite (fun _ => hcount (by decide) (gives_bind fun o => gives_ret (framed_intOr framed_wrongType o))) fun _ => ?_
  refine .ite (fun _ => hcount (by decide) (gives_bind fun o => gives_ret (framed_intOr framed_wrongType o))) fun _ => ?_
  refine .ite (fun _ => hcount (by decide) (gives_bind fun o => gives_ret (framed_bulkOrNull o))) fun _ => ?_
  refine .ite (fun _ => hcount (by decide) (gives_bind fun o => gives_ret (framed_bulkOrNull o))) fun _ => ?_
  refine .ite (fun _ => hcount (by decide) (gives_bind fun n => gives_ret (framed_int n))) fun _ => ?_
  refine .ite (fun _ => hcount (by decide) (gives_bind fun o => gives_ret (framed_intOr framed_wrongType o))) fun _ => ?_
  refine .ite (fun _ => hcount (by decide) (gives_bind fun o => gives_ret (framed_bulkOrNull o))) fun _ => ?_
  refine .ite (fun _ => hcount (by decide) (gives_bind fun n => gives_ret (framed_int n))) fun _ => ?_
  refine .ite (fun _ => hcount (by decide) (gives_bind fun xs => gives_ret (framed_bulks xs))) fun _ => ?_
  exact gives_ret (.inr rfl)

/-- **One command, one value**, but for a name that is not known and has a line end in it. -/
theorem framed_iff (start : Int) (args : List Bytes) (s : Store) :
    Framed ((cmdDispatch start args).run s).1 ↔ known (argAt args 0) = true ∨ Line (argAt args 0) := by
  constructor
  · intro hframed
    by_contra hno
    rw [not_or, Bool.not_eq_true] at hno
    have hargs : args.length ≠ 0 := fun h => hno.2 (by
      rw [List.length_eq_zero_iff.mp h]
      exact line_of_notMem (by decide))
    have hreply : ((cmdDispatch start args).run s).1 = unknownCommand (argAt args 0) := by
      have hnames := List.any_eq_false.mp hno.1
      simp only [commandNames, namesBefore, List.cons_append, List.nil_append, List.forall_mem_cons, Bool.not_eq_true]
        at hnames
      unfold cmdDispatch
      simp only [hargs, hnames, if_false, Bool.false_and, Bool.false_or, Bool.false_eq_true]
      rfl
    rw [hreply, framed_unknown_iff] at hframed
    exact hno.2 hframed
  · intro hname
    have hline : Line (argAt args 0) := hname.elim line_of_known id
    rcases cmdDispatch_gives start args s trivial with h | h
    · exact h
    · rw [h]
      exact framed_unknown_iff.mpr hline

end

end Aura
