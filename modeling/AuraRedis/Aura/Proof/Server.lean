import AuraRedis.Aura.Proof.Pairs
import AuraRedis.Aura.Server

/-!
# Fibers answer in turn

What a fiber has not answered yet of the stream of its client is `Fed` to it: a turn leaves it so, or answers the next
value of the stream (`turn_cases`). So whatever the schedule and however the streams are cut into chunks, the replies
and the store are those of the commands one after the other, each client's in its order (`served_in_turn`).
-/

set_option autoImplicit false

namespace Aura

/-! ## The next value of a stream -/

theorem StrictPrefix.of_prefix_append {s a b : Bytes} (h : s <+: a ++ b) : a <+: s ∨ StrictPrefix s a := by
  rcases List.prefix_or_prefix_of_prefix h (List.prefix_append a b) with hs | hs
  · by_cases he : s = a
    · exact .inl (he ▸ List.prefix_refl s)
    · exact .inr ⟨hs, he⟩
  · exact .inl hs

section
variable [Runtime] {buf : Bytes} {pos : Nat} {v : Wire}

theorem respTryParse_whole (hnum : Runtime.Inverts) (hv : v.WellFormed) (hp : pos ≤ buf.length)
    (h : respEncode v <+: buf.drop pos) : respTryParse buf pos = some (pos + (respEncode v).length, v) := by
  obtain ⟨rest, hrest⟩ := h
  have hpre : (buf.take pos).length = pos := List.length_take_of_le hp
  have hbuf : buf.take pos ++ (respEncode v ++ rest) = buf := by rw [hrest, List.take_append_drop]
  have hlen : (respEncode v ++ rest).length < buf.length + 1 := by
    rw [hrest, List.length_drop]
    omega
  have hok := (readsAt_encode hnum hv).ok (buf.length + 1) (buf.take pos) rest hlen
  rwa [hbuf, hpre] at hok

theorem respTryParse_part (hnum : Runtime.Inverts) (hv : v.WellFormed) (hp : pos ≤ buf.length)
    (h : StrictPrefix (buf.drop pos) (respEncode v)) : respTryParse buf pos = none := by
  have hpre : (buf.take pos).length = pos := List.length_take_of_le hp
  have hlen : (buf.drop pos).length < buf.length + 1 := by
    rw [List.length_drop]
    omega
  have hcut := (readsAt_encode hnum hv).cut (buf.length + 1) (buf.take pos) (buf.drop pos) h hlen
  rwa [List.take_append_drop, hpre] at hcut

end

theorem respEncode_ne_nil {v : Wire} (hv : v.WellFormed) : respEncode v ≠ [] := by
  cases hv with
  | int n =>
    show respEncodeInt n ≠ []
    rw [respEncodeInt_eq]
    simp
  | null => decide
  | simple | error | bulk | array => simp [respEncode, respEncodeSimple, respEncodeError, respEncodeBulk]

/-! ## A fiber and what is left of its stream -/

/-- The stream up to its first `QUIT`. -/
def untilQuit : List Wire → List Wire
  | [] => []
  | v :: vs => if isQuit (respCmdArgs v) then [v] else v :: untilQuit vs

namespace Fiber

/-- What has come, or will come, and is not answered. -/
def pending (f : Fiber) : Bytes := f.buf.drop f.pos ++ f.inbox.flatten

/-- What is pending is the beginning of these values, and while the fiber waits the first of them is not complete. -/
structure Fed (f : Fiber) (todo : List Wire) : Prop where
  pos_le : f.pos ≤ f.buf.length
  pending : f.pending <+: todo.flatMap respEncode
  waits : f.alive = true → f.busy = false → ∀ v vs, todo = v :: vs → ¬respEncode v <+: f.buf.drop f.pos

/-- All of the values come, and the client does not go before. -/
structure Complete (f : Fiber) (todo : List Wire) : Prop where
  pending : f.pending = todo.flatMap respEncode
  chunks : ∀ chunk ∈ f.inbox, chunk ≠ []

/-- What the fiber is still to answer. -/
def due (f : Fiber) (todo : List Wire) : List Wire := if f.alive then untilQuit todo else []

/-- The fiber has answered `vs` on the way from `f` to `f'`. -/
structure Reaches (f : Fiber) (todo vs : List Wire) (f' : Fiber) (todo' : List Wire) : Prop where
  fed : f'.Fed todo'
  suffix : todo' <:+ todo
  due : vs ++ f'.due todo' <+: f.due todo
  complete : f.Complete todo → f'.Complete todo' ∧ vs ++ f'.due todo' = f.due todo

/-- The fiber has nothing more to do. -/
def Idle (f : Fiber) : Prop := f.alive = true → f.busy = false ∧ f.inbox = []

section
variable {todo vs : List Wire} {v : Wire} {f : Fiber}

theorem Fed.rest (h : f.Fed todo) (hwait : ∀ v vs, todo = v :: vs → ¬respEncode v <+: f.buf.drop f.pos) :
    f.rest.Fed todo := ⟨Nat.zero_le _, h.pending, fun _ _ => hwait⟩

/-- More has come, or the client has gone. -/
theorem Fed.recv (h : f.Fed todo) (halive : f.alive = true) : f.recv.Fed todo := by
  unfold Fiber.recv
  split
  · exact h
  · next chunks hin =>
    refine ⟨h.pos_le, ?_, fun _ => h.waits halive⟩
    have hp := h.pending
    unfold Fiber.pending at hp ⊢
    rwa [hin] at hp
  · next chunk chunks hne hin =>
    refine ⟨?_, ?_, fun _ hb => Bool.noConfusion hb⟩
    · rw [List.length_append]
      exact Nat.le_add_right_of_le h.pos_le
    · have hp := h.pending
      unfold Fiber.pending at hp ⊢
      rw [hin, List.flatten_cons, ← List.append_assoc] at hp
      rwa [List.drop_append_of_le_length h.pos_le]

theorem Reaches.refl (h : f.Fed todo) : f.Reaches todo [] f todo :=
  ⟨h, List.suffix_refl _, List.prefix_refl _, fun hc => ⟨hc, rfl⟩⟩

theorem Reaches.trans {f' f'' : Fiber} {todo' todo'' vs' : List Wire} (h : f.Reaches todo vs f' todo')
    (h' : f'.Reaches todo' vs' f'' todo'') : f.Reaches todo (vs ++ vs') f'' todo'' := by
  refine ⟨h'.fed, h'.suffix.trans h.suffix, ?_, fun hc => ?_⟩
  · rw [List.append_assoc]
    exact ((List.prefix_append_right_inj vs).mpr h'.due).trans h.due
  · obtain ⟨hc', hdue⟩ := h.complete hc
    obtain ⟨hc'', hdue'⟩ := h'.complete hc'
    exact ⟨hc'', by rw [List.append_assoc, hdue', hdue]⟩

theorem Reaches.rest (h : f.Fed todo) (hwait : ∀ v vs, todo = v :: vs → ¬respEncode v <+: f.buf.drop f.pos) :
    f.Reaches todo [] f.rest todo :=
  ⟨h.rest hwait, List.suffix_refl _, List.prefix_refl _, fun hc => ⟨⟨hc.pending, hc.chunks⟩, rfl⟩⟩

theorem Reaches.recv (h : f.Fed todo) (halive : f.alive = true) :
    f.Reaches todo [] f.recv todo := by
  have hfed := h.recv halive
  unfold Fiber.recv at hfed ⊢
  split
  · exact .refl h
  · next chunks hin =>
    simp only [hin] at hfed
    refine ⟨hfed, List.suffix_refl _, List.nil_prefix, fun hc => ?_⟩
    exact absurd rfl (hc.chunks [] (by rw [hin]; exact List.mem_cons_self))
  · next chunk chunks hne hin =>
    simp only [hin] at hfed
    refine ⟨hfed, List.suffix_refl _, List.prefix_refl _, fun hc => ⟨⟨?_, fun c hm => ?_⟩, rfl⟩⟩
    · have hp := hc.pending
      unfold Fiber.pending at hp ⊢
      rw [hin, List.flatten_cons, ← List.append_assoc] at hp
      rwa [List.drop_append_of_le_length h.pos_le]
    · exact hc.chunks c (by rw [hin]; exact List.mem_cons_of_mem _ hm)

/-- `f` with its first value answered. -/
def answered (f : Fiber) (v : Wire) (reply : Bytes) : Fiber :=
  { f with sent := f.sent ++ [reply], pos := f.pos + (respEncode v).length }

section
variable (hwhole : respEncode v <+: f.buf.drop f.pos) (reply : Bytes)
include hwhole

theorem pending_answered : f.pending = respEncode v ++ (f.answered v reply).pending := by
  obtain ⟨rest, hrest⟩ := hwhole
  unfold pending answered
  rw [← List.append_assoc, ← List.drop_drop, ← hrest, List.drop_left]

theorem Complete.answered (hc : f.Complete (v :: vs)) : (f.answered v reply).Complete vs := by
  refine ⟨?_, hc.chunks⟩
  have hp := hc.pending
  rwa [pending_answered hwhole reply, List.flatMap_cons, List.append_cancel_left_eq] at hp

variable (h : f.Fed (v :: vs))
include h

theorem Fed.answered (hbusy : f.busy = true) : (f.answered v reply).Fed vs := by
  refine ⟨?_, ?_, fun _ hb => ?_⟩
  · have hlen := hwhole.length_le
    rw [List.length_drop] at hlen
    show f.pos + (respEncode v).length ≤ f.buf.length
    have := h.pos_le
    omega
  · have hp := h.pending
    rwa [pending_answered hwhole reply, List.flatMap_cons, List.prefix_append_right_inj] at hp
  · rw [show f.busy = false from hb] at hbusy
    cases hbusy

variable (halive : f.alive = true) (hbusy : f.busy = true)
include halive hbusy

/-- The fiber answers, and goes on. -/
theorem Reaches.next (hquit : isQuit (respCmdArgs v) = false) :
    f.Reaches (v :: vs) [v] (f.answered v reply) vs := by
  have hdue : [v] ++ (f.answered v reply).due vs = f.due (v :: vs) := by
    simp [Fiber.due, Fiber.answered, halive, untilQuit, hquit]
  exact ⟨Fed.answered hwhole reply h hbusy, List.suffix_cons v vs, hdue ▸ List.prefix_refl _,
    fun hc => ⟨Complete.answered hwhole reply hc, hdue⟩⟩

/-- The fiber answers a `QUIT`, and stops. -/
theorem Reaches.quit (hquit : isQuit (respCmdArgs v) = true) :
    f.Reaches (v :: vs) [v] { (f.answered v reply).rest with alive := false } vs := by
  have hfed := Fed.answered hwhole reply h hbusy
  have hdue : f.due (v :: vs) = [v] := by simp [Fiber.due, halive, untilQuit, hquit]
  refine ⟨⟨Nat.zero_le _, hfed.pending, fun hf => Bool.noConfusion hf⟩, List.suffix_cons v vs, ?_, fun hc => ?_⟩
  · rw [hdue]
    exact List.prefix_refl _
  · have hc' := Complete.answered hwhole reply hc
    exact ⟨⟨hc'.pending, hc'.chunks⟩, hdue.symm⟩

end

end

/-- A fiber that has nothing more to do has answered everything. -/
theorem Idle.due_nil {f : Fiber} {todo : List Wire} (hidle : f.Idle) (hfed : f.Fed todo) (hc : f.Complete todo) :
    f.due todo = [] := by
  cases halive : f.alive with
  | false => simp [due, halive]
  | true =>
    obtain ⟨hbusy, hinbox⟩ := hidle halive
    have hp := hc.pending
    rw [pending, hinbox, List.flatten_nil, List.append_nil] at hp
    cases todo with
    | nil => simp [due, untilQuit]
    | cons v vs =>
      refine absurd ?_ (hfed.waits halive hbusy v vs rfl)
      rw [hp, List.flatMap_cons]
      exact List.prefix_append _ _

/-! ## The turns -/

section
variable [Runtime] [Host] {todo : List Wire} {f : Fiber} (serverStartMs : Int)

/-- A turn answers the next value of the stream, or none. -/
theorem turn_cases (hnum : Runtime.Inverts) (hwf : ∀ v ∈ todo, v.WellFormed) (h : f.Fed todo) :
    (∃ f', f.turn serverStartMs = pure f' ∧ f'.sent = f.sent ∧ f.Reaches todo [] f' todo) ∨
      ∃ v vs, ∃ g : Bytes → Fiber, todo = v :: vs ∧
        (f.turn serverStartMs = do return g (← cmdDispatch serverStartMs (respCmdArgs v))) ∧
        ∀ reply, (g reply).sent = f.sent ++ [reply] ∧ f.Reaches todo [v] (g reply) vs := by
  unfold turn
  by_cases halive : f.alive = true
  swap
  · exact .inl ⟨f, by simp [halive], rfl, .refl h⟩
  by_cases hbusy : f.busy = true
  swap
  · refine .inl ⟨f.recv, by simp [halive, hbusy], ?_, .recv h halive⟩
    unfold Fiber.recv
    split <;> rfl
  have hserve : (if !f.alive then return f else if f.busy then f.serve serverStartMs else return f.recv) =
      f.serve serverStartMs := by simp [halive, hbusy]
  rw [hserve]
  cases todo with
  | nil =>
    have hend : f.buf.length ≤ f.pos := by
      have hp := h.pending
      rw [List.flatMap_nil, List.prefix_nil] at hp
      exact List.drop_eq_nil_iff.mp (List.append_eq_nil_iff.mp hp).1
    exact .inl ⟨f.rest, by rw [serve, if_pos hend], rfl, .rest h fun v vs he => by cases he⟩
  | cons v vs =>
    have hv := hwf v List.mem_cons_self
    rcases StrictPrefix.of_prefix_append ((List.prefix_append _ _).trans h.pending) with hwhole | hpart
    · have hlt : f.pos < f.buf.length := by
        have hlen := hwhole.length_le
        have hne := List.length_pos_iff.mpr (respEncode_ne_nil hv)
        rw [List.length_drop] at hlen
        omega
      have hparse := respTryParse_whole hnum hv h.pos_le hwhole
      by_cases hquit : isQuit (respCmdArgs v) = true
      · refine .inr ⟨v, vs, fun reply => { (f.answered v reply).rest with alive := false }, rfl, ?_,
          fun reply => ⟨rfl, .quit hwhole reply h halive hbusy hquit⟩⟩
        rw [serve, if_neg (Nat.not_le.mpr hlt), hparse]
        simp only [hquit, if_pos]
        rfl
      · have hquit := Bool.eq_false_of_not_eq_true hquit
        refine .inr ⟨v, vs, fun reply => f.answered v reply, rfl, ?_,
          fun reply => ⟨rfl, .next hwhole reply h halive hbusy hquit⟩⟩
        rw [serve, if_neg (Nat.not_le.mpr hlt), hparse]
        simp only [hquit, Bool.false_eq_true, if_false]
        rfl
    · have hnone := respTryParse_part hnum hv h.pos_le hpart
      have hserve : f.serve serverStartMs = pure f.rest := by
        rw [serve, hnone]
        exact ite_self _
      refine .inl ⟨f.rest, hserve, rfl, .rest h fun w ws he hw => ?_⟩
      rw [List.cons.injEq] at he
      exact absurd (he.1 ▸ hw.length_le) (Nat.not_le.mpr hpart.length_lt)

end

end Fiber

/-! ## Runs -/

/-- What of a history is the client's. -/
def ofClient {α : Type} (i : Nat) (history : List (Nat × α)) : List α := (history.filter (·.1 = i)).map (·.2)

theorem ofClient_append {α : Type} (i : Nat) (xs ys : List (Nat × α)) :
    ofClient i (xs ++ ys) = ofClient i xs ++ ofClient i ys := by simp [ofClient]

theorem ofClient_self {α : Type} (i : Nat) (xs : List α) : ofClient i (xs.map (i, ·)) = xs := by
  simp [ofClient, List.filter_map, Function.comp_def]

theorem ofClient_of_ne {α : Type} {i j : Nat} (h : j ≠ i) (xs : List α) : ofClient i (xs.map (j, ·)) = [] := by
  simp [ofClient, List.filter_map, Function.comp_def, h]

section
variable [Runtime] [Host] (serverStartMs : Int)

/-- The commands one after the other, each with its client. -/
def answerAll (history : List (Nat × Wire)) : StateM Store (List (Nat × Bytes)) :=
  history.mapM fun (i, v) => do return (i, ← cmdDispatch serverStartMs (respCmdArgs v))

theorem answerAll_append (xs ys : List (Nat × Wire)) (db : Store) :
    (answerAll serverStartMs (xs ++ ys)).run db =
      let one := (answerAll serverStartMs xs).run db
      let more := (answerAll serverStartMs ys).run one.2
      (one.1 ++ more.1, more.2) := by
  rw [answerAll, List.mapM_append]
  rfl

/-- A turn is of at most one command. -/
theorem turn_reaches (hnum : Runtime.Inverts) {todo : List Wire} {f : Fiber} (hwf : ∀ v ∈ todo, v.WellFormed)
    (h : f.Fed todo) (i : Nat) (db : Store) : ∃ (vs todo' : List Wire) (replies : List Bytes),
      let out := (f.turn serverStartMs).run db
      (answerAll serverStartMs (vs.map (i, ·))).run db = (replies.map (i, ·), out.2) ∧
        out.1.sent = f.sent ++ replies ∧ f.Reaches todo vs out.1 todo' := by
  rcases Fiber.turn_cases serverStartMs hnum hwf h with ⟨f', hturn, hsent, hreach⟩ | ⟨v, vs, g, rfl, hturn, hg⟩
  · rw [hturn]
    exact ⟨[], todo, [], rfl, hsent.trans (List.append_nil _).symm, hreach⟩
  · rw [hturn]
    obtain ⟨hsent, hreach⟩ := hg ((cmdDispatch serverStartMs (respCmdArgs v)).run db).1
    exact ⟨[v], vs, [((cmdDispatch serverStartMs (respCmdArgs v)).run db).1], rfl, hsent, hreach⟩

theorem runFibers_reaches (hnum : Runtime.Inverts) (schedule : List Nat) :
    ∀ (fs : Fibers) (todo : Nat → List Wire) (db : Store), (∀ i, ∀ v ∈ todo i, v.WellFormed) →
      (∀ i, (fs i).Fed (todo i)) → ∃ (history : List (Nat × Wire)) (todo' : Nat → List Wire),
        let out := (runFibers serverStartMs schedule fs).run db
        let one := (answerAll serverStartMs history).run db
        out.2 = one.2 ∧ ∀ i, (out.1 i).sent = (fs i).sent ++ ofClient i one.1 ∧
          (fs i).Reaches (todo i) (ofClient i history) (out.1 i) (todo' i) := by
  induction schedule with
  | nil =>
    intro fs todo db hwf hfed
    exact ⟨[], todo, rfl, fun i => ⟨(List.append_nil _).symm, .refl (hfed i)⟩⟩
  | cons i schedule ih =>
    intro fs todo db hwf hfed
    obtain ⟨vs, left, replies, hone, hsent, hreach⟩ := turn_reaches serverStartMs hnum (hwf i) (hfed i) i db
    obtain ⟨f, db₁, hturn⟩ : ∃ f db₁, ((fs i).turn serverStartMs).run db = (f, db₁) := ⟨_, _, rfl⟩
    simp only [hturn] at hone hsent hreach
    -- The fibers after the turn, with what is left for each.
    obtain ⟨history, todo', hdb, hrest⟩ := ih (Function.update fs i f) (Function.update todo i left) db₁
      (fun j v hv => by
        by_cases hj : j = i
        · subst hj
          rw [Function.update_self] at hv
          exact hwf _ v (hreach.suffix.mem hv)
        · rw [Function.update_of_ne hj] at hv
          exact hwf _ v hv)
      (fun j => by
        by_cases hj : j = i
        · subst hj
          rw [Function.update_self, Function.update_self]
          exact hreach.fed
        · rw [Function.update_of_ne hj, Function.update_of_ne hj]
          exact hfed j)
    have hrun : (runFibers serverStartMs (i :: schedule) fs).run db =
        (runFibers serverStartMs schedule (Function.update fs i f)).run db₁ := by
      rw [runFibers, StateT.run_bind, hturn]
      rfl
    refine ⟨vs.map (i, ·) ++ history, todo', ?_⟩
    simp only [hrun, answerAll_append, hone, ofClient_append]
    refine ⟨hdb, fun j => ?_⟩
    obtain ⟨hsent', hreach'⟩ := hrest j
    by_cases hj : j = i
    · subst hj
      rw [Function.update_self] at hsent' hreach'
      rw [Function.update_self] at hreach'
      rw [ofClient_self, ofClient_self, hsent', hsent, List.append_assoc]
      exact ⟨rfl, hreach.trans hreach'⟩
    · rw [Function.update_of_ne hj] at hsent' hreach'
      rw [Function.update_of_ne hj] at hreach'
      rw [ofClient_of_ne (Ne.symm hj), ofClient_of_ne (Ne.symm hj)]
      exact ⟨hsent', hreach'⟩

/-- Whatever the turns and the chunks, the server does one command after the other: each client gets the replies to
a beginning of its stream in their order, and to all of it up to a `QUIT` once all of it has come and is worked off. -/
theorem served_in_turn (hnum : Runtime.Inverts) (streams : Nat → List Wire) (chunks : Nat → List Bytes)
    (hwf : ∀ i, ∀ v ∈ streams i, v.WellFormed)
    (hsent : ∀ i, (chunks i).flatten <+: (streams i).flatMap respEncode) (schedule : List Nat) (db : Store) :
    ∃ history : List (Nat × Wire),
      let out := (runFibers serverStartMs schedule fun i => { inbox := chunks i }).run db
      let one := (answerAll serverStartMs history).run db
      out.2 = one.2 ∧ ∀ i,
        (out.1 i).sent = ofClient i one.1 ∧ ofClient i history <+: untilQuit (streams i) ∧
          ((chunks i).flatten = (streams i).flatMap respEncode → (∀ chunk ∈ chunks i, chunk ≠ []) →
            (out.1 i).Idle → ofClient i history = untilQuit (streams i)) := by
  have hfed (i : Nat) : Fiber.Fed { inbox := chunks i } (streams i) :=
    ⟨Nat.le_refl _, hsent i, fun _ _ v vs he hw =>
      respEncode_ne_nil (hwf i v (by rw [he]; exact List.mem_cons_self)) (List.prefix_nil.mp hw)⟩
  obtain ⟨history, todo', hdb, hrest⟩ :=
    runFibers_reaches serverStartMs hnum schedule (fun i => { inbox := chunks i }) streams db hwf hfed
  refine ⟨history, hdb, fun i => ?_⟩
  obtain ⟨hout, hreach⟩ := hrest i
  refine ⟨hout, (List.prefix_append _ _).trans hreach.due, fun hall hne hidle => ?_⟩
  obtain ⟨hcomplete, hdue⟩ := hreach.complete ⟨hall, hne⟩
  rwa [hidle.due_nil hreach.fed hcomplete, List.append_nil] at hdue

end

/-- Client 0 sets a key and quits, client 1 reads it. -/
def twoClients : Nat → List Wire
  | 0 => [.array ([lit "SET", lit "k", lit "v"].map .bulk), .array ([lit "QUIT"].map .bulk)]
  | 1 => [.array ([lit "GET", lit "k"].map .bulk)]
  | _ => []

/-- The streams in two chunks, which the first client's `SET` does not end with. -/
def twoChunks (i : Nat) : List Bytes :=
  [((twoClients i).flatMap respEncode).take 5, ((twoClients i).flatMap respEncode).drop 5]

theorem twoClients_wellFormed (i : Nat) : ∀ v ∈ twoClients i, v.WellFormed := by
  intro v hv
  unfold twoClients at hv
  split at hv
  · rcases List.mem_cons.mp hv with rfl | hv
    · exact wellFormed_bulks _
    · exact List.eq_of_mem_singleton hv ▸ wellFormed_bulks _
  · exact List.eq_of_mem_singleton hv ▸ wellFormed_bulks _
  · cases hv

theorem twoChunks_flatten (i : Nat) : (twoChunks i).flatten = (twoClients i).flatMap respEncode := by
  simp [twoChunks]

theorem served_in_turn_two :
    let _ : Host := sortedHost
    let _ : Runtime := decimalRuntime
    ∃ history : List (Nat × Wire),
      let out := (runFibers 0 [0, 1, 0, 1, 0, 1, 0, 0] fun i => { inbox := twoChunks i }).run {}
      let one := (answerAll 0 history).run {}
      out.2 = one.2 ∧ ∀ i,
        (out.1 i).sent = ofClient i one.1 ∧ ofClient i history <+: untilQuit (twoClients i) ∧
          ((twoChunks i).flatten = (twoClients i).flatMap respEncode → (∀ chunk ∈ twoChunks i, chunk ≠ []) →
            (out.1 i).Idle → ofClient i history = untilQuit (twoClients i)) := by
  have hin (i : Nat) : (twoChunks i).flatten <+: (twoClients i).flatMap respEncode := by rw [twoChunks_flatten]
  exact @served_in_turn decimalRuntime sortedHost 0 inverts_decimalRuntime twoClients twoChunks
    twoClients_wellFormed hin [0, 1, 0, 1, 0, 1, 0, 0] {}

end Aura
