import AuraRedis.Resp.Proof.Parse

/-!
# The RESP codec round trip

`parseAt_command`: at the place of a buffer where a command was written, the reader takes exactly the
bytes that were written and returns the argument vector. `round_trip` adds the streams: a buffer
that holds commands written one after the other is cut back into them.
-/

set_option autoImplicit false

namespace Resp

open Decimal

/-! ## The length of a command -/

theorem length_bulk_le {p : Bytes} (h : p.length ≤ maxBulk) : (bulk p).length ≤ maxBulk + 15 := by
  have hn : (ofNat p.length).length ≤ 10 :=
    length_ofNat_le (by decide) (Nat.lt_of_le_of_lt h (by decide))
  simp only [bulk, crlf, List.length_cons, List.length_append, List.length_nil]
  omega

theorem length_flatMap_bulk_le {argv : List Bytes} (h : ∀ p ∈ argv, p.length ≤ maxBulk) :
    (argv.flatMap bulk).length ≤ argv.length * (maxBulk + 15) := by
  induction argv with
  | nil => simp
  | cons p argv ih =>
    have hp := length_bulk_le (h p (.head _))
    have hr := ih fun q hq => h q (.tail _ hq)
    rw [List.flatMap_cons, List.length_append, List.length_cons, Nat.succ_mul]
    omega

/-- The bytes of a command are counted by an `int`. -/
theorem WellFormed.length_command_lt {argv : List Bytes} (h : WellFormed argv) :
    (command argv).length < 2 ^ 31 := by
  have hb := length_flatMap_bulk_le h.arg
  have hn : (ofNat argv.length).length ≤ 2 :=
    length_ofNat_le (by decide) (Nat.lt_of_le_of_lt h.argc (by decide))
  have hm : argv.length * (maxBulk + 15) ≤ maxArgv * (maxBulk + 15) :=
    Nat.mul_le_mul_right _ h.argc
  have hc : maxArgv * (maxBulk + 15) = 1073742784 := by decide
  rw [command_eq h.length_lt]
  simp only [crlf, List.length_cons, List.length_append, List.length_nil]
  omega

/-! ## One command, then a stream of them -/

/-- **One command in a buffer**, after `pre` and before `rest`. -/
theorem parseAt_command {argv : List Bytes} (h : WellFormed argv) (pre rest : Bytes) :
    parseAt (pre ++ command argv ++ rest) pre.length = some (((command argv).length : Int), argv) := by
  have hd : (pre ++ command argv ++ rest).drop pre.length = command argv ++ rest := by
    rw [List.append_assoc, List.drop_left]
  have hl : (pre ++ command argv ++ rest).length - pre.length - rest.length
      = (command argv).length := by
    simp only [List.length_append]
    omega
  rw [parseAt, hd, parseCommand_command h]
  simp only [hl, int32_natCast h.length_command_lt]

theorem parseAt_end (buf : Bytes) : parseAt buf buf.length = some (0, []) := by
  rw [parseAt, List.drop_length, parseCommand]

/-- The commands that are left of a buffer are cut off it one by one. -/
theorem parseAll_stream {cmds : List (List Bytes)} (h : ∀ argv ∈ cmds, WellFormed argv)
    (pre : Bytes) {fuel : Nat} (hf : cmds.length < fuel) :
    parseAll fuel (pre ++ cmds.flatMap command) pre.length =
      some (cmds, (pre ++ cmds.flatMap command).length) := by
  induction cmds generalizing pre fuel with
  | nil =>
    obtain ⟨fuel, rfl⟩ : ∃ f, fuel = f + 1 := ⟨fuel - 1, by omega⟩
    rw [List.flatMap_nil, List.append_nil, parseAll, parseAt_end]
    rfl
  | cons argv cmds ih =>
    obtain ⟨fuel, rfl⟩ : ∃ f, fuel = f + 1 := ⟨fuel - 1, by omega⟩
    have hargv := h argv (.head _)
    have hpos := hargv.length_command_pos
    have hnext : pre.length + ((command argv).length : Int).toNat
        = (pre ++ command argv).length := by
      rw [Int.toNat_natCast, List.length_append]
    rw [List.flatMap_cons, ← List.append_assoc, parseAll, parseAt_command hargv, Option.bind_some]
    rw [if_neg (by omega), hnext, ih (fun v hv => h v (.tail _ hv)) _ (by simpa using hf), Option.map_some]

theorem length_le_stream {cmds : List (List Bytes)} (h : ∀ argv ∈ cmds, WellFormed argv) :
    cmds.length ≤ (cmds.flatMap command).length := by
  induction cmds with
  | nil => simp
  | cons argv cmds ih =>
    have hpos := (h argv (.head _)).length_command_pos
    have := ih fun v hv => h v (.tail _ hv)
    rw [List.flatMap_cons, List.length_append, List.length_cons]
    omega

/-- **Round trip.** A command is read back where it was written, whatever precedes and follows it,
with exactly its bytes consumed; and a buffer of commands is read back as the list of them, to its
end. -/
theorem round_trip :
    (∀ (argv : List Bytes) (pre rest : Bytes), WellFormed argv →
      parseAt (pre ++ command argv ++ rest) pre.length = some (((command argv).length : Int), argv)) ∧
    ∀ cmds : List (List Bytes), (∀ argv ∈ cmds, WellFormed argv) →
      parseAll ((cmds.flatMap command).length + 1) (cmds.flatMap command) 0 =
        some (cmds, (cmds.flatMap command).length) := by
  refine ⟨fun argv pre rest h => parseAt_command h pre rest, fun cmds h => ?_⟩
  have hf : cmds.length < (cmds.flatMap command).length + 1 :=
    Nat.lt_succ_of_le (length_le_stream h)
  exact parseAll_stream h [] hf

/-- A `SET` of the empty value to a key that looks like protocol, followed by the start of a command;
and followed by a whole one. -/
theorem round_trip_set :
    parseAt (lit "" ++ command [lit "SET", lit "$1\r\n*", []] ++ lit "*1\r\n$4") 0 =
      some (((command [lit "SET", lit "$1\r\n*", []]).length : Int),
        [lit "SET", lit "$1\r\n*", []]) ∧
    parseAll (([[lit "SET", lit "$1\r\n*", []], [lit "PING"]].flatMap command).length + 1)
        ([[lit "SET", lit "$1\r\n*", []], [lit "PING"]].flatMap command) 0 =
      some ([[lit "SET", lit "$1\r\n*", []], [lit "PING"]],
        ([[lit "SET", lit "$1\r\n*", []], [lit "PING"]].flatMap command).length) := by
  have hset : WellFormed [lit "SET", lit "$1\r\n*", []] := ⟨by decide, by decide, by decide⟩
  have hping : WellFormed [lit "PING"] := ⟨by decide, by decide, by decide⟩
  refine ⟨round_trip.1 _ (lit "") (lit "*1\r\n$4") hset, round_trip.2 _ fun argv hm => ?_⟩
  rcases List.mem_cons.1 hm with rfl | hm
  · exact hset
  · rw [List.mem_singleton.1 hm]
    exact hping

end Resp
