import AuraRedis.Core.Op
import AuraRedis.Lib.Sweep

/-!
# Iterations with `SCAN`

An iteration feeds the cursor of each `SCAN` to the next one; what other clients do between the two is the
`calls` of a turn. `Dict.place` numbers the chain a key is in as `scan_bucket_at` does, so that an iteration
is a sweep over the numbers of the chains (`looks`).
-/

set_option autoImplicit false

namespace AuraRedis

namespace Dict

/-- The number of a chain, hot chains first. -/
def chainNo (d : Dict) (tier : Tier) (b : Nat) : Nat :=
  match tier with
  | .hot => b
  | .cold => d.hot.length + b

/-- The number of the chain a key is in. -/
def place (d : Dict) (key : Bytes) : Nat :=
  if (d.hot.find (keySlot d.hot.length key) (keyEq key)).isSome
  then d.chainNo .hot (keySlot d.hot.length key)
  else d.chainNo .cold (keySlot d.cold.length key)

/-- The chain of a number. -/
def chainAt (d : Dict) (i : Nat) : List ArEntry :=
  (d.scanBucketAt i).elim [] fun x => (d.table x.1).chain x.2

end Dict

namespace ArOp

/-- The calls of `GET` and `SET` in all their forms. -/
def isGetSet : ArOp → Bool
  | getPtr _ | arEntrySetEx _ _ _ | arSetBinEx _ _ _ | arSetBinPx _ _ _ => true
  | find _ | arExistsBin _ | tally _ _ => true
  | _ => false

/-- A `SET` of the key, or a `GET` of it where it is the string `i`. -/
def touches (key : Bytes) (i : Option Item) : ArOp → Prop
  | getPtr k => k = key ∧ ∃ j, i = some j ∧ j.obj.type = .string
  | arEntrySetEx k _ _ | arSetBinEx k _ _ | arSetBinPx k _ _ => k = key
  | _ => False

end ArOp

/-- One `SCAN` without a pattern, and the calls before the next one. -/
structure ScanTurn where
  E : Env
  t : Nat
  /-- There is one clock value for the call. -/
  frozen : E.Frozen t
  count : Int
  calls : List Call

namespace ArCore

/-- The keys the turns of an iteration return. -/
def scanned (c : ArCore) (cursor : Nat) : List ScanTurn → List Bytes
  | [] => []
  | x :: xs =>
    let r := c.arScan x.E cursor [] x.count
    r.2.1 ++ scanned (r.1.runCalls x.calls) r.2.2 xs

/-- The iteration goes on until a cursor is `0`. -/
def FullScan (c : ArCore) (cursor : Nat) : List ScanTurn → Prop
  | [] => False
  | x :: xs =>
    let r := c.arScan x.E cursor [] x.count
    if r.2.2 = 0 then xs = [] else FullScan (r.1.runCalls x.calls) r.2.2 xs

/-- What holds of each turn, with the core and the cursor its `SCAN` begins with. -/
def EachTurn (P : ArCore → Nat → ScanTurn → Prop) (c : ArCore) (cursor : Nat) :
    List ScanTurn → Prop
  | [] => True
  | x :: xs =>
    let r := c.arScan x.E cursor [] x.count
    P c cursor x ∧ EachTurn P (r.1.runCalls x.calls) r.2.2 xs

/-- A key is there and not due when the `SCAN` of a turn begins, and the call gets its memory. -/
def Shows (key : Bytes) (c : ArCore) (_ : Nat) (x : ScanTurn) : Prop :=
  (c.peek x.t key).isSome = true ∧ x.E.AllocOk

/-- What an iteration looks at, and where a key is. -/
def looks (key : Bytes) (c : ArCore) (cursor : Nat) : List ScanTurn → List Look
  | [] => []
  | x :: xs =>
    let r := c.arScan x.E cursor [] x.count
    ⟨cursor, cursor + maxSlots x.count, c.dict.place key⟩ ::
      looks key (r.1.runCalls x.calls) r.2.2 xs

/-- What holds of each call between the turns, with the core it is made on and the next cursor. -/
def EachBetween (P : ArCore → Nat → Call → Prop) (c : ArCore) (cursor : Nat) : List ScanTurn → Prop
  | [] => True
  | x :: xs =>
    let r := c.arScan x.E cursor [] x.count
    r.1.Each (P · r.2.2 ·) x.calls ∧ EachBetween P (r.1.runCalls x.calls) r.2.2 xs

/-- The call is a `SET` of the key, or a `GET` of it that meets a string: it moves a cold entry to the hot
table, to a chain before the cursor when that one is not yet behind the cold chain. -/
def PromotesBehind (key : Bytes) (c : ArCore) (cursor : Nat) (x : Call) : Prop :=
  x.op.touches key (c.peek x.t key) ∧ c.cfg.hotPromoteOnGet = true ∧
    c.dict.hot.length ≤ c.dict.place key ∧ cursor ≤ c.dict.place key ∧
    keySlot c.dict.hot.length key < cursor

/-- A `GET` or a `SET` while the key is there and not due, that does not promote the key behind the cursor. -/
def KeepsAhead (key : Bytes) (c : ArCore) (cursor : Nat) (x : Call) : Prop :=
  x.op.isGetSet = true ∧ (c.peek x.t key).isSome = true ∧ ¬c.PromotesBehind key cursor x

end ArCore

end AuraRedis
