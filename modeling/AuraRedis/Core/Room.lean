import AuraRedis.Core.Victim
import AuraRedis.Core.Op

/-!
# Room for a write

A write that may grow the key space ends in an eviction loop, and so does a change of `maxmemory`. What the
loop may leave above `maxmemory`: pinned keys, keys that the last draws of `rand` did not hit (`DrewPinned`),
and what is more than its rounds (`roundCap`).
-/

set_option autoImplicit false

namespace AuraRedis

namespace ArCore

/-- **The last draws hit no key that could go**: at each of the last 128 calls of `rand` the chain drawn, a
cold one at odd draws while there are cold keys, holds pinned keys only. -/
def DrewPinned (E : Env) (c : ArCore) : Prop :=
  ∃ p, c.pos.rand = p + 128 ∧ ∀ j < 128, ∃ tier : Tier,
    (tier = .cold → c.dict.hasCold = true ∧ j % 2 = 1) ∧
    (tier = .hot → c.dict.hasCold = false ∨ c.dict.coldNkeys = 0 ∨ j % 2 = 0) ∧
    ∀ e ∈ (c.dict.table tier).chain (E.rand (p + j) % (c.dict.table tier).length), e.pinned = true

end ArCore

namespace ArOp

/-- The call has made room, as its answer tells: a write that may grow the key space and has not failed, or a
change of `maxmemory`. -/
def MakesRoom (E : Env) : (op : ArOp) → op.Ans → Prop
  | arEntrySetEx _ _ _, ok | arSetBinEx _ _ _, ok | arSetBinPx _ _ _, ok => ok = true
  | arAppend _ val, a => val ≠ [] ∧ ∃ n, a = .found n
  | arIncr _ _, a => ∃ v, a = some v
  | arRename key newkey _, n => key ≠ newkey ∧ n = 1
  | arHashHset _ pairs, a => pairs ≠ [] ∧ ∃ n, a = .found n
  -- without memory the answer is a value as well
  | arHashHincrby _ _ _, a => (∃ v, a = .value v) ∧ E.AllocOk
  | arListPush _ _ vals, a => vals ≠ [] ∧ ∃ n, a = .found n
  | arZsetZadd _ ns, a => ns ≠ [] ∧ ∃ n, a = .added n
  | arCoreSetMaxmemory _, _ => True
  | _, _ => False

/-- The most rounds of `maybe_evict` and of `ar_maybe_evict_pub`. -/
def roundCap : ArOp → Nat
  | arHashHset _ _ | arHashHincrby _ _ _ | arListPush _ _ _ | arZsetZadd _ _ => 4096
  | _ => 1000000

end ArOp

/-- The loop has used up its rounds, and each took a key: the most rounds there are, or 64 where the number of
the keys is no `int`. -/
def ArCore.CappedBy (c c' : ArCore) (cap : Nat) : Prop :=
  c'.dict.nkeys + cap ≤ c.dict.nkeys + 1 ∨
    (2 ^ 31 ≤ c.dict.nkeys + 9 ∧ c'.dict.nkeys + 64 ≤ c.dict.nkeys + 1)

end AuraRedis
