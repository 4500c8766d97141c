import AuraRedis.Core.Typed

/-!
# Walks over the whole table

`DBSIZE`, `SCAN`, `KEYS` and `HSCAN`. A walk over the key space releases the entries it meets that are
due.
-/

set_option autoImplicit false

namespace AuraRedis

/-! ## Patterns -/

def star : UInt8 := 42

def question : UInt8 := 63

/-- The loop of `ar_glob_match`, on what is left of the pattern and of the string; `back` is where the
last star left off: the pattern behind it and what is left of the string there. -/
def globWalk (p s : Bytes) (back : Option (Bytes × Bytes)) : Bool :=
  match s with
  | [] => p.all (· == star)
  | b :: s' =>
    match p with
    | a :: p' =>
      if a = star then globWalk p' (b :: s') (some (p', b :: s'))
      else if a = question ∨ a = b then globWalk p' s' back
      else match back with
        | some (q, u) => globWalk q u.tail (some (q, u.tail))
        | none => false
    | [] =>
      match back with
      | some (q, u) => globWalk q u.tail (some (q, u.tail))
      | none => false
  termination_by (back.elim (s.length + 1) fun x => max x.2.length s.length, p.length)
  decreasing_by
    all_goals simp_wf
    · -- a star: what is left of the string is no longer than before
      cases back with
      | none => exact Prod.Lex.left _ _ (by simp)
      | some x =>
        simp only [Option.elim_some]
        rcases Nat.lt_or_ge (s'.length + 1) (max x.2.length (s'.length + 1)) with h | h
        · exact Prod.Lex.left _ _ h
        · rw [show max x.2.length (s'.length + 1) = s'.length + 1 by omega]
          exact Prod.Lex.right _ (by simp)
    · cases back with
      | none => exact Prod.Lex.left _ _ (by simp)
      | some x =>
        simp only [Option.elim_some]
        rcases Nat.lt_or_ge (max x.2.length s'.length) (max x.2.length (s'.length + 1)) with h | h
        · exact Prod.Lex.left _ _ h
        · rw [show max x.2.length (s'.length + 1) = max x.2.length s'.length by omega]
          exact Prod.Lex.right _ (by simp)
    · exact Prod.Lex.left _ _ (by omega)
    · exact Prod.Lex.left _ _ (by omega)

/-- `ar_glob_match`. -/
def arGlobMatch (pat str : Bytes) : Bool :=
  if pat.isEmpty then str.isEmpty
  else if pat = [star] then true
  else globWalk pat str none

/-- `match_all || ar_glob_match(..)`. -/
def patMatches (pat str : Bytes) : Bool := pat.isEmpty || pat == [star] || arGlobMatch pat str

/-! ## Chains by number -/

namespace Dict

/-- `scan_total_buckets`. -/
def scanTotalBuckets (d : Dict) : Nat := d.hot.length + if d.hasCold then d.cold.length else 0

/-- `scan_bucket_at`. -/
def scanBucketAt (d : Dict) (i : Nat) : Option (Tier × Nat) :=
  if i < d.hot.length then some (.hot, i)
  else if d.hasCold && decide (i - d.hot.length < d.cold.length) then some (.cold, i - d.hot.length)
  else none

end Dict

namespace ArCore

section
variable (E : Env)

/-- Room for one more in the two arrays of `scan_push` and `hscan_push`, and their capacity. -/
def growRoom (c : ArCore) (n cap : Nat) : ArCore × Nat × Bool :=
  if n ≥ cap then
    let a := c.malloc E
    if !a.2 then (a.1, cap, false)
    else
      let b := a.1.malloc E
      if !b.2 then (b.1, cap, false) else (b.1, if cap = 0 then 16 else cap * 2, true)
  else (c, cap, true)

/-- The answer of `scan_push` and `hscan_push`: room in the arrays and for a copy. -/
def pushRoom (c : ArCore) (n cap : Nat) : ArCore × Nat × Bool :=
  let g := c.growRoom E n cap
  if !g.2.2 then g
  else
    let k := g.1.malloc E
    (k.1, g.2.1, k.2)

/-! ## DBSIZE -/

/-- The walk down one chain in `ar_dbsize`. -/
def dbsizeChain (now : Nat) (tier : Tier) (b : Nat) : List ArEntry → ArCore → Nat → ArCore × Nat
  | [], c, n => (c, n)
  | e :: chain, c, n =>
    if e.expireAt ≠ 0 ∧ now ≥ e.expireAt then
      dbsizeChain now tier b chain
        ((c.arEntryFreeEx b tier e).count fun s => { s with expired := s.expired + 1 }) n
    else dbsizeChain now tier b chain c (n + 1)

/-- The loop of `ar_dbsize`. -/
def dbsizeLoop (now : Nat) : Nat → Nat → ArCore → Nat → ArCore × Nat
  | 0, _, c, n => (c, n)
  | left + 1, i, c, n =>
    match c.dict.scanBucketAt i with
    | none => dbsizeLoop now left (i + 1) c n
    | some (tier, b) =>
      let r := dbsizeChain now tier b ((c.dict.table tier).chain b) c n
      dbsizeLoop now left (i + 1) r.1 r.2

/-- `ar_dbsize`. -/
def arDbsize (c : ArCore) : ArCore × Nat :=
  let c := c.count fun s => { s with ops := s.ops + 1 }
  let total := c.dict.scanTotalBuckets
  if total = 0 then (c, 0)
  else
    let n := c.arNowMs E
    dbsizeLoop n.2 total 0 n.1 0

/-! ## SCAN -/

/-- The walk down one chain in `ar_scan`: without memory it stops. -/
def scanChain (now : Nat) (pat : Bytes) (tier : Tier) (b : Nat) :
    List ArEntry → ArCore → List Bytes → Nat → ArCore × List Bytes × Nat
  | [], c, keys, cap => (c, keys, cap)
  | e :: chain, c, keys, cap =>
    if e.expireAt ≠ 0 ∧ now ≥ e.expireAt then
      scanChain now pat tier b chain
        ((c.count fun s => { s with expired := s.expired + 1 }).arEntryFreeEx b tier e) keys cap
    else if patMatches pat e.key then
      let p := c.pushRoom E keys.length cap
      if p.2.2 then scanChain now pat tier b chain p.1 (keys ++ [e.key]) p.2.1
      else (p.1, keys, p.2.1)
    else scanChain now pat tier b chain c keys cap

/-- The loop of `ar_scan`, over `slots` chains from `i` on, and the next cursor. -/
def scanLoop (now : Nat) (pat : Bytes) (total : Nat) :
    Nat → Nat → ArCore → List Bytes → Nat → ArCore × List Bytes × Nat
  | 0, i, c, keys, _ => (c, keys, i)
  | slots + 1, i, c, keys, cap =>
    match c.dict.scanBucketAt i with
    | none => (c, keys, i)
    | some (tier, b) =>
      let r := scanChain E now pat tier b ((c.dict.table tier).chain b) c keys cap
      if i + 1 ≥ total then (r.1, r.2.1, 0)
      else scanLoop now pat total slots (i + 1) r.1 r.2.1 r.2.2

/-- `max_slots`. -/
def maxSlots (count : Int) : Nat :=
  let n := if count ≤ 0 then 10 else count
  if n > 10000 then 10000 else n.toNat

/-- `ar_scan`: the keys and the next cursor. -/
def arScan (c : ArCore) (cursor : Nat) (pat : Bytes) (count : Int) : ArCore × List Bytes × Nat :=
  if c.dict.nkeys = 0 then (c, [], 0)
  else
    let total := c.dict.scanTotalBuckets
    if total = 0 ∨ cursor ≥ total then (c, [], 0)
    else
      let n := c.arNowMs E
      scanLoop E n.2 pat total (maxSlots count) cursor n.1 [] 0

/-- The loop of `ar_keys`, for a number of pages. -/
def keysLoop (pat : Bytes) : Nat → Nat → ArCore → List Bytes → ArCore × List Bytes
  | 0, _, c, keys => (c, keys)
  | pages + 1, cursor, c, keys =>
    let total := c.dict.scanTotalBuckets
    let r := c.arScan E cursor pat (if total > 10000 then 10000 else total)
    if r.2.1.isEmpty then
      if r.2.2 = 0 then (r.1, keys) else keysLoop pat pages r.2.2 r.1 keys
    else
      let a := r.1.malloc E
      if !a.2 then (a.1, keys)
      else
        let b := a.1.malloc E
        if !b.2 then (b.1, keys)
        else if r.2.2 = 0 then (b.1, keys ++ r.2.1)
        else keysLoop pat pages r.2.2 b.1 (keys ++ r.2.1)

/-- `ar_keys`. A page ends behind the chain it starts with, so there are no more pages than chains. -/
def arKeys (c : ArCore) (pat : Bytes) : ArCore × List Bytes :=
  let total := c.dict.scanTotalBuckets
  if total = 0 then (c, []) else keysLoop E pat total 0 c []

/-! ## HSCAN -/

/-- The walk down one chain in `ar_hscan`; without memory it stops, maybe between a field and its
value. -/
def hscanChain (pat : Bytes) :
    List (Bytes × Bytes) → ArCore → List Bytes → Nat → ArCore × List Bytes × Nat
  | [], c, elems, cap => (c, elems, cap)
  | f :: chain, c, elems, cap =>
    if patMatches pat f.1 then
      let p := c.pushRoom E elems.length cap
      if !p.2.2 then (p.1, elems, p.2.1)
      else
        let q := p.1.pushRoom E (elems.length + 1) p.2.1
        if !q.2.2 then (q.1, elems ++ [f.1], q.2.1)
        else hscanChain pat chain q.1 (elems ++ [f.1, f.2]) q.2.1
    else hscanChain pat chain c elems cap

/-- The loop of `ar_hscan`, and the next cursor. -/
def hscanLoop (pat : Bytes) (h : ArHash) :
    Nat → Nat → ArCore → List Bytes → Nat → ArCore × List Bytes × Nat
  | 0, i, c, elems, _ => (c, elems, i)
  | slots + 1, i, c, elems, cap =>
    let r := hscanChain E pat (h.buckets.chain i) c elems cap
    if i + 1 ≥ h.buckets.length then (r.1, r.2.1, 0)
    else hscanLoop pat h slots (i + 1) r.1 r.2.1 r.2.2

/-- `ar_hscan`: fields and values in turn, and the next cursor. -/
def arHscan (c : ArCore) (key : Bytes) (cursor : Nat) (pat : Bytes) (count : Int) :
    ArCore × Typed (List Bytes × Nat) :=
  let g := c.readHash E key id
  match g.2 with
  | .missing => (g.1, .missing)
  | .wrongType => (g.1, .wrongType)
  | .found h =>
    if h.nfields = 0 ∨ cursor ≥ h.buckets.length then (g.1, .found ([], 0))
    else
      let r := hscanLoop E pat h (maxSlots count) cursor g.1 [] 0
      (r.1, .found r.2)

/-- What `HGETALL` reads: the fields in the order of their chains. -/
def hgetall (c : ArCore) (key : Bytes) : ArCore × Typed (List (Bytes × Bytes)) :=
  c.readHash E key fun h => h.buckets.flatten

/-- What `TYPE` reads. -/
def typeOf (c : ArCore) (key : Bytes) : ArCore × Option ArType :=
  let f := c.arFindEntryEx E key
  (f.1, f.2.map fun r => r.e.obj.type)

end

end ArCore

end AuraRedis
