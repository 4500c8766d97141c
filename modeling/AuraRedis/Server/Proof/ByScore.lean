import AuraRedis.Core.Proof.Found
import AuraRedis.Resp.Wire
import AuraRedis.Server.Proof.Counter
import AuraRedis.Server.Proof.Zset

/-!
# The window of ZRANGEBYSCORE

`ZRANGEBYSCORE` narrows the offset and the count of its `LIMIT` to 32 bits before it cuts its matches.
`zrangebyscore_limit` says where that does not show in the reply.
-/

set_option autoImplicit false

namespace AuraRedis

open Code Dispatch
open Decimal (ofInt)
open CString (length_ofInt_le)

/-! ## What is to be shown -/

/-- The first members of a range of scores, in order. -/
def inRange (minv maxv : CDouble) (arr : List ArZNode) : List ArZNode :=
  (arr.filter fun n => decide (minv.rank ≤ n.score.rank ∧ n.score.rank ≤ maxv.rank)).take rangeMatchCap

/-- The elements from an offset on, and at most a count of them: all when the count is negative. -/
def limited {α : Type} (l : List α) (off cnt : Int) : List α :=
  if cnt < 0 then l.drop off.toNat else (l.drop off.toNat).take cnt.toNat

/-- The reply that lists some nodes, each with its score when asked for. -/
def nodesReply [Libc] (withscores : Bool) (ns : List ArZNode) : Bytes :=
  Resp.arrayHdr (if withscores then 2 * ns.length else ns.length) ++
    ns.flatMap fun x => Resp.bulk x.member ++ if withscores then Resp.bulk (Libc.fmt17g x.score) else []

theorem filter_inRange {minv maxv : CDouble} {arr : List ArZNode} (hmin : minv.isNaN = false)
    (hmax : maxv.isNaN = false) (harr : ∀ n ∈ arr, n.score.isNaN = false) :
    (arr.filter fun n => !n.score.lt minv && !maxv.lt n.score).take rangeMatchCap = inRange minv maxv arr := by
  unfold inRange
  refine congrArg (List.take rangeMatchCap) (List.filter_congr fun n hn => ?_)
  have h₁ := decide_not (p := n.score.rank < minv.rank)
  have h₂ := decide_not (p := maxv.rank < n.score.rank)
  simp only [CDouble.lt, hmin, hmax, harr n hn, Bool.not_false, Bool.true_and, ← h₁, ← h₂, Int.not_lt,
    Bool.decide_and]

theorem length_inRange_le (minv maxv : CDouble) (arr : List ArZNode) : (inRange minv maxv arr).length ≤ 256 := by
  unfold inRange
  rw [List.length_take]
  exact Nat.min_le_left _ _

/-! ## The window -/

/-- Narrowed to 32 bits the offset and the count cut the same window out of `m` matches: of an offset among them
the counts reach as far, and an offset behind them stays there or the narrowed count lets nothing through. -/
def SameWindow (m : Nat) (off cnt : Int) : Prop :=
  (off < m → cnt < 0 ∨ min (m - off) (int32 cnt) = min (m - off) cnt) ∧
    (m ≤ off → m ≤ max 0 (int32 off) ∨ 0 ≤ cnt ∧ int32 cnt ≤ 0)

/-- In particular when neither changes. -/
theorem SameWindow.of_fits {m : Nat} {off cnt : Int} (hoff : off < 2 ^ 31) (hcnt : cnt < 2 ^ 31)
    (h0 : 0 ≤ off) : SameWindow m off cnt := by
  have hi : ∀ x : Int, 0 ≤ x → x < 2 ^ 31 → int32 x = x := by
    intro x hx hlt
    unfold int32
    rw [Int.bmod_def]
    omega
  refine ⟨fun _ => ?_, fun hle => .inl ?_⟩
  · rcases Int.lt_or_le cnt 0 with hneg | hpos
    · exact .inl hneg
    · exact .inr (by rw [hi cnt hpos hcnt])
  · rw [hi off h0 hoff]
    omega

theorem atLeastZero (a : Int) : (if a < 0 then 0 else a) = max 0 a := by
  rw [max_def]
  split_ifs <;> omega

theorem atMost (a b : Int) : (if a > b then b else a) = min a b := by
  rw [min_def]
  split_ifs <;> omega

/-- The window with its bounds. -/
theorem byScoreWindow_eq (m : Nat) (o : ByScoreOpts) :
    byScoreWindow m o = ((min (max 0 (int32 o.limOff)) m).toNat,
      (min (m - min (max 0 (int32 o.limOff)) m) (if o.limCnt < 0 then (m : Int) else int32 o.limCnt)).toNat) := by
  unfold byScoreWindow
  simp only [atLeastZero, atMost]

section
variable {α : Type} {l : List α} {o : ByScoreOpts}

/-- What the code shows of the matches. -/
def shown (l : List α) (o : ByScoreOpts) : List α :=
  (l.drop (byScoreWindow l.length o).1).take (byScoreWindow l.length o).2

theorem length_shown (l : List α) (o : ByScoreOpts) : (shown l o).length = (byScoreWindow l.length o).2 := by
  unfold shown
  rw [List.length_take, List.length_drop, byScoreWindow_eq]
  dsimp only
  have h0 : 0 ≤ min (max 0 (int32 o.limOff)) (l.length : Int) := le_min (le_max_left _ _) (Int.natCast_nonneg _)
  generalize min (max 0 (int32 o.limOff)) (l.length : Int) = skip at h0 ⊢
  generalize (if o.limCnt < 0 then (l.length : Int) else int32 o.limCnt) = take
  omega

theorem limited_eq (l : List α) (off cnt : Int) :
    limited l off cnt = (l.drop off.toNat).take (if cnt < 0 then l.length else cnt.toNat) := by
  unfold limited
  split
  · rw [List.take_of_length_le]
    rw [List.length_drop]
    omega
  · rfl

/-- Where the offset is among the matches the skip is the offset. -/
theorem skip_of_lt {m : Nat} (hm : m ≤ 256) (h0 : 0 ≤ o.limOff) (hlt : o.limOff < m) :
    min (max 0 (int32 o.limOff)) (m : Int) = o.limOff := by
  rw [int32_of_le h0 (by omega), max_eq_right h0, min_eq_left hlt.le]

theorem shown_of_lt (hm : l.length ≤ 256) (h0 : 0 ≤ o.limOff) (hlt : o.limOff < l.length) :
    shown l o = (l.drop o.limOff.toNat).take
      (min (l.length - o.limOff) (if o.limCnt < 0 then (l.length : Int) else int32 o.limCnt)).toNat := by
  unfold shown
  rw [byScoreWindow_eq, skip_of_lt hm h0 hlt]

theorem length_eq_of_lt (hm : l.length ≤ 256) (h0 : 0 ≤ o.limOff) (hlt : o.limOff < l.length) :
    (shown l o).length = (limited l o.limOff o.limCnt).length ↔ SameWindow l.length o.limOff o.limCnt := by
  rw [length_shown, byScoreWindow_eq, skip_of_lt hm h0 hlt, limited_eq, List.length_take, List.length_drop]
  unfold SameWindow
  rcases Int.lt_or_le o.limCnt 0 with hneg | hpos
  · rw [if_pos hneg, if_pos hneg]
    refine iff_of_true (by omega) ⟨fun _ => .inl hneg, fun hle => absurd hlt (Int.not_lt.2 hle)⟩
  · rw [if_neg (Int.not_lt.2 hpos), if_neg (Int.not_lt.2 hpos)]
    have hz : o.limCnt = 0 → int32 o.limCnt = 0 := fun h => by rw [h]; rfl
    have hsame : ((min ((l.length : Int) - o.limOff) (int32 o.limCnt)).toNat =
        min o.limCnt.toNat (l.length - o.limOff.toNat)) ↔
        min ((l.length : Int) - o.limOff) (int32 o.limCnt) = min (l.length - o.limOff) o.limCnt := by omega
    constructor
    · intro h
      exact ⟨fun _ => .inr (hsame.1 h), fun hle => absurd hlt (Int.not_lt.2 hle)⟩
    · rintro ⟨h, -⟩
      exact hsame.2 ((h hlt).resolve_left (Int.not_lt.2 hpos))

/-- Where it is behind them nothing is to be shown. -/
theorem length_eq_of_le (hle : (l.length : Int) ≤ o.limOff) :
    (shown l o).length = (limited l o.limOff o.limCnt).length ↔ SameWindow l.length o.limOff o.limCnt := by
  have hnil : limited l o.limOff o.limCnt = [] := by
    rw [limited_eq, List.drop_eq_nil_of_le (by omega), List.take_nil]
  rw [length_shown, byScoreWindow_eq, hnil, List.length_nil]
  unfold SameWindow
  have h0 : 0 ≤ max 0 (int32 o.limOff) := le_max_left _ _
  generalize max 0 (int32 o.limOff) = skip at h0 ⊢
  generalize int32 o.limCnt = cnt
  rcases Int.lt_or_le o.limCnt 0 with hneg | hpos
  · rw [if_pos hneg]
    constructor
    · intro h
      exact ⟨fun hlt => absurd hle (Int.not_le.2 hlt), fun _ => .inl (by omega)⟩
    · rintro ⟨-, h⟩
      rcases h hle with h | ⟨h, -⟩ <;> omega
  · rw [if_neg (Int.not_lt.2 hpos)]
    constructor
    · intro h
      exact ⟨fun hlt => absurd hle (Int.not_le.2 hlt), fun _ => by omega⟩
    · rintro ⟨-, h⟩
      rcases h hle with h | ⟨-, h⟩ <;> omega

/-- **Where the narrowing does not show**: by the length already. -/
theorem shown_iff (hm : l.length ≤ 256) (h0 : 0 ≤ o.limOff) :
    ((shown l o).length = (limited l o.limOff o.limCnt).length ↔ SameWindow l.length o.limOff o.limCnt) ∧
      (SameWindow l.length o.limOff o.limCnt → shown l o = limited l o.limOff o.limCnt) := by
  by_cases hlt : o.limOff < l.length
  · have hlen := length_eq_of_lt hm h0 hlt
    refine ⟨hlen, fun hs => ?_⟩
    have hle := hlen.2 hs
    rw [shown_of_lt hm h0 hlt, limited_eq, List.length_take, List.length_take] at hle
    rw [shown_of_lt hm h0 hlt, limited_eq]
    exact List.take_eq_take_iff.2 hle
  · have hlen := length_eq_of_le (l := l) (o := o) (Int.not_lt.1 hlt)
    refine ⟨hlen, fun hs => ?_⟩
    have hnil : limited l o.limOff o.limCnt = [] := by
      rw [limited_eq, List.drop_eq_nil_of_le (by omega), List.take_nil]
    rw [hnil]
    exact List.length_eq_zero_iff.1 ((hlen.2 hs).trans (congrArg List.length hnil))

end

/-! ## The reply -/

theorem length_of_arrayHdr {m n : Nat} {s s' : Bytes} (h : Resp.arrayHdr m ++ s = Resp.arrayHdr n ++ s') : m = n := by
  unfold Resp.arrayHdr at h
  simp only [List.cons_append, List.append_assoc, List.cons.injEq, true_and] at h
  exact Decimal.ofNat_injective (Resp.line_inj (Resp.line_ofNat m) (Resp.line_ofNat n) h).1

section
variable [Libc]

/-- The reply tells how many nodes it lists. -/
theorem length_of_nodesReply {withscores : Bool} {ns ns' : List ArZNode}
    (h : nodesReply withscores ns = nodesReply withscores ns') : ns.length = ns'.length := by
  unfold nodesReply at h
  cases withscores with
  | false => exact length_of_arrayHdr h
  | true =>
    have hlen : 2 * ns.length = 2 * ns'.length := length_of_arrayHdr (by exact_mod_cast h)
    omega

/-- The header is of the nodes that follow it. -/
theorem Writes.nodes {cid : Nat} (withscores : Bool) {ns : List ArZNode} (hlen : ns.length ≤ 4096) :
    Writes cid (replyMembers cid withscores ns.length ns) (nodesReply withscores ns) := by
  have h2 : int32 ((ns.length : Int) * 2) = 2 * ns.length := by
    rw [int32_of_le (by omega) (by omega), Int.mul_comm]
  unfold replyMembers replyArray nodesReply
  rw [h2]
  cases withscores with
  | false => exact (Writes.append cid _).bind (.each (Writes.member false) _)
  | true => exact (Writes.append cid _).bind (.each (Writes.member true) _)

section
variable {O : Outside} {w : World} {t cid : Nat} {key : Bytes} {i : Item} {z : ArZSet} {argv : List Bytes}
  {minv maxv : CDouble} {o : ByScoreOpts}

/-- What the code shows, as a reply. -/
theorem exec_zrangebyscore (hO : O.AllocOk) (hE : (O.env w.calls).Frozen t) (hwf : w.core.WF)
    (hp : w.core.peek t key = some i) (ho : i.obj = .zset z) (hz : ArZSet.Sorted z.arr)
    (hcid : cid < w.core.conns.length) (hargc : 4 ≤ argv.length) (hkey : arg argv 1 = key)
    (hmin : parseDouble (arg argv 2) = some minv) (hmax : parseDouble (arg argv 3) = some maxv)
    (hnan : minv.isNaN = false ∧ maxv.isNaN = false) (hopts : byScoreOpts (argv.drop 4) {} = .ok o) :
    ∃ w', (zrangebyscore cid argv).exec O w = (w', some ()) ∧
      (w'.conn cid).wbuf = (w.conn cid).wbuf ++ nodesReply o.withscores (shown (inRange minv maxv z.arr) o) := by
  have hans : (ArOp.run (O.env w.calls) w.core (.arZsetGet key)).2 = .found z.arr :=
    (readZset_found hE hwf hp ho ArZSet.arr).1
  unfold zrangebyscore
  rw [if_neg (Nat.not_lt.2 hargc), hmin, hmax, hopts, hkey]
  refine Writes.after_op _ hO hE hwf rfl hcid ?_
  rw [hans]
  dsimp only
  rw [filter_inRange hnan.1 hnan.2 hz.2]
  split
  · next h0 =>
    have hnil : inRange minv maxv z.arr = [] := by rw [List.length_eq_zero_iff.1 h0]; rfl
    have hshown : shown (inRange minv maxv z.arr) o = [] := by
      unfold shown
      rw [hnil, List.drop_nil, List.take_nil]
    rw [hshown]
    unfold nodesReply
    rw [List.flatMap_nil, List.append_nil]
    cases o.withscores <;> exact .append cid _
  · show Writes cid (replyMembers cid _ (byScoreWindow _ o).2 (shown _ o)) _
    rw [← length_shown]
    refine .nodes _ (le_trans ?_ ((length_inRange_le minv maxv z.arr).trans (by decide)))
    exact ((List.take_sublist _ _).trans (List.drop_sublist _ _)).length_le

/-- **`ZRANGEBYSCORE` with a `LIMIT`** lists the window that the offset and the count say, each member followed
by its score when asked for, under the header of what it lists, exactly when narrowing them to 32 bits leaves the
window as it is. -/
theorem zrangebyscore_limit (hO : O.AllocOk) (hE : (O.env w.calls).Frozen t) (hwf : w.core.WF)
    (hp : w.core.peek t key = some i) (ho : i.obj = .zset z) (hz : ArZSet.Sorted z.arr)
    (hcid : cid < w.core.conns.length) (hargc : 4 ≤ argv.length) (hkey : arg argv 1 = key)
    (hmin : parseDouble (arg argv 2) = some minv) (hmax : parseDouble (arg argv 3) = some maxv)
    (hnan : minv.isNaN = false ∧ maxv.isNaN = false) (hopts : byScoreOpts (argv.drop 4) {} = .ok o)
    (hoff : 0 ≤ o.limOff) :
    ∃ w', (zrangebyscore cid argv).exec O w = (w', some ()) ∧
      ((w'.conn cid).wbuf = (w.conn cid).wbuf ++
          nodesReply o.withscores (limited (inRange minv maxv z.arr) o.limOff o.limCnt) ↔
        SameWindow (inRange minv maxv z.arr).length o.limOff o.limCnt) := by
  obtain ⟨w', hrun, hbuf⟩ :=
    exec_zrangebyscore hO hE hwf hp ho hz hcid hargc hkey hmin hmax hnan hopts
  refine ⟨w', hrun, ?_⟩
  rw [hbuf, List.append_cancel_left_eq]
  obtain ⟨hlen, hsame⟩ := shown_iff (length_inRange_le minv maxv z.arr) hoff
  constructor
  · intro h
    exact hlen.1 (length_of_nodesReply h)
  · intro h
    rw [hsame h]

end

end

/-! ## Two commands -/

theorem wholeNumber_buf_ofInt {n : Int} (h : Fits64 n) : (buf 32 (ofInt n)).bind wholeNumber = some n := by
  obtain ⟨hpos, hlen⟩ := length_ofInt_le h
  have hint := intArg_ofInt h
  unfold intArg nbuf at hint
  unfold buf
  rw [if_neg (by omega)] at hint ⊢
  exact hint

/-- Every offset and count can be asked for, with the scores or without. -/
theorem byScoreOpts_limit {off cnt : Int} (hoff : Fits64 off) (hcnt : Fits64 cnt) (withscores : Bool) :
    byScoreOpts ([lit "LIMIT", ofInt off, ofInt cnt] ++ if withscores then [lit "WITHSCORES"] else []) {} =
      .ok ⟨withscores, off, cnt⟩ := by
  have hno : cmdEq (lit "LIMIT") "withscores" = false := by decide
  have hyes : cmdEq (lit "LIMIT") "limit" = true := by decide
  have hscores : cmdEq (lit "WITHSCORES") "withscores" = true := by decide
  simp only [List.cons_append, List.nil_append, byScoreOpts, hno, hyes, wholeNumber_buf_ofInt hoff,
    wholeNumber_buf_ofInt hcnt]
  cases withscores <;> simp [byScoreOpts, hscores]

/-- `ZRANGEBYSCORE` of all scores, with a `LIMIT`. -/
def byScoreArgv (off cnt : Int) : List Bytes :=
  [lit "ZRANGEBYSCORE", lit "z", lit "-inf", lit "inf", lit "LIMIT", ofInt off, ofInt cnt]

/-- A set of two members. -/
def twoNodes : List ArZNode := [⟨⟨0#64⟩, lit "a"⟩, ⟨⟨0x3FF0000000000000#64⟩, lit "b"⟩]

def scoreCalls : List Call := [.steady 1000 (.arZsetZadd (lit "z") twoNodes)]

def scoreWorld : World := { core := ArCore.arCoreCreate.runCalls scoreCalls }

theorem wf_scoreWorld : scoreWorld.core.WF := by
  have h := ArCore.Reachable.create.runCalls scoreCalls
  dsimp only [scoreWorld]
  exact h.wf

theorem peek_scoreWorld : scoreWorld.core.peek 1000 (lit "z") = some ⟨lit "z", .zset ⟨twoNodes, 8⟩, false, 0⟩ := by
  decide +kernel

theorem sorted_twoNodes : ArZSet.Sorted twoNodes := ⟨⟨by decide, by decide⟩, by decide⟩

theorem slot_scoreWorld : 0 < scoreWorld.core.conns.length := by decide +kernel

theorem parseDouble_infinity [Libc] : parseDouble (lit "inf") = some .infinity := by
  unfold parseDouble
  rw [if_neg (by decide), if_neg (by decide), if_pos (by decide)]

theorem parseDouble_negInfinity [Libc] : parseDouble (lit "-inf") = some .negInfinity := by
  unfold parseDouble
  rw [if_neg (by decide), if_pos (by decide)]

/-- The second member and nothing else. -/
theorem zrangebyscore_second :
    let _ : Libc := smallLibc
    ∃ w', (zrangebyscore 0 (byScoreArgv 1 5)).exec (.steady 1000) scoreWorld = (w', some ()) ∧
      ((w'.conn 0).wbuf = (scoreWorld.conn 0).wbuf ++
          nodesReply false (limited (inRange .negInfinity .infinity twoNodes) 1 5) ↔
        SameWindow (inRange .negInfinity .infinity twoNodes).length 1 5) := by
  intro _
  exact zrangebyscore_limit (O := .steady 1000) (w := scoreWorld) (t := 1000)
    (z := ⟨twoNodes, 8⟩) (o := ⟨false, 1, 5⟩) (fun _ _ => rfl)
    (fun _ => rfl) wf_scoreWorld peek_scoreWorld rfl sorted_twoNodes slot_scoreWorld (by decide) rfl
    parseDouble_negInfinity parseDouble_infinity ⟨rfl, rfl⟩ (byScoreOpts_limit (by decide) (by decide) false) (by decide)

/-- From the offset `2 ^ 32` of two members both are shown. -/
theorem zrangebyscore_wraps :
    let _ : Libc := smallLibc
    limited (inRange .negInfinity .infinity twoNodes) (2 ^ 32) (-1) = [] ∧
      ∃ w', (zrangebyscore 0 (byScoreArgv (2 ^ 32) (-1))).exec (.steady 1000) scoreWorld = (w', some ()) ∧
        (w'.conn 0).wbuf = (scoreWorld.conn 0).wbuf ++ nodesReply false twoNodes := by
  intro _
  have hshown : shown (inRange .negInfinity .infinity twoNodes) ⟨false, 2 ^ 32, -1⟩ = twoNodes := by decide
  refine ⟨by decide, ?_⟩
  rw [← hshown]
  exact exec_zrangebyscore (O := .steady 1000) (w := scoreWorld) (t := 1000)
    (z := ⟨twoNodes, 8⟩) (o := ⟨false, 2 ^ 32, -1⟩) (fun _ _ => rfl)
    (fun _ => rfl) wf_scoreWorld peek_scoreWorld rfl sorted_twoNodes slot_scoreWorld (by decide) rfl
    parseDouble_negInfinity parseDouble_infinity ⟨rfl, rfl⟩ (byScoreOpts_limit (by decide) (by decide) false)

end AuraRedis
