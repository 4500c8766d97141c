import AuraRedis.Lib.Ring
import AuraRedis.Server.Latency
import AuraRedis.Server.Proof.Counter
import AuraRedis.Server.Proof.Locked
import AuraRedis.Server.Proof.Writes
import AuraRedis.Server.Status

/-!
# The slow log

`SLOWLOG` reads a ring whose size `CONFIG SET` changes without moving what is in it. `Logged` is what a core then
has of the commands that were logged, `LogRun` the runs in which no change of the size moves a slot that is still
read and no entry is written behind the ring, and `slowlog_runs` what `SLOWLOG` shows in them.
-/

set_option autoImplicit false

namespace AuraRedis

open Code Dispatch Prog Ring
open CString (atoi length_ofInt_le strtoll_ofInt)
open Decimal (ofInt)

/-! ## The log -/

/-- One entry was logged next before another. -/
def Follows (a b : ArSlowEntry) : Prop := a.id = (b.id + 1) % 2 ^ 64

/-- The ring of a core has the newest of the entries logged, whose ids go down from the next one. -/
structure Logged (c : ArCore) (log : List ArSlowEntry) : Prop where
  recent : Recent c.srv.slowlog c.cfg.slowlogMaxLen c.srv.slowlogHead c.srv.slowlogLen log
  slots : c.srv.slowlog.length = 128
  ids : log.IsChain Follows
  next : ∀ e ∈ log.head?, c.srv.slowlogNextId = (e.id + 1) % 2 ^ 64

/-- The slow log is the same. -/
structure SameLog (c c' : ArCore) : Prop where
  slowlog : c'.srv.slowlog = c.srv.slowlog
  head : c'.srv.slowlogHead = c.srv.slowlogHead
  len : c'.srv.slowlogLen = c.srv.slowlogLen
  nextId : c'.srv.slowlogNextId = c.srv.slowlogNextId
  maxLen : c'.cfg.slowlogMaxLen = c.cfg.slowlogMaxLen

theorem SameLog.trans {c c' c'' : ArCore} (h : SameLog c c') (h' : SameLog c' c'') : SameLog c c'' :=
  ⟨h'.1.trans h.1, h'.2.trans h.2, h'.3.trans h.3, h'.4.trans h.4, h'.5.trans h.5⟩

section
variable {c c' : ArCore} {log : List ArSlowEntry}

theorem Logged.same (h : Logged c log) (hs : SameLog c c') : Logged c' log where
  recent := by
    rw [hs.slowlog, hs.head, hs.len, hs.maxLen]
    exact h.recent
  slots := by rw [hs.slowlog, h.slots]
  ids := h.ids
  next := by
    rw [hs.nextId]
    exact h.next

theorem Logged.maxLen_le (h : Logged c log) : c.cfg.slowlogMaxLen ≤ 128 := by
  have hle := h.recent.size_le
  rw [h.slots] at hle
  exact hle

theorem logged_create : Logged .arCoreCreate [] where
  recent := ⟨by decide, by decide +kernel, by decide, by decide, by decide +kernel, fun i hi => by
    have h0 : ArCore.arCoreCreate.srv.slowlogLen = 0 := rfl
    omega⟩
  slots := rfl
  ids := .nil
  next := fun e he => by cases he

/-- An entry that is put in a slot of the ring. -/
theorem Logged.push (h : Logged c log) (hhead : c.srv.slowlogHead < c.cfg.slowlogMaxLen) (now : Int) (us : Nat)
    (argv : List Bytes) :
    Logged { c with srv := c.srv.slowlogPush c.cfg.slowlogMaxLen now us argv }
      (slowEntry c.srv.slowlogNextId now us argv :: log) where
  recent := h.recent.push hhead
  slots := by
    show (c.srv.slowlog.set _ _).length = 128
    rw [List.length_set, h.slots]
  ids := List.isChain_cons.2 ⟨h.next, h.ids⟩
  next := by
    intro e he
    cases he
    rfl

theorem Logged.clear (h : Logged c log) :
    Logged { c with srv := { c.srv with slowlogLen := 0, slowlogHead := 0 } } [] where
  recent := h.recent.clear
  slots := h.slots
  ids := .nil
  next := fun e he => by cases he

/-- Another size. -/
theorem Logged.resize (h : Logged c log) {n : Int} (h0 : 0 ≤ n) (hn : n ≤ 128)
    (hsame : ∀ i : Nat, (i : Int) < c.srv.slowlogLen → (i : Int) < n →
      slot n c.srv.slowlogHead i = slot c.cfg.slowlogMaxLen c.srv.slowlogHead i) :
    Logged { c with
      cfg := { c.cfg with slowlogMaxLen := n }
      srv := { c.srv with slowlogLen := if c.srv.slowlogLen > n then n else c.srv.slowlogLen } } log where
  recent := h.recent.resize h0 (by rw [h.slots]; exact hn) hsame
  slots := h.slots
  ids := h.ids
  next := h.next

/-- The newest entries are what `SLOWLOG GET` reads. -/
theorem Logged.map_nth (h : Logged c log) {m : Nat} (hm : (m : Int) ≤ c.srv.slowlogLen) :
    (List.range m).map (slowlogNth c) = log.take m := by
  rw [← h.recent.map_range {} hm]
  refine List.map_congr_left fun i hi => ?_
  have hlen := h.recent.len_le
  have hmax := h.maxLen_le
  have hi' := List.mem_range.1 hi
  have hfit : ¬(c.cfg.slowlogMaxLen ≤ 0 ∨ c.cfg.slowlogMaxLen > slowlogMax) := by
    unfold slowlogMax
    omega
  unfold slowlogNth
  simp only [if_neg hfit]
  rfl

end

/-! ## What is run -/

section
variable {O : Outside} {w : World} {c us : Nat} {argv : List Bytes}

/-- A command that passes the threshold, and is not `SLOWLOG` itself. -/
def IsSlow (g : Cfg) (us : Nat) (argv : List Bytes) : Prop :=
  (g.slowlogSlowerThanUs ≥ 0 ∧ (us : Int) ≥ g.slowlogSlowerThanUs) ∧
    argv.length > 0 ∧ cmdEq (arg argv 0) "slowlog" = false

instance (g : Cfg) (us : Nat) (argv : List Bytes) : Decidable (IsSlow g us argv) :=
  inferInstanceAs (Decidable ((_ ∧ _) ∧ _ ∧ _))

/-- The log after a command that took `us` microseconds. -/
def logAfter (O : Outside) (w : World) (us : Nat) (argv : List Bytes) (log : List ArSlowEntry) : List ArSlowEntry :=
  if IsSlow w.core.cfg us argv ∧ 0 < w.core.cfg.slowlogMaxLen then
    slowEntry w.core.srv.slowlogNextId (O.secs w.calls) us argv :: log
  else log

theorem same_noteLatency (s : ArSrv) (us : Nat) :
    (s.noteLatency us).slowlog = s.slowlog ∧ (s.noteLatency us).slowlogHead = s.slowlogHead ∧
      (s.noteLatency us).slowlogLen = s.slowlogLen ∧ (s.noteLatency us).slowlogNextId = s.slowlogNextId := by
  unfold ArSrv.noteLatency
  dsimp only
  split_ifs <;> exact ⟨rfl, rfl, rfl, rfl⟩

theorem exec_slowlogPush (h : w.core.cfg.slowlogMaxLen ≤ 128) :
    ((slowlogPush us argv).exec O w).1.core =
      if 0 < w.core.cfg.slowlogMaxLen then
        { w.core with srv := w.core.srv.slowlogPush w.core.cfg.slowlogMaxLen (O.secs w.calls) us argv }
      else w.core := by
  unfold slowlogPush
  rw [exec_step]
  show ((if w.core.cfg.slowlogMaxLen ≤ 0 then _ else _ : Code Unit).exec O w).1.core = _
  have hmax : (if w.core.cfg.slowlogMaxLen > slowlogMax then slowlogMax else w.core.cfg.slowlogMaxLen) =
      w.core.cfg.slowlogMaxLen := if_neg (Int.not_lt.2 h)
  by_cases hpos : 0 < w.core.cfg.slowlogMaxLen
  · rw [if_neg (Int.not_le.2 hpos), if_pos hpos]
    exact congrArg (fun m => { w.core with srv := w.core.srv.slowlogPush m (O.secs w.calls) us argv }) hmax
  · rw [if_pos (Int.not_lt.1 hpos), if_neg hpos]
    rfl

variable {log : List ArSlowEntry}

theorem Logged.pushed (us : Nat) (argv : List Bytes) (h : Logged w.core log)
    (hhead : 0 < w.core.cfg.slowlogMaxLen → w.core.srv.slowlogHead < w.core.cfg.slowlogMaxLen) :
    Logged ((slowlogPush us argv).exec O w).1.core
      (if 0 < w.core.cfg.slowlogMaxLen then
        slowEntry w.core.srv.slowlogNextId (O.secs w.calls) us argv :: log else log) := by
  rw [exec_slowlogPush h.maxLen_le]
  split
  · next hpos => exact h.push (hhead hpos) _ us argv
  · exact h

/-- **A command is noted**: a slow one is put in the log when its slot is one of the ring. -/
theorem Logged.note (h : Logged w.core log)
    (hhead : IsSlow w.core.cfg us argv → 0 < w.core.cfg.slowlogMaxLen →
      w.core.srv.slowlogHead < w.core.cfg.slowlogMaxLen) :
    Logged ((noteCmdLatency us argv).exec O w).1.core (logAfter O w us argv log) := by
  obtain ⟨hl, hh, hn, hi⟩ := same_noteLatency w.core.srv us
  have hnoted : Logged { w.core with srv := w.core.srv.noteLatency us } log :=
    h.same ⟨hl, hh, hn, hi, rfl⟩
  unfold noteCmdLatency logAfter
  rw [exec_step, exec_step]
  show Logged ((if w.core.cfg.slowlogSlowerThanUs ≥ 0 ∧ (us : Int) ≥ w.core.cfg.slowlogSlowerThanUs then _
    else _ : Code Unit).exec O { w with core := { w.core with srv := w.core.srv.noteLatency us } }).1.core _
  by_cases hslow : w.core.cfg.slowlogSlowerThanUs ≥ 0 ∧ (us : Int) ≥ w.core.cfg.slowlogSlowerThanUs
  · rw [if_pos hslow, exec_step]
    by_cases hcmd : argv.length > 0 ∧ cmdEq (arg argv 0) "slowlog" = false
    · rw [if_pos hcmd]
      have hboth : IsSlow w.core.cfg us argv := ⟨hslow, hcmd⟩
      have hpushed := Logged.pushed us argv (O := O)
        (w := ((Eff.setSrv fun s => { s with slowlogCount := (s.slowlogCount + 1) % 2 ^ 64 }).perform O
          { w with core := { w.core with srv := w.core.srv.noteLatency us } }).1)
        (hnoted.same ⟨rfl, rfl, rfl, rfl, rfl⟩) fun hpos => lt_of_eq_of_lt hh (hhead hboth hpos)
      have hid : slowEntry (w.core.srv.noteLatency us).slowlogNextId (O.secs w.calls) us argv =
          slowEntry w.core.srv.slowlogNextId (O.secs w.calls) us argv := by rw [hi]
      rw [← hid]
      by_cases hpos : 0 < w.core.cfg.slowlogMaxLen
      · rw [if_pos ⟨hboth, hpos⟩]
        rwa [if_pos (by exact hpos)] at hpushed
      · rw [if_neg fun hc => hpos hc.2]
        rwa [if_neg (by exact hpos)] at hpushed
    · rw [if_neg hcmd, if_neg fun hc => hcmd hc.1.2]
      exact hnoted.same ⟨rfl, rfl, rfl, rfl, rfl⟩
  · rw [if_neg hslow, if_neg fun hc => hslow hc.1.1]
    exact hnoted

/-- What changes only connections and files leaves the log. -/
theorem same_of_beside {p : Code Unit} (hp : p.Only fun e => e.isCore = false) (w : World) :
    SameLog w.core (p.exec O w).1.core := by
  have hrun := hp.run_invariant (h := Eff.perform O) (I := fun w' : World =>
    w'.core.srv = w.core.srv ∧ w'.core.cfg = w.core.cfg) (fun e w' he h => ?_) (s := w) ⟨rfl, rfl⟩
  · obtain ⟨hs, hc⟩ := hrun
    unfold Code.exec
    exact ⟨by rw [hs], by rw [hs], by rw [hs], by rw [hs], by rw [hc]⟩
  · have hb := Eff.perform_beside O w' he
    exact ⟨hb.srv.trans h.1, hb.cfg.trans h.2⟩

theorem beside_append (data : Bytes) : (wbufAppend c data).Only fun e => e.isCore = false :=
  .step rfl fun _ => .ite (.ret _ _) (.fail _)

theorem beside_configSetOk : (configSetOk c).Only fun e => e.isCore = false := by
  unfold configSetOk arConfigRewrite
  refine .bind (.perform rfl) fun core => .ite (.bind (.bind (.perform rfl) fun core => ?_) fun _ => ?_) ?_
  · refine .ite trivial (.bind (.perform rfl) fun _ => .ite trivial (.bind (.perform rfl) fun _ => ?_))
    exact .ite trivial (.perform rfl)
  · exact beside_append _
  · exact beside_append _

/-- **`SLOWLOG RESET`**. -/
theorem Logged.reset (h : Logged w.core log) (hargc : argv.length = 2) (hreset : cmdEq (arg argv 1) "reset" = true)
    (hlen : cmdEq (arg argv 1) "len" = false) : Logged ((slowlog c argv).exec O w).1.core [] := by
  unfold slowlog
  rw [if_neg (by omega), hlen, if_neg (by decide), if_pos hreset, if_neg (not_not.2 hargc), exec_step]
  have hs := same_of_beside (O := O) (p := replyOk c) (beside_append _)
    ((Eff.setSrv fun s => { s with slowlogLen := 0, slowlogHead := 0 }).perform O w).1
  exact h.clear.same hs

/-- The size that `CONFIG SET slowlog-max-len` sets. -/
def slowlogSize (val : Bytes) : Int :=
  let n := atoi (cut 256 val)
  if n < 0 then 0 else if n > slowlogMax then slowlogMax else n

/-- A size moves no slot that is still read. -/
def MovesNothing (core : ArCore) (n : Int) : Prop :=
  ∀ i : Nat, (i : Int) < core.srv.slowlogLen → (i : Int) < n →
    slot n core.srv.slowlogHead i = slot core.cfg.slowlogMaxLen core.srv.slowlogHead i

theorem configSet_slowlog (hargc : argv.length = 4) (hkey : arg argv 2 = lit "slowlog-max-len") :
    configSet c argv = (setSlowlogMaxLen (atoi (cut 256 (arg argv 3))) >>= fun _ => configSetOk c) := by
  have hk : ∀ s ∈ ["maxmemory", "requirepass", "protected-mode", "evict-samples", "samples", "maxclients", "timeout",
      "tcp-backlog", "slowlog-log-slower-than"], cmdEq (lit "slowlog-max-len") s = false := by decide
  have hyes : cmdEq (lit "slowlog-max-len") "slowlog-max-len" = true := by decide
  simp only [List.forall_mem_cons] at hk
  obtain ⟨h1, h2, h3, h4, h5, h6, h7, h8, h9, -⟩ := hk
  unfold configSet configSetTo
  rw [if_neg (not_not.2 hargc), hkey]
  simp only [h1, h2, h3, h4, h5, h6, h7, h8, h9, hyes, Bool.or_self, Bool.false_eq_true, if_false, if_true, setOption]

/-- **`CONFIG SET slowlog-max-len`** to such a size. -/
theorem Logged.configSet (h : Logged w.core log) (hargc : argv.length = 4)
    (hkey : arg argv 2 = lit "slowlog-max-len") (hmoves : MovesNothing w.core (slowlogSize (arg argv 3))) :
    Logged ((configSet c argv).exec O w).1.core log := by
  have h0 : 0 ≤ slowlogSize (arg argv 3) := by
    unfold slowlogSize slowlogMax
    dsimp only
    split_ifs <;> omega
  have hle : slowlogSize (arg argv 3) ≤ 128 := by
    unfold slowlogSize slowlogMax
    dsimp only
    split_ifs <;> omega
  have hs := same_of_beside (O := O) (beside_configSetOk (c := c)) ((setSlowlogMaxLen (atoi (cut 256 (arg argv 3)))).exec O w).1
  rw [configSet_slowlog hargc hkey]
  exact (h.resize h0 hle hmoves).same hs

/-! ## Runs -/

/-- The runs of commands that are noted, `SLOWLOG RESET` and `CONFIG SET slowlog-max-len` from a new core, with what
does not touch the log between them, and the entries logged since the last reset. Every entry is put in a slot of
the ring, and no size moves a slot that is still read. -/
inductive LogRun (O : Outside) : World → List ArSlowEntry → Prop
  | start {w : World} : w.core = .arCoreCreate → LogRun O w []
  | note {w : World} {log : List ArSlowEntry} (us : Nat) (argv : List Bytes) : LogRun O w log →
    (IsSlow w.core.cfg us argv → 0 < w.core.cfg.slowlogMaxLen →
      w.core.srv.slowlogHead < w.core.cfg.slowlogMaxLen) →
    LogRun O ((noteCmdLatency us argv).exec O w).1 (logAfter O w us argv log)
  | reset {w : World} {log : List ArSlowEntry} (c : Nat) : LogRun O w log →
    LogRun O ((slowlog c [lit "SLOWLOG", lit "RESET"]).exec O w).1 []
  | configSet {w : World} {log : List ArSlowEntry} (c : Nat) (val : Bytes) : LogRun O w log →
    MovesNothing w.core (slowlogSize val) →
    LogRun O ((configSet c [lit "CONFIG", lit "SET", lit "slowlog-max-len", val]).exec O w).1 log
  | aside {w w' : World} {log : List ArSlowEntry} : LogRun O w log → SameLog w.core w'.core → LogRun O w' log

theorem LogRun.logged (h : LogRun O w log) : Logged w.core log := by
  induction h with
  | start hw => rw [hw]; exact logged_create
  | note us argv _ hhead ih => exact ih.note hhead
  | reset c _ ih => exact ih.reset rfl (by decide) (by decide)
  | configSet c val _ hmoves ih => exact ih.configSet rfl rfl hmoves
  | aside _ hs ih => exact ih.same hs

end

/-! ## What is shown -/

/-- An entry as `SLOWLOG GET` replies it. -/
def slowEntryReply (e : ArSlowEntry) : Bytes :=
  Resp.arrayHdr 4 ++ (58 :: (ofInt (int64 e.id) ++ Resp.crlf) ++ (58 :: (ofInt e.unixTs ++ Resp.crlf) ++
    (58 :: (ofInt (int64 e.durationUs) ++ Resp.crlf) ++ (Resp.arrayHdr e.args.length ++ e.args.flatMap Resp.bulk))))

/-- What `SLOWLOG GET` replies. -/
def slowlogReply (es : List ArSlowEntry) : Bytes := Resp.arrayHdr es.length ++ es.flatMap slowEntryReply

theorem Writes.slowEntry (c : Nat) (e : ArSlowEntry) : Writes c (replySlowEntry c e) (slowEntryReply e) :=
  (Writes.append c _).bind ((Writes.append c _).bind ((Writes.append c _).bind ((Writes.append c _).bind
    ((Writes.append c _).bind (.each (fun _ => .append c _) _)))))

/-- As many entries are wanted as are asked for, or as there are. -/
theorem slowlogWant_ofInt {n len : Int} (h : Fits64 n) (h0 : 0 ≤ n) :
    slowlogWant len [lit "SLOWLOG", lit "GET", ofInt n] = .ok (min n len) := by
  obtain ⟨hpos, hlen⟩ := length_ofInt_le h
  have hn : nbuf (ofInt n) = some (ofInt n) := if_neg (by omega)
  unfold slowlogWant
  rw [if_pos (show [lit "SLOWLOG", lit "GET", ofInt n].length = 3 from rfl),
    show arg [lit "SLOWLOG", lit "GET", ofInt n] 2 = ofInt n from rfl, hn]
  simp only [strtoll_ofInt h, CString.cstr_ofInt]
  rw [if_neg (by omega), min_def]
  split_ifs <;> first | rfl | (congr 1; omega)

section
variable {O : Outside} {w : World} {c : Nat} {log : List ArSlowEntry}

theorem exec_slowlogLen (hO : O.AllocOk) (hc : c < w.core.conns.length) :
    ∃ w', (slowlog c [lit "SLOWLOG", lit "LEN"]).exec O w = (w', some ()) ∧
      (w'.conn c).wbuf = (w.conn c).wbuf ++ 58 :: (ofInt w.core.srv.slowlogLen ++ Resp.crlf) := by
  obtain ⟨w', hrun, ha⟩ := Writes.append c (58 :: (ofInt w.core.srv.slowlogLen ++ Resp.crlf)) O w hO hc
  exact ⟨w', hrun, ha.wbuf⟩

/-- **`SLOWLOG GET`** shows the newest entries, as many as there are in the ring at most. -/
theorem Logged.get (h : Logged w.core log) (hO : O.AllocOk) (hc : c < w.core.conns.length) {n : Int} (h0 : 0 ≤ n)
    (hn : Fits64 n) :
    ∃ w', (slowlog c [lit "SLOWLOG", lit "GET", ofInt n]).exec O w = (w', some ()) ∧
      (w'.conn c).wbuf = (w.conn c).wbuf ++ slowlogReply (log.take (min n w.core.srv.slowlogLen).toNat) ∧
      ((log.take (min n w.core.srv.slowlogLen).toNat).length : Int) = min n w.core.srv.slowlogLen := by
  have hlen0 := h.recent.len_nonneg
  have hm : ((min n w.core.srv.slowlogLen).toNat : Int) = min n w.core.srv.slowlogLen :=
    Int.toNat_of_nonneg (le_min h0 hlen0)
  have hle : ((min n w.core.srv.slowlogLen).toNat : Int) ≤ w.core.srv.slowlogLen := by omega
  have hread := h.map_nth hle
  have hlength : (log.take (min n w.core.srv.slowlogLen).toNat).length = (min n w.core.srv.slowlogLen).toNat := by
    rw [← hread, List.length_map, List.length_range]
  have hwrites : Writes c (replyArray c (min n w.core.srv.slowlogLen)
      (List.range (min n w.core.srv.slowlogLen).toNat) fun i => replySlowEntry c (slowlogNth w.core i))
      (slowlogReply (log.take (min n w.core.srv.slowlogLen).toNat)) := by
    have hflat : (List.range (min n w.core.srv.slowlogLen).toNat).flatMap
        (fun i => slowEntryReply (slowlogNth w.core i)) =
        (log.take (min n w.core.srv.slowlogLen).toNat).flatMap slowEntryReply := by
      rw [← hread, List.flatMap_map]
    unfold slowlogReply
    rw [hlength, ← hflat, hm]
    exact (Writes.append c _).bind (.each (fun i => .slowEntry c _) _)
  obtain ⟨w', hrun, ha⟩ := hwrites O w hO hc
  refine ⟨w', ?_, ha.wbuf, by rw [hlength, hm]⟩
  have hlen' : cmdEq (lit "GET") "len" = false := by decide
  have hreset : cmdEq (lit "GET") "reset" = false := by decide
  have hget : cmdEq (lit "GET") "get" = true := by decide
  unfold slowlog
  rw [if_neg (by simp), show arg [lit "SLOWLOG", lit "GET", ofInt n] 1 = lit "GET" from rfl, hlen', hreset, hget,
    if_neg (by decide), if_neg (by decide), if_pos rfl, exec_step]
  have hwant : slowlogWant (Eff.core.perform O w).2.srv.slowlogLen [lit "SLOWLOG", lit "GET", ofInt n] =
      .ok (min n w.core.srv.slowlogLen) := slowlogWant_ofInt hn h0
  rw [hwant]
  exact hrun

/-- **The slow log**: in such a run the entries it has are at most as many as it may have, and `SLOWLOG GET` shows
the newest of those logged since the last reset, newest first, whose ids go down one by one. -/
theorem slowlog_runs (h : LogRun O w log) :
    w.core.srv.slowlogLen ≤ w.core.cfg.slowlogMaxLen ∧ log.IsChain Follows ∧
      ∀ (O' : Outside) (c : Nat), O'.AllocOk → c < w.core.conns.length →
        (∃ w', (slowlog c [lit "SLOWLOG", lit "LEN"]).exec O' w = (w', some ()) ∧
          (w'.conn c).wbuf = (w.conn c).wbuf ++ 58 :: (ofInt w.core.srv.slowlogLen ++ Resp.crlf)) ∧
        ∀ n : Int, 0 ≤ n → Fits64 n →
          ∃ w', (slowlog c [lit "SLOWLOG", lit "GET", ofInt n]).exec O' w = (w', some ()) ∧
            (w'.conn c).wbuf = (w.conn c).wbuf ++ slowlogReply (log.take (min n w.core.srv.slowlogLen).toNat) ∧
            ((log.take (min n w.core.srv.slowlogLen).toNat).length : Int) = min n w.core.srv.slowlogLen := by
  have hl := h.logged
  refine ⟨hl.recent.len_le, hl.ids, fun O' c hO hc => ⟨?_, fun n h0 hn => ?_⟩⟩
  · exact exec_slowlogLen hO hc
  · exact hl.get hO hc h0 hn

end

/-! ## Two runs -/

/-- `CONFIG SET slowlog-max-len`. -/
def sized (n : String) (w : World) : World :=
  ((configSet 0 [lit "CONFIG", lit "SET", lit "slowlog-max-len", lit n]).exec (.steady 1000) w).1

/-- A command that took 20 ms. -/
def noted (w : World) : World := ((noteCmdLatency 20000 [lit "KEYS", lit "*"]).exec (.steady 1000) w).1

/-- Three commands in a ring of two. -/
def threeInTwo : World := noted (noted (noted (sized "2" { core := .arCoreCreate })))

theorem slowlog_runs_threeInTwo :
    ∃ log : List ArSlowEntry, log.map (·.id) = [2, 1, 0] ∧ log.IsChain Follows ∧
      threeInTwo.core.srv.slowlogLen ≤ threeInTwo.core.cfg.slowlogMaxLen := by
  have h0 : LogRun (.steady 1000) (sized "2" { core := .arCoreCreate }) [] :=
    .configSet 0 (lit "2") (.start rfl) fun i hi => by
      have hlen : ArCore.arCoreCreate.srv.slowlogLen = 0 := rfl
      have hi' : (i : Int) < ArCore.arCoreCreate.srv.slowlogLen := hi
      omega
  have h1 := h0.note 20000 [lit "KEYS", lit "*"] fun _ _ => by decide
  have h2 := h1.note 20000 [lit "KEYS", lit "*"] fun _ _ => by decide
  obtain ⟨hlen, hids, -⟩ := slowlog_runs (h2.note 20000 [lit "KEYS", lit "*"] fun _ _ => by decide)
  exact ⟨_, by decide, hids, hlen⟩

/-- Three commands in the ring of 128, and then its size 2. -/
def shrunk : World := sized "2" (noted (noted (noted { core := .arCoreCreate })))

/-- The newest two of three entries are shown as the first and the second. -/
theorem slowlog_shrunk :
    (((slowlog 0 [lit "SLOWLOG", lit "GET", lit "2"]).exec (.steady 1000) shrunk).1.conn 0).wbuf =
      (shrunk.conn 0).wbuf ++ slowlogReply [slowEntry 0 1 20000 [lit "KEYS", lit "*"],
        slowEntry 1 1 20000 [lit "KEYS", lit "*"]] ∧
    slowlogReply [slowEntry 0 1 20000 [lit "KEYS", lit "*"], slowEntry 1 1 20000 [lit "KEYS", lit "*"]] ≠
      slowlogReply [slowEntry 2 1 20000 [lit "KEYS", lit "*"], slowEntry 1 1 20000 [lit "KEYS", lit "*"]] := by
  constructor <;> decide

end AuraRedis
