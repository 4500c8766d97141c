import AuraRedis.Server.Proof.Fits
import AuraRedis.Server.Proof.Frame

/-!
# The authentication gate

While a password is set, a connection that has not given it is `Locked`. `exec_locked`: what `dispatch` does
for it is what `locked` does, which looks at nothing but the command. So such a connection changes nothing
but itself, and is told the same whatever there is in the key space (`auth_gate`).
-/

set_option autoImplicit false

namespace AuraRedis

open Code Prog

namespace Dispatch

/-! ## What a locked connection gets -/

/-- Whether `HELLO` finds a password among its arguments. -/
def helloAsks : List Bytes → Bool
  | a :: b :: rest => cmdEq a "auth" || helloAsks (b :: rest)
  | _ => false

/-- A command that is let through, when it has not the password. -/
def lockedAllowed (c : Nat) (argv : List Bytes) : Code Unit :=
  if cmdEq (arg argv 0) "auth" then
    if authPassword argv = none then wrongArgs c "auth" else replyErr c wrongPass
  else if cmdEq (arg argv 0) "hello" then
    if helloAsks (argv.drop 1) then replyErr c wrongPass
    else wbufAppend c (lit "*4\r\n$6\r\nserver\r\n$10\r\naura-redis\r\n" ++ lit "$7\r\nversion\r\n$3\r\n0.1\r\n")
  else if cmdEq (arg argv 0) "ping" then ping c argv
  else quit c argv

/-- **All that a locked connection gets.** -/
def locked (c : Nat) (argv : List Bytes) : Code Unit :=
  if argv.length < 1 then replyErr c "ERR empty command"
  else do
    eff (.noteLastCmd c (arg argv 0))
    if cmdAllowedUnauth (arg argv 0) then lockedAllowed c argv else replyErr c "NOAUTH Authentication required."

/-- No password is given, neither by `AUTH` nor by `HELLO`. -/
def WithoutPassword (pass : Bytes) (argv : List Bytes) : Prop :=
  (cmdEq (arg argv 0) "auth" || cmdEq (arg argv 0) "hello") = true → ∀ a ∈ argv.drop 1, a ≠ pass

end Dispatch

open Dispatch

/-- A password is set, and the connection has not given it. -/
structure World.Locked (c : Nat) (w : World) : Prop where
  pass : w.core.cfg.requirepass ≠ []
  authenticated : (w.conn c).authenticated = false
  pubsubMode : (w.conn c).pubsubMode = false
  inMulti : (w.conn c).tx.inMulti = false

section
variable {O : Outside} {c : Nat} {argv : List Bytes} {w w' : World}

theorem refusal_locked {core : ArCore} (hp : core.cfg.requirepass ≠ []) (ha : (core.conn c).authenticated = false)
    (hs : (core.conn c).pubsubMode = false) : refusal core (core.conn c) argv =
      if cmdAllowedUnauth (arg argv 0) then none else some "NOAUTH Authentication required." := by
  unfold refusal
  cases hallow : cmdAllowedUnauth (arg argv 0) with
  | false => simp [hp, ha, hallow]
  | true =>
    -- none of the four commands is one a replica refuses
    have hnot : cmdIsWrite (arg argv 0) = false ∧ cmdEq (arg argv 0) "config" = false := by
      obtain ⟨name, hm, hn⟩ := List.any_eq_true.1 hallow
      rw [cmdIsWrite_congr hn, cmdEq_congr hn]
      simp only [List.mem_cons, List.not_mem_nil, or_false] at hm
      obtain rfl | rfl | rfl | rfl := hm <;> exact ⟨by decide, by decide⟩
    simp [hs, hallow, hnot.1, hnot.2]

theorem helloAuth_locked {pass : Bytes} (hp : pass ≠ []) {l : List Bytes} (hl : ∀ a ∈ l, a ≠ pass) :
    helloAuth c pass l = pure (!helloAsks l) := by
  induction l with
  | nil => rfl
  | cons a l ih =>
    cases l with
    | nil => rfl
    | cons b rest =>
      unfold helloAuth helloAsks
      cases ha : cmdEq a "auth" with
      | false =>
        simp only [Bool.false_and, Bool.false_eq_true, if_false, Bool.false_or]
        exact ih fun x hx => hl x (.tail _ hx)
      | true =>
        have hne : rest.headD b ≠ pass := by
          cases rest with
          | nil => exact hl b (.tail _ (.head _))
          | cons d rest => exact hl d (.tail _ (.tail _ (.head _)))
        rw [if_pos (by simp [hp]), if_neg hne]
        rfl

theorem mem_of_authPassword {pw : Bytes} (h : authPassword argv = some pw) : pw ∈ argv.drop 1 := by
  unfold authPassword at h
  match argv, h with
  | [a, b], h => cases h; exact .head _
  | [a, b, d], h => cases h; exact .tail _ (.head _)

/-- The branch that `auth` and its like find. -/
theorem lookup_congr (table : List (String × (Nat → List Bytes → Code Unit))) {cmd : Bytes} {name : String}
    (h : cmdEq cmd name = true) : lookup table cmd = lookup table (lit name) := by
  unfold lookup
  rw [funext fun b : String × (Nat → List Bytes → Code Unit) => cmdEq_congr h b.1]

/-! ### The tables

A command is looked up among names, so its place in a table is found without the branches. -/

/-- The names of the commands of transactions. -/
def txNames : List String := ["watch", "unwatch", "multi", "discard", "exec"]

/-- The names of the other commands. -/
def commandNames : List String :=
  ["sync", "replicaof", "slaveof", "auth", "hello", "ping", "quit", "shutdown", "save", "bgsave",
   "get", "set", "setnx", "setex", "psetex", "getset", "expire", "ttl", "pttl", "pexpire", "expireat",
   "pexpireat", "del", "unlink", "append", "strlen", "rename", "renamenx", "exists", "mget", "mset",
   "incr", "decr", "incrby", "decrby", "dbsize", "flushdb", "command", "evict", "client", "config",
   "info", "shadow", "hotcold", "hot_cold", "policy", "pin", "unpin", "layout", "plugin",
   "zadd", "zscore", "zrem", "zcard", "zrange", "zrangebyscore", "lpush", "rpush", "lpop", "rpop",
   "llen", "lindex", "lrange", "lrem", "ltrim", "type", "hset", "hget", "hmget", "hgetall", "hdel",
   "hexists", "hlen", "hincrby", "hscan", "subscribe", "unsubscribe", "publish", "scan",
   "keys", "slowlog"]

/-- Where a command stands among names. -/
def place (names : List String) (cmd : Bytes) : Option Nat := names.findIdx? (cmdEq cmd)

theorem lookup_eq {table : List (String × (Nat → List Bytes → Code Unit))} {names : List String}
    (h : table.map (·.1) = names) (cmd : Bytes) :
    lookup table cmd = (place names cmd).bind fun i => (table[i]?).map (·.2) := by
  unfold lookup place
  rw [List.find?_eq_bind_findIdx?_getElem?, ← h, List.findIdx?_map, Option.map_bind]
  rfl

theorem lookup_txCommands {cmd : Bytes} (h : place txNames cmd = none) (nested : Nat → List Bytes → Code Unit) :
    lookup (txCommands nested) cmd = none := by
  have hnames : (txCommands nested).map (·.1) = txNames := rfl
  rw [lookup_eq hnames, h]
  rfl

theorem lookup_commands [Libc] {cmd : Bytes} {i : Nat} (h : place commandNames cmd = some i) :
    lookup commands cmd = (commands[i]?).map (·.2) := by
  have hnames : commands.map (·.1) = commandNames := rfl
  rw [lookup_eq hnames, h]
  rfl

theorem lookup_txCommands_locked (nested : Nat → List Bytes → Code Unit) {cmd : Bytes}
    (h : cmdAllowedUnauth cmd = true) : lookup (txCommands nested) cmd = none := by
  obtain ⟨name, hm, hn⟩ := List.any_eq_true.1 h
  rw [lookup_congr _ hn]
  simp only [List.mem_cons, List.not_mem_nil, or_false] at hm
  obtain rfl | rfl | rfl | rfl := hm
  all_goals exact lookup_txCommands (by decide) nested

/-- The four commands find their branches. -/
theorem lookup_commands_locked [Libc] : lookup commands (lit "auth") = some auth ∧
    lookup commands (lit "hello") = some hello ∧ lookup commands (lit "ping") = some ping ∧
    lookup commands (lit "quit") = some quit :=
  ⟨lookup_commands (i := 3) (by decide), lookup_commands (i := 4) (by decide),
    lookup_commands (i := 5) (by decide), lookup_commands (i := 6) (by decide)⟩

theorem runCommand_of_lookup [Libc] {name : String} {h : Nat → List Bytes → Code Unit}
    (hn : cmdEq (arg argv 0) name = true) (hl : lookup commands (lit name) = some h) : runCommand c argv = h c argv := by
  unfold runCommand
  rw [lookup_congr _ hn, hl]

/-- The branch of a command that is let through. -/
theorem exec_lockedAllowed [Libc] (hw : w.Locked c) (hpw : WithoutPassword w.core.cfg.requirepass argv)
    (hallow : cmdAllowedUnauth (arg argv 0) = true) :
    (runCommand c argv).exec O w = (lockedAllowed c argv).exec O w := by
  obtain ⟨hauth, hhello, hping, hquit⟩ := lookup_commands_locked
  unfold lockedAllowed
  split
  · rename_i hc
    rw [runCommand_of_lookup hc hauth]
    unfold auth
    rw [exec_step]
    show (if w.core.cfg.requirepass = [] then _ else _ : Code Unit).exec O w = _
    rw [if_neg hw.pass]
    cases hs : authPassword argv with
    | none => rfl
    | some pw =>
      have hne : pw ≠ w.core.cfg.requirepass := hpw (by simp [hc]) pw (mem_of_authPassword hs)
      show (if pw = w.core.cfg.requirepass then _ else _ : Code Unit).exec O w = _
      rw [if_neg hne]
      rfl
  · rename_i hnauth
    split
    · rename_i hc
      rw [runCommand_of_lookup hc hhello]
      unfold hello
      rw [exec_step]
      show (helloAuth c w.core.cfg.requirepass (argv.drop 1) >>= _).exec O w = _
      rw [helloAuth_locked hw.pass (hpw (by simp [hc]))]
      cases helloAsks (argv.drop 1) <;> rfl
    · rename_i hnhello
      split
      · rename_i hc
        rw [runCommand_of_lookup hc hping]
      · rename_i hnping
        have hc : cmdEq (arg argv 0) "quit" = true := by
          unfold cmdAllowedUnauth at hallow
          simpa [hnauth, hnhello, hnping] using hallow
        rw [runCommand_of_lookup hc hquit]

/-- **For a locked connection `dispatch` does what `locked` does.** -/
theorem exec_locked [Libc] (hw : w.Locked c) (hpw : WithoutPassword w.core.cfg.requirepass argv) :
    (dispatch c argv).exec O w = (locked c argv).exec O w := by
  unfold dispatch dispatchBy locked
  split
  · rfl
  · rw [exec_step, exec_step, exec_step]
    have hsame : (w.conn c).Same (((Eff.noteLastCmd c (arg argv 0)).perform O w).1.conn c) :=
      same_updConn _ _ _ fun x => ⟨rfl, rfl, rfl, rfl, rfl, rfl, rfl, rfl, rfl⟩
    have hw₁ : ((Eff.noteLastCmd c (arg argv 0)).perform O w).1.Locked c :=
      ⟨hw.pass, hsame.authenticated.trans hw.authenticated, hsame.pubsubMode.trans hw.pubsubMode,
        hsame.inMulti.trans hw.inMulti⟩
    have hpw₁ : WithoutPassword ((Eff.noteLastCmd c (arg argv 0)).perform O w).1.core.cfg.requirepass argv := hpw
    generalize ((Eff.noteLastCmd c (arg argv 0)).perform O w).1 = w₁ at hw₁ hpw₁ ⊢
    have hcore : Eff.core.perform O w₁ = (w₁, w₁.core) := rfl
    rw [hcore]
    dsimp only
    rw [refusal_locked hw₁.pass hw₁.authenticated hw₁.pubsubMode]
    cases hallow : cmdAllowedUnauth (arg argv 0) with
    | false => rfl
    | true =>
      rw [lookup_txCommands_locked _ hallow]
      show Code.exec (if (w₁.core.conn c).tx.inMulti = true then _ else _) O w₁ = _
      have hmulti : ¬(w₁.core.conn c).tx.inMulti = true := Bool.eq_false_iff.1 hw₁.inMulti
      rw [if_neg hmulti]
      exact exec_lockedAllowed hw₁ hpw₁ hallow

/-! ## What it changes -/

/-- An effect on what a connection is sent, is called or is to become. -/
def Eff.Own (c : Nat) : Eff → Prop
  | noteLastCmd i _ | append i _ | closeSoon i => i = c
  | _ => False

/-- Nothing but the one connection is different, and that is in the same state. -/
structure World.OnlyConn (c : Nat) (w w' : World) : Prop where
  core : w.core.Beside w'.core
  others : ∀ i, i ≠ c → w'.conn i = w.conn i
  same : (w.conn c).Same (w'.conn c)
  disk : w'.disk = w.disk
  child : w'.child = w.child

/-- Worlds that differ in the key space, the accounts and the statistics at most. -/
structure World.SameButKeys (w w' : World) : Prop where
  conns : w'.core.conns = w.core.conns
  pos : w'.core.pos = w.core.pos
  cfg : w'.core.cfg = w.core.cfg
  srv : w'.core.srv = w.core.srv
  calls : w'.calls = w.calls
  disk : w'.disk = w.disk
  child : w'.child = w.child

theorem World.OnlyConn.refl (c : Nat) (w : World) : w.OnlyConn c w := ⟨rfl, fun _ _ => rfl, .refl _, rfl, rfl⟩

theorem World.OnlyConn.trans {w₁ w₂ w₃ : World} (h : w₁.OnlyConn c w₂) (h' : w₂.OnlyConn c w₃) :
    w₁.OnlyConn c w₃ :=
  ⟨h.core.trans h'.core, fun i hi => (h'.others i hi).trans (h.others i hi), h.same.trans h'.same,
    h'.disk.trans h.disk, h'.child.trans h.child⟩

theorem conn_wbufAppend_of_ne (E : Env) (core : ArCore) {c i : Nat} (hi : i ≠ c) (data : Bytes) :
    (core.wbufAppend E c data).1.conn i = core.conn i := by
  unfold ArCore.wbufAppend
  dsimp only
  split
  · exact conn_updConn_of_ne _ hi _
  · split
    · rfl
    · exact conn_updConn_of_ne (core.malloc E).1 hi _

theorem onlyConn_perform {e : Eff} (he : e.Own c) : w.OnlyConn c (e.perform O w).1 := by
  cases e with
  | append i data =>
    obtain rfl : i = c := he
    exact ⟨beside_wbufAppend .., fun j hj => conn_wbufAppend_of_ne _ _ hj data, same_wbufAppend .., rfl, rfl⟩
  | noteLastCmd i cmd | closeSoon i =>
    obtain rfl : i = c := he
    exact ⟨rfl, fun j hj => conn_updConn_of_ne _ hj _,
      same_updConn _ _ _ fun x => ⟨rfl, rfl, rfl, rfl, rfl, rfl, rfl, rfl, rfl⟩, rfl, rfl⟩
  | _ => exact he.elim

theorem own_append (data : Bytes) : (wbufAppend c data).Only (Eff.Own c) := by
  unfold wbufAppend check
  exact .bind (.perform rfl) fun ok => .ite trivial trivial

theorem own_locked (c : Nat) (argv : List Bytes) : (locked c argv).Only (Eff.Own c) := by
  unfold locked
  refine .ite (own_append _) (.bind (.perform rfl) fun _ => .ite ?_ (own_append _))
  unfold lockedAllowed
  refine .ite (.ite (own_append _) (own_append _)) (.ite (.ite (own_append _) (own_append _)) (.ite ?_ ?_))
  · exact .ite (own_append _) (.ite (own_append _) (own_append _))
  · exact .bind (.attempt (own_append _)) fun _ => .perform rfl

/-- A command of a locked connection changes nothing but that connection. -/
theorem onlyConn_dispatch [Libc] (hw : w.Locked c) (hpw : WithoutPassword w.core.cfg.requirepass argv) :
    w.OnlyConn c ((dispatch c argv).exec O w).1 := by
  rw [exec_locked hw hpw]
  exact exec_invariant (own_locked c argv) (fun _ _ he h => h.trans (onlyConn_perform he)) (.refl c w)

theorem locked_of_same (h : w.Locked c) (hs : (w.conn c).Same (w'.conn c)) (hp : w'.core.cfg.requirepass ≠ []) :
    w'.Locked c :=
  ⟨hp, hs.authenticated.trans h.authenticated, hs.pubsubMode.trans h.pubsubMode, hs.inMulti.trans h.inMulti⟩

/-! ## What it is told -/

theorem sameButKeys_perform {e : Eff} (he : e.Own c) (h : w.SameButKeys w') :
    (e.perform O w).1.SameButKeys (e.perform O w').1 ∧ (e.perform O w).2 = (e.perform O w').2 := by
  obtain ⟨⟨dict, mem, stats, pos, cfg, conns, srv⟩, calls, disk, child⟩ := w
  obtain ⟨⟨dict', mem', stats', pos', cfg', conns', srv'⟩, calls', disk', child'⟩ := w'
  obtain ⟨rfl, rfl, rfl, rfl, rfl, rfl, rfl⟩ := h
  cases e with
  | append i data =>
    simp only [Eff.perform, ArCore.wbufAppend, ArCore.conn, ArCore.malloc]
    by_cases hroom : (conns'.getD i {}).wbuf.length + data.length ≤ (conns'.getD i {}).wcap
    · simp only [hroom, if_true]
      exact ⟨⟨rfl, rfl, rfl, rfl, rfl, rfl, rfl⟩, trivial⟩
    · simp only [hroom, if_false]
      by_cases hok : (O.env calls').alloc pos'.alloc = true
      · simp only [hok, Bool.not_true, Bool.false_eq_true, if_false]
        exact ⟨⟨rfl, rfl, rfl, rfl, rfl, rfl, rfl⟩, trivial⟩
      · simp only [hok, Bool.not_false, if_true]
        exact ⟨⟨rfl, rfl, rfl, rfl, rfl, rfl, rfl⟩, trivial⟩
  | noteLastCmd i cmd | closeSoon i => exact ⟨⟨rfl, rfl, rfl, rfl, rfl, rfl, rfl⟩, rfl⟩
  | _ => exact he.elim

/-- **A locked connection is told the same** whatever there is in the key space. -/
theorem sameButKeys_dispatch [Libc] (hw : w.Locked c) (hpw : WithoutPassword w.core.cfg.requirepass argv)
    (h : w.SameButKeys w') :
    ((dispatch c argv).exec O w).1.SameButKeys ((dispatch c argv).exec O w').1 ∧
      ((dispatch c argv).exec O w).2 = ((dispatch c argv).exec O w').2 := by
  have hconn : w'.conn c = w.conn c := by
    unfold World.conn ArCore.conn
    rw [h.conns]
  have hw' : w'.Locked c := locked_of_same hw (hconn ▸ .refl _) (by rw [h.cfg]; exact hw.pass)
  have hpw' : WithoutPassword w'.core.cfg.requirepass argv := by
    rw [h.cfg]
    exact hpw
  rw [exec_locked hw hpw, exec_locked hw' hpw']
  exact exec_pair (own_locked c argv) (fun _ _ _ he hs => sameButKeys_perform he hs) h

/-! ## Sessions -/

/-- What else may happen between two commands of a connection: anything, while the connection is left in its
state and a password stays set. -/
structure World.Elsewhere (c : Nat) (w w' : World) : Prop where
  same : (w.conn c).Same (w'.conn c)
  pass : w'.core.cfg.requirepass ≠ []

/-- The commands of a connection, each with the world it is dispatched in, none with the password that is then
in force; and what happens in between. -/
inductive Session [Libc] (O : Outside) (c : Nat) : World → List (World × List Bytes) → World → Prop
  | nil (w : World) : Session O c w [] w
  | command {w w' : World} {argv : List Bytes} {cmds : List (World × List Bytes)} :
      WithoutPassword w.core.cfg.requirepass argv → Session O c ((dispatch c argv).exec O w).1 cmds w' →
      Session O c w ((w, argv) :: cmds) w'
  | elsewhere {w w₁ w' : World} {cmds : List (World × List Bytes)} : w.Elsewhere c w₁ →
      Session O c w₁ cmds w' → Session O c w cmds w'

/-- A connection accepted while a password is set is locked. -/
theorem locked_connAlloc {fd : Int} (hp : w.core.cfg.requirepass ≠ [])
    (ha : ((Eff.connAlloc fd).perform O w).2 = some c) : ((Eff.connAlloc fd).perform O w).1.Locked c := by
  have hcfg : ((Eff.connAlloc fd).perform O w).1.core.cfg = w.core.cfg := (Eff.perform_beside O w rfl).cfg
  obtain ⟨-, x, now, hconn⟩ := connAlloc_some (O.env w.calls) c ha
  have hconn : ((Eff.connAlloc fd).perform O w).1.conn c = _ := hconn
  refine ⟨by rw [hcfg]; exact hp, ?_, ?_, ?_⟩
  · rw [hconn]
    simpa using hp
  · rw [hconn]
    rfl
  · rw [hconn]
    rfl

theorem session_locked [Libc] {cmds : List (World × List Bytes)} (hs : Session O c w cmds w') (hw : w.Locked c) :
    w'.Locked c ∧ ∀ x ∈ cmds, x.1.Locked c ∧ WithoutPassword x.1.core.cfg.requirepass x.2 := by
  induction hs with
  | nil => exact ⟨hw, fun x hx => absurd hx List.not_mem_nil⟩
  | @command w w' argv cmds hpw _ ih =>
    have ho := onlyConn_dispatch (O := O) hw hpw
    have hpass : ((dispatch c argv).exec O w).1.core.cfg.requirepass ≠ [] := by
      have : ((dispatch c argv).exec O w).1.core.cfg = w.core.cfg := ho.core.cfg
      rw [this]
      exact hw.pass
    obtain ⟨hw', hx⟩ := ih (locked_of_same hw ho.same hpass)
    exact ⟨hw', List.forall_mem_cons.2 ⟨⟨hw, hpw⟩, hx⟩⟩
  | elsewhere he _ ih => exact ih (locked_of_same hw he.same he.pass)

/-- **The authentication gate.** A connection accepted while a password is set, that never gives the password in
force, never becomes authenticated; each of its commands changes nothing but that connection, and does the same
whatever there is in the key space. -/
theorem auth_gate [Libc] {fd : Int} {cmds : List (World × List Bytes)} {w₀ : World}
    (hp : w₀.core.cfg.requirepass ≠ []) (ha : ((Eff.connAlloc fd).perform O w₀).2 = some c)
    (hs : Session O c ((Eff.connAlloc fd).perform O w₀).1 cmds w') :
    (w'.conn c).authenticated = false ∧
      ∀ x ∈ cmds, (x.1.conn c).authenticated = false ∧
        x.1.OnlyConn c ((dispatch c x.2).exec O x.1).1 ∧
        ∀ w₂, x.1.SameButKeys w₂ →
          ((dispatch c x.2).exec O x.1).1.SameButKeys ((dispatch c x.2).exec O w₂).1 ∧
            ((dispatch c x.2).exec O x.1).2 = ((dispatch c x.2).exec O w₂).2 := by
  obtain ⟨hw', hx⟩ := session_locked hs (locked_connAlloc hp ha)
  refine ⟨hw'.authenticated, fun x hm => ?_⟩
  obtain ⟨hl, hpw⟩ := hx x hm
  exact ⟨hl.authenticated, onlyConn_dispatch hl hpw, fun w₂ h => sameButKeys_dispatch hl hpw h⟩

/-- A server with a password and one slot. -/
def passWorld : World :=
  { core := { ArCore.arCoreCreate with cfg := { requirepass := lit "secret" }, conns := [{}] } }

/-- A wrong password, then a read. -/
theorem auth_gate_sample :
    let _ : Libc := smallLibc
    let w₁ := ((Eff.connAlloc 4).perform (.steady 5) passWorld).1
    let w₂ := ((dispatch 0 [lit "AUTH", lit "guess"]).exec (.steady 5) w₁).1
    let w₃ := ((dispatch 0 [lit "GET", lit "k"]).exec (.steady 5) w₂).1
    (w₃.conn 0).authenticated = false ∧
      ∀ x ∈ [(w₁, [lit "AUTH", lit "guess"]), (w₂, [lit "GET", lit "k"])],
        (x.1.conn 0).authenticated = false ∧
          x.1.OnlyConn 0 ((dispatch 0 x.2).exec (.steady 5) x.1).1 ∧
          ∀ w, x.1.SameButKeys w →
            ((dispatch 0 x.2).exec (.steady 5) x.1).1.SameButKeys ((dispatch 0 x.2).exec (.steady 5) w).1 ∧
              ((dispatch 0 x.2).exec (.steady 5) x.1).2 = ((dispatch 0 x.2).exec (.steady 5) w).2 := by
  intro _ w₁ w₂ w₃
  have hp : passWorld.core.cfg.requirepass = lit "secret" := rfl
  have ha : ((Eff.connAlloc 4).perform (.steady 5) passWorld).2 = some 0 := rfl
  have hcfg : w₁.core.cfg = passWorld.core.cfg := (Eff.perform_beside _ _ rfl).cfg
  have hpw : WithoutPassword w₁.core.cfg.requirepass [lit "AUTH", lit "guess"] := by
    intro _ a hm
    rw [hcfg, hp, List.mem_singleton.1 hm]
    decide
  have hread : WithoutPassword w₂.core.cfg.requirepass [lit "GET", lit "k"] := fun h =>
    absurd h (by decide)
  exact auth_gate (by rw [hp]; decide) ha (.command hpw (.command hread (.nil _)))

end

end AuraRedis
