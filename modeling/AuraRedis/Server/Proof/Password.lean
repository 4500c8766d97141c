import AuraRedis.Server.Proof.Ran

/-!
# The password

`CONFIG SET requirepass` keeps of a password what a C string of 255 bytes holds (`pass_of_configSet`), and `AUTH`
compares all of what it is given (`opens_with`). So a connection accepted afterwards gives the password that was set
to be let in, unless that is longer or holds a zero (`password_exact_iff`).
-/

set_option autoImplicit false

namespace AuraRedis

open Code Prog Dispatch
open CString (cstr)

section
variable {O : Outside} {c i : Nat} {argv : List Bytes} {w w₁ w₂ w₃ : World} {p q v : Bytes} {fd : Int}
  {nested : Nat → List Bytes → Code Unit}

/-! ## What is kept -/

/-- The passwords of which nothing is lost. -/
theorem cut_eq_self_iff : cut 256 p = p ↔ p.length ≤ 255 ∧ 0 ∉ p := by
  constructor
  · intro h
    have hlen : (cut 256 p).length ≤ 255 :=
      (List.takeWhile_sublist _).length_le.trans ((List.length_take ..).le.trans (Nat.min_le_left ..))
    have hnul : 0 ∉ cut 256 p := CString.cstr_noNul _
    rw [h] at hlen hnul
    exact ⟨hlen, hnul⟩
  · rintro ⟨hlen, hnul⟩
    rw [cut_eq hnul, take_of_le hlen]

/-- The effects of what follows a setting. -/
def Eff.KeepsCfg : Eff → Prop
  | .core | .ask | .writeFile _ _ | .append _ _ => True
  | _ => False

theorem cfg_configSetOk (O : Outside) (w : World) (c : Nat) : ((configSetOk c).exec O w).1.core.cfg = w.core.cfg := by
  have happend : ∀ data, (wbufAppend c data).Only Eff.KeepsCfg := fun data =>
    .bind (.perform trivial) fun _ => .ite trivial trivial
  have hrewrite : arConfigRewrite.Only Eff.KeepsCfg := by
    unfold arConfigRewrite
    refine .bind (.perform trivial) fun _ => .ite trivial (.bind (.perform trivial) fun _ => ?_)
    exact .ite trivial (.bind (.perform trivial) fun _ => .ite trivial (.perform trivial))
  have honly : (configSetOk c).Only Eff.KeepsCfg := by
    unfold configSetOk
    refine .bind (.perform trivial) fun _ => .ite ?_ (happend _)
    exact .bind hrewrite fun _ => happend _
  refine exec_invariant (I := fun w' => w'.core.cfg = w.core.cfg) honly ?_ rfl
  intro e w' he h
  cases e with
  | core | ask => exact h
  | writeFile path data => exact (congrArg ArCore.cfg (Eff.core_writeFile ..)).trans h
  | append c data => exact (beside_wbufAppend ..).cfg.trans h
  | _ => exact he.elim

/-- The setting of a password, when it says `OK`. -/
theorem pass_of_setting (hok : (((Knob.requirepass.setting c v).exec O w).1.conn c).wbuf = (w.conn c).wbuf ++ okReply) :
    ((Knob.requirepass.setting c v).exec O w).1.core.cfg.requirepass = v := by
  unfold Knob.setting at hok ⊢
  have hset : ∃ w₁ ok, (Knob.requirepass.set v).exec O w = (w₁, some ok) ∧
      (ok = true → w₁.core.cfg.requirepass = v) ∧ (w₁.conn c).wbuf = (w.conn c).wbuf := by
    show ∃ w₁ ok, (setRequirepass v).exec O w = (w₁, some ok) ∧ _
    unfold setRequirepass
    rw [exec_step]
    by_cases hv : v = []
    · rw [if_pos hv]
      exact ⟨_, true, rfl, fun _ => hv.symm, rfl⟩
    · rw [if_neg hv, exec_step]
      cases hm : (Eff.malloc.perform O ((Eff.setCfg fun g => { g with requirepass := [] }).perform O w).1).2 with
      | false => exact ⟨_, false, rfl, fun h => absurd h (by decide), rfl⟩
      | true => exact ⟨_, true, rfl, fun _ => rfl, rfl⟩
  obtain ⟨w₁, ok, hrun, hpass, hbuf⟩ := hset
  rw [exec_seq hrun] at hok ⊢
  cases ok with
  | false =>
    rw [← hbuf] at hok
    exact absurd hok (not_told_err _)
  | true =>
    show ((configSetOk c).exec O w₁).1.core.cfg.requirepass = v
    rw [cfg_configSetOk]
    exact hpass rfl

/-- **What `CONFIG SET requirepass` keeps**, when it says `OK`. -/
theorem pass_of_configSet [Libc] {cmd sub key : Bytes} (hcmd : cmdEq cmd "config" = true)
    (hsub : cmdEq sub "set" = true) (hkey : cmdEq key "requirepass" = true)
    (hok : (((dispatchBy nested c [cmd, sub, key, p]).exec O w).1.conn c).wbuf = (w.conn c).wbuf ++ okReply) :
    ((dispatchBy nested c [cmd, sub, key, p]).exec O w).1.core.cfg.requirepass = cut 256 p := by
  have hbranch : lookup commands (lit "config") = some config := lookup_commands (i := 40) (by decide)
  have hname : cmdEq (arg [cmd, sub, key, p] 0) "config" = true := hcmd
  have hran : (dispatchBy nested c [cmd, sub, key, p]).exec O w =
      (Dispatch.config c [cmd, sub, key, p]).exec O (w.noted c [cmd, sub, key, p]) :=
    ran_of_ok (by simp) hname (by decide) hbranch hok
  rw [hran] at hok ⊢
  have hrun : Dispatch.config c [cmd, sub, key, p] = Knob.requirepass.setting c (cut 256 p) := by
    have hget : cmdEq sub "get" = false := by
      rw [cmdEq_congr hsub]
      decide
    unfold Dispatch.config
    rw [if_neg (by simp), show arg [cmd, sub, key, p] 1 = sub from rfl, hget, hsub]
    exact Knob.configSetTo_eq (s := "requirepass") (.head _) hkey (by decide) c (cut 256 p)
  rw [hrun] at hok ⊢
  rw [← wbuf_noted w c c [cmd, sub, key, p]] at hok
  exact pass_of_setting hok

/-! ## What AUTH takes -/

/-- The connection is let in, and told so when there is memory for it. -/
structure LetIn (i : Nat) (w : World) (x : World × Option Unit) : Prop where
  authenticated : (x.1.conn i).authenticated = true
  told : x.2 = some () → (x.1.conn i).wbuf = (w.conn i).wbuf ++ okReply

/-- It is not, and told so. -/
structure TurnedAway (i : Nat) (w : World) (x : World × Option Unit) : Prop where
  authenticated : (x.1.conn i).authenticated = false
  told : x.2 = some () → (x.1.conn i).wbuf = (w.conn i).wbuf ++ errReply wrongPass

/-- `AUTH` lets a connection in with this password, and with no other. -/
def OpensWith [Libc] (O : Outside) (i : Nat) (w : World) (p : Bytes) : Prop :=
  ∀ argv q, cmdEq (arg argv 0) "auth" = true → authPassword argv = some q →
    if q = p then LetIn i w ((dispatch i argv).exec O w) else TurnedAway i w ((dispatch i argv).exec O w)

theorem slot_of_inUse (h : (w.conn i).inUse = true) : i < w.core.conns.length := by
  by_contra hi
  have hnone : w.core.conns[i]? = none := List.getElem?_eq_none (Nat.le_of_not_lt hi)
  unfold World.conn ArCore.conn at h
  rw [List.getD_eq_getElem?_getD, hnone] at h
  cases h

theorem refusal_auth {core : ArCore} {x : ArConn} (hauth : cmdEq (arg argv 0) "auth" = true)
    (hmode : x.pubsubMode = false) : refusal core x argv = none := by
  have hallow : cmdAllowedUnauth (arg argv 0) = true := by
    unfold cmdAllowedUnauth
    simp [hauth]
  have hwrite : cmdIsWrite (arg argv 0) = false := by
    rw [cmdIsWrite_congr hauth]
    decide
  have hconfig : cmdEq (arg argv 0) "config" = false := by
    rw [cmdEq_congr hauth]
    decide
  unfold refusal
  simp [hallow, hwrite, hconfig, hmode]

/-- `AUTH` comes to its branch. -/
theorem exec_dispatch_auth [Libc] (hauth : cmdEq (arg argv 0) "auth" = true)
    (hmode : (w.conn i).pubsubMode = false) (hmulti : (w.conn i).tx.inMulti = false) (hne : argv ≠ []) :
    (dispatch i argv).exec O w = (auth i argv).exec O (w.noted i argv) := by
  have hsame := same_noted w i i argv
  have htx : lookup (txCommands dispatchQueued) (arg argv 0) = none := by
    rw [lookup_congr _ hauth]
    exact lookup_txCommands (by decide) _
  unfold dispatch
  rw [exec_dispatchBy hne htx, refusal_auth hauth (hsame.pubsubMode.trans hmode)]
  dsimp only
  rw [if_neg (by rw [hsame.inMulti, hmulti]; decide), runCommand_of_lookup hauth lookup_commands_locked.1]

/-- **What `AUTH` takes** is what is kept, when something is. -/
theorem opens_with [Libc] (hpass : w.core.cfg.requirepass ≠ []) (huse : (w.conn i).inUse = true)
    (hmode : (w.conn i).pubsubMode = false) (hmulti : (w.conn i).tx.inMulti = false)
    (hnot : (w.conn i).authenticated = false) : OpensWith O i w w.core.cfg.requirepass := by
  intro argv q hauth hq
  have hne : argv ≠ [] := by
    rintro rfl
    cases hq
  have hsame := same_noted w i i argv
  have hbuf := wbuf_noted w i i argv
  have hcfg : (w.noted i argv).core.cfg = w.core.cfg := rfl
  rw [exec_dispatch_auth hauth hmode hmulti hne]
  generalize w.noted i argv = w₁ at hsame hbuf hcfg
  have hslot : i < w₁.core.conns.length := slot_of_inUse (hsame.inUse.trans huse)
  unfold auth
  rw [exec_step]
  have hcore : (Eff.core.perform O w₁).2.cfg = w.core.cfg := hcfg
  have hthere : ((Eff.core.perform O w₁).1 : World) = w₁ := rfl
  rw [hcore, hthere, if_neg hpass, hq]
  dsimp only
  split
  · rw [exec_step]
    have hconn : ((Eff.authenticate i).perform O w₁).1.conn i = { w₁.conn i with authenticated := true } :=
      conn_updConn_self hslot _
    have hslot' : i < ((Eff.authenticate i).perform O w₁).1.core.conns.length := by
      refine slot_of_inUse ?_
      rw [hconn]
      exact hsame.inUse.trans huse
    have htold := same_append O ((Eff.authenticate i).perform O w₁).1 i okReply
    refine ⟨htold.authenticated.trans (by rw [hconn]), fun h => ?_⟩
    refine (wbuf_appended hslot' h).trans ?_
    rw [hconn, ← hbuf]
    rfl
  · have htold := same_append O w₁ i (errReply wrongPass)
    refine ⟨htold.authenticated.trans (hsame.authenticated.trans hnot), fun h => ?_⟩
    rw [← hbuf]
    exact wbuf_appended hslot h

/-! ## A changed password -/

/-- **A password that was set** opens the connections accepted afterwards, and no other does, exactly when it is of
at most 255 bytes and none of them is zero. -/
theorem password_exact_iff [Libc] {cmd sub key : Bytes} (hcmd : cmdEq cmd "config" = true)
    (hsub : cmdEq sub "set" = true) (hkey : cmdEq key "requirepass" = true) (hp : p ≠ [])
    (hrun : ((dispatchBy nested c [cmd, sub, key, p]).exec O w).1 = w₁)
    (hok : (w₁.conn c).wbuf = (w.conn c).wbuf ++ okReply)
    (hpass : w₂.core.cfg.requirepass = w₁.core.cfg.requirepass)
    (hopen : ((Eff.connAlloc fd).perform O w₂).2 = some i)
    (hsame : (((Eff.connAlloc fd).perform O w₂).1.conn i).Same (w₃.conn i))
    (hpass' : w₃.core.cfg.requirepass = w₁.core.cfg.requirepass) :
    OpensWith O i w₃ p ↔ p.length ≤ 255 ∧ 0 ∉ p := by
  subst hrun
  have hkept := pass_of_configSet hcmd hsub hkey hok
  rw [hkept] at hpass hpass'
  obtain ⟨-, x, now, hconn⟩ := connAlloc_some (O.env w₂.calls) i hopen
  have hnew : ((Eff.connAlloc fd).perform O w₂).1.conn i = { ArConn.reset x with
    sock := [], fd := fd, inUse := true, lastActiveMs := now, authenticated := w₂.core.cfg.requirepass.isEmpty } := hconn
  rw [hpass] at hnew
  rw [hnew] at hsame
  have huse : (w₃.conn i).inUse = true := hsame.inUse
  have hauth : (w₃.conn i).authenticated = (cut 256 p).isEmpty := hsame.authenticated
  have hname : cmdEq (lit "AUTH") "auth" = true := by decide
  rw [← cut_eq_self_iff]
  by_cases hnone : cut 256 p = []
  · -- nothing is kept of the password, so any connection is let in without one
    refine iff_of_false (fun h => ?_) (by rw [hnone]; exact fun h => hp h.symm)
    have hempty := h [lit "AUTH", []] [] hname rfl
    rw [if_neg (Ne.symm hp)] at hempty
    have hstill : ((((dispatch i [lit "AUTH", []]).exec O w₃).1).conn i).authenticated = true := by
      have hmode : (w₃.conn i).pubsubMode = false := hsame.pubsubMode
      have hmulti : (w₃.conn i).tx.inMulti = false := hsame.inMulti
      rw [exec_dispatch_auth (by decide) hmode hmulti (by simp)]
      unfold auth
      rw [exec_step]
      have hcfg : (Eff.core.perform O (w₃.noted i [lit "AUTH", []])).2.cfg = w₃.core.cfg := rfl
      rw [hcfg, if_pos (hpass'.trans hnone)]
      refine (same_append O _ i _).authenticated.trans ((same_noted w₃ i i _).authenticated.trans ?_)
      rw [hauth, hnone]
      rfl
    rw [hempty.authenticated] at hstill
    cases hstill
  · have hopens : OpensWith O i w₃ (cut 256 p) := by
      have h := opens_with (O := O) (w := w₃) (i := i) (by rw [hpass']; exact hnone) huse hsame.pubsubMode hsame.inMulti
        (by rw [hauth]; simpa using hnone)
      rwa [hpass'] at h
    constructor
    · intro h
      -- the password that is kept is let in
      by_contra hne
      have hin := hopens [lit "AUTH", cut 256 p] (cut 256 p) hname rfl
      have hout := h [lit "AUTH", cut 256 p] (cut 256 p) hname rfl
      rw [if_pos rfl] at hin
      rw [if_neg hne] at hout
      have hboth := hin.authenticated.symm.trans hout.authenticated
      cases hboth
    · intro h
      rwa [h] at hopens

/-- A server of two slots; a connection has the first. -/
def twoSlots : World :=
  { core := { ArCore.arCoreCreate with conns := [{ inUse := true }, {}] } }

theorem password_exact_secret :
    let _ : Libc := smallLibc
    let w := ((dispatch 0 [lit "CONFIG", lit "SET", lit "requirepass", lit "secret"]).exec (.steady 5) twoSlots).1
    OpensWith (.steady 5) 1 ((Eff.connAlloc 4).perform (.steady 5) w).1 (lit "secret") ↔
      (lit "secret").length ≤ 255 ∧ 0 ∉ lit "secret" := by
  intro _ w
  have hcfg : ((Eff.connAlloc 4).perform (.steady 5) w).1.core.cfg = w.core.cfg := (Eff.perform_beside _ _ rfl).cfg
  have hcmd : cmdEq (lit "CONFIG") "config" = true := by decide
  have hsub : cmdEq (lit "SET") "set" = true := by decide
  have hkey : cmdEq (lit "requirepass") "requirepass" = true := by decide
  refine password_exact_iff (c := 0) hcmd hsub hkey (by decide) rfl ?_ rfl ?_ (.refl _) (congrArg Cfg.requirepass hcfg)
  · decide +kernel
  · decide +kernel

/-- A password with a zero in it: what comes before the zero opens the server. -/
theorem password_cut :
    let _ : Libc := smallLibc
    let p := lit "pass" ++ 0 :: lit "word"
    let w := ((dispatch 0 [lit "CONFIG", lit "SET", lit "requirepass", p]).exec (.steady 5) twoSlots).1
    let w' := ((Eff.connAlloc 4).perform (.steady 5) w).1
    (w.conn 0).wbuf = (twoSlots.conn 0).wbuf ++ okReply ∧ ((Eff.connAlloc 4).perform (.steady 5) w).2 = some 1 ∧
      ((((dispatch 1 [lit "AUTH", lit "pass"]).exec (.steady 5) w').1).conn 1).authenticated = true ∧
      ¬OpensWith (.steady 5) 1 w' p := by
  intro _ p w w'
  have hin : ((((dispatch 1 [lit "AUTH", lit "pass"]).exec (.steady 5) w').1).conn 1).authenticated = true := by
    decide +kernel
  refine ⟨by decide +kernel, by decide +kernel, hin, fun h => ?_⟩
  have hout := h [lit "AUTH", lit "pass"] (lit "pass") (by decide) rfl
  rw [if_neg (by decide)] at hout
  rw [hout.authenticated] at hin
  cases hin

end

end AuraRedis
