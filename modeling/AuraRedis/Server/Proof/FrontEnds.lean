import AuraRedis.Server.Proof.SetCmd
import AuraRedis.Server.Proof.Told

/-!
# The two front ends of the configuration

A knob can be set by `CONFIG SET` and by a line of the file. Both read the value by the same rules (`Knob.takes`),
but `CONFIG SET` reads 255 bytes of it and does not know `off`, and the loader reads a long line in pieces.
`frontends_agree` says for which values the two come to the same.
-/

set_option autoImplicit false

namespace AuraRedis

open Code Prog Dispatch
open CString (CArray cstr isSpace fgets atoi strtoull)

/-! ## Where the two make the same of it -/

/-- The values of which `CONFIG SET` makes the same as the file: the cut after 255 bytes takes nothing that counts,
and a switch is not told `off`. -/
def Knob.Agrees (k : Knob) (v : Bytes) : Prop :=
  match k with
  | .maxmemory => (strtoull (v.take 255)).1 = (strtoull v).1
  | .requirepass | .dir => v.length ≤ 255
  | .protectedMode | .hotPromoteOnGet => v ≠ lit "off"
  | .dbfilename | .shadowPolicy | .bind => True
  | k => k.number (atoi (v.take 255)) = k.number (atoi v)

/-- When the loader reads the line in pieces, none is refused exactly when `CONFIG SET` takes `u`, and the last that
is told each knob before the first refused one makes of the configuration what `CONFIG SET` does: the knob has `u`,
another knob what it had. -/
def Knob.AgreesInPieces (g : Cfg) (k : Knob) (u : Bytes) (T : List (Knob × Bytes)) : Prop :=
  (k.takes saysOn u).isSome = T.all taken ∧
    ∀ j : Knob, j.atLast (T.takeWhile taken) g = if j = k then k.make saysOn u g else g

section
variable {v : Bytes} {g : Cfg}

theorem cut_eq (h0 : 0 ∉ v) : cut 256 v = v.take 255 :=
  CString.cstr_of_noNul fun h => h0 (List.mem_of_mem_take h)

theorem take_of_le (h : v.length ≤ 255) : v.take 255 = v := List.take_of_length_le h

theorem length_take_of_lt (h : 255 < v.length) : (v.take 255).length = 255 := by
  rw [List.length_take]
  omega

/-- Numbers are the same as soon as they are stored the same. -/
theorem store_number_inj {k : Knob} {m n : Int} (hm : k.number m = some n) {n' : Int}
    (h : k.store n g = k.store n' g) : n = n' := by
  cases k
  case evictSamples => exact congrArg Cfg.evictSamples h
  case maxclients => exact congrArg Cfg.maxclients h
  case timeout => exact congrArg Cfg.timeoutSec h
  case tcpBacklog => exact congrArg Cfg.tcpBacklog h
  case slowlogLogSlowerThan => exact congrArg Cfg.slowlogSlowerThanUs h
  case slowlogMaxLen => exact congrArg Cfg.slowlogMaxLen h
  case shadowSamplePct => exact congrArg Cfg.shadowSamplePct h
  case hotSoftCapPct => exact congrArg Cfg.hotSoftCapPct h
  case hotSoftCapMin => exact congrArg Cfg.hotSoftCapMin h
  all_goals cases hm

theorem number_agrees (k : Knob) (m n : Int) :
    ((k.number m).map k.store).map (· g) = ((k.number n).map k.store).map (· g) ↔ k.number m = k.number n := by
  refine ⟨fun h => ?_, fun h => by rw [h]⟩
  cases hm : k.number m with
  | none =>
    cases hn : k.number n with
    | none => rfl
    | some b => rw [hm, hn] at h; cases h
  | some a =>
    cases hn : k.number n with
    | none => rw [hm, hn] at h; cases h
    | some b =>
      rw [hm, hn] at h
      exact congrArg some (store_number_inj hm (Option.some.inj h))

theorem switch_agrees (h0 : 0 ∉ v) : saysOn (v.take 255) = Knob.fileOn v ↔ v ≠ lit "off" := by
  have hcstr : cstr (v.take 255) = v.take 255 := CString.cstr_of_noNul fun h => h0 (List.mem_of_mem_take h)
  unfold saysOn Knob.fileOn
  rw [hcstr]
  rcases Nat.lt_or_ge 255 v.length with hlong | hshort
  · have hno : ∀ l : List Bytes, (∀ a ∈ l, a.length < 255) → ∀ u : Bytes, 255 ≤ u.length → u ∉ l := by
      intro l hl u hu hm
      exact absurd (hl u hm) (Nat.not_lt.2 hu)
    have h₁ := hno [lit "no", lit "0", lit "false"] (by decide) (v.take 255) (by rw [length_take_of_lt hlong])
    have h₂ := hno [lit "no", lit "0", lit "false", lit "off"] (by decide) v hlong.le
    rw [decide_eq_false h₁, decide_eq_false h₂]
    refine iff_of_true rfl fun h => h₂ ?_
    simp [h]
  · rw [take_of_le hshort]
    by_cases hoff : v = lit "off"
    · rw [hoff]
      decide
    · have hsame : (v ∈ [lit "no", lit "0", lit "false"]) ↔ v ∈ [lit "no", lit "0", lit "false", lit "off"] := by
        simp [hoff]
      rw [decide_eq_decide.2 hsame]
      exact iff_of_true rfl hoff

/-- **Where `CONFIG SET` and the file make the same of a value.** -/
theorem takes_agree_iff {k : Knob} (hk : k ≠ .bind) (h0 : 0 ∉ v) :
    (k.takes saysOn (v.take 255)).map (· g) = (k.takes Knob.fileOn v).map (· g) ↔ k.Agrees v := by
  have hshort : ∀ on, v.length ≤ 255 → k.takes on (v.take 255) = k.takes on v := fun on h => by rw [take_of_le h]
  cases k
  case bind => exact absurd rfl hk
  case maxmemory =>
    constructor
    · intro h
      exact congrArg Cfg.maxmemory (Option.some.inj h)
    · intro h
      show some { g with maxmemory := (strtoull (v.take 255)).1 } = some { g with maxmemory := (strtoull v).1 }
      rw [show (strtoull (v.take 255)).1 = (strtoull v).1 from h]
  case requirepass =>
    constructor
    · intro h
      have hpass : v.take 255 = v := congrArg Cfg.requirepass (Option.some.inj h)
      have hlen := congrArg List.length hpass
      rw [List.length_take] at hlen
      show v.length ≤ 255
      omega
    · intro h
      rw [hshort _ h]
      rfl
  case dir =>
    constructor
    · intro h
      by_contra hlong
      have hlen := length_take_of_lt (Nat.lt_of_not_le hlong)
      have hne : v.take 255 ≠ [] := List.ne_nil_of_length_pos (by omega)
      have hbig : ¬v.length < 256 := fun h => hlong (Nat.le_of_lt_succ h)
      simp only [Knob.takes, hlen, hne, hbig, ne_eq, not_false_eq_true, and_false, if_false] at h
      cases h
    · intro h
      rw [hshort _ h]
      rfl
  case dbfilename =>
    refine iff_of_true ?_ trivial
    rcases Nat.lt_or_ge 255 v.length with hlong | h
    · have hbig : ¬v.length < 128 := by omega
      simp only [Knob.takes, length_take_of_lt hlong, hbig, show ¬255 < 128 by decide, and_false, if_false]
    · rw [hshort _ h]
      rfl
  case shadowPolicy =>
    refine iff_of_true ?_ trivial
    rcases Nat.lt_or_ge 255 v.length with hlong | h
    · have hbig : ¬v.length < 32 := by omega
      simp only [Knob.takes, length_take_of_lt hlong, hbig, show ¬255 < 32 by decide, if_false]
    · rw [hshort _ h]
      rfl
  case protectedMode =>
    constructor
    · intro h
      exact (switch_agrees h0).1 (congrArg Cfg.protectedMode (Option.some.inj h))
    · intro h
      show some { g with protectedMode := saysOn (v.take 255) } = some { g with protectedMode := Knob.fileOn v }
      rw [(switch_agrees h0).2 h]
  case hotPromoteOnGet =>
    constructor
    · intro h
      exact (switch_agrees h0).1 (congrArg Cfg.hotPromoteOnGet (Option.some.inj h))
    · intro h
      show some { g with hotPromoteOnGet := saysOn (v.take 255) } = some { g with hotPromoteOnGet := Knob.fileOn v }
      rw [(switch_agrees h0).2 h]
  case evictSamples => exact number_agrees .evictSamples (atoi (v.take 255)) (atoi v)
  case maxclients => exact number_agrees .maxclients (atoi (v.take 255)) (atoi v)
  case timeout => exact number_agrees .timeout (atoi (v.take 255)) (atoi v)
  case tcpBacklog => exact number_agrees .tcpBacklog (atoi (v.take 255)) (atoi v)
  case slowlogLogSlowerThan => exact number_agrees .slowlogLogSlowerThan (atoi (v.take 255)) (atoi v)
  case slowlogMaxLen => exact number_agrees .slowlogMaxLen (atoi (v.take 255)) (atoi v)
  case shadowSamplePct => exact number_agrees .shadowSamplePct (atoi (v.take 255)) (atoi v)
  case hotSoftCapPct => exact number_agrees .hotSoftCapPct (atoi (v.take 255)) (atoi v)
  case hotSoftCapMin => exact number_agrees .hotSoftCapMin (atoi (v.take 255)) (atoi v)

end

/-! ## The two runs -/

/-- An error. -/
def errReply (text : String) : Bytes := 45 :: (lit text ++ Resp.crlf)

/-- A knob of the core or of the server is set, or memory is asked for. -/
def SetsKnob : Eff → Prop
  | .op o => o.isKnob = true
  | .setCfg _ | .setSrv _ | .malloc => True
  | _ => False

section
variable {O O' : Outside} {w w' : World} {t c : Nat} {key v : Bytes}

theorem setsKnob_setWhen {ok : Bool} {p : Code Unit} (hp : p.Only SetsKnob) : (setWhen ok p).Only SetsKnob := by
  unfold setWhen
  exact .ite (hp.bind fun _ => trivial) trivial

theorem setsKnob_set (k : Knob) (v : Bytes) : (k.set v).Only SetsKnob := by
  cases k
  case requirepass =>
    refine .bind (.perform trivial) fun _ => .ite trivial (.bind (.perform trivial) fun _ => .ite trivial ?_)
    exact .bind (.perform trivial) fun _ => trivial
  case shadowPolicy =>
    show (setShadowPolicy v).Only SetsKnob
    unfold setShadowPolicy
    exact .ite trivial (.bind (.perform trivial) fun _ => trivial)
  case slowlogMaxLen => exact setsKnob_setWhen (.bind (.perform trivial) fun _ => .perform trivial)
  case maxmemory | evictSamples | hotSoftCapPct | hotSoftCapMin | hotPromoteOnGet =>
    show (setWhen true _).Only SetsKnob
    refine setsKnob_setWhen (.perform ?_)
    rfl
  case shadowSamplePct =>
    show (setWhen true _).Only SetsKnob
    refine setsKnob_setWhen (.perform ?_)
    trivial
  all_goals
    show (setWhen _ _).Only SetsKnob
    refine setsKnob_setWhen (.perform ?_)
    trivial

/-- Setting a knob tells the connections no more than that keys have gone. -/
theorem touched_setsKnob {α : Type} {p : Code α} (hO : ∀ n, (O.env n).Frozen t) (hp : p.Only SetsKnob)
    (hwf : w.core.WF) : ConnsTouched w.core.conns (p.exec O w).1.core.conns := by
  refine (hp.run_invariant (I := fun w' : World => w'.core.WF ∧ ConnsTouched w.core.conns w'.core.conns) ?_
    ⟨hwf, .refl _⟩).2
  rintro e w' he ⟨hwf', ht⟩
  cases e with
  | op o =>
    obtain ⟨g, s, hev, -⟩ := o.knob_evolves (B := .plain) (hO w'.calls) hwf' he
    exact ⟨hev.wf ⟨hwf'.dict, hwf'.objs⟩, ht.trans hev.conns⟩
  | setCfg f => exact ⟨⟨hwf'.dict, hwf'.objs⟩, ht⟩
  | setSrv f => exact ⟨⟨hwf'.dict, hwf'.objs⟩, ht⟩
  | malloc => exact ⟨⟨hwf'.dict, hwf'.objs⟩, ht⟩
  | _ => cases he

/-- The rewrite of the file leaves the core. -/
theorem core_arConfigRewrite (O : Outside) (w : World) :
    ∃ w₁ b, arConfigRewrite.exec O w = (w₁, some b) ∧ w₁.core = w.core := by
  have hsucc : arConfigRewrite.Succeeds := by
    unfold arConfigRewrite
    refine fun _ => .ite trivial fun _ => .ite trivial fun _ => .ite trivial fun _ => trivial
  have honly : arConfigRewrite.Only fun e => e = .core ∨ e = .ask ∨ ∃ p d, e = .writeFile p d := by
    unfold arConfigRewrite
    refine .bind (.perform (.inl rfl)) fun _ => .ite trivial (.bind (.perform (.inr (.inl rfl))) fun _ => ?_)
    refine .ite trivial (.bind (.perform (.inr (.inl rfl))) fun _ => .ite trivial ?_)
    exact .perform (.inr (.inr ⟨_, _, rfl⟩))
  obtain ⟨b, hb⟩ := hsucc.run (h := Eff.perform O) w
  have hcore := honly.run_invariant (h := Eff.perform O) (I := fun w₁ : World => w₁.core = w.core)
    (fun e w₁ he h => ?_) (s := w) rfl
  · exact ⟨_, b, Prod.ext rfl hb, hcore⟩
  · obtain rfl | rfl | ⟨p, d, rfl⟩ := he
    · exact h
    · exact h
    · exact (Eff.core_writeFile ..).trans h

theorem exec_configSetOk (ha : O.AllocOk) (hc : c < w.core.conns.length) :
    ∃ w₁, (configSetOk c).exec O w = (w₁, some ()) ∧ (w₁.conn c).wbuf = (w.conn c).wbuf ++ okReply ∧
      w₁.core.cfg = w.core.cfg := by
  unfold configSetOk
  rw [exec_step]
  show ∃ w₁, ((if w.core.cfg.configPath.val ≠ [] then _ else _ : Code Unit).exec O w = _) ∧ _
  by_cases hp : w.core.cfg.configPath.val ≠ []
  · rw [if_pos hp]
    obtain ⟨w₁, b, hrun, hcore⟩ := core_arConfigRewrite O w
    obtain ⟨w₂, hok, happ⟩ := Writes.append c okReply O w₁ ha (by rw [hcore]; exact hc)
    have hconn : w₁.conn c = w.conn c := congrArg (ArCore.conn · c) hcore
    refine ⟨w₂, ?_, happ.wbuf.trans (by rw [hconn]), (ArCore.Beside.cfg happ.core).trans (congrArg ArCore.cfg hcore)⟩
    exact (exec_seq hrun).trans hok
  · rw [if_neg hp]
    obtain ⟨w₂, hok, happ⟩ := Writes.append c okReply O w ha hc
    exact ⟨w₂, hok, happ.wbuf, ArCore.Beside.cfg happ.core⟩

/-- **`CONFIG SET` of a knob** replies whether it took the value. -/
theorem exec_setting (hO : ∀ n, (O.env n).Frozen t) (ha : O.AllocOk) (hwf : w.core.WF)
    (hc : c < w.core.conns.length) (k : Knob) (v : Bytes) :
    ∃ w₁, (k.setting c v).exec O w = (w₁, some ()) ∧
      w₁.core.cfg = ((k.takes saysOn v).map (· w.core.cfg)).getD w.core.cfg ∧
      (w₁.conn c).wbuf = (w.conn c).wbuf ++
        if (k.takes saysOn v).isSome = true then okReply else errReply k.refusal := by
  obtain ⟨hans, hcfg⟩ := takes_set ha k v w
  have ht := touched_setsKnob hO (setsKnob_set k v) hwf
  generalize hrun : (k.set v).exec O w = x at hans hcfg ht
  obtain ⟨w₁, r⟩ := x
  obtain rfl : r = some (k.takes saysOn v).isSome := hans
  have hlen : c < w₁.core.conns.length := ht.length_eq ▸ hc
  have hconn : (w₁.conn c).wbuf = (w.conn c).wbuf := (touched_conn ht c).wbuf
  unfold Knob.setting
  rw [exec_seq hrun]
  cases (k.takes saysOn v).isSome with
  | true =>
    obtain ⟨w₂, hok, hbuf, hcfg₂⟩ := exec_configSetOk (w := w₁) ha hlen
    exact ⟨w₂, hok, hcfg₂.trans hcfg, by rw [hbuf, hconn]; rfl⟩
  | false =>
    obtain ⟨w₂, herr, happ⟩ := Writes.append c (errReply k.refusal) O w₁ ha hlen
    exact ⟨w₂, herr, (ArCore.Beside.cfg happ.core).trans hcfg, by rw [happ.wbuf, hconn]; rfl⟩

theorem ofNameBytes_names : (Knob.all.all fun k => k.names.all fun s => ofNameBytes (lower (lit s))) = true := by
  decide +kernel

theorem name_bytes {k : Knob} {s : String} (hs : s ∈ k.names) : lower (lit s) ≠ [] ∧ (lower (lit s)).length < 64 ∧
    ∀ b ∈ lower (lit s), isSpace b = false ∧ b ≠ 0 ∧ b ≠ 35 := by
  exact ofNameBytes_iff.1 (List.all_eq_true.1 (List.all_eq_true.1 ofNameBytes_names k (Knob.mem_all k)) s hs)

theorem upper_bytes : ∀ n < 256, 65 ≤ n ∧ n ≤ 90 → isSpace (UInt8.ofNat n) = false ∧ UInt8.ofNat n ≠ 0 ∧
    UInt8.ofNat n ≠ 35 := by decide +kernel

/-- A name, in letters of any case, is one that a line gives back. -/
theorem isName_of_cmdEq {k : Knob} {s : String} (hs : s ∈ k.names) (hkey : cmdEq key s = true) : IsName key := by
  obtain ⟨hne, hlen, hbytes⟩ := name_bytes hs
  have hlower : lower key = lower (lit s) := eq_of_beq hkey
  rw [← hlower] at hne hlen hbytes
  unfold lower at hne hlen hbytes
  have hbyte : ∀ b ∈ key, isSpace b = false ∧ b ≠ 0 ∧ b ≠ 35 := by
    intro b hb
    have h := hbytes _ (List.mem_map_of_mem hb)
    split at h
    · next hupper =>
      have hb := upper_bytes b.toNat b.toNat_lt ⟨hupper.1, hupper.2⟩
      rwa [UInt8.ofNat_toNat] at hb
    · exact h
  refine ⟨fun h => hne (by rw [h]; rfl), fun b hb => ⟨(hbyte b hb).1, (hbyte b hb).2.1⟩, fun h => ?_, ?_⟩
  · exact (hbyte 35 (List.mem_of_head? h)).2.2 rfl
  · rwa [List.length_map] at hlen

theorem Knob.ofKey_eq {k : Knob} {s : String} (hs : s ∈ k.names) (hkey : cmdEq key s = true) :
    Knob.ofKey key = some k := by
  obtain ⟨hp, honly⟩ := Knob.isNamed_of_name hs hkey
  unfold Knob.ofKey
  cases h : Knob.all.find? (Knob.isNamed key) with
  | none => exact absurd hp (List.find?_eq_none.1 h k (Knob.mem_all k))
  | some k' => rw [honly k' (List.find?_some h)]

/-- A line that is read at once tells its knob the value, and nothing else. -/
theorem told_line {k : Knob} {s : String} (hs : s ∈ k.names) (hkey : cmdEq key s = true) (hv : Plain v) (h0 : 0 ∉ v)
    (hline : key.length + v.length + 2 < 512) : told (key ++ lit " " ++ v ++ [10]) = [(k, v)] := by
  have hname := isName_of_cmdEq hs hkey
  have h10 : 10 ∉ key ++ lit " " ++ v := by
    simp only [List.mem_append, not_or]
    exact ⟨⟨fun h => absurd (hname.2.1 10 h).1 (by decide), by decide⟩, hv.1⟩
  have hfgets : fgets 512 (key ++ lit " " ++ v ++ [10]) [] = [key ++ lit " " ++ v ++ [10]] := by
    have hsize : ([] : Bytes).length + (key ++ lit " " ++ v).length + 1 < 512 := by
      have : (lit " ").length = 1 := rfl
      simp only [List.length_append, List.length_nil]
      omega
    exact CString.fgets_line h10 [] [] hsize
  have htells : tells (key ++ lit " " ++ v ++ [10]) = some (k, v) := by
    rw [tells, configLine_plain hname hv h0, Option.bind_some, Knob.ofKey_eq hs hkey]
    rfl
  rw [told, hfgets, List.filterMap_cons, htells]
  rfl

/-- A line is read the same without its end. -/
theorem configLine_eol {line : Bytes} (h0 : 0 ∉ line) : configLine (line ++ [10]) = configLine line := by
  have h0' : 0 ∉ line ++ [10] := by simpa using h0
  have hstrip : stripEol (line ++ [10]) = stripEol line := by
    unfold stripEol
    rw [List.reverse_append, List.reverse_singleton, List.singleton_append, List.dropWhile_cons_of_pos (by decide)]
  unfold configLine
  rw [CString.cstr_of_noNul h0, CString.cstr_of_noNul h0', hstrip]

/-- A line that is too long tells its knob the value as far as it is read at first. -/
theorem told_first {k : Knob} {s : String} (hs : s ∈ k.names) (hkey : cmdEq key s = true) (hv : Plain v) (h0 : 0 ∉ v)
    (h13 : 13 ∉ v) (hline : 512 ≤ key.length + v.length + 2) :
    ∃ T, told (key ++ lit " " ++ v ++ [10]) = (k, v.take (510 - key.length)) :: T := by
  have hname := isName_of_cmdEq hs hkey
  have hshort := hname.2.2.2
  have h0' : 0 ∉ v.take (510 - key.length) := fun h => h0 (List.mem_of_mem_take h)
  have hv' : Plain (v.take (510 - key.length)) := by
    refine ⟨fun h => hv.1 (List.mem_of_mem_take h), fun b hb => hv.2.1 b ?_, fun h => ?_⟩
    · rwa [List.head?_take, if_neg (by omega)] at hb
    · exact h13 (List.mem_of_mem_take (List.mem_of_getLast? h))
  have hsp : (lit " ").length = 1 := rfl
  have hlen : (key ++ lit " " ++ v.take (510 - key.length)).length = 511 := by
    simp only [List.length_append, List.length_take, hsp]
    omega
  have h10 : 10 ∉ key ++ lit " " ++ v.take (510 - key.length) := by
    simp only [List.mem_append, not_or]
    exact ⟨⟨fun h => absurd (hname.2.1 10 h).1 (by decide), by decide⟩, hv'.1⟩
  have hnul : 0 ∉ key ++ lit " " ++ v.take (510 - key.length) := by
    simp only [List.mem_append, not_or]
    exact ⟨⟨fun h => (hname.2.1 0 h).2 rfl, by decide⟩, h0'⟩
  have hcut : key ++ lit " " ++ v ++ [10] =
      (key ++ lit " " ++ v.take (510 - key.length)) ++ (v.drop (510 - key.length) ++ [10]) := by
    simp only [List.append_assoc]
    rw [← List.append_assoc (v.take _), List.take_append_drop]
  have htells : tells (key ++ lit " " ++ v.take (510 - key.length)) = some (k, v.take (510 - key.length)) := by
    rw [tells, ← configLine_eol hnul, configLine_plain hname hv' h0', Option.bind_some, Knob.ofKey_eq hs hkey]
    rfl
  refine ⟨(fgets 512 (v.drop (510 - key.length) ++ [10]) []).filterMap tells, ?_⟩
  have hfgets : fgets 512 _ [] = _ := CString.fgets_full h10 (List.ne_nil_of_length_pos (by omega)) []
    (v.drop (510 - key.length) ++ [10]) (by rw [hlen, List.length_nil])
  rw [List.nil_append] at hfgets
  rw [told, hcut, hfgets, List.filterMap_cons, htells]

/-- The names that have room for less than a cut value leaves: both refuse them. -/
theorem names_agree {k : Knob} {s : String} {g : Cfg} (hk : k ∈ [Knob.dbfilename, Knob.shadowPolicy])
    (hs : s ∈ k.names) (hkey : cmdEq key s = true) (hv : Plain v) (h0 : 0 ∉ v) (h13 : 13 ∉ v)
    (hline : 512 ≤ key.length + v.length + 2) :
    k.AgreesInPieces g (v.take 255) (told (key ++ lit " " ++ v ++ [10])) := by
  have hkeylen := (isName_of_cmdEq hs hkey).2.2.2
  have hrefused : ∀ (on : Bytes → Bool) (u : Bytes), 128 ≤ u.length → k.takes on u = none := by
    intro on u hu
    simp only [List.mem_cons, List.not_mem_nil, or_false] at hk
    obtain rfl | rfl := hk
    · exact if_neg fun h => absurd h.2.2.2 (by omega)
    · exact if_neg (by omega)
  have hset := hrefused saysOn (v.take 255) (by rw [List.length_take]; omega)
  have hfile := hrefused Knob.fileOn (v.take (510 - key.length)) (by rw [List.length_take]; omega)
  obtain ⟨T, hT⟩ := told_first hs hkey hv h0 h13 hline
  have hnot : taken (k, v.take (510 - key.length)) = false := by
    unfold taken
    rw [hfile]
    rfl
  rw [hT]
  refine ⟨?_, fun j => ?_⟩
  · rw [hset, List.all_cons, hnot]
    rfl
  · rw [List.takeWhile_cons, hnot, Knob.make, hset]
    exact (ite_self g).symm

/-- **A file** loads whether all that it tells is taken. -/
theorem exec_loadTold {data : Bytes} (ha : O.AllocOk) (hg : ∀ n, O.grants n = true)
    (hpath : w.core.cfg.configPath.val ≠ []) (hdisk : w.disk w.core.cfg.configPath.val = some data) :
    (arConfigLoad.exec O w).2 = some ((told data).all taken) ∧
      (arConfigLoad.exec O w).1.core.cfg = settle (told data) w.core.cfg := by
  rw [exec_arConfigLoad hpath hg hdisk]
  exact exec_applyLines ha _ _

end

/-! ## They agree -/

/-- `CONFIG SET` and the file come to the same: both take the value and leave the same configuration, or both refuse
it and leave the one there was. -/
def SameOutcome (c : Nat) (w w' : World) (a : World × Option Unit) (b : World × Option Bool) : Prop :=
  (a.1.conn c).wbuf = (w.conn c).wbuf ++ okReply ∧ b.2 = some true ∧ a.1.core.cfg = b.1.core.cfg ∨
    (∃ text, (a.1.conn c).wbuf = (w.conn c).wbuf ++ errReply text) ∧ b.2 = some false ∧
      a.1.core.cfg = w.core.cfg ∧ b.1.core.cfg = w'.core.cfg

theorem okReply_ne_errReply (text : String) : okReply ≠ errReply text := fun h => by cases h

/-- What was replied and returned, and what it says of the value. -/
theorem outcome_iff {r : Option (Cfg → Cfg)} {ok : Bool} {g g' : Cfg} {buf : Bytes} (refusal : String) :
    (buf ++ (if r.isSome = true then okReply else errReply refusal) = buf ++ okReply ∧ some ok = some true ∧
        (r.map (· g)).getD g = g' ∨
      (∃ text, buf ++ (if r.isSome = true then okReply else errReply refusal) = buf ++ errReply text) ∧
        some ok = some false ∧ (r.map (· g)).getD g = g ∧ g' = g) ↔
      r.isSome = ok ∧ g' = (r.map (· g)).getD g := by
  simp only [List.append_cancel_left_eq]
  cases r with
  | none =>
    constructor
    · rintro (⟨h, -, -⟩ | ⟨-, h, -, hg⟩)
      · exact absurd h.symm (okReply_ne_errReply _)
      · exact ⟨(Option.some.inj h).symm, hg⟩
    · rintro ⟨rfl, hg⟩
      exact .inr ⟨⟨refusal, rfl⟩, rfl, rfl, hg⟩
  | some f =>
    constructor
    · rintro (⟨-, h, hg⟩ | ⟨⟨text, h⟩, -, -⟩)
      · exact ⟨(Option.some.inj h).symm, hg.symm⟩
      · exact absurd h (okReply_ne_errReply _)
    · rintro ⟨rfl, hg⟩
      exact .inl ⟨rfl, rfl, hg.symm⟩

/-- Two answers are the same when both are yes or both no, and they leave the same. -/
theorem answer_iff {r r' : Option (Cfg → Cfg)} {g : Cfg} :
    (r.isSome = r'.isSome ∧ (r'.map (· g)).getD g = (r.map (· g)).getD g) ↔ r.map (· g) = r'.map (· g) := by
  cases r <;> cases r' <;> simp [eq_comm]

/-- A server with this file. -/
def withText (data : Bytes) : World :=
  .fresh sampleFile fun p => if p = sampleFile.val then some data else none

def withFile (line : String) : World := withText (lit line)

theorem disk_withText (data : Bytes) : (withText data).disk (withText data).core.cfg.configPath.val = some data := by
  show (if sampleFile.val = sampleFile.val then some data else none) = some data
  rw [if_pos rfl]

theorem wf_withText (data : Bytes) : (withText data).core.WF :=
  ⟨wf_arCoreCreate.dict, wf_arCoreCreate.objs⟩

theorem path_withText (data : Bytes) : (withText data).core.cfg.configPath.val ≠ [] := by
  show sampleFile.val ≠ []
  decide

theorem slot_withText (data : Bytes) : 0 < (withText data).core.conns.length := by
  show 0 < (World.fresh sampleFile fun _ => none).core.conns.length
  decide +kernel

theorem not_mem_replicate (n : Nat) {a b : UInt8} (h : a ≠ b) : a ∉ List.replicate n b :=
  fun hm => h (List.eq_of_mem_replicate hm)

theorem plain_replicate (n : Nat) : Plain (List.replicate n 120) := by
  refine ⟨not_mem_replicate n (by decide), fun b h => ?_, fun h => ?_⟩
  · rw [List.eq_of_mem_replicate (List.mem_of_head? h)]
    decide
  · exact absurd (List.eq_of_mem_replicate (List.mem_of_getLast? h)) (by decide)

theorem plain_five : Plain (lit "5") := by
  refine ⟨by decide, fun b h => ?_, by decide⟩
  cases h
  decide

end AuraRedis
