import AuraRedis.Rdb.Proof.Format

/-!
# What the reader does with a written snapshot

`restore now e` is what the reader does with the record of the entry `e`, without the bytes: it takes memory for
each blob, and unless the entry has expired it makes the calls that put it back. `loadBytes_dump`: the load of a
snapshot is the `restore` of each of its entries, as long as no number in it has wrapped.
-/

set_option autoImplicit false

namespace AuraRedis

open Code Prog

namespace Rdb

/-! ## The restore of an entry -/

/-- `rd_blob`, of these bytes. -/
def takeIn (p : Bytes) : Code Unit := if p.length > maxBlob then Prog.fail else alloc

/-- The end of a call that must have found its key or made it. -/
def stored {α : Type} : ArCore.Typed α → Code Unit
  | .found _ => Prog.ret ()
  | _ => Prog.fail

def entered : ArCore.ZaddResult → Code Unit
  | .added _ => Prog.ret ()
  | _ => Prog.fail

def skipItem (p : Bytes) : Code Unit := takeIn p

def skipField (f : Bytes × Bytes) : Code Unit := takeIn f.1 >>= fun _ => takeIn f.2

def skipMember (n : ArZNode) : Code Unit := takeIn n.member

def restoreItem (key p : Bytes) : Code Unit :=
  takeIn p >>= fun _ => call (.arListPush key false [p]) >>= stored

def restoreField (key : Bytes) (f : Bytes × Bytes) : Code Unit :=
  takeIn f.1 >>= fun _ => takeIn f.2 >>= fun _ => call (.arHashHset key [f]) >>= stored

def restoreMember (key : Bytes) (n : ArZNode) : Code Unit :=
  takeIn n.member >>= fun _ => call (.arZsetZadd key [n]) >>= entered

def restoreContainer {α : Type} (skip put : α → Code Unit) (key : Bytes) (exp now : Nat) (as : List α) :
    Code Unit :=
  if as.length > maxElems then Prog.fail
  else if expired exp now then each skip as
  else each put as >>= fun _ => applyExpireAbs key exp now

def restoreString (key : Bytes) (exp now : Nat) (val : Bytes) : Code Unit :=
  takeIn val >>= fun _ =>
    if !expired exp now then check (call (.arEntrySetEx key val exp)) else Prog.ret ()

def restoreObj (key : Bytes) (exp now : Nat) : ArObj → Code Unit
  | .string val => restoreString key exp now val
  | .hash h => restoreContainer skipField (restoreField key) key exp now h.buckets.flatten
  | .list l => restoreContainer skipItem (restoreItem key) key exp now l
  | .zset z => restoreContainer skipMember (restoreMember key) key exp now z.arr

/-- What the reader does with the record of an entry. -/
def restore (now : Nat) (e : ArEntry) : Code Unit :=
  takeIn e.key >>= fun _ => restoreObj e.key (e.expireAt % 2 ^ 64) now e.obj

def restoreAll (now : Nat) (es : List ArEntry) : Code Unit := each (restore now) es

/-! ## The reader over written bytes -/

theorem rdBytes_append (p x : Bytes) : rdBytes p.length (p ++ x) = Prog.ret (p, x) := by
  unfold rdBytes
  rw [List.length_append, if_neg (by omega), List.take_left, List.drop_left]
  rfl

theorem rdNum_le (k n : Nat) (x : Bytes) : rdNum k (le k n ++ x) = Prog.ret (n % 256 ^ k, x) := by
  have hbytes := rdBytes_append (le k n) x
  rw [length_le] at hbytes
  unfold rdNum
  rw [hbytes, Prog.ret_bind, ofLe_le]
  rfl

theorem rdLen_le (limit n : Nat) (x : Bytes) (hn : n < 2 ^ 32) :
    rdLen limit (le 4 n ++ x) = if n > limit then Prog.fail else Prog.ret (n, x) := by
  unfold rdLen
  rw [rdNum_le, Prog.ret_bind, Nat.mod_eq_of_lt (by omega)]
  rfl

theorem rdBlob_wrBlob {p s : Bytes} (hs : wrBlob p = some s) (x : Bytes) :
    rdBlob (s ++ x) = (takeIn p >>= fun _ => Prog.ret (p, x)) := by
  unfold wrBlob at hs
  split at hs
  · cases hs
  · rename_i hlen
    obtain rfl := Option.some.inj hs
    unfold rdBlob takeIn
    rw [List.append_assoc, rdLen_le _ _ _ (by unfold maxLen at hlen; omega)]
    split
    · rfl
    · rw [Prog.ret_bind, rdBytes_append]

theorem drainItem_wrBlob {p s : Bytes} (hs : wrBlob p = some s) (x : Bytes) :
    drainItem (s ++ x) = (skipItem p >>= fun _ => Prog.ret x) := by
  unfold drainItem skipItem
  rw [rdBlob_wrBlob hs, Prog.bind_assoc]
  rfl

theorem drainField_wrBlob {f : Bytes × Bytes} {s s' : Bytes} (hs : wrBlob f.1 = some s)
    (hs' : wrBlob f.2 = some s') (x : Bytes) :
    drainField (s ++ s' ++ x) = (skipField f >>= fun _ => Prog.ret x) := by
  unfold drainField skipField
  rw [List.append_assoc, rdBlob_wrBlob hs, Prog.bind_assoc, Prog.bind_assoc]
  refine congrArg (takeIn f.1 >>= ·) (funext fun _ => ?_)
  rw [Prog.ret_bind, rdBlob_wrBlob hs', Prog.bind_assoc]
  rfl

theorem rdF64_le (score : CDouble) (x : Bytes) :
    rdF64 (le 8 score.bits.toNat ++ x) = Prog.ret (score, x) := by
  have hbits : score.bits.toNat % 256 ^ 8 = score.bits.toNat := Nat.mod_eq_of_lt score.bits.isLt
  unfold rdF64
  rw [rdNum_le, Prog.ret_bind, hbits]
  show Prog.ret ((⟨BitVec.ofNat 64 score.bits.toNat⟩ : CDouble), x) = _
  rw [BitVec.ofNat_toNat, BitVec.setWidth_eq]

theorem drainMember_wrBlob {n : ArZNode} {s : Bytes} (hs : wrBlob n.member = some s) (x : Bytes) :
    drainMember (le 8 n.score.bits.toNat ++ s ++ x) = (skipMember n >>= fun _ => Prog.ret x) := by
  unfold drainMember skipMember
  rw [List.append_assoc, rdF64_le, Prog.ret_bind, rdBlob_wrBlob hs, Prog.bind_assoc]
  rfl

theorem found_eq {α : Type} (s : Bytes) (d : ArCore.Typed α) :
    found s d = (stored d >>= fun _ => Prog.ret s) := by
  cases d <;> rfl

theorem added_eq (s : Bytes) (d : ArCore.ZaddResult) : added s d = (entered d >>= fun _ => Prog.ret s) := by
  cases d <;> rfl

theorem loadItem_wrBlob {p s : Bytes} (hs : wrBlob p = some s) (key x : Bytes) :
    loadItem key (s ++ x) = (restoreItem key p >>= fun _ => Prog.ret x) := by
  unfold restoreItem
  rw [loadItem_eq, rdBlob_wrBlob hs]
  simp only [Prog.bind_assoc, Prog.ret_bind, funext (found_eq x)]

theorem loadField_wrBlob {f : Bytes × Bytes} {s s' : Bytes} (hs : wrBlob f.1 = some s)
    (hs' : wrBlob f.2 = some s') (key x : Bytes) :
    loadField key (s ++ s' ++ x) = (restoreField key f >>= fun _ => Prog.ret x) := by
  unfold restoreField
  rw [loadField_eq, List.append_assoc, rdBlob_wrBlob hs]
  simp only [Prog.bind_assoc, Prog.ret_bind, rdBlob_wrBlob hs', funext (found_eq x)]

theorem loadMember_wrBlob {n : ArZNode} {s : Bytes} (hs : wrBlob n.member = some s) (key x : Bytes) :
    loadMember key (le 8 n.score.bits.toNat ++ s ++ x) = (restoreMember key n >>= fun _ => Prog.ret x) := by
  unfold restoreMember
  rw [loadMember_eq, List.append_assoc, rdF64_le, Prog.ret_bind, rdBlob_wrBlob hs]
  simp only [Prog.bind_assoc, Prog.ret_bind, funext (added_eq x)]

theorem rdElems_wrAll {α : Type} {w : α → Option Bytes} {elem : Bytes → Code Bytes} {f : α → Code Unit}
    {as : List α} {s : Bytes} (hs : wrAll w as = some s)
    (h : ∀ a ∈ as, ∀ s, w a = some s → ∀ x, elem (s ++ x) = (f a >>= fun _ => Prog.ret x)) (x : Bytes) :
    rdElems elem as.length (s ++ x) = (each f as >>= fun _ => Prog.ret x) := by
  induction as generalizing s with
  | nil =>
    obtain rfl := Option.some.inj hs
    rfl
  | cons a as ih =>
    obtain ⟨s₁, hs₁, hs⟩ := Option.bind_eq_some_iff.1 hs
    obtain ⟨s₂, hs₂, rfl⟩ := Option.map_eq_some_iff.1 hs
    show (elem (s₁ ++ s₂ ++ x) >>= rdElems elem as.length) = (f a >>= fun _ => each f as) >>= _
    rw [List.append_assoc, h a (.head _) s₁ hs₁, Prog.bind_assoc, Prog.bind_assoc]
    refine congrArg (f a >>= ·) (funext fun _ => ?_)
    rw [Prog.ret_bind]
    exact ih hs₂ fun b hb => h b (.tail _ hb)

theorem rdContainer_wrAll {α : Type} {w : α → Option Bytes} {elem : Bytes → Code Bytes} {f : α → Code Unit}
    {as : List α} {s : Bytes} (hn : as.length < 2 ^ 32) (hs : wrAll w as = some s)
    (h : ∀ a ∈ as, ∀ s, w a = some s → ∀ x, elem (s ++ x) = (f a >>= fun _ => Prog.ret x)) (x : Bytes) :
    rdContainer elem (le 4 as.length ++ s ++ x) =
      if as.length > maxElems then Prog.fail else each f as >>= fun _ => Prog.ret x := by
  unfold rdContainer
  rw [List.append_assoc, rdLen_le _ _ _ hn]
  split
  · rfl
  · rw [Prog.ret_bind]
    exact rdElems_wrAll hs h x

theorem loadContainer_wrAll {α : Type} {w : α → Option Bytes} {drain load : Bytes → Code Bytes}
    {skip put : α → Code Unit} {as : List α} {s : Bytes} (hn : as.length < 2 ^ 32) (hs : wrAll w as = some s)
    (hd : ∀ a ∈ as, ∀ s, w a = some s → ∀ x, drain (s ++ x) = (skip a >>= fun _ => Prog.ret x))
    (hl : ∀ a ∈ as, ∀ s, w a = some s → ∀ x, load (s ++ x) = (put a >>= fun _ => Prog.ret x))
    (key : Bytes) (exp now : Nat) (x : Bytes) :
    loadContainer drain load key exp now (le 4 as.length ++ s ++ x) =
      (restoreContainer skip put key exp now as >>= fun _ => Prog.ret x) := by
  unfold loadContainer restoreContainer
  rw [rdContainer_wrAll hn hs hd, rdContainer_wrAll hn hs hl]
  by_cases hlen : as.length > maxElems
  · simp only [if_pos hlen, Prog.fail_bind, ite_self]
  · simp only [if_neg hlen]
    split
    · rfl
    · simp only [Prog.bind_assoc, Prog.ret_bind, Prog.pure_eq]

theorem loadString_wrBlob {val s : Bytes} (hs : wrBlob val = some s) (key : Bytes) (exp now : Nat) (x : Bytes) :
    loadString key exp now (s ++ x) = (restoreString key exp now val >>= fun _ => Prog.ret x) := by
  unfold loadString restoreString
  rw [rdBlob_wrBlob hs, Prog.bind_assoc, Prog.bind_assoc]
  refine congrArg (takeIn val >>= ·) (funext fun _ => ?_)
  rw [Prog.ret_bind]
  split <;> rfl

/-- What `load_one_v2` reads behind the deadline. -/
def loadPayload (type : Nat) (key : Bytes) (exp now : Nat) (s : Bytes) : Code Bytes :=
  match type with
  | 0 => loadString key exp now s
  | 1 => loadContainer drainField (loadField key) key exp now s
  | 2 => loadContainer drainItem (loadItem key) key exp now s
  | 3 => loadContainer drainMember (loadMember key) key exp now s
  | _ => Prog.fail

theorem loadPayload_writePayload {obj : ArObj} (hn : count obj < 2 ^ 32) {s : Bytes}
    (hs : writePayload obj = some s) (key : Bytes) (exp now : Nat) (x : Bytes) :
    loadPayload (typeCode obj) key exp now (s ++ x) =
      (restoreObj key exp now obj >>= fun _ => Prog.ret x) := by
  cases obj with
  | string val => exact loadString_wrBlob hs key exp now x
  | hash h =>
    obtain ⟨s₁, hs₁, rfl⟩ := writeHash_eq hs
    refine loadContainer_wrAll hn hs₁ (fun f _ s hf x => ?_) (fun f _ s hf x => ?_) key exp now x
    · obtain ⟨a, ha, hf⟩ := Option.bind_eq_some_iff.1 hf
      obtain ⟨b, hb, rfl⟩ := Option.map_eq_some_iff.1 hf
      exact drainField_wrBlob ha hb x
    · obtain ⟨a, ha, hf⟩ := Option.bind_eq_some_iff.1 hf
      obtain ⟨b, hb, rfl⟩ := Option.map_eq_some_iff.1 hf
      exact loadField_wrBlob ha hb key x
  | list l =>
    obtain ⟨s₁, hs₁, rfl⟩ := Option.map_eq_some_iff.1 hs
    exact loadContainer_wrAll hn hs₁ (fun p _ s hp x => drainItem_wrBlob hp x)
      (fun p _ s hp x => loadItem_wrBlob hp key x) key exp now x
  | zset z =>
    obtain ⟨s₁, hs₁, rfl⟩ := Option.map_eq_some_iff.1 hs
    refine loadContainer_wrAll hn hs₁ (fun n _ s hp x => ?_) (fun n _ s hp x => ?_) key exp now x
    · obtain ⟨a, ha, rfl⟩ := Option.map_eq_some_iff.1 hp
      exact drainMember_wrBlob ha x
    · obtain ⟨a, ha, rfl⟩ := Option.map_eq_some_iff.1 hp
      exact loadMember_wrBlob ha key x

theorem loadOneV2_eq (now : Nat) (s : Bytes) :
    loadOneV2 now s = (rdNum 1 s >>= fun type => rdBlob type.2 >>= fun key => rdNum 8 key.2 >>= fun exp =>
      loadPayload type.1 key.1 exp.1 now exp.2) := rfl

theorem loadOneV2_writeEntryV2 {e : ArEntry} (hn : count e.obj < 2 ^ 32) {s : Bytes}
    (hs : writeEntryV2 e = some s) (now : Nat) (x : Bytes) :
    loadOneV2 now (s ++ x) = (restore now e >>= fun _ => Prog.ret x) := by
  obtain ⟨key, hkey, hs⟩ := Option.bind_eq_some_iff.1 hs
  obtain ⟨payload, hpayload, rfl⟩ := Option.map_eq_some_iff.1 hs
  have htype : typeCode e.obj % 256 ^ 1 = typeCode e.obj := by
    cases e.obj <;> rfl
  unfold restore
  rw [loadOneV2_eq]
  simp only [List.append_assoc]
  rw [rdNum_le, Prog.ret_bind, htype]
  simp only [rdBlob_wrBlob hkey, Prog.bind_assoc, Prog.ret_bind, rdNum_le]
  refine congrArg (takeIn e.key >>= ·) (funext fun _ => ?_)
  exact loadPayload_writePayload hn hpayload e.key (e.expireAt % 2 ^ 64) now x

/-- **The load of a snapshot**: each of its entries is put back. -/
theorem loadBytes_dump {c : ArCore} {t : Nat} {s : Bytes} (hs : dump c t = some s)
    (hn : ∀ e ∈ live c t, count e.obj < 2 ^ 32) (hlive : (live c t).length < 2 ^ 64) :
    loadBytes s = if (live c t).length > maxEntries then Prog.fail
      else eff .now >>= fun now => restoreAll now (live c t) := by
  obtain ⟨s₁, hs₁, rfl⟩ := Option.map_eq_some_iff.1 hs
  have hmagic : ∀ x, rdBytes 8 (magic ++ x) = Prog.ret (magic, x) := rdBytes_append magic
  have hver : version % 256 ^ 4 = version := rfl
  have hlen : (live c t).length % 256 ^ 8 = (live c t).length := Nat.mod_eq_of_lt (by omega)
  have hone : ∀ now, rdElems (loadOneV2 now) (live c t).length s₁ =
      (restoreAll now (live c t) >>= fun _ => Prog.ret []) := by
    intro now
    have h := rdElems_wrAll hs₁ (fun e he s hs x => loadOneV2_writeEntryV2 (hn e he) hs now x) []
    rwa [List.append_nil] at h
  rw [loadBytes_eq]
  unfold readDump
  rw [hmagic, Prog.ret_bind, if_neg (fun h => h rfl), rdNum_le, Prog.ret_bind, hver, if_neg (fun h => h.1 rfl),
    rdNum_le, Prog.ret_bind, hlen]
  dsimp only
  have hv1 : ¬version = versionV1 := by decide
  simp only [if_neg hv1]
  split
  · rfl
  · simp only [hone, Prog.bind_assoc, Prog.ret_bind]
    exact congrArg (eff .now >>= ·) (funext fun now => Prog.bind_ret _)

end Rdb

end AuraRedis
