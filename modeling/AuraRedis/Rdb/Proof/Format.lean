import AuraRedis.Lib.Reader
import AuraRedis.Rdb.Load

/-!
# What the reader of snapshots takes

`takeDump` measures a snapshot by its own lengths and counts. Whatever the core answers and whether an entry is
live or expired, the reader takes these bytes (`reads_dump`); and they are those that the writer wrote, as long
as no count has wrapped (`takeDump_dump`).
-/

set_option autoImplicit false

namespace AuraRedis

open Code Prog

namespace Rdb

/-! ## Measuring -/

def takeBytes (k : Nat) (s : Bytes) : Option (Bytes × Bytes) :=
  if s.length < k then none else some (s.take k, s.drop k)

def takeNum (k : Nat) (s : Bytes) : Option (Nat × Bytes) := (takeBytes k s).bind fun r => some (ofLe r.1, r.2)

def takeLen (limit : Nat) (s : Bytes) : Option (Nat × Bytes) :=
  (takeNum 4 s).bind fun r => if r.1 > limit then none else some r

def takeBlob (s : Bytes) : Option (Bytes × Bytes) := (takeLen maxBlob s).bind fun n => takeBytes n.1 n.2

def takeElems (elem : Bytes → Option Bytes) : Nat → Bytes → Option Bytes
  | 0, s => some s
  | n + 1, s => (elem s).bind fun s => takeElems elem n s

def takeContainer (elem : Bytes → Option Bytes) (s : Bytes) : Option Bytes :=
  (takeLen maxElems s).bind fun n => takeElems elem n.1 n.2

def takeItem (s : Bytes) : Option Bytes := (takeBlob s).bind fun val => some val.2

def takeField (s : Bytes) : Option Bytes := (takeBlob s).bind fun field => takeItem field.2

def takeF64 (s : Bytes) : Option (CDouble × Bytes) :=
  (takeNum 8 s).bind fun r => some (⟨BitVec.ofNat 64 r.1⟩, r.2)

def takeMember (s : Bytes) : Option Bytes := (takeF64 s).bind fun score => takeItem score.2

/-- The payload of a type. -/
def takePayload (type : Nat) (s : Bytes) : Option Bytes :=
  match type with
  | 0 => takeItem s
  | 1 => takeContainer takeField s
  | 2 => takeContainer takeItem s
  | 3 => takeContainer takeMember s
  | _ => none

def takeOneV2 (s : Bytes) : Option Bytes :=
  (takeNum 1 s).bind fun type => (takeBlob type.2).bind fun key => (takeNum 8 key.2).bind fun exp =>
    takePayload type.1 exp.2

def takeOneV1 (s : Bytes) : Option Bytes :=
  (takeBlob s).bind fun key => (takeBlob key.2).bind fun val => (takeNum 8 val.2).bind fun exp => some exp.2

/-- The bytes behind a snapshot. -/
def takeDump (s : Bytes) : Option Bytes :=
  (takeBytes 8 s).bind fun m =>
    if m.1 ≠ magic then none
    else (takeNum 4 m.2).bind fun ver =>
      if ver.1 ≠ version ∧ ver.1 ≠ versionV1 then none
      else (takeNum 8 ver.2).bind fun n =>
        if n.1 > maxEntries then none
        else takeElems (if ver.1 = versionV1 then takeOneV1 else takeOneV2) n.1 n.2

/-! ## The reader takes what is measured -/

theorem takes_bytes (k : Nat) : Takes (· ++ ·) behind (takeBytes k) where
  extend s x b h := by
    unfold takeBytes at h ⊢
    split at h
    · cases h
    · rename_i hlt
      cases h
      rw [List.length_append, if_neg (by omega), List.take_append_of_le_length (by omega),
        List.drop_append_of_le_length (by omega)]
      rfl
  cut s x b h := by
    unfold takeBytes at h
    split at h
    · cases h
    · rename_i hlt
      obtain ⟨v, r⟩ := b
      rw [Option.some.injEq, behind, Prod.mk.injEq] at h
      obtain ⟨rfl, hr⟩ := h
      refine ⟨s.take k ++ r, ?_, ?_⟩
      · rw [List.append_assoc, ← hr, List.take_append_drop]
      · have hlen : (s.take k).length = k := by rw [List.length_take]; omega
        unfold takeBytes
        rw [List.length_append, hlen, if_neg (by omega), List.take_append_of_le_length (by omega),
          List.drop_append_of_le_length (by omega), List.take_take, Nat.min_self,
          List.drop_eq_nil_of_le (by omega), List.nil_append]

theorem reads_bytes (k : Nat) : Reads (· ++ ·) behind (rdBytes k) (takeBytes k) where
  toTakes := takes_bytes k
  returns s := by
    unfold rdBytes takeBytes
    split
    · exact True.intro
    · exact rfl
  leaves s x b h := by
    have hx := (takes_bytes k).extend s x b h
    unfold takeBytes at h hx
    unfold rdBytes
    split at h
    · cases h
    · rename_i hlt
      rw [List.length_append, if_neg (by omega)] at hx
      rw [List.length_append, if_neg (by omega), if_neg hlt]
      cases h
      exact congrArg Prog.ret (Option.some.inj hx)

/-- A value is made of what has been read. -/
theorem reads_map {α β : Type} (f : α → β) :
    Reads behind behind (fun r : α × Bytes => (Prog.ret (f r.1, r.2) : Code (β × Bytes)))
      fun r => some (f r.1, r.2) where
  extend r x b h := by
    cases h
    rfl
  cut r x b h := by
    obtain ⟨v, b⟩ := b
    rw [Option.some.injEq, behind, Prod.mk.injEq] at h
    obtain ⟨rfl, hr⟩ := h
    exact ⟨(r.1, b), Prod.ext rfl hr, rfl⟩
  returns _ := rfl
  leaves _ _ _ _ := rfl

theorem reads_num (k : Nat) : Reads (· ++ ·) behind (rdNum k) (takeNum k) := (reads_bytes k).bind (reads_map ofLe)

/-- A value is refused. -/
theorem reads_guard {α : Type} (P : α → Prop) [DecidablePred P] :
    Reads behind behind (fun r : α × Bytes => if P r.1 then (Prog.fail : Code (α × Bytes)) else Prog.ret r)
      fun r => if P r.1 then none else some r where
  extend r x b h := by
    split at h
    · cases h
    · rename_i hp
      cases h
      exact if_neg hp
  cut r x b h := by
    split at h
    · cases h
    · rename_i hp
      cases h
      exact ⟨b, rfl, if_neg hp⟩
  returns r := by
    split
    · exact True.intro
    · rfl
  leaves r x b h := by
    show (if P r.1 then _ else _) = _
    split
    · rfl
    · rfl

theorem reads_len (limit : Nat) : Reads (· ++ ·) behind (rdLen limit) (takeLen limit) :=
  (reads_num 4).bind (reads_guard fun n => n > limit)

theorem reads_blob : Reads (· ++ ·) behind rdBlob takeBlob :=
  (reads_len maxBlob).bind (.pair fun n => .after (takes_bytes n) fun _ => reads_bytes n)

theorem reads_elems {elem : Bytes → Code Bytes} {t : Bytes → Option Bytes}
    (h : Reads (· ++ ·) (· ++ ·) elem t) (n : Nat) :
    Reads (· ++ ·) (· ++ ·) (rdElems elem n) (takeElems t n) := by
  induction n with
  | zero => exact .ret
  | succ n ih => exact h.bind ih

theorem reads_container {elem : Bytes → Code Bytes} {t : Bytes → Option Bytes}
    (h : Reads (· ++ ·) (· ++ ·) elem t) :
    Reads (· ++ ·) (· ++ ·) (rdContainer elem) (takeContainer t) :=
  (reads_len maxElems).bind (.pair fun n => reads_elems h n)

theorem reads_drainItem : Reads (· ++ ·) (· ++ ·) drainItem takeItem := reads_blob.bind (.pair fun _ => .ret)

theorem reads_drainField : Reads (· ++ ·) (· ++ ·) drainField takeField :=
  reads_blob.bind (.pair fun _ => reads_drainItem)

theorem reads_f64 : Reads (· ++ ·) behind rdF64 takeF64 :=
  (reads_num 8).bind (reads_map fun n => (⟨BitVec.ofNat 64 n⟩ : CDouble))

theorem reads_drainMember : Reads (· ++ ·) (· ++ ·) drainMember takeMember :=
  reads_f64.bind (.pair fun _ => reads_drainItem)

/-- The end of an element that has been set or pushed. -/
def found {α : Type} (s : Bytes) : ArCore.Typed α → Code Bytes
  | .found _ => Prog.ret s
  | _ => Prog.fail

/-- The end of a member that has been added. -/
def added (s : Bytes) : ArCore.ZaddResult → Code Bytes
  | .added _ => Prog.ret s
  | _ => Prog.fail

theorem loadItem_eq (key s : Bytes) : loadItem key s =
    (rdBlob s >>= fun val => call (.arListPush key false [val.1]) >>= found val.2) := by
  refine congrArg (rdBlob s >>= ·) (funext fun val => congrArg (call _ >>= ·) (funext fun d => ?_))
  cases d <;> rfl

theorem loadField_eq (key s : Bytes) : loadField key s =
    (rdBlob s >>= fun field => rdBlob field.2 >>= fun val =>
      call (.arHashHset key [(field.1, val.1)]) >>= found val.2) := by
  refine congrArg (rdBlob s >>= ·) (funext fun field => congrArg (rdBlob field.2 >>= ·)
    (funext fun val => congrArg (call _ >>= ·) (funext fun d => ?_)))
  cases d <;> rfl

theorem loadMember_eq (key s : Bytes) : loadMember key s =
    (rdF64 s >>= fun score => rdBlob score.2 >>= fun member =>
      call (.arZsetZadd key [⟨score.1, member.1⟩]) >>= added member.2) := by
  refine congrArg (rdF64 s >>= ·) (funext fun score => congrArg (rdBlob score.2 >>= ·)
    (funext fun member => congrArg (call _ >>= ·) (funext fun d => ?_)))
  cases d <;> rfl

theorem reads_found {α : Type} (d : ArCore.Typed α) : Reads (· ++ ·) (· ++ ·) (fun s => found s d) some := by
  cases d with
  | found _ => exact .ret
  | missing | wrongType => exact .fail .ret

theorem reads_added (d : ArCore.ZaddResult) : Reads (· ++ ·) (· ++ ·) (fun s => added s d) some := by
  cases d with
  | added _ => exact .ret
  | _ => exact .fail .ret

theorem reads_loadItem (key : Bytes) : Reads (· ++ ·) (· ++ ·) (loadItem key) takeItem := by
  rw [funext (loadItem_eq key)]
  apply Reads.bind reads_blob
  refine .pair fun val => ?_
  dsimp only
  exact .after .ret fun d => reads_found d

theorem reads_loadField (key : Bytes) : Reads (· ++ ·) (· ++ ·) (loadField key) takeField := by
  rw [funext (loadField_eq key)]
  apply Reads.bind reads_blob
  refine .pair fun field => ?_
  dsimp only [takeItem]
  apply Reads.bind reads_blob
  refine .pair fun val => ?_
  dsimp only
  exact .after .ret fun d => reads_found d

theorem reads_loadMember (key : Bytes) : Reads (· ++ ·) (· ++ ·) (loadMember key) takeMember := by
  rw [funext (loadMember_eq key)]
  apply Reads.bind reads_f64
  refine .pair fun score => ?_
  dsimp only [takeItem]
  apply Reads.bind reads_blob
  refine .pair fun member => ?_
  dsimp only
  exact .after .ret fun d => reads_added d

theorem reads_loadContainer {drain load : Bytes → Code Bytes} {t : Bytes → Option Bytes}
    (hd : Reads (· ++ ·) (· ++ ·) drain t) (hl : Reads (· ++ ·) (· ++ ·) load t) (key : Bytes)
    (exp now : Nat) :
    Reads (· ++ ·) (· ++ ·) (loadContainer drain load key exp now) (takeContainer t) := by
  have hload : Reads (· ++ ·) (· ++ ·)
      (fun s => rdContainer load s >>= fun s => applyExpireAbs key exp now >>= fun _ => (Prog.ret s : Code Bytes))
      fun s => (takeContainer t s).bind some :=
    (reads_container hl).bind (.after .ret fun _ => .ret)
  have htake : (fun s => (takeContainer t s).bind some) = takeContainer t :=
    funext fun s => Option.bind_fun_some _
  rw [htake] at hload
  exact .ite (reads_container hd) hload

theorem reads_loadString (key : Bytes) (exp now : Nat) :
    Reads (· ++ ·) (· ++ ·) (loadString key exp now) takeItem := by
  apply Reads.bind reads_blob
  refine .pair fun val => ?_
  dsimp only
  by_cases hx : (!expired exp now) = true
  · simp only [if_pos hx]
    exact .after .ret fun _ => .ret
  · simp only [if_neg hx]
    exact .ret

theorem reads_loadOneV2 (now : Nat) : Reads (· ++ ·) (· ++ ·) (loadOneV2 now) takeOneV2 := by
  apply Reads.bind (reads_num 1)
  refine .pair fun type => ?_
  dsimp only
  apply Reads.bind reads_blob
  refine .pair fun key => ?_
  dsimp only
  apply Reads.bind (reads_num 8)
  refine .pair fun exp => ?_
  match type with
  | 0 => exact reads_loadString key exp now
  | 1 => exact reads_loadContainer reads_drainField (reads_loadField key) key exp now
  | 2 => exact reads_loadContainer reads_drainItem (reads_loadItem key) key exp now
  | 3 => exact reads_loadContainer reads_drainMember (reads_loadMember key) key exp now
  | n + 4 => exact .fail .none

theorem reads_loadOneV1 (now : Nat) : Reads (· ++ ·) (· ++ ·) (loadOneV1 now) takeOneV1 := by
  apply Reads.bind reads_blob
  refine .pair fun key => ?_
  dsimp only
  apply Reads.bind reads_blob
  refine .pair fun val => ?_
  dsimp only
  apply Reads.bind (reads_num 8)
  refine .pair fun exp => ?_
  dsimp only
  by_cases hx : (!expired exp now) = true
  · simp only [if_pos hx]
    exact .after .ret fun _ => .ret
  · simp only [if_neg hx]
    exact .ret

/-- `loadBytes`, with what is left. -/
def readDump (s : Bytes) : Code Bytes := do
  let m ← rdBytes 8 s
  if m.1 ≠ magic then Prog.fail
  else do
    let ver ← rdNum 4 m.2
    if ver.1 ≠ version ∧ ver.1 ≠ versionV1 then Prog.fail
    else do
      let n ← rdNum 8 ver.2
      if n.1 > maxEntries then Prog.fail
      else do
        let now ← eff .now
        rdElems (if ver.1 = versionV1 then loadOneV1 now else loadOneV2 now) n.1 n.2

theorem loadEntries_eq (one : Bytes → Code Bytes) (n : Nat) (s : Bytes) :
    loadEntries one n s = (rdElems one n s >>= fun _ => Prog.ret ()) := by
  induction n generalizing s with
  | zero => rfl
  | succ n ih =>
    show (one s >>= fun s => loadEntries one n s) = _
    rw [funext ih]
    exact (Prog.bind_assoc _ _ _).symm

theorem loadBytes_eq (s : Bytes) : loadBytes s = (readDump s >>= fun _ => Prog.ret ()) := by
  unfold loadBytes readDump
  simp only [loadEntries_eq, Prog.bind_assoc]
  refine congrArg (rdBytes 8 s >>= ·) (funext fun m => ?_)
  split
  · rfl
  · simp only [Prog.bind_assoc]
    refine congrArg (rdNum 4 m.2 >>= ·) (funext fun ver => ?_)
    split
    · rfl
    · simp only [Prog.bind_assoc]
      refine congrArg (rdNum 8 ver.2 >>= ·) (funext fun n => ?_)
      split
      · rfl
      · exact (Prog.bind_assoc _ _ _).symm

theorem reads_dump : Reads (· ++ ·) (· ++ ·) readDump takeDump := by
  apply Reads.bind (reads_bytes 8)
  refine .pair fun m => ?_
  dsimp only
  by_cases hm : m ≠ magic
  · simp only [if_pos hm]
    exact .fail .none
  simp only [if_neg hm]
  apply Reads.bind (reads_num 4)
  refine .pair fun ver => ?_
  dsimp only
  by_cases hver : ver ≠ version ∧ ver ≠ versionV1
  · simp only [if_pos hver]
    exact .fail .none
  simp only [if_neg hver]
  have hrest : ∀ {one : Nat → Bytes → Code Bytes} {t : Bytes → Option Bytes},
      (∀ now, Reads (· ++ ·) (· ++ ·) (one now) t) →
      Reads (· ++ ·) (· ++ ·) (fun s => rdNum 8 s >>= fun n =>
          if n.1 > maxEntries then Prog.fail else eff .now >>= fun now => rdElems (one now) n.1 n.2)
        fun s => (takeNum 8 s).bind fun n => if n.1 > maxEntries then none else takeElems t n.1 n.2 := by
    intro one t hone
    apply Reads.bind (reads_num 8)
    refine .pair fun n => ?_
    dsimp only
    by_cases hn : n > maxEntries
    · simp only [if_pos hn]
      exact .fail .none
    · simp only [if_neg hn]
      exact .after (reads_elems (hone 0) n).toTakes fun now => reads_elems (hone now) n
  by_cases hv : ver = versionV1
  · simp only [if_pos hv]
    exact hrest reads_loadOneV1
  · simp only [if_neg hv]
    exact hrest reads_loadOneV2

/-! ## The writer -/

theorem length_le (k n : Nat) : (le k n).length = k := by
  induction k generalizing n with
  | zero => rfl
  | succ k ih => exact congrArg (· + 1) (ih (n / 256))

theorem ofLe_le (k n : Nat) : ofLe (le k n) = n % 256 ^ k := by
  induction k generalizing n with
  | zero => exact (Nat.mod_one n).symm
  | succ k ih =>
    show (UInt8.ofNat n).toNat + 256 * ofLe (le k (n / 256)) = _
    rw [ih, UInt8.toNat_ofNat', pow_succ' 256]
    exact Nat.mod_mul.symm

theorem le_mod (k n : Nat) : le k (n % 256 ^ k) = le k n := by
  induction k generalizing n with
  | zero => rfl
  | succ k ih =>
    have hlow : UInt8.ofNat (n % 256 ^ (k + 1)) = UInt8.ofNat n := by
      apply UInt8.toNat_inj.1
      rw [UInt8.toNat_ofNat', UInt8.toNat_ofNat']
      exact Nat.mod_mod_of_dvd n ⟨256 ^ k, pow_succ' 256 k⟩
    show UInt8.ofNat (n % 256 ^ (k + 1)) :: le k (n % 256 ^ (k + 1) / 256) = _
    rw [hlow, pow_succ' 256, Nat.mod_mul_right_div_self, ih]
    rfl

theorem takeBytes_append (p x : Bytes) : takeBytes p.length (p ++ x) = some (p, x) := by
  unfold takeBytes
  rw [List.length_append, if_neg (by omega), List.take_left, List.drop_left]

theorem yields_bytes (p : Bytes) : Yields (takeBytes p.length) p (p, ·) := by
  intro x r h
  rw [takeBytes_append] at h
  exact (Option.some.inj h).symm

theorem yields_num (k n : Nat) : Yields (takeNum k) (le k n) (n % 256 ^ k, ·) := by
  have hbytes := yields_bytes (le k n)
  rw [length_le] at hbytes
  intro x r h
  obtain ⟨b, hb, hr⟩ := Option.bind_eq_some_iff.1 h
  obtain rfl := hbytes x b hb
  rw [ofLe_le] at hr
  exact (Option.some.inj hr).symm

theorem yields_len (limit n : Nat) : Yields (takeLen limit) (le 4 n) (n % 256 ^ 4, ·) := by
  intro x r h
  obtain ⟨b, hb, hr⟩ := Option.bind_eq_some_iff.1 h
  obtain rfl := yields_num 4 n x b hb
  split at hr
  · cases hr
  · exact (Option.some.inj hr).symm

theorem yields_blob {p s : Bytes} (hs : wrBlob p = some s) : Yields takeBlob s (p, ·) := by
  unfold wrBlob at hs
  split at hs
  · cases hs
  · rename_i hlen
    obtain rfl := Option.some.inj hs
    have hmod : p.length % 256 ^ 4 = p.length := Nat.mod_eq_of_lt (by unfold maxLen at hlen; omega)
    have hn := yields_len maxBlob p.length
    rw [hmod] at hn
    exact hn.bind (yields_bytes p)

theorem yields_item {p s : Bytes} (hs : wrBlob p = some s) : Yields takeItem s id := by
  have h := (yields_blob hs).bind (u := fun val => some val.2) .nil
  rwa [List.append_nil] at h

theorem yields_field {field val s s' : Bytes} (hs : wrBlob field = some s) (hs' : wrBlob val = some s') :
    Yields takeField (s ++ s') id := (yields_blob hs).bind (yields_item hs')

theorem yields_member {score : CDouble} {member s : Bytes} (hs : wrBlob member = some s) :
    Yields takeMember (le 8 score.bits.toNat ++ s) id := by
  have hscore := (yields_num 8 score.bits.toNat).bind
    (u := fun r => some ((⟨BitVec.ofNat 64 r.1⟩ : CDouble), r.2))
    (show Yields _ [] (fun x => (_, x)) from fun x r h => (Option.some.inj h).symm)
  rw [List.append_nil] at hscore
  exact hscore.bind (yields_item hs)

theorem yields_elems {α : Type} {w : α → Option Bytes} {elem : Bytes → Option Bytes} {as : List α} {s : Bytes}
    (hs : wrAll w as = some s) (h : ∀ a ∈ as, ∀ s, w a = some s → Yields elem s id) :
    Yields (takeElems elem as.length) s id := by
  induction as generalizing s with
  | nil =>
    obtain rfl := Option.some.inj hs
    exact .nil
  | cons a as ih =>
    obtain ⟨s₁, hs₁, hs⟩ := Option.bind_eq_some_iff.1 hs
    obtain ⟨s₂, hs₂, rfl⟩ := Option.map_eq_some_iff.1 hs
    exact (h a (.head _) s₁ hs₁).bind (ih hs₂ fun b hb => h b (.tail _ hb))

theorem yields_container {elem : Bytes → Option Bytes} {n : Nat} {s : Bytes} (hn : n < 2 ^ 32)
    (h : Yields (takeElems elem n) s id) : Yields (takeContainer elem) (le 4 n ++ s) id := by
  have hlen := yields_len maxElems n
  rw [Nat.mod_eq_of_lt (by omega)] at hlen
  exact hlen.bind h

/-- The fields of a hash, one after the other. -/
theorem wrAll_flatMap (l : List (Bytes × Bytes)) :
    wrAll wrBlob (l.flatMap fun f => [f.1, f.2]) =
      wrAll (fun f => (wrBlob f.1).bind fun s => (wrBlob f.2).map (s ++ ·)) l := by
  induction l with
  | nil => rfl
  | cons f l ih =>
    rw [List.flatMap_cons]
    show (wrBlob f.1).bind _ = ((wrBlob f.1).bind _).bind _
    cases hf : wrBlob f.1 with
    | none => rfl
    | some s =>
      show ((wrBlob f.2).bind _).map _ = ((wrBlob f.2).map _).bind _
      cases hv : wrBlob f.2 with
      | none => rfl
      | some s' =>
        show ((wrAll wrBlob (l.flatMap fun f => [f.1, f.2])).map _).map _ = (wrAll _ l).map _
        rw [ih, Option.map_map]
        exact congrArg (Option.map · _) (funext fun x => (List.append_assoc s s' x).symm)

/-- A hash is written as its fields, one after the other, behind their number. -/
theorem writeHash_eq {h : ArHash} {s : Bytes} (hs : writeHash h = some s) :
    ∃ s₁, wrAll (fun f : Bytes × Bytes => (wrBlob f.1).bind fun s => (wrBlob f.2).map (s ++ ·))
      h.buckets.flatten = some s₁ ∧ s = le 4 h.buckets.flatten.length ++ s₁ := by
  obtain ⟨s₁, hs₁, hs⟩ := Option.bind_eq_some_iff.1 hs
  split at hs
  · rename_i hfields
    rw [wrAll_flatMap] at hs₁
    refine ⟨s₁, hs₁, ?_⟩
    rw [← Option.some.inj hs, ← le_mod 4 h.nfields, ← le_mod 4 h.buckets.flatten.length]
    exact congrArg (fun n => le 4 n ++ s₁) hfields.symm
  · cases hs

/-- How many elements a value has. -/
def count : ArObj → Nat
  | .string _ => 0
  | .hash h => h.buckets.flatten.length
  | .list l => l.length
  | .zset z => z.arr.length

theorem yields_payload {obj : ArObj} (hn : count obj < 2 ^ 32) {s : Bytes} (hs : writePayload obj = some s) :
    Yields (takePayload (typeCode obj)) s id := by
  cases obj with
  | string val => exact yields_item hs
  | hash h =>
    obtain ⟨s₁, hs₁, rfl⟩ := writeHash_eq hs
    refine yields_container hn (yields_elems hs₁ fun f _ s hf => ?_)
    obtain ⟨a, ha, hf⟩ := Option.bind_eq_some_iff.1 hf
    obtain ⟨b, hb, rfl⟩ := Option.map_eq_some_iff.1 hf
    exact yields_field ha hb
  | list l =>
    obtain ⟨s₁, hs₁, rfl⟩ := Option.map_eq_some_iff.1 hs
    exact yields_container hn (yields_elems hs₁ fun p _ s hp => yields_item hp)
  | zset z =>
    obtain ⟨s₁, hs₁, rfl⟩ := Option.map_eq_some_iff.1 hs
    refine yields_container hn (yields_elems hs₁ fun n _ s hp => ?_)
    obtain ⟨a, ha, rfl⟩ := Option.map_eq_some_iff.1 hp
    exact yields_member ha

theorem yields_entry {e : ArEntry} (hn : count e.obj < 2 ^ 32) {s : Bytes} (hs : writeEntryV2 e = some s) :
    Yields takeOneV2 s id := by
  obtain ⟨key, hkey, hs⟩ := Option.bind_eq_some_iff.1 hs
  obtain ⟨payload, hpayload, rfl⟩ := Option.map_eq_some_iff.1 hs
  have htype : typeCode e.obj % 256 ^ 1 = typeCode e.obj := by
    cases e.obj <;> rfl
  have hcode := yields_num 1 (typeCode e.obj)
  rw [htype] at hcode
  have hexp := (yields_num 8 e.expireAt).pair (fun _ => takePayload (typeCode e.obj))
    (yields_payload hn hpayload)
  have hrest := (yields_blob hkey).pair
    (fun _ s => (takeNum 8 s).bind fun exp => takePayload (typeCode e.obj) exp.2) hexp
  exact hcode.pair (fun type s => (takeBlob s).bind fun key => (takeNum 8 key.2).bind fun exp =>
    takePayload type exp.2) hrest

/-- The bytes of a snapshot are what its lengths and counts measure. -/
theorem takeDump_dump {c : ArCore} {now : Nat} {s r : Bytes} (hs : dump c now = some s)
    (hn : ∀ e ∈ live c now, count e.obj < 2 ^ 32) (hlive : (live c now).length < 2 ^ 64)
    (hr : takeDump s = some r) : r = [] := by
  obtain ⟨s₁, hs₁, rfl⟩ := Option.map_eq_some_iff.1 hs
  have hone : Yields (takeElems takeOneV2 (live c now).length) s₁ id :=
    yields_elems hs₁ fun e he s hs => yields_entry (hn e he) hs
  have hcount : Yields (fun x => if (live c now).length > maxEntries then none
      else takeElems takeOneV2 (live c now).length x) s₁ id := .guard fun _ => hone
  have hlen := yields_num 8 (live c now).length
  rw [Nat.mod_eq_of_lt (by omega)] at hlen
  have hentries := hlen.bind (u := fun n => if n.1 > maxEntries then none else takeElems takeOneV2 n.1 n.2) hcount
  have hver : Yields (fun x => (takeNum 4 x).bind fun ver =>
      if ver.1 ≠ version ∧ ver.1 ≠ versionV1 then none
      else (takeNum 8 ver.2).bind fun n => if n.1 > maxEntries then none
        else takeElems (if ver.1 = versionV1 then takeOneV1 else takeOneV2) n.1 n.2)
      (le 4 version ++ (le 8 (live c now).length ++ s₁)) id := (yields_num 4 version).bind hentries
  have hmagic := yields_bytes magic
  rw [show magic.length = 8 by rfl] at hmagic
  obtain ⟨m, hm, hr⟩ := Option.bind_eq_some_iff.1 hr
  obtain rfl := hmagic _ m hm
  split at hr
  · cases hr
  · exact hver.whole hr

end Rdb

end AuraRedis
