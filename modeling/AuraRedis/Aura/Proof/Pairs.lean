import AuraRedis.Aura.Commands
import AuraRedis.Aura.Proof.Resp
import Mathlib.Data.Finset.Sort
import Mathlib.Data.List.Lex

/-!
# The array of a hash

`HGETALL` shows every field behind its value (`hgetall_run`), so what it replies are the fields with their values
exactly when the hash is its own inverse (`hgetall_pairs_iff`).
-/

set_option autoImplicit false

namespace Aura

theorem respEncode_inj {v v' : Wire} (hv : v.WellFormed) (hv' : v'.WellFormed) (h : respEncode v = respEncode v') :
    v = v' := by
  let _ : Runtime := decimalRuntime
  have hread := (readsAt_encode inverts_decimalRuntime hv).ok ((respEncode v).length + 1) [] [] (by simp)
  have hread' := (readsAt_encode inverts_decimalRuntime hv').ok ((respEncode v).length + 1) [] [] (by simp [h])
  rw [← h] at hread'
  exact (Prod.mk.inj (Option.some.inj (hread.symm.trans hread'))).2

theorem wellFormed_bulks (xs : List Bytes) : (Wire.array (xs.map .bulk)).WellFormed := by
  refine .array fun x hx => ?_
  obtain ⟨s, -, rfl⟩ := List.mem_map.1 hx
  exact .bulk s

theorem bulks_inj {xs ys : List Bytes}
    (h : respEncode (.array (xs.map .bulk)) = respEncode (.array (ys.map .bulk))) : xs = ys := by
  injection respEncode_inj (wellFormed_bulks xs) (wellFormed_bulks ys) h with h
  exact List.map_injective_iff.2 (fun a b hab => Wire.bulk.inj hab) h

theorem wireBulkOrNull_inj {o : Option Bytes} {v : Bytes} (h : respEncode (wireBulkOrNull o) = respEncode (.bulk v)) :
    o = some v := by
  cases o with
  | none => cases respEncode_inj .null (.bulk v) h
  | some u =>
    injection respEncode_inj (.bulk u) (.bulk v) h with h
    rw [h]

/-- Pairs that come to one list are one list of pairs. -/
theorem pairs_inj {ps qs : List (Bytes × Bytes)}
    (h : (ps.flatMap fun p => [p.1, p.2]) = qs.flatMap fun p => [p.1, p.2]) : ps = qs := by
  induction ps generalizing qs with
  | nil =>
    cases qs with
    | nil => rfl
    | cons q qs => cases h
  | cons p ps ih =>
    cases qs with
    | nil => cases h
    | cons q qs =>
      simp only [List.flatMap_cons, List.cons_append, List.nil_append, List.cons.injEq] at h
      obtain ⟨h₁, h₂, h⟩ := h
      rw [ih h, Prod.ext h₁ h₂]

/-- The loop conses the value first. -/
theorem gatherFields_eq (h : Table Bytes) (ks out : List Bytes) :
    (gatherFields h ks out).reverse = out.reverse ++ ks.flatMap fun k => [(h.lookup k).getD [], k] := by
  induction ks generalizing out with
  | nil => simp [gatherFields]
  | cons k ks ih => simp [gatherFields, ih]

/-! ## Live keys -/

section
variable [Host] {s : Store} {key cmd : Bytes} {h : Table Bytes} {ex start : Int}

/-- The key has the hash, and its deadline is not over. -/
structure Live (s : Store) (key : Bytes) (h : Table Bytes) (ex : Int) : Prop where
  entry : s.db.lookup key = some ⟨.hash h, ex⟩
  time : ex = 0 ∨ Host.now s.asked < ex

theorem storeGet_live (hl : Live s key h ex) :
    ∃ n, (storeGet key).run s = (some ⟨.hash h, ex⟩, { s with asked := n }) := by
  unfold storeGet storeTouch hashRef currentTimeMs
  by_cases hex : ex = 0
  · refine ⟨s.asked, ?_⟩
    simp [hl.entry, hex]
    rfl
  · have htime := hl.time.resolve_left hex
    refine ⟨s.asked + 1, ?_⟩
    simp [hl.entry, hex, htime]
    rfl

theorem storeHashGet_live (hl : Live s key h ex) (field : Bytes) :
    ((storeHashGet key field).run s).1 = h.lookup field := by
  obtain ⟨n, hget⟩ := storeGet_live hl
  unfold storeHashGet
  rw [StateT.run_bind, hget]
  rfl

theorem storeHashGetall_live (hl : Live s key h ex) : ∃ ks : List Bytes, ks.Nodup ∧ (∀ k, k ∈ ks ↔ k ∈ h) ∧
    ((storeHashGetall key).run s).1 = ks.flatMap fun k => [(h.lookup k).getD [], k] := by
  obtain ⟨n, hget⟩ := storeGet_live hl
  refine ⟨Host.keys n h.keys, Host.nodup_keys n _, fun k => (Host.mem_keys n _ k).trans Finmap.mem_keys, ?_⟩
  unfold storeHashGetall
  rw [StateT.run_bind, hget]
  exact gatherFields_eq h _ []

/-! ## The two commands -/

/-- The names that are asked for before `HGET`. -/
def namesBefore : List String :=
  ["GET", "SET", "PING", "ECHO", "QUIT", "SETEX", "PSETEX", "MGET", "MSET", "APPEND", "STRLEN", "GETSET", "DEL",
   "UNLINK", "EXISTS", "INCR", "DECR", "KEYS", "DBSIZE", "INFO", "RENAME", "RENAMENX", "FLUSHDB", "TYPE", "TTL",
   "EXPIRE", "LPUSH", "RPUSH", "LPOP", "RPOP", "LLEN", "HSET"]

omit [Host] in
theorem cmdEq_of_ne {name other : String} (hc : cmdEq cmd name = true) (hne : (lit name == lit other) = false) :
    cmdEq cmd other = false := by
  have hup : asciiUpcase cmd = lit name := eq_of_beq hc
  unfold cmdEq
  rw [hup, hne]

variable [Runtime]

theorem hget_run (hc : cmdEq cmd "HGET" = true) (rest : List Bytes) (field : Bytes) :
    cmdDispatch start (cmd :: key :: field :: rest) =
      (storeHashGet key field >>= fun v => pure (respEncode (wireBulkOrNull v))) := by
  have hno : ∀ t ∈ namesBefore, cmdEq cmd t = false := fun t ht =>
    cmdEq_of_ne hc (by revert t; decide)
  simp only [namesBefore, List.forall_mem_cons] at hno
  unfold cmdDispatch
  simp [argAt, hno, hc]

theorem hgetall_run (hc : cmdEq cmd "HGETALL" = true) (rest : List Bytes) :
    cmdDispatch start (cmd :: key :: rest) =
      (storeHashGetall key >>= fun xs => pure (respEncode (.array (xs.map .bulk)))) := by
  have hno : ∀ t ∈ namesBefore ++ ["HGET", "HDEL"], cmdEq cmd t = false := fun t ht =>
    cmdEq_of_ne hc (by revert t; decide)
  simp only [namesBefore, List.cons_append, List.nil_append, List.forall_mem_cons] at hno
  unfold cmdDispatch
  simp [argAt, hno, hc]

/-- The array of a reply is the fields of a hash, each before what `HGET` replies for it. -/
def ShowsPairs (start : Int) (s : Store) (key : Bytes) (h : Table Bytes) (reply : Bytes) : Prop :=
  ∃ pairs : List (Bytes × Bytes),
    reply = respEncode (.array ((pairs.flatMap fun p => [p.1, p.2]).map .bulk)) ∧
    pairs.length = h.keys.card ∧ (pairs.map Prod.fst).Nodup ∧ (∀ f, f ∈ pairs.map Prod.fst ↔ f ∈ h) ∧
    ∀ p ∈ pairs, ((cmdDispatch start [lit "HGET", key, p.1]).run s).1 = respEncode (.bulk p.2)

/-- Every field is the value of its value. -/
def SelfInverse (h : Table Bytes) : Prop := ∀ f v, h.lookup f = some v → h.lookup v = some f

theorem hget_live (hl : Live s key h ex) (field : Bytes) :
    ((cmdDispatch start [lit "HGET", key, field]).run s).1 = respEncode (wireBulkOrNull (h.lookup field)) := by
  rw [hget_run (by decide), StateT.run_bind]
  show respEncode (wireBulkOrNull ((storeHashGet key field).run s).1) = _
  rw [storeHashGet_live hl]

theorem hgetall_live (hl : Live s key h ex) (hc : cmdEq cmd "HGETALL" = true) (rest : List Bytes) :
    ∃ ks : List Bytes, ks.Nodup ∧ (∀ k, k ∈ ks ↔ k ∈ h) ∧ ((cmdDispatch start (cmd :: key :: rest)).run s).1 =
      respEncode (.array ((ks.flatMap fun k => [(h.lookup k).getD [], k]).map .bulk)) := by
  obtain ⟨ks, hn, hk, hall⟩ := storeHashGetall_live hl
  refine ⟨ks, hn, hk, ?_⟩
  rw [hgetall_run hc, StateT.run_bind]
  show respEncode (.array (((storeHashGetall key).run s).1.map .bulk)) = _
  rw [hall]

theorem showsPairs_iff (hl : Live s key h ex) {ks : List Bytes} (hn : ks.Nodup) (hk : ∀ k, k ∈ ks ↔ k ∈ h) :
    ShowsPairs start s key h (respEncode (.array ((ks.flatMap fun k => [(h.lookup k).getD [], k]).map .bulk))) ↔
      SelfInverse h := by
  have hflat : (ks.flatMap fun k => [(h.lookup k).getD [], k]) =
      (ks.map fun k => ((h.lookup k).getD [], k)).flatMap fun p => [p.1, p.2] := by
    rw [List.flatMap_map]
  rw [hflat]
  have hmem : ∀ {f v : Bytes}, h.lookup f = some v → f ∈ ks := fun hf =>
    (hk _).2 (Finmap.mem_of_lookup_eq_some hf)
  constructor
  · rintro ⟨pairs, hreply, -, -, -, hget⟩ f v hf
    obtain rfl := pairs_inj (bulks_inj hreply)
    have hp : (v, f) ∈ ks.map fun k => ((h.lookup k).getD [], k) :=
      List.mem_map.2 ⟨f, hmem hf, by rw [hf]; rfl⟩
    have hreply := hget _ hp
    rw [hget_live hl] at hreply
    exact wireBulkOrNull_inj hreply
  · intro hinv
    have hfst : (ks.map fun k => ((h.lookup k).getD [], k)).map Prod.fst = ks.map fun k => (h.lookup k).getD [] := by
      rw [List.map_map]
      rfl
    have hval : ∀ k ∈ ks, ∃ v, h.lookup k = some v := fun k hm => Finmap.mem_iff.1 ((hk k).1 hm)
    refine ⟨_, rfl, ?_, ?_, fun f => ?_, fun p hp => ?_⟩
    · have hset : ks.toFinset = h.keys := Finset.ext fun k => by
        rw [List.mem_toFinset, hk, Finmap.mem_keys]
      rw [List.length_map, ← hset, List.toFinset_card_of_nodup hn]
    · rw [hfst]
      refine List.Nodup.map_on (fun a ha b hb hab => ?_) hn
      obtain ⟨u, hu⟩ := hval a ha
      obtain ⟨v, hv⟩ := hval b hb
      rw [hu, hv, Option.getD_some, Option.getD_some] at hab
      have hback := hinv a u hu
      rw [hab, hinv b v hv] at hback
      exact (Option.some.inj hback).symm
    · rw [hfst, List.mem_map]
      constructor
      · rintro ⟨k, hm, rfl⟩
        obtain ⟨v, hv⟩ := hval k hm
        rw [hv]
        exact Finmap.mem_of_lookup_eq_some (hinv k v hv)
      · intro hf
        obtain ⟨v, hv⟩ := Finmap.mem_iff.1 hf
        have hback := hinv f v hv
        exact ⟨v, hmem hback, by rw [hback]; rfl⟩
    · obtain ⟨k, hm, rfl⟩ := List.mem_map.1 hp
      obtain ⟨v, hv⟩ := hval k hm
      rw [hget_live hl, hv, Option.getD_some, hinv k v hv]
      rfl

/-- **`HGETALL` shows the pairs of a hash exactly when the hash is its own inverse.** -/
theorem hgetall_pairs_iff (hl : Live s key h ex) (hc : cmdEq cmd "HGETALL" = true) (rest : List Bytes) :
    ShowsPairs start s key h ((cmdDispatch start (cmd :: key :: rest)).run s).1 ↔ SelfInverse h := by
  obtain ⟨ks, hn, hk, hreply⟩ := hgetall_live hl hc rest
  rw [hreply]
  exact showsPairs_iff hl hn hk

end

/-! ## A machine -/

/-- Keys by their bytes. -/
def KeyLe (a b : Bytes) : Prop := a.map UInt8.toNat ≤ b.map UInt8.toNat

instance : DecidableRel KeyLe := fun a b => inferInstanceAs (Decidable (a.map UInt8.toNat ≤ b.map UInt8.toNat))

instance : IsTrans Bytes KeyLe := ⟨fun _ _ _ => le_trans⟩

instance : Std.Antisymm KeyLe :=
  ⟨fun _ _ h h' => List.map_injective_iff.2 (fun _ _ => UInt8.toNat_inj.1) (le_antisymm h h')⟩

instance : Std.Total KeyLe := ⟨fun _ _ => le_total _ _⟩

/-- A machine whose clock stands, and whose tables show their keys in order. -/
@[reducible] def sortedHost : Host where
  now _ := 0
  keys _ s := s.sort KeyLe
  nodup_keys _ s := Finset.sort_nodup s KeyLe
  mem_keys _ _ _ := Finset.mem_sort KeyLe

/-- After `HSET h f v`. -/
def oneField (f v : Bytes) : Store :=
  let _ : Host := sortedHost
  let _ : Runtime := decimalRuntime
  ((cmdDispatch 0 [lit "HSET", lit "h", f, v]).run {}).2

theorem live_oneField (f v : Bytes) :
    let _ : Host := sortedHost
    Live (oneField f v) (lit "h") ((∅ : Table Bytes).insert f v) 0 := by
  intro _
  exact ⟨rfl, .inl rfl⟩

/-- Two fields, each the value of the other. -/
def crossed : Table Bytes := ((∅ : Table Bytes).insert (lit "a") (lit "b")).insert (lit "b") (lit "a")

/-- After `HSET h a b` and `HSET h b a`. -/
def crossedStore : Store :=
  let _ : Host := sortedHost
  let _ : Runtime := decimalRuntime
  ((cmdDispatch 0 [lit "HSET", lit "h", lit "b", lit "a"]).run (oneField (lit "a") (lit "b"))).2

theorem live_crossedStore :
    let _ : Host := sortedHost
    Live crossedStore (lit "h") crossed 0 := by
  intro _
  exact ⟨rfl, .inl rfl⟩

theorem selfInverse_crossed : SelfInverse crossed := by
  intro f v hf
  have ha : crossed.lookup (lit "a") = some (lit "b") := by decide
  have hb : crossed.lookup (lit "b") = some (lit "a") := by decide
  by_cases hfb : f = lit "b"
  · rw [hfb, hb] at hf
    cases hf
    rw [ha, hfb]
  · unfold crossed at hf
    rw [Finmap.lookup_insert_of_ne _ hfb] at hf
    by_cases hfa : f = lit "a"
    · rw [hfa, Finmap.lookup_insert] at hf
      cases hf
      rw [hb, hfa]
    · rw [Finmap.lookup_insert_of_ne _ hfa, Finmap.lookup_empty] at hf
      cases hf

theorem hgetall_pairs_crossed :
    let _ : Host := sortedHost
    let _ : Runtime := decimalRuntime
    ShowsPairs 0 crossedStore (lit "h") crossed
      ((cmdDispatch 0 [lit "hgetall", lit "h"]).run crossedStore).1 := by
  intro _ _
  exact (hgetall_pairs_iff live_crossedStore (by decide) []).2 selfInverse_crossed

/-- A field with another value. -/
theorem hgetall_reversed :
    let _ : Host := sortedHost
    let _ : Runtime := decimalRuntime
    ¬ShowsPairs 0 (oneField (lit "f") (lit "v")) (lit "h") ((∅ : Table Bytes).insert (lit "f") (lit "v"))
      ((cmdDispatch 0 [lit "HGETALL", lit "h"]).run (oneField (lit "f") (lit "v"))).1 := by
  intro _ _ hshows
  have hname : cmdEq (lit "HGETALL") "HGETALL" = true := by decide
  obtain ⟨ks, hn, hk, hreply⟩ := hgetall_live (live_oneField (lit "f") (lit "v")) hname []
  rw [hreply] at hshows
  have hinv := (showsPairs_iff (live_oneField (lit "f") (lit "v")) hn hk).1 hshows
  have hf := hinv (lit "f") (lit "v") (Finmap.lookup_insert _)
  rw [Finmap.lookup_insert_of_ne _ (by decide), Finmap.lookup_empty] at hf
  cases hf

end Aura
