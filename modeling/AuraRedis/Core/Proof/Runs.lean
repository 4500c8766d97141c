import AuraRedis.Core.Proof.Op

/-!
# Runs

Invariants of every reachable core and what holds along every run: the dictionary is in order
(`reachable_dict`), the accounting is exact unless `LREM` empties a list (`used_memory_runs`), and under
the noop kernel the core is the map (`refines_map`).
-/

set_option autoImplicit false

namespace AuraRedis

open ArCore (Typed)

section
variable {c : ArCore} {x : Call}

/-! ## The dictionary -/

/-- The clock stands still, chance is even-handed and there is memory. -/
def Env.steady (t : Nat) : Env := ⟨fun _ => t, fun _ => 0, fun _ => true⟩

def Call.steady (t : Nat) (op : ArOp) : Call := ⟨.steady t, t, op, fun _ => rfl⟩

theorem ArCore.Reachable.runCalls (h : ArCore.Reachable c) (calls : List Call) :
    ArCore.Reachable (c.runCalls calls) := by
  induction calls generalizing c with
  | nil => exact h
  | cons x calls ih => exact ih (.call x h)

/-- One call keeps the core well formed. -/
theorem wf_run (hwf : c.WF) (x : Call) : (x.op.run x.E c).1.WF := by
  cases hk : x.op.isKnob with
  | false => exact (x.op.sound x.frozen hwf hk).evolves.wf hwf
  | true =>
    obtain ⟨g, s, hev, -⟩ := x.op.knob_evolves (B := .plain) x.frozen hwf hk
    exact hev.wf ⟨hwf.dict, hwf.objs⟩

theorem wf_runCalls (hwf : c.WF) (calls : List Call) : (c.runCalls calls).WF := by
  induction calls generalizing c with
  | nil => exact hwf
  | cons x calls ih => exact ih (wf_run hwf x)

theorem entries_arCoreCreate : ArCore.arCoreCreate.dict.entries = 0 := by
  show Chains.entries (List.replicate 1024 []) + Chains.entries [] = 0
  rw [Chains.entries_replicate]
  rfl

theorem items_arCoreCreate : ArCore.arCoreCreate.items = 0 := by
  rw [ArCore.items, entries_arCoreCreate, Multiset.map_zero]

theorem wf_arCoreCreate : ArCore.arCoreCreate.WF := by
  refine ⟨⟨⟨⟨10, List.length_replicate⟩, fun h => (by cases h), fun _ => rfl, Chains.placed_replicate _,
    fun b e h => ?_, ?_⟩, ?_, fun h => (by cases h), fun h => by cases h⟩, fun i hi => ?_⟩
  · exact absurd (Chains.mem_entries_of_chain h) (Multiset.notMem_zero e)
  · rw [entries_arCoreCreate, Multiset.map_zero]
    exact Multiset.nodup_zero
  · rw [entries_arCoreCreate, Multiset.card_zero]
    rfl
  · rw [items_arCoreCreate] at hi
    exact absurd hi (Multiset.notMem_zero i)

/-- **Every reachable core is well formed.** -/
theorem ArCore.Reachable.wf (h : ArCore.Reachable c) : c.WF := by
  induction h with
  | create => exact wf_arCoreCreate
  | call x _ ih => exact wf_run ih x

theorem coe_linked (d : Dict) : (d.linked : Multiset ArEntry) = d.entries := (Multiset.coe_add _ _).symm

theorem card_entries (t : Table) : t.entries.card = t.flatten.length := Multiset.coe_card _

/-- **The dictionary of every reachable core is in order**: the tables have a power of two of chains, an
entry is in the chain of its key's hash, by either function, no key is linked twice, and the counters
are exact. -/
theorem reachable_dict (h : ArCore.Reachable c) :
    (∃ p, c.dict.hot.length = 2 ^ p) ∧
    (c.dict.layout = .hotCold → ∃ p, c.dict.cold.length = 2 ^ p) ∧
    (c.dict.layout = .flat → c.dict.cold = []) ∧
    (∀ tier b e, e ∈ (c.dict.table tier).chain b →
      b = hashBin e.key &&& ((c.dict.table tier).length - 1) ∧
        b = arFnvHash e.key &&& ((c.dict.table tier).length - 1)) ∧
    (c.dict.linked.map (·.key)).Nodup ∧
    c.dict.nkeys = c.dict.linked.length ∧
    (c.dict.layout = .hotCold →
      c.dict.hotNkeys = c.dict.hot.flatten.length ∧ c.dict.coldNkeys = c.dict.cold.flatten.length) := by
  have hd := h.wf.dict
  refine ⟨hd.hotPow, hd.coldPow, hd.flatCold, fun tier b e he => ?_, ?_, ?_, fun hl => ⟨?_, ?_⟩⟩
  · have hb : entrySlot (c.dict.table tier).length e = b := hd.toShape.placed tier b e he
    exact ⟨hb.symm, hb.symm⟩
  · have := hd.nodup
    rw [← coe_linked, Multiset.map_coe, Multiset.coe_nodup] at this
    exact this
  · rw [hd.nkeys, ← coe_linked, Multiset.coe_card]
  · rw [hd.hotNkeys hl, card_entries]
  · rw [hd.coldNkeys hl, card_entries]

/-- A migrated core with a list and a string. -/
def sampleCalls : List Call :=
  [.steady 5 (.arListPush (lit "k") true [lit "a", lit "b"]), .steady 6 (.arCoreSetLayout .hotCold),
    .steady 7 (.arSetBinPx (lit "s") (lit "v") 10)]

theorem reachable_dict_sample :
    (ArCore.arCoreCreate.runCalls sampleCalls).dict.nkeys =
        (ArCore.arCoreCreate.runCalls sampleCalls).dict.linked.length ∧
      ((ArCore.arCoreCreate.runCalls sampleCalls).dict.layout = .hotCold →
        (ArCore.arCoreCreate.runCalls sampleCalls).dict.hotNkeys =
            (ArCore.arCoreCreate.runCalls sampleCalls).dict.hot.flatten.length ∧
          (ArCore.arCoreCreate.runCalls sampleCalls).dict.coldNkeys =
            (ArCore.arCoreCreate.runCalls sampleCalls).dict.cold.flatten.length) :=
  (reachable_dict (ArCore.Reachable.create.runCalls sampleCalls)).2.2.2.2.2

/-! ## The accounting -/

/-- A call whose `LREM`, if it is one, leaves something of its list. -/
def LremLeaves (c : ArCore) (x : Call) : Prop :=
  ∀ key count elem, x.op = .arListLrem key count elem → ∀ l d, c.view x.t key = some (.list l, d) →
    ¬LremEmpties l count elem

/-- One call keeps the accounting exact. -/
theorem counted_run (hwf : c.WF) (hc : c.Counted) (ha : x.E.AllocOk) (hl : LremLeaves c x) :
    (x.op.run x.E c).1.Counted := by
  cases hk : x.op.isKnob with
  | false =>
    apply (x.op.sound x.frozen hwf hk).evolves.counts _ hc
    show x.op.Exact x.E (c.view x.t)
    unfold ArOp.Exact
    split
    · exact ha
    · rename_i key count elem ho
      exact hl key count elem ho
    · trivial
  | true =>
    obtain ⟨g, s, hev, -⟩ := x.op.knob_evolves (B := .plain) x.frozen hwf hk
    exact hev.counts trivial hc

theorem counted_runs (hwf : c.WF) (hc : c.Counted) {calls : List Call} (ha : ∀ x ∈ calls, x.E.AllocOk)
    (hl : c.Each LremLeaves calls) : (c.runCalls calls).Counted := by
  induction calls generalizing c with
  | nil => exact hc
  | cons x calls ih =>
    exact ih (wf_run hwf x) (counted_run hwf hc (ha x (.head _)) hl.1) (fun y hy => ha y (.tail _ hy)) hl.2

/-- **`used_memory` is exact** in every core a run comes to whose calls to `LREM` all leave something of
their list. -/
theorem used_memory_runs {calls : List Call} (ha : ∀ x ∈ calls, x.E.AllocOk)
    (hl : ArCore.arCoreCreate.Each LremLeaves calls) :
    (ArCore.arCoreCreate.runCalls calls).mem.usedMemory =
      ((ArCore.arCoreCreate.runCalls calls).dict.linked.map fun e =>
        e.key.length + e.obj.payloadBytes + entrySize).sum := by
  have hc : ArCore.arCoreCreate.Counted := by
    unfold ArCore.Counted
    rw [items_arCoreCreate]
    exact .zero rfl rfl rfl rfl
  rw [(counted_runs wf_arCoreCreate hc ha hl).used, ArCore.items, Multiset.map_map, ← coe_linked,
    Multiset.map_coe, Multiset.sum_coe]
  rfl

/-- A list of which `LREM` leaves an element, and a string that is overwritten. -/
def keptCalls : List Call :=
  [.steady 5 (.arListPush (lit "k") false [lit "a", lit "b", lit "a"]), .steady 6 (.arSetBinPx (lit "s") (lit "v") 10),
    .steady 7 (.arListLrem (lit "k") 0 (lit "a")), .steady 8 (.arEntrySetEx (lit "s") (lit "longer") 0)]

theorem lremLeaves_of_peek {key elem : Bytes} {count : Int} {l : List Bytes} {ttl : Bool} {d : Nat}
    (hx : x.op = .arListLrem key count elem) (hp : c.peek x.t key = some ⟨key, .list l, ttl, d⟩)
    (hl : ¬LremEmpties l count elem) : LremLeaves c x := by
  intro key' count' elem' hx' l' d' hview
  cases hx.symm.trans hx'
  unfold ArCore.view at hview
  rw [hp] at hview
  cases hview
  exact hl

theorem lremLeaves_keptCalls : ArCore.arCoreCreate.Each LremLeaves keptCalls := by
  have hlist : (ArCore.arCoreCreate.runCalls (keptCalls.take 2)).peek 7 (lit "k") =
      some ⟨lit "k", .list [lit "a", lit "b", lit "a"], false, 0⟩ := by decide +kernel
  have hleaves : ¬LremEmpties [lit "a", lit "b", lit "a"] 0 (lit "a") := fun h => by
    exact absurd (h.2.1 (lit "b") (by decide)) (by decide)
  unfold keptCalls
  simp only [ArCore.Each, and_true]
  refine ⟨fun key count elem h => ?_, fun key count elem h => ?_, lremLeaves_of_peek rfl hlist hleaves,
    fun key count elem h => ?_⟩ <;> cases h

theorem used_memory_sample :
    (ArCore.arCoreCreate.runCalls keptCalls).mem.usedMemory =
      ((ArCore.arCoreCreate.runCalls keptCalls).dict.linked.map fun e =>
        e.key.length + e.obj.payloadBytes + entrySize).sum := by
  refine used_memory_runs (fun x hx => ?_) lremLeaves_keptCalls
  simp only [keptCalls, List.mem_cons, List.not_mem_nil, or_false] at hx
  obtain rfl | rfl | rfl | rfl := hx <;> exact fun _ => rfl

/-- A list of one element that `LREM` takes. -/
def leakCalls : List Call :=
  [.steady 0 (.arListPush (lit "k") false [lit "a"]), .steady 0 (.arListLrem (lit "k") 0 (lit "a"))]

/-- The element that `LREM` took is never taken off the account. -/
theorem lrem_leaks :
    (∀ x ∈ leakCalls, x.E.AllocOk) ∧
      (ArCore.arCoreCreate.runCalls leakCalls).dict.linked = [] ∧
      (ArCore.arCoreCreate.runCalls leakCalls).mem.usedMemory = 33 ∧
      (ArCore.arCoreCreate.runCalls leakCalls).mem.usedMemory ≠
        ((ArCore.arCoreCreate.runCalls leakCalls).dict.linked.map fun e =>
          e.key.length + e.obj.payloadBytes + entrySize).sum := by
  refine ⟨fun x hx => ?_, by decide +kernel, by decide +kernel, by decide +kernel⟩
  simp only [leakCalls, List.mem_cons, List.not_mem_nil, or_false] at hx
  obtain rfl | rfl := hx <;> exact fun _ => rfl

/-! ## The map -/

/-- Time passes. -/
theorem view_at {t t' : Nat} (hwf : c.WF) (ht : t ≤ t') : (c.view t).at_ t' = c.view t' := by
  funext k
  obtain ⟨o, ho⟩ := exists_has hwf k
  unfold Store.at_ ArCore.view
  rw [peek_of_has hwf ho, peek_of_has hwf ho, filter_slot, filter_slot]
  unfold Store.alive
  rw [Option.filter_filter]
  congr 1
  funext s
  by_cases hd : Due t s.2
  · have hd' : Due t' s.2 := ⟨hd.1, hd.2.trans ht⟩
    simp [hd, hd']
  · simp [hd]

/-- One call under the noop kernel: it means what it should, and the kernel stays. -/
theorem means_run (hwf : c.WF) (hn : c.cfg.evict = .noop) (ha : x.E.AllocOk)
    (hs : x.op.setsKernel = false) :
    x.op.Means x.t (c.view x.t) ((x.op.run x.E c).1.view x.t, (x.op.run x.E c).2) ∧
      (x.op.run x.E c).1.cfg.evict = .noop := by
  cases hk : x.op.isKnob with
  | false =>
    have h := x.op.sound x.frozen hwf hk
    exact ⟨h.means ha hn, (congrArg Cfg.evict h.evolves.cfg).trans hn⟩
  | true =>
    obtain ⟨g, s, hev, hg⟩ := x.op.knob_evolves (B := .plain) x.frozen hwf hk
    have hn' : g.evict = .noop := (hg hs).trans hn
    have hv : (x.op.run x.E c).1.view x.t = c.view x.t := hev.view ⟨hwf.dict, hwf.objs⟩ hn'
    exact ⟨x.op.means_knob hk _ hv, (congrArg Cfg.evict hev.cfg).trans hn'⟩

/-- The time of the last of some calls. -/
def lastTime (t : Nat) (calls : List Call) : Nat := (calls.getLast?.map Call.t).getD t

theorem lastTime_cons (t : Nat) (x : Call) (calls : List Call) :
    lastTime t (x :: calls) = lastTime x.t calls := by
  cases calls with
  | nil => rfl
  | cons y calls =>
    unfold lastTime
    rw [List.getLast?_cons_cons]
    cases h : (y :: calls).getLast? with
    | none => cases List.getLast?_eq_none_iff.1 h
    | some z => rfl

theorem refines_map_of_wf {t : Nat} {calls : List Call} (hwf : c.WF) (hn : c.cfg.evict = .noop)
    (ha : ∀ x ∈ calls, x.E.AllocOk ∧ x.op.setsKernel = false)
    (ht : (t :: calls.map Call.t).Pairwise (· ≤ ·)) :
    Store.Run t (c.view t) calls (c.answers calls) (lastTime t calls)
      ((c.runCalls calls).view (lastTime t calls)) := by
  induction calls generalizing c t with
  | nil => exact .nil t _
  | cons x calls ih =>
    rw [List.map_cons, List.pairwise_cons] at ht
    obtain ⟨hax, hsx⟩ := ha x (.head _)
    obtain ⟨hm, hn'⟩ := means_run hwf hn hax hsx
    have hle : t ≤ x.t := ht.1 _ (.head _)
    rw [lastTime_cons]
    refine .cons hle ?_ (ih (wf_run hwf x) hn' (fun y hy => ha y (.tail _ hy)) ht.2)
    rw [view_at hwf hle]
    exact hm

/-- **Under the noop kernel the core is the map**: the calls change the view as they mean to, and what they
answer is what they mean to answer. -/
theorem refines_map {t : Nat} {calls : List Call} (hc : ArCore.Reachable c) (hn : c.cfg.evict = .noop)
    (ha : ∀ x ∈ calls, x.E.AllocOk ∧ x.op.setsKernel = false)
    (ht : (t :: calls.map Call.t).Pairwise (· ≤ ·)) :
    Store.Run t (c.view t) calls (c.answers calls) (lastTime t calls)
      ((c.runCalls calls).view (lastTime t calls)) := refines_map_of_wf hc.wf hn ha ht

theorem refines_map_sample :
    Store.Run 0 (ArCore.arCoreCreate.view 0) sampleCalls (ArCore.arCoreCreate.answers sampleCalls)
      (lastTime 0 sampleCalls)
      ((ArCore.arCoreCreate.runCalls sampleCalls).view (lastTime 0 sampleCalls)) := by
  refine refines_map .create rfl (fun x hx => ?_) (by decide)
  simp only [sampleCalls, List.mem_cons, List.not_mem_nil, or_false] at hx
  obtain rfl | rfl | rfl := hx <;> exact ⟨fun _ => rfl, rfl⟩

/-- Two fields of one chain, the one set before the other. -/
def fieldCalls (f g : Bytes) : List Call :=
  [.steady 0 (.arHashHset (lit "k") [(f, lit "1")]), .steady 0 (.arHashHset (lit "k") [(g, lit "1")])]

theorem view_hset_hset (hwf : c.WF) (hn : c.cfg.evict = .noop) (f g : Bytes) :
    (c.runCalls (fieldCalls f g)).view 0 =
      (((c.view 0).step 0 (lit "k") (Spec.hset [(f, lit "1")])).1.step 0 (lit "k")
        (Spec.hset [(g, lit "1")])).1 := by
  obtain ⟨h₁, hn⟩ := means_run (x := .steady 0 (.arHashHset (lit "k") [(f, lit "1")])) hwf hn
    (fun _ => rfl) rfl
  obtain ⟨h₂, -⟩ := means_run (x := .steady 0 (.arHashHset (lit "k") [(g, lit "1")])) (wf_run hwf _) hn
    (fun _ => rfl) rfl
  refine Eq.trans (congrArg Prod.fst h₂) ?_
  exact congrArg (fun s : Store => (s.step 0 (lit "k") (Spec.hset [(g, lit "1")])).1)
    (congrArg Prod.fst h₁)

/-- Either way the map is the same. -/
theorem view_fieldCalls :
    (ArCore.arCoreCreate.runCalls (fieldCalls (lit "a") (lit "q"))).view 0 =
      (ArCore.arCoreCreate.runCalls (fieldCalls (lit "q") (lit "a"))).view 0 := by
  rw [view_hset_hset wf_arCoreCreate rfl, view_hset_hset wf_arCoreCreate rfl]
  have h0 : ArCore.arCoreCreate.view 0 (lit "k") = none := by decide +kernel
  have hne : lit "q" ≠ lit "a" := by decide
  have hs : ∀ f g : Bytes, Store.alive 0 (Spec.hset [(g, lit "1")]
      (Store.alive 0 (Spec.hset [(f, lit "1")] none).1)).1 =
      some (.hash (((∅ : FieldMap).insert f (lit "1")).insert g (lit "1")), 0) := fun f g => by
    simp [Spec.hset, Spec.orCreate, Spec.hsetPairs, Store.alive, Due, Option.filter]
  unfold Store.step
  simp only [Function.update_idem, Function.update_self, h0, hs, Finmap.insert_insert_of_ne _ hne]

/-- **The order of `HGETALL` is no function of the map.** -/
theorem hgetall_not_view : ¬∃ F : Store → Typed (List (Bytes × Bytes)), ∀ (c : ArCore) (x : Call) (key : Bytes),
    ArCore.Reachable c → c.cfg.evict = .noop → x.E.AllocOk → (c.hgetall x.E key).2 = F (c.view x.t) := by
  rintro ⟨F, hF⟩
  have h₁ := hF _ (.steady 0 (.hgetall (lit "k"))) (lit "k")
    (ArCore.Reachable.create.runCalls (fieldCalls (lit "a") (lit "q"))) (by decide +kernel) fun _ => rfl
  have h₂ := hF _ (.steady 0 (.hgetall (lit "k"))) (lit "k")
    (ArCore.Reachable.create.runCalls (fieldCalls (lit "q") (lit "a"))) (by decide +kernel) fun _ => rfl
  have hv : (Call.steady 0 (.hgetall (lit "k"))).t = 0 := rfl
  rw [hv, view_fieldCalls] at h₁
  have := h₁.trans h₂.symm
  revert this
  decide +kernel

end

end AuraRedis
