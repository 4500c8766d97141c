import AuraRedis.Aura.Adaptive
import Mathlib.Data.List.Chain
import Mathlib.Tactic.SplitIfs

/-!
# Votes and swaps

What a run of ticks leaves behind it, the last tick first, and what that says of its windows and its swaps
(`adaptive_hysteresis`). The inlined choice is another one from 40 operations on (`inlinedChoice_eq_iff`).
-/

set_option autoImplicit false

namespace Aura

/-! ## Runs -/

/-- What a tick has come to. -/
structure Outcome where
  now : Int
  cur : String
  /-- The window was over. -/
  evaluated : Bool
  choice : String
  swap : Option String

def outcome (s : Adaptive) (t : Tick) : Outcome :=
  ⟨t.now, t.cur, s.ready && decide (adWindowMs ≤ t.now - s.lastEvalMs), t.choice s.prev, (adaptiveTick s t).2⟩

/-- The ticks of a run, the last one first, behind those that were. -/
def history : Adaptive → List Outcome → List Tick → List Outcome
  | _, h, [] => h
  | s, h, t :: ts => history (adaptiveTick s t).1 (outcome s t :: h) ts

/-- The windows that were evaluated. -/
def windows (h : List Outcome) : List Outcome := h.filter (·.evaluated)

/-- The ticks that swapped. -/
def swaps (h : List Outcome) : List Outcome := h.filter (·.swap.isSome)

/-- The last `n` windows all chose `k` while another kernel was in place. -/
structure Voted (n : Nat) (k : String) (h : List Outcome) : Prop where
  enough : n ≤ (windows h).length
  agree : ∀ w ∈ (windows h).take n, w.choice = k ∧ w.cur ≠ k

/-- The one in front is `ms` or more behind the next. -/
def Apart (ms : Int) (a b : Outcome) : Prop := b.now + ms ≤ a.now

/-! ## What a tick does -/

variable {s : Adaptive} {t : Tick} {h : List Outcome}

theorem adaptiveTick_idle (he : (outcome s t).evaluated = false) : adaptiveTick s t = (s, none) := by
  unfold adaptiveTick
  simp only [outcome, Bool.and_eq_false_iff, decide_eq_false_iff_not, Int.not_le] at he
  obtain he | he := he
  · rw [if_pos he]
  · rw [if_pos he, ite_self]

/-- A tick at the end of a window abstains, votes or swaps. -/
inductive Turn (s : Adaptive) (t : Tick) : Adaptive × Option String → Prop
  | abstain : Turn s t
      ({ s with prev := t.metrics, lastEvalMs := t.now, pending := "", pendingVotes := 0 }, none)
  | vote (votes : Nat) (hcur : t.choice s.prev ≠ t.cur)
      (hvotes : votes = if t.choice s.prev = s.pending then s.pendingVotes + 1 else 1) : Turn s t
      ({ s with prev := t.metrics, lastEvalMs := t.now, pending := t.choice s.prev, pendingVotes := votes }, none)
  | swap (votes : Nat) (hcur : t.choice s.prev ≠ t.cur)
      (hvotes : votes = if t.choice s.prev = s.pending then s.pendingVotes + 1 else 1) (hneed : adVotesNeed ≤ votes)
      (hcool : s.lastSwapMs + adCooldownMs ≤ t.now) : Turn s t
      ({ s with
          prev := t.metrics, lastEvalMs := t.now, pending := "", pendingVotes := 0, swaps := s.swaps + 1,
          lastSwapMs := t.now }, some (t.choice s.prev))

theorem adaptiveTick_turn (he : (outcome s t).evaluated = true) :
    s.lastEvalMs + adWindowMs ≤ t.now ∧ Turn s t (adaptiveTick s t) := by
  obtain ⟨hready, hover⟩ := Bool.and_eq_true_iff.1 he
  have hover := of_decide_eq_true hover
  refine ⟨by omega, ?_⟩
  unfold adaptiveTick
  rw [if_neg (by simp [hready]), if_neg (by omega)]
  dsimp only
  by_cases hc : t.choice s.prev = "" ∨ t.choice s.prev = t.cur
  · rw [if_pos hc]
    exact .abstain
  · obtain ⟨-, hcur⟩ := not_or.1 hc
    rw [if_neg hc]
    generalize hv : (if t.choice s.prev = s.pending then s.pendingVotes + 1 else 1) = votes
    split
    · next hswap => exact .swap votes hcur hv.symm hswap.1 (by omega)
    · exact .vote votes hcur hv.symm

/-! ## What a run keeps -/

/-- The state knows its history. -/
structure Kept (s : Adaptive) (h : List Outcome) : Prop where
  apart : (windows h).IsChain (Apart adWindowMs)
  eval : ∀ w ∈ (windows h).head?, w.now = s.lastEvalMs
  cool : (swaps h).IsChain (Apart adCooldownMs)
  swap : ∀ w ∈ (swaps h).head?, w.now = s.lastSwapMs
  votes : Voted s.pendingVotes s.pending h
  voted : ∀ o h' k, o :: h' <:+ h → o.swap = some k → k ≠ o.cur ∧ Voted adVotesNeed k (o :: h')

theorem windows_cons (o : Outcome) (h : List Outcome) :
    windows (o :: h) = if o.evaluated = true then o :: windows h else windows h := List.filter_cons

theorem swaps_cons (o : Outcome) (h : List Outcome) :
    swaps (o :: h) = if o.swap.isSome = true then o :: swaps h else swaps h := List.filter_cons

/-- One more window for the choice that is pending, or the first one for another. -/
theorem Voted.vote {n : Nat} {p k : String} {o : Outcome} (hv : Voted n p h) (he : o.evaluated = true)
    (hk : o.choice = k) (hcur : o.cur ≠ k) : Voted (if k = p then n + 1 else 1) k (o :: h) := by
  constructor
  · rw [windows_cons, if_pos he, List.length_cons]
    split
    · exact Nat.succ_le_succ hv.enough
    · exact Nat.succ_le_succ (Nat.zero_le _)
  · rw [windows_cons, if_pos he]
    split
    · next hp =>
      rw [List.take_succ_cons, List.forall_mem_cons]
      exact ⟨⟨hk, hcur⟩, hp ▸ hv.agree⟩
    · rw [List.take_succ_cons, List.take_zero, List.forall_mem_singleton]
      exact ⟨hk, hcur⟩

theorem Voted.mono {m n : Nat} {k : String} (hv : Voted n k h) (hm : m ≤ n) : Voted m k h :=
  ⟨Nat.le_trans hm hv.enough, fun w hw => hv.agree w (List.take_subset_take_left _ hm hw)⟩

theorem Voted.zero (k : String) (h : List Outcome) : Voted 0 k h := ⟨Nat.zero_le _, fun w hw => by cases hw⟩

theorem Kept.init (now : Int) : Kept (adaptiveInit now) [] where
  apart := .nil
  eval := fun w hw => by cases hw
  cool := .nil
  swap := fun w hw => by cases hw
  votes := .zero _ _
  voted := fun o h' k hs => by cases List.suffix_nil.1 hs

/-- **A tick.** -/
theorem Kept.tick (hk : Kept s h) (t : Tick) : Kept (adaptiveTick s t).1 (outcome s t :: h) := by
  by_cases he : (outcome s t).evaluated = true
  · obtain ⟨hnow, hturn⟩ := adaptiveTick_turn he
    have hwin : windows (outcome s t :: h) = outcome s t :: windows h := by rw [windows_cons, if_pos he]
    have hvote := fun hcur : t.choice s.prev ≠ t.cur => hk.votes.vote he rfl (Ne.symm hcur)
    have hapart : (windows (outcome s t :: h)).IsChain (Apart adWindowMs) := by
      rw [hwin, List.isChain_cons]
      exact ⟨fun w hw => by unfold Apart; rw [hk.eval w hw]; exact hnow, hk.apart⟩
    have heval : ∀ w ∈ (windows (outcome s t :: h)).head?, w.now = t.now := by
      rw [hwin, List.head?_cons]
      rintro w ⟨⟩
      rfl
    have hswap : (outcome s t).swap = (adaptiveTick s t).2 := rfl
    have hlast : ∀ o h' k, o :: h' <:+ outcome s t :: h → o.swap = some k →
        (o = outcome s t ∧ h' = h) ∨ (k ≠ o.cur ∧ Voted adVotesNeed k (o :: h')) := by
      intro o h' k hs ho
      obtain heq | hs := List.suffix_cons_iff.1 hs
      · exact .inl (List.cons.inj heq)
      · exact .inr (hk.voted o h' k hs ho)
    generalize adaptiveTick s t = x at hturn hswap
    cases hturn with
    | abstain =>
      have hsame : swaps (outcome s t :: h) = swaps h := by rw [swaps_cons, hswap]; rfl
      refine ⟨hapart, heval, hsame ▸ hk.cool, hsame ▸ hk.swap, .zero _ _, fun o h' k hs ho => ?_⟩
      obtain ⟨rfl, rfl⟩ | hv := hlast o h' k hs ho
      · cases hswap.symm.trans ho
      · exact hv
    | vote votes hcur hvotes =>
      have hsame : swaps (outcome s t :: h) = swaps h := by rw [swaps_cons, hswap]; rfl
      refine ⟨hapart, heval, hsame ▸ hk.cool, hsame ▸ hk.swap, hvotes ▸ hvote hcur, fun o h' k hs ho => ?_⟩
      obtain ⟨rfl, rfl⟩ | hv := hlast o h' k hs ho
      · cases hswap.symm.trans ho
      · exact hv
    | swap votes hcur hvotes hneed hcool =>
      have hcons : swaps (outcome s t :: h) = outcome s t :: swaps h := by rw [swaps_cons, hswap]; rfl
      refine ⟨hapart, heval, ?_, ?_, .zero _ _, fun o h' k hs ho => ?_⟩
      · rw [hcons, List.isChain_cons]
        exact ⟨fun w hw => by unfold Apart; rw [hk.swap w hw]; exact hcool, hk.cool⟩
      · rw [hcons, List.head?_cons]
        rintro w ⟨⟩
        rfl
      · obtain ⟨rfl, rfl⟩ | hv := hlast o h' k hs ho
        · obtain rfl : t.choice s.prev = k := Option.some.inj (hswap.symm.trans ho)
          exact ⟨hcur, (hvotes ▸ hvote hcur).mono hneed⟩
        · exact hv
  · have hidle := adaptiveTick_idle (Bool.eq_false_iff.2 he)
    have hnone : (outcome s t).swap = none := congrArg Prod.snd hidle
    have hwin : windows (outcome s t :: h) = windows h := by rw [windows_cons, if_neg he]
    have hsame : swaps (outcome s t :: h) = swaps h := by rw [swaps_cons, hnone]; rfl
    rw [hidle]
    refine ⟨hwin ▸ hk.apart, hwin ▸ hk.eval, hsame ▸ hk.cool, hsame ▸ hk.swap,
      ⟨hwin ▸ hk.votes.enough, hwin ▸ hk.votes.agree⟩, fun o h' k hs ho => ?_⟩
    obtain heq | hs := List.suffix_cons_iff.1 hs
    · cases heq
      cases hnone.symm.trans ho
    · exact hk.voted o h' k hs ho

/-- **A run.** -/
theorem Kept.run (hk : Kept s h) (ts : List Tick) : ∃ s', Kept s' (history s h ts) := by
  induction ts generalizing s h with
  | nil => exact ⟨s, hk⟩
  | cons t ts ih => exact ih (hk.tick t)

/-- **Windows are apart, swaps are further apart, and each swap was asked for by the last windows.** -/
theorem adaptive_hysteresis (start : Int) (ts : List Tick) :
    let h := history (adaptiveInit start) [] ts
    (windows h).IsChain (Apart adWindowMs) ∧ (swaps h).IsChain (Apart adCooldownMs) ∧
      ∀ o h' k, o :: h' <:+ h → o.swap = some k → k ≠ o.cur ∧ Voted adVotesNeed k (o :: h') := by
  obtain ⟨s, hk⟩ := (Kept.init start).run ts
  exact ⟨hk.apart, hk.cool, hk.voted⟩

/-! ## The two choices -/

/-- Where the rules that are inlined come to what the module's come to. -/
def SameRules (gets sets hits misses : Int) : Prop :=
  let hitPct := pct hits (hits + misses)
  let missPct := pct misses (hits + misses)
  let quiet := ¬(gets ≤ sets ∧ 30 < missPct)
  gets + sets < 40 ∨
  gets + sets < 80 ∧ sets ≤ 2 * gets ∧ quiet ∧ ¬(3 * sets < gets ∧ 50 ≤ hitPct) ∨
  80 ≤ gets + sets ∧ (2 * gets < sets ∨ quiet ∧ (3 * sets < gets ∧ 50 ≤ hitPct → 5 * sets < gets ∧ 60 ≤ hitPct))

theorem inlinedChoice_eq_iff (gets sets hits misses : Nat) :
    inlinedChoice gets sets hits misses = adaptiveChoose gets sets hits misses ↔
      SameRules gets sets hits misses := by
  unfold inlinedChoice adaptiveChoose SameRules inlinedMinOps adMinOps
  dsimp only
  generalize pct (hits : Int) (hits + misses) = hitPct
  generalize pct (misses : Int) (hits + misses) = missPct
  have hne : ("" : String) ≠ "lfu" ∧ ("" : String) ≠ "lru" ∧ ("lfu" : String) ≠ "lru" := by decide
  obtain ⟨h₁, h₂, h₃⟩ := hne
  split_ifs <;> simp only [h₁, h₂, h₁.symm, h₂.symm, h₃.symm, true_iff, false_iff] <;> omega

/-- Half of the operations write, and most look-ups miss. -/
theorem inlinedChoice_ne : inlinedChoice 50 50 10 40 ≠ adaptiveChoose 50 50 10 40 := by decide

end Aura
