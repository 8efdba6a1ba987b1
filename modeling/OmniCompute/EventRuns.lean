import Mathlib.Data.List.Induction
import Mathlib.Data.Nat.Find
import Mathlib.Data.Nat.Init
import Mathlib.Order.Basic

/-! Runs of a deterministic machine that answers every event with an output.
States are named by the number of events already taken, so that facts about two
points of one run can be stated without carrying the run's prefix around. -/
namespace EventRuns

structure Machine (σ ε ο : Type*) where
  start : σ
  step : σ → ε → ο × σ

variable {σ ε ο : Type*} (M : Machine σ ε ο)

def Machine.after (events : List ε) : σ :=
  events.foldl (fun s e => (M.step s e).2) M.start

def Machine.stateAt (events : List ε) (i : ℕ) : σ := M.after (events.take i)

def Machine.outputAt (events : List ε) (i : ℕ) : Option ο :=
  events[i]?.map fun e => (M.step (M.stateAt events i) e).1

/-- What a run spends when every event is priced in the state that takes it. -/
def Machine.tally (cost : σ → ε → ℕ) (events : List ε) : ℕ :=
  (events.foldl (fun acc e => ((M.step acc.1 e).2, acc.2 + cost acc.1 e)) (M.start, 0)).2

@[simp] theorem after_nil : M.after [] = M.start := rfl

theorem after_snoc (events : List ε) (e : ε) :
    M.after (events ++ [e]) = (M.step (M.after events) e).2 := by
  simp [Machine.after]

theorem tally_state (cost : σ → ε → ℕ) (events : List ε) :
    (events.foldl (fun acc e => ((M.step acc.1 e).2, acc.2 + cost acc.1 e)) (M.start, 0)).1 =
      M.after events := by
  induction events using List.reverseRecOn with
  | nil => rfl
  | append_singleton events e ih =>
    rw [List.foldl_append, after_snoc, ← ih]
    rfl

theorem tally_snoc (cost : σ → ε → ℕ) (events : List ε) (e : ε) :
    M.tally cost (events ++ [e]) = M.tally cost events + cost (M.after events) e := by
  rw [← tally_state M cost, Machine.tally, List.foldl_append]
  rfl

@[simp] theorem stateAt_zero (events : List ε) : M.stateAt events 0 = M.start := by
  simp [Machine.stateAt]

theorem stateAt_length (events : List ε) : M.stateAt events events.length = M.after events := by
  simp [Machine.stateAt]

theorem stateAt_succ {events : List ε} {i : ℕ} {e : ε} (h : events[i]? = some e) :
    M.stateAt events (i + 1) = (M.step (M.stateAt events i) e).2 := by
  rw [Machine.stateAt, List.take_add_one, h]
  exact after_snoc M _ e

theorem stateAt_end {events : List ε} {i : ℕ} (h : events[i]? = none) :
    M.stateAt events (i + 1) = M.stateAt events i := by
  rw [Machine.stateAt, List.take_add_one, h]
  simp [Machine.stateAt]

theorem outputAt_eq {events : List ε} {i : ℕ} {e : ε} (h : events[i]? = some e) :
    M.outputAt events i = some (M.step (M.stateAt events i) e).1 := by
  rw [Machine.outputAt, h]
  rfl

theorem invariant_after (I : List ε → σ → Prop) (start : I [] M.start)
    (step : ∀ events e, I events (M.after events) →
      I (events ++ [e]) (M.step (M.after events) e).2) (events : List ε) :
    I events (M.after events) := by
  induction events using List.reverseRecOn with
  | nil => exact start
  | append_singleton events e ih =>
    rw [after_snoc]
    exact step events e ih

theorem stable_between (events : List ε) (P : σ → Prop) {i j : ℕ} (hij : i ≤ j)
    (hi : P (M.stateAt events i))
    (keep : ∀ k e, i ≤ k → k < j → events[k]? = some e → P (M.stateAt events k) →
      P (M.step (M.stateAt events k) e).2) : P (M.stateAt events j) := by
  induction j, hij using Nat.le_induction with
  | base => exact hi
  | succ j hij ih =>
    have hj := ih fun k e hk hlt => keep k e hk (Nat.lt_succ_of_lt hlt)
    cases he : events[j]? with
    | none => rwa [stateAt_end M he]
    | some e =>
      rw [stateAt_succ M he]
      exact keep j e hij (Nat.lt_succ_self j) he hj

theorem measure_mono {α : Type*} [Preorder α] (events : List ε) (f : σ → α)
    (step : ∀ k e, events[k]? = some e →
      f (M.stateAt events k) ≤ f (M.step (M.stateAt events k) e).2)
    {i j : ℕ} (hij : i ≤ j) : f (M.stateAt events i) ≤ f (M.stateAt events j) := by
  refine stable_between M events (fun s => f (M.stateAt events i) ≤ f s) hij le_rfl ?_
  intro k e _ _ he h
  exact h.trans (step k e he)

/-- What some event sets and others clear holds exactly from the last setting on that was
not cleared since. -/
theorem holds_since_iff (events : List ε) {P : σ → Prop} {Sets Clears : σ → ε → Prop}
    (start : ¬ P M.start)
    (step : ∀ s e, P (M.step s e).2 ↔ Sets s e ∨ (P s ∧ ¬ Clears s e)) (j : ℕ) :
    P (M.stateAt events j) ↔ ∃ k e, k < j ∧ events[k]? = some e ∧ Sets (M.stateAt events k) e ∧
      ∀ m d, k < m → m < j → events[m]? = some d → ¬ Clears (M.stateAt events m) d := by
  induction j with
  | zero =>
    rw [stateAt_zero]
    constructor
    · intro h
      exact absurd h start
    · rintro ⟨k, e, hk, _⟩
      exact absurd hk (Nat.not_lt_zero k)
  | succ j ih =>
    cases he : events[j]? with
    | none =>
      rw [stateAt_end M he, ih]
      constructor
      · rintro ⟨k, e, hk, hek, hset, hkeep⟩
        refine ⟨k, e, Nat.lt_succ_of_lt hk, hek, hset, fun m d hkm hm hd => ?_⟩
        rcases Nat.lt_succ_iff_lt_or_eq.mp hm with hlt | rfl
        · exact hkeep m d hkm hlt hd
        · rw [he] at hd
          cases hd
      · rintro ⟨k, e, hk, hek, hset, hkeep⟩
        rcases Nat.lt_succ_iff_lt_or_eq.mp hk with hlt | rfl
        · exact ⟨k, e, hlt, hek, hset, fun m d hkm hm => hkeep m d hkm (Nat.lt_succ_of_lt hm)⟩
        · rw [he] at hek
          cases hek
    | some e =>
      rw [stateAt_succ M he, step, ih]
      constructor
      · rintro (hset | ⟨⟨k, d, hk, hdk, hset, hkeep⟩, hclear⟩)
        · exact ⟨j, e, Nat.lt_succ_self j, he, hset, fun m d hjm hm => by omega⟩
        · refine ⟨k, d, Nat.lt_succ_of_lt hk, hdk, hset, fun m c hkm hm hc => ?_⟩
          rcases Nat.lt_succ_iff_lt_or_eq.mp hm with hlt | rfl
          · exact hkeep m c hkm hlt hc
          · cases he.symm.trans hc
            exact hclear
      · rintro ⟨k, d, hk, hdk, hset, hkeep⟩
        rcases Nat.lt_succ_iff_lt_or_eq.mp hk with hlt | rfl
        · exact Or.inr ⟨⟨k, d, hlt, hdk, hset, fun m c hkm hm =>
            hkeep m c hkm (Nat.lt_succ_of_lt hm)⟩, hkeep j e hlt (Nat.lt_succ_self j) he⟩
        · cases he.symm.trans hdk
          exact Or.inl hset

theorem announced_since_iff (events : List ε) {P : σ → Prop} {announced : ο} {withdraw : ε}
    (start : ¬ P M.start)
    (step : ∀ s e, P (M.step s e).2 ↔ (M.step s e).1 = announced ∨ (P s ∧ e ≠ withdraw)) (j : ℕ) :
    P (M.stateAt events j) ↔ ∃ k, k < j ∧ M.outputAt events k = some announced ∧
      ∀ m, k < m → m < j → events[m]? ≠ some withdraw := by
  rw [holds_since_iff M events start step j]
  constructor
  · rintro ⟨k, e, hk, he, hannounced, hkeep⟩
    refine ⟨k, hk, ?_, fun m hkm hm hd => hkeep m _ hkm hm hd rfl⟩
    rw [outputAt_eq M he, hannounced]
  · rintro ⟨k, hk, hout, hkeep⟩
    obtain ⟨e, he, hannounced⟩ := Option.map_eq_some_iff.mp hout
    exact ⟨k, e, hk, he, hannounced, fun m d hkm hm hd hwithdraw =>
      hkeep m hkm hm (hwithdraw ▸ hd)⟩

theorem stateAt_related {τ π : Type*} (N : Machine τ ε π) (events : List ε) {R : σ → τ → Prop}
    (start : R M.start N.start)
    (step : ∀ s t e, R s t → R (M.step s e).2 (N.step t e).2) (i : ℕ) :
    R (M.stateAt events i) (N.stateAt events i) := by
  induction i with
  | zero => rwa [stateAt_zero, stateAt_zero]
  | succ i ih =>
    cases he : events[i]? with
    | none => rwa [stateAt_end M he, stateAt_end N he]
    | some e =>
      rw [stateAt_succ M he, stateAt_succ N he]
      exact step _ _ e ih

/-- When every step of one machine is a step of the other under `f` and `g`, so is every run. -/
theorem stateAt_map {τ π κ : Type*} (N : Machine τ π κ) {f : σ → τ} {g : ε → π}
    (start : N.start = f M.start) {events : List ε}
    (step : ∀ s, ∀ e ∈ events, (N.step (f s) (g e)).2 = f (M.step s e).2) (i : ℕ) :
    N.stateAt (events.map g) i = f (M.stateAt events i) := by
  induction i with
  | zero => rw [stateAt_zero, stateAt_zero, start]
  | succ i ih =>
    cases he : events[i]? with
    | none => rw [stateAt_end M he, stateAt_end N (by simp [he]), ih]
    | some e =>
      have hmap : (events.map g)[i]? = some (g e) := by simp [he]
      rw [stateAt_succ M he, stateAt_succ N hmap, ih, step _ e (List.mem_of_getElem? he)]

theorem first_from (events : List ε) (p : ε → Prop) {i j : ℕ} {e : ε} (hij : i ≤ j)
    (hj : events[j]? = some e) (hp : p e) :
    ∃ k d, i ≤ k ∧ k ≤ j ∧ events[k]? = some d ∧ p d ∧
      ∀ l c, i ≤ l → l < k → events[l]? = some c → ¬ p c := by
  classical
  have hex : ∃ k, i ≤ k ∧ ∃ d, events[k]? = some d ∧ p d := ⟨j, hij, e, hj, hp⟩
  obtain ⟨hk, d, hd, hpd⟩ := Nat.find_spec hex
  refine ⟨Nat.find hex, d, hk, Nat.find_min' hex ⟨hij, e, hj, hp⟩, hd, hpd, ?_⟩
  intro l c hl hlt hc hpc
  exact Nat.find_min hex hlt ⟨hl, c, hc, hpc⟩

end EventRuns
