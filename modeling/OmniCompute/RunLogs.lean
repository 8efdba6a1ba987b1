import OmniCompute.EventRuns
import Mathlib.Logic.Function.Basic

/-! Logs of a run: what its events have contributed so far, in order, and what they have
written last under each key. A queue is accounted for by two logs, of what went in and of
what came out. -/
namespace RunLogs

open EventRuns

variable {σ ε ο μ κ ν : Type*} (M : Machine σ ε ο)

/-- What `f` makes of the first `i` events, one after the other. -/
def gathered (f : σ → ε → List μ) (events : List ε) : ℕ → List μ
  | 0 => []
  | i + 1 =>
    match events[i]? with
    | some e => gathered f events i ++ f (M.stateAt events i) e
    | none => gathered f events i

/-- What the first `i` events have written last under each key. -/
def lastWritten [DecidableEq κ] (written : σ → ε → Option (κ × ν)) (events : List ε) :
    ℕ → κ → Option ν
  | 0 => fun _ => none
  | i + 1 =>
    match events[i]?.bind (written (M.stateAt events i)) with
    | some (key, value) => Function.update (lastWritten written events i) key (some value)
    | none => lastWritten written events i

section Gathered

variable {M} {f : σ → ε → List μ} {events : List ε} {i : ℕ} {e : ε}

theorem gathered_succ (h : events[i]? = some e) :
    gathered M f events (i + 1) = gathered M f events i ++ f (M.stateAt events i) e := by
  simp only [gathered, h]

theorem gathered_end (h : events[i]? = none) :
    gathered M f events (i + 1) = gathered M f events i := by
  simp only [gathered, h]

theorem stateAt_append (more : List ε) (h : i ≤ events.length) :
    M.stateAt (events ++ more) i = M.stateAt events i := by
  rw [Machine.stateAt, List.take_append_of_le_length h, Machine.stateAt]

theorem gathered_append (more : List ε) (h : i ≤ events.length) :
    gathered M f (events ++ more) i = gathered M f events i := by
  induction i with
  | zero => rfl
  | succ i ih =>
    obtain ⟨e, hi⟩ : ∃ e, events[i]? = some e := ⟨_, List.getElem?_eq_getElem h⟩
    have hmore : (events ++ more)[i]? = some e := by
      rw [List.getElem?_append_left h, hi]
    rw [gathered_succ hi, gathered_succ hmore, ih (Nat.le_of_succ_le h),
      stateAt_append more (Nat.le_of_succ_le h)]

end Gathered

section Queues

variable {M} {queue : σ → List μ} {enters leaves : σ → ε → List μ}

/-- A queue that every event keeps in order has lost and made up nothing. -/
theorem queue_conserved (start : queue M.start = []) (step : ∀ s e,
    leaves s e ++ queue (M.step s e).2 = queue s ++ enters s e) (events : List ε) (i : ℕ) :
    gathered M leaves events i ++ queue (M.stateAt events i) = gathered M enters events i := by
  induction i with
  | zero => rw [stateAt_zero, start]; rfl
  | succ i ih =>
    cases he : events[i]? with
    | none => rw [stateAt_end M he, gathered_end he, gathered_end he, ih]
    | some e =>
      rw [stateAt_succ M he, gathered_succ he, gathered_succ he, ← ih, List.append_assoc, step,
        List.append_assoc]

theorem queue_drained (start : queue M.start = []) (step : ∀ s e,
    leaves s e ++ queue (M.step s e).2 = queue s ++ enters s e) {turn : ε}
    (turns : ∀ s, queue (M.step s turn).2 = (queue s).tail) (waits : ∀ s, enters s turn = [])
    (events : List ε) {n : ℕ} (hn : (queue (M.after events)).length ≤ n) :
    gathered M leaves (events ++ List.replicate n turn) (events.length + n) =
      gathered M enters events events.length := by
  have hrun : ∀ k ≤ n, queue (M.stateAt (events ++ List.replicate n turn) (events.length + k)) =
        (queue (M.after events)).drop k ∧
      gathered M enters (events ++ List.replicate n turn) (events.length + k) =
        gathered M enters events events.length := by
    intro k hk
    induction k with
    | zero =>
      rw [Nat.add_zero, stateAt_append _ le_rfl, gathered_append _ le_rfl, stateAt_length]
      exact ⟨rfl, rfl⟩
    | succ k ih =>
      obtain ⟨hq, hg⟩ := ih (Nat.le_of_succ_le hk)
      have hturn : (events ++ List.replicate n turn)[events.length + k]? = some turn := by
        rw [List.getElem?_append_right (Nat.le_add_right _ _), Nat.add_sub_cancel_left,
          List.getElem?_replicate, if_pos (Nat.lt_of_succ_le hk)]
      rw [← Nat.add_assoc, stateAt_succ M hturn, gathered_succ hturn, turns, waits, hq, hg,
        List.tail_drop, List.append_nil]
      exact ⟨rfl, rfl⟩
  have hconserved := queue_conserved start step (events ++ List.replicate n turn)
    (events.length + n)
  rw [(hrun n le_rfl).1, (hrun n le_rfl).2, List.drop_eq_nil_of_le hn, List.append_nil]
    at hconserved
  exact hconserved

end Queues

theorem lastWritten_origin [DecidableEq κ] {written : σ → ε → Option (κ × ν)} {events : List ε}
    {i : ℕ} {key : κ} {value : ν} (h : lastWritten M written events i key = some value) :
    ∃ k e, k < i ∧ events[k]? = some e ∧ written (M.stateAt events k) e = some (key, value) := by
  induction i with
  | zero => cases h
  | succ i ih =>
    simp only [lastWritten] at h
    cases hw : events[i]?.bind (written (M.stateAt events i)) with
    | none =>
      rw [hw] at h
      obtain ⟨k, e, hk, he⟩ := ih h
      exact ⟨k, e, Nat.lt_succ_of_lt hk, he⟩
    | some w =>
      rw [hw] at h
      by_cases hkey : key = w.1
      · subst hkey
        obtain rfl : w.2 = value := by simpa using h
        obtain ⟨e, he, hwe⟩ := Option.bind_eq_some_iff.1 hw
        exact ⟨i, e, Nat.lt_succ_self i, he, hwe⟩
      · obtain ⟨k, e, hk, he⟩ := ih (by simpa [hkey] using h)
        exact ⟨k, e, Nat.lt_succ_of_lt hk, he⟩

theorem table_lastWritten [DecidableEq κ] (lookup : σ → κ → Option ν)
    {written : σ → ε → Option (κ × ν)} (start : ∀ key, lookup M.start key = none)
    (step : ∀ s e key, lookup (M.step s e).2 key =
      (written s e).elim (lookup s key) fun w => if key = w.1 then some w.2 else lookup s key)
    (events : List ε) (i : ℕ) (key : κ) :
    lookup (M.stateAt events i) key = lastWritten M written events i key := by
  induction i with
  | zero => rw [stateAt_zero, start]; rfl
  | succ i ih =>
    cases he : events[i]? with
    | none =>
      rw [stateAt_end M he, ih]
      simp only [lastWritten, he, Option.bind_none]
    | some e =>
      rw [stateAt_succ M he, step]
      simp only [lastWritten, he, Option.bind_some]
      cases written (M.stateAt events i) e with
      | none => exact ih
      | some w =>
        by_cases hk : key = w.1
        · subst hk
          simp
        · simp [hk, ih]

end RunLogs
