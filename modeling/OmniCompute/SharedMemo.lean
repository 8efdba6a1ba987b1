import OmniCompute.DigestMemo
import OmniCompute.KeyedTotals

/-! A memo that threads share without holding it while they compute: a call looks its digest
up, computes on a miss, and enters the result later. Clearing goes over the table one shard at
a time, with other steps in between. -/
namespace SharedMemo

open EventRuns DigestMemo KeyedTotals

inductive Phase (ι ν : Type*) where
  | idle
  | missed (arg : ι)
  | storing (arg : ι) (value : ν)
  | clearing (shard : ℕ)

structure Shared (ι κ ν : Type*) where
  table : Table κ ν
  phase : ℕ → Phase ι ν

inductive Event (ι : Type*) where
  | ask (thread : ℕ) (arg : ι)
  | clear (thread : ℕ)
  | work (thread : ℕ)

inductive Reply (ι ν ε : Type*) where
  | running
  | answered (arg : ι) (result : Except ε ν)
  | cleared

/-- How the keys are spread over the parts of the table that are cleared one by one. -/
structure Sharding (κ : Type*) where
  count : ℕ
  shardOf : κ → ℕ

def Event.thread {ι : Type*} : Event ι → ℕ
  | .ask thread _ => thread
  | .clear thread => thread
  | .work thread => thread

variable {ι κ ν ε : Type*}

def dropShard (sharding : Sharding κ) (shard : ℕ) (table : Table κ ν) : Table κ ν :=
  ⟨table.entries.filter fun entry => sharding.shardOf entry.1 ≠ shard,
    table.nodupKeys.sublist List.filter_sublist⟩

def Shared.park (s : Shared ι κ ν) (thread : ℕ) (phase : Phase ι ν) : Shared ι κ ν :=
  { s with phase := Function.update s.phase thread phase }

def Shared.new : Shared ι κ ν := ⟨∅, fun _ => .idle⟩

variable [DecidableEq κ]

theorem lookup_dropShard (sharding : Sharding κ) (shard : ℕ) (table : Table κ ν) {k : κ} {v : ν}
    (h : (dropShard sharding shard table).lookup k = some v) : table.lookup k = some v := by
  apply AList.mem_lookup_iff.mpr
  have hmem : (⟨k, v⟩ : Sigma fun _ : κ => ν) ∈ (dropShard sharding shard table).entries :=
    AList.mem_lookup_iff.mp h
  exact List.mem_of_mem_filter hmem

variable (M : Memo ι κ ν ε) (sharding : Sharding κ)

def askStep (s : Shared ι κ ν) (thread : ℕ) (arg : ι) : Reply ι ν ε × Shared ι κ ν :=
  match s.phase thread with
  | .idle =>
    match s.table.lookup (M.digest arg) with
    | some value => (.answered arg (.ok value), s)
    | none => (.running, s.park thread (.missed arg))
  | _ => (.running, s)

def clearStep (s : Shared ι κ ν) (thread : ℕ) : Reply ι ν ε × Shared ι κ ν :=
  match s.phase thread with
  | .idle => (.running, s.park thread (.clearing 0))
  | _ => (.running, s)

/-- A result replaces whatever has been entered under its digest in the meantime. -/
def workStep (s : Shared ι κ ν) (thread : ℕ) : Reply ι ν ε × Shared ι κ ν :=
  match s.phase thread with
  | .idle => (.running, s)
  | .missed arg =>
    match M.compute arg with
    | .ok value => (.running, s.park thread (.storing arg value))
    | .error e => (.answered arg (.error e), s.park thread .idle)
  | .storing arg value =>
    (.answered arg (.ok value),
      { s with table := s.table.insert (M.digest arg) value }.park thread .idle)
  | .clearing shard =>
    if shard < sharding.count then
      (.running,
        { s with table := dropShard sharding shard s.table }.park thread (.clearing (shard + 1)))
    else (.cleared, s.park thread .idle)

def step (s : Shared ι κ ν) : Event ι → Reply ι ν ε × Shared ι κ ν
  | .ask thread arg => askStep M s thread arg
  | .clear thread => clearStep s thread
  | .work thread => workStep M sharding s thread

def shared : Machine (Shared ι κ ν) (Event ι) (Reply ι ν ε) := ⟨.new, step M sharding⟩

def callOf : Phase ι ν → Option ι
  | .missed arg => some arg
  | .storing arg _ => some arg
  | _ => none

def Entered (events : List (Event ι)) (i t : ℕ) (arg : ι) : Prop :=
  events[i]? = some (.ask t arg) ∧ ((shared M sharding).stateAt events i).phase t = .idle

def Pending (events : List (Event ι)) (t i j : ℕ) : Prop :=
  ∀ m e, i ≤ m → m < j → events[m]? = some e → e.thread = t →
    (shared M sharding).outputAt events m = some .running

def Answered (events : List (Event ι)) (j t : ℕ) (arg : ι) (result : Except ε ν) : Prop :=
  ∃ e, events[j]? = some e ∧ e.thread = t ∧
    (shared M sharding).outputAt events j = some (.answered arg result)

/-- Every answer goes to the call its thread is in. It is the result of that call's argument,
or was computed for an argument with the same digest that some thread had asked for. -/
structure Served (events : List (Event ι)) : Prop where
  callers : ∀ j t arg result, Answered M sharding events j t arg result →
    ∃ i ≤ j, Entered M sharding events i t arg ∧ Pending M sharding events t i j
  origins : ∀ j t arg result, Answered M sharding events j t arg result →
    M.compute arg = result ∨ ∃ i < j, ∃ u other value, Entered M sharding events i u other ∧
      M.digest other = M.digest arg ∧ M.compute other = .ok value ∧ result = .ok value

def AnswersOwn (args : Set ι) : Prop :=
  ∀ events, (∀ t arg, .ask t arg ∈ events → arg ∈ args) →
    ∀ j t arg result, Answered M sharding events j t arg result → result = M.compute arg

def Separated (M : Memo ι κ ν ε) (args : Set ι) : Prop :=
  ∀ arg ∈ args, ∀ other ∈ args, M.digest arg = M.digest other →
    ∀ value, M.compute arg = .ok value → M.compute other = .ok value

section Steps

variable {M sharding} {s : Shared ι κ ν} {t : ℕ} {e : Event ι} {arg : ι} {value : ν} {k : κ}

omit [DecidableEq κ] in
theorem park_phase (phase : Phase ι ν) (u : ℕ) :
    (s.park t phase).phase u = if u = t then phase else s.phase u := by
  simp [Shared.park, Function.update_apply]

theorem phase_other (h : t ≠ e.thread) : (step M sharding s e).2.phase t = s.phase t := by
  cases e with
  | ask u other =>
    simp only [step, askStep]
    split
    · split
      · rfl
      · exact (park_phase _ t).trans (if_neg h)
    · rfl
  | clear u =>
    simp only [step, clearStep]
    split
    · exact (park_phase _ t).trans (if_neg h)
    · rfl
  | work u =>
    have hpark : ∀ (m : Shared ι κ ν) phase, (m.park u phase).phase t = m.phase t :=
      fun m phase => (park_phase phase t).trans (if_neg h)
    simp only [step, workStep]
    split
    · rfl
    · split <;> exact hpark _ _
    · exact hpark _ _
    · split <;> exact hpark _ _

theorem callOf_step (h : callOf ((step M sharding s e).2.phase t) = some arg) :
    (e = .ask t arg ∧ s.phase t = .idle ∧ (step M sharding s e).1 = .running) ∨
    (callOf (s.phase t) = some arg ∧ (e.thread = t → (step M sharding s e).1 = .running)) := by
  by_cases ht : t = e.thread
  · subst ht
    cases e with
    | ask u other =>
      simp only [Event.thread, step, askStep] at h ⊢
      cases hp : s.phase u with
      | idle =>
        cases hl : s.table.lookup (M.digest other) with
        | some v => simp [hp, hl, callOf] at h
        | none =>
          simp only [hp, hl, park_phase, if_true, callOf, Option.some.injEq] at h
          exact .inl ⟨by rw [h], rfl, rfl⟩
      | missed a | storing a v | clearing i =>
        simp only [hp] at h
        exact .inr ⟨h, fun _ => rfl⟩
    | clear u =>
      simp only [Event.thread, step, clearStep] at h ⊢
      cases hp : s.phase u with
      | idle => simp [hp, park_phase, callOf] at h
      | missed a | storing a v | clearing i =>
        simp only [hp] at h
        exact .inr ⟨h, fun _ => rfl⟩
    | work u =>
      simp only [Event.thread, step, workStep] at h ⊢
      cases hp : s.phase u with
      | idle => simp [hp, callOf] at h
      | missed a =>
        cases hc : M.compute a with
        | ok v =>
          simp only [hp, hc, park_phase, if_true, callOf] at h
          exact .inr ⟨h, fun _ => by simp only [hc]⟩
        | error x => simp [hp, hc, park_phase, callOf] at h
      | storing a v => simp [hp, park_phase, callOf] at h
      | clearing i =>
        simp only [hp] at h
        split at h <;> simp [park_phase, callOf] at h
  · rw [phase_other ht] at h
    exact .inr ⟨h, fun he => absurd he.symm ht⟩

theorem entry_step (h : (step M sharding s e).2.table.lookup k = some value) :
    s.table.lookup k = some value ∨
    ∃ t arg, e = .work t ∧ s.phase t = .storing arg value ∧ M.digest arg = k := by
  cases e with
  | ask u other =>
    left
    simp only [step, askStep] at h
    split at h
    · split at h <;> exact h
    · exact h
  | clear u =>
    left
    simp only [step, clearStep] at h
    split at h <;> exact h
  | work u =>
    simp only [step, workStep] at h
    cases hp : s.phase u with
    | idle =>
      simp only [hp] at h
      exact .inl h
    | missed a =>
      simp only [hp] at h
      left
      split at h <;> exact h
    | storing a v =>
      simp only [hp, Shared.park] at h
      rcases lookup_insert_some h with ⟨rfl, rfl⟩ | ⟨_, h⟩
      · exact .inr ⟨u, a, rfl, hp, rfl⟩
      · exact .inl h
    | clearing i =>
      simp only [hp] at h
      left
      split at h
      · exact lookup_dropShard sharding i s.table h
      · exact h

theorem storing_step (h : (step M sharding s e).2.phase t = .storing arg value) :
    s.phase t = .storing arg value ∨ M.compute arg = .ok value := by
  by_cases ht : t = e.thread
  · subst ht
    cases e with
    | ask u other =>
      simp only [Event.thread, step, askStep] at h ⊢
      cases hp : s.phase u with
      | idle => cases hl : s.table.lookup (M.digest other) <;> simp [hp, hl, park_phase] at h
      | missed a | storing a v | clearing i =>
        simp only [hp] at h
        exact .inl h
    | clear u =>
      simp only [Event.thread, step, clearStep] at h ⊢
      cases hp : s.phase u with
      | idle => simp [hp, park_phase] at h
      | missed a | storing a v | clearing i =>
        simp only [hp] at h
        exact .inl h
    | work u =>
      simp only [Event.thread, step, workStep] at h ⊢
      cases hp : s.phase u with
      | idle => simp [hp] at h
      | missed a =>
        cases hc : M.compute a with
        | ok v =>
          simp only [hp, hc, park_phase, if_true, Phase.storing.injEq] at h
          obtain ⟨rfl, rfl⟩ := h
          exact .inr hc
        | error x => simp [hp, hc, park_phase] at h
      | storing a v => simp [hp, park_phase] at h
      | clearing i =>
        simp only [hp] at h
        split at h <;> simp [park_phase] at h
  · rw [phase_other ht] at h
    exact .inl h

theorem answer_step {result : Except ε ν} (h : (step M sharding s e).1 = .answered arg result) :
    (e = .ask e.thread arg ∧ s.phase e.thread = .idle ∧
      ∃ value, s.table.lookup (M.digest arg) = some value ∧ result = .ok value) ∨
    (s.phase e.thread = .missed arg ∧ M.compute arg = result) ∨
    ∃ value, s.phase e.thread = .storing arg value ∧ result = .ok value := by
  cases e with
  | ask u other =>
    simp only [Event.thread, step, askStep] at h ⊢
    cases hp : s.phase u with
    | idle =>
      cases hl : s.table.lookup (M.digest other) with
      | some v =>
        simp only [hp, hl, Reply.answered.injEq] at h
        obtain ⟨rfl, rfl⟩ := h
        exact .inl ⟨rfl, rfl, v, hl, rfl⟩
      | none => simp [hp, hl] at h
    | missed a | storing a v | clearing i => simp [hp] at h
  | clear u =>
    simp only [step, clearStep] at h
    split at h <;> cases h
  | work u =>
    simp only [Event.thread, step, workStep] at h ⊢
    cases hp : s.phase u with
    | idle => simp [hp] at h
    | missed a =>
      cases hc : M.compute a with
      | ok v => simp [hp, hc] at h
      | error x =>
        simp only [hp, hc, Reply.answered.injEq] at h
        obtain ⟨rfl, rfl⟩ := h
        exact .inr (.inl ⟨rfl, hc⟩)
    | storing a v =>
      simp only [hp, Reply.answered.injEq] at h
      obtain ⟨rfl, rfl⟩ := h
      exact .inr (.inr ⟨v, rfl, rfl⟩)
    | clearing i =>
      simp only [hp] at h
      split at h <;> cases h

end Steps

section Uninterrupted

/-- A call of thread `t` that no other thread's step comes between. -/
def wholeAsk (s : Shared ι κ ν) (t : ℕ) (arg : ι) : List (Reply ι ν ε) × Shared ι κ ν :=
  let looked := askStep M s t arg
  let computed := workStep M sharding looked.2 t
  let stored := workStep M sharding computed.2 t
  ([looked.1, computed.1, stored.1], stored.2)

theorem wholeAsk_eq (s : Shared ι κ ν) {t : ℕ} (arg : ι) (idle : s.phase t = .idle) :
    .answered arg (M.ask s.table arg).1 ∈ (wholeAsk M sharding s t arg).1 ∧
    (wholeAsk M sharding s t arg).2 = { s with table := (M.ask s.table arg).2 } := by
  have hback : Function.update s.phase t .idle = s.phase := by
    rw [← idle]
    exact Function.update_eq_self t s.phase
  cases hl : s.table.lookup (M.digest arg) with
  | some value => simp [wholeAsk, askStep, workStep, Memo.ask, idle, hl]
  | none =>
    cases hc : M.compute arg <;>
      simp [wholeAsk, askStep, workStep, Memo.ask, idle, hl, hc, Shared.park, hback]

end Uninterrupted

section Runs

variable {M sharding} {events : List (Event ι)}

theorem pending_step {t i j : ℕ} (h : Pending M sharding events t i j)
    (hj : ∀ e, events[j]? = some e → e.thread = t →
      (shared M sharding).outputAt events j = some .running) :
    Pending M sharding events t i (j + 1) := by
  intro m e him hm he ht
  rcases Nat.lt_succ_iff_lt_or_eq.mp hm with hlt | rfl
  · exact h m e him hlt he ht
  · exact hj e he ht

theorem inCall_at (j : ℕ) {t : ℕ} {arg : ι}
    (h : callOf (((shared M sharding).stateAt events j).phase t) = some arg) :
    ∃ i < j, Entered M sharding events i t arg ∧ Pending M sharding events t i j := by
  induction j generalizing arg with
  | zero => cases h
  | succ j ih =>
    cases he : events[j]? with
    | none =>
      rw [stateAt_end _ he] at h
      obtain ⟨i, hij, hentered, hpending⟩ := ih h
      refine ⟨i, Nat.lt_succ_of_lt hij, hentered, pending_step hpending ?_⟩
      intro e hej
      rw [he] at hej
      cases hej
    | some e =>
      rw [stateAt_succ _ he] at h
      have hout : (shared M sharding).outputAt events j =
          some (step M sharding ((shared M sharding).stateAt events j) e).1 := outputAt_eq _ he
      rcases callOf_step h with ⟨rfl, hidle, hrun⟩ | ⟨hcall, hrun⟩
      · refine ⟨j, Nat.lt_succ_self j, ⟨he, hidle⟩, ?_⟩
        intro m d hjm hm _ _
        obtain rfl : m = j := by omega
        rw [hout, hrun]
      · obtain ⟨i, hij, hentered, hpending⟩ := ih hcall
        refine ⟨i, Nat.lt_succ_of_lt hij, hentered, pending_step hpending ?_⟩
        intro d hd ht
        cases he.symm.trans hd
        rw [hout, hrun ht]

theorem storing_at (j : ℕ) {t : ℕ} {arg : ι} {value : ν}
    (h : ((shared M sharding).stateAt events j).phase t = .storing arg value) :
    M.compute arg = .ok value := by
  induction j with
  | zero => cases h
  | succ j ih =>
    cases he : events[j]? with
    | none =>
      rw [stateAt_end _ he] at h
      exact ih h
    | some e =>
      rw [stateAt_succ _ he] at h
      exact (storing_step h).elim ih id

theorem entry_at (j : ℕ) {k : κ} {value : ν}
    (h : ((shared M sharding).stateAt events j).table.lookup k = some value) :
    ∃ i < j, ∃ t arg, Entered M sharding events i t arg ∧ M.digest arg = k ∧
      M.compute arg = .ok value := by
  induction j with
  | zero => cases h
  | succ j ih =>
    have older : ∀ (hj : ((shared M sharding).stateAt events j).table.lookup k = some value),
        ∃ i < j + 1, ∃ t arg, Entered M sharding events i t arg ∧ M.digest arg = k ∧
          M.compute arg = .ok value := by
      intro hj
      obtain ⟨i, hij, rest⟩ := ih hj
      exact ⟨i, Nat.lt_succ_of_lt hij, rest⟩
    cases he : events[j]? with
    | none =>
      rw [stateAt_end _ he] at h
      exact older h
    | some e =>
      rw [stateAt_succ _ he] at h
      rcases entry_step h with hold | ⟨t, arg, rfl, hp, hk⟩
      · exact older hold
      · obtain ⟨i, hij, hentered, _⟩ := inCall_at j
          (show callOf (((shared M sharding).stateAt events j).phase t) = some arg by rw [hp]; rfl)
        exact ⟨i, Nat.lt_succ_of_lt hij, t, arg, hentered, hk, storing_at j hp⟩

theorem served (M : Memo ι κ ν ε) (sharding : Sharding κ) (events : List (Event ι)) :
    Served M sharding events := by
  have cases_at : ∀ j t arg result, Answered M sharding events j t arg result →
      (Entered M sharding events j t arg ∧ ∃ value,
        ((shared M sharding).stateAt events j).table.lookup (M.digest arg) = some value ∧
        result = .ok value) ∨
      (callOf (((shared M sharding).stateAt events j).phase t) = some arg ∧
        M.compute arg = result) := by
    rintro j t arg result ⟨e, he, rfl, hout⟩
    rw [outputAt_eq _ he] at hout
    rcases answer_step (Option.some.inj hout) with
      ⟨hask, hidle, value, hl, hr⟩ | ⟨hp, hr⟩ | ⟨value, hp, hr⟩
    · exact .inl ⟨⟨by rw [he, ← hask], hidle⟩, value, hl, hr⟩
    · exact .inr ⟨by rw [hp]; rfl, hr⟩
    · exact .inr ⟨by rw [hp]; rfl, by rw [hr]; exact storing_at j hp⟩
  constructor
  · intro j t arg result h
    rcases cases_at j t arg result h with ⟨hentered, _⟩ | ⟨hcall, _⟩
    · exact ⟨j, le_rfl, hentered, fun m e hjm hm => absurd hm (by omega)⟩
    · obtain ⟨i, hij, hentered, hpending⟩ := inCall_at j hcall
      exact ⟨i, hij.le, hentered, hpending⟩
  · intro j t arg result h
    rcases cases_at j t arg result h with ⟨_, value, hl, rfl⟩ | ⟨_, hr⟩
    · obtain ⟨i, hij, u, other, hentered, hk, hv⟩ := entry_at j hl
      exact .inr ⟨i, hij, u, other, value, hentered, hk, hv, rfl⟩
    · exact .inl hr

end Runs

section Schedules

variable {M sharding} {args : Set ι}

theorem Separated.answersOwn (h : Separated M args) : AnswersOwn M sharding args := by
  intro events within j t arg result hanswer
  obtain ⟨hcallers, horigins⟩ := served M sharding events
  obtain ⟨i, _, ⟨hask, _⟩, _⟩ := hcallers j t arg result hanswer
  rcases horigins j t arg result hanswer with hown | ⟨k, _, u, other, value, hentered, hd, hv, hr⟩
  · exact hown.symm
  · have harg := within t arg (List.mem_of_getElem? hask)
    have hother := within u other (List.mem_of_getElem? hentered.1)
    rw [hr]
    exact (h other hother arg harg hd value hv).symm

def oneAfterTheOther (arg other : ι) : List (Event ι) :=
  [.ask 0 arg, .work 0, .work 0, .ask 0 other]

theorem second_hits {arg other : ι} {value : ν} (hv : M.compute arg = .ok value)
    (hd : M.digest arg = M.digest other) :
    Answered M sharding (oneAfterTheOther arg other) 3 0 other (.ok value) := by
  refine ⟨.ask 0 other, rfl, rfl, ?_⟩
  have hstate : (shared M sharding).stateAt (oneAfterTheOther arg other) 3 =
      { (Shared.new : Shared ι κ ν) with
        table := (∅ : Table κ ν).insert (M.digest arg) value } := by
    change (step M sharding (step M sharding (step M sharding Shared.new (.ask 0 arg)).2
      (.work 0)).2 (.work 0)).2 = _
    simp [step, askStep, workStep, Shared.new, Shared.park, hv]
  have hl : ((∅ : Table κ ν).insert (M.digest arg) value).lookup (M.digest other) =
      some value := by
    rw [← hd]
    exact AList.lookup_insert _
  rw [outputAt_eq _ (show (oneAfterTheOther arg other)[3]? = some (.ask 0 other) from rfl), hstate]
  simp only [shared, step, askStep, Shared.new, hl]

/-- Exactly the arguments that their digests separate may be asked for under any schedule. -/
theorem answersOwn_iff : AnswersOwn M sharding args ↔ Separated M args := by
  constructor
  · intro h arg harg other hother hd value hv
    refine (h (oneAfterTheOther arg other) ?_ 3 0 other _ (second_hits hv hd)).symm
    intro t x hx
    simp only [oneAfterTheOther, List.mem_cons, Event.ask.injEq, reduceCtorEq, List.not_mem_nil,
      or_false, false_or] at hx
    rcases hx with ⟨_, rfl⟩ | ⟨_, rfl⟩
    · exact harg
    · exact hother
  · exact Separated.answersOwn

end Schedules

end SharedMemo
