import OmniCompute.EventRuns
import Mathlib.Data.List.Count
import Mathlib.Logic.Function.Basic

/-! Threads that each load some cells, one at a time, and then store one value. When no thread
stores where another one loads, and threads that store to one cell agree on the value, the
outcome does not depend on how the threads take turns. -/
namespace ThreadMaps

open EventRuns

variable {τ α V : Type*}

structure Task (α V : Type*) where
  sources : List α
  target : α
  compute : List V → V

inductive Phase (V : Type*) where
  | loading (loaded : List V)
  | done

structure State (τ α V : Type*) where
  memory : α → V
  phase : τ → Phase V

variable [DecidableEq τ] [DecidableEq α]

def taskStep (s : State τ α V) (t : τ) (task : Task α V) : State τ α V :=
  match s.phase t with
  | .done => s
  | .loading loaded =>
    match task.sources[loaded.length]? with
    | some a =>
      { s with phase := Function.update s.phase t (.loading (loaded ++ [s.memory a])) }
    | none =>
      ⟨Function.update s.memory task.target (task.compute loaded),
        Function.update s.phase t .done⟩

/-- The threads over an initial memory; one without a task returns at once. -/
def threads (tasks : τ → Option (Task α V)) (memory : α → V) : Machine (State τ α V) τ Unit where
  start := ⟨memory, fun _ => .loading []⟩
  step s t := ((), (tasks t).elim s (taskStep s t))

/-- What a task comes to on the memory that all threads start from. -/
def Task.outcome (task : Task α V) (memory : α → V) : V :=
  task.compute (task.sources.map memory)

structure Undisturbed (tasks : τ → Option (Task α V)) (memory : α → V) : Prop where
  loads : ∀ t u T U, tasks t = some T → tasks u = some U → t ≠ u → U.target ∉ T.sources
  stores : ∀ t u T U, tasks t = some T → tasks u = some U → T.target = U.target →
    T.outcome memory = U.outcome memory

def Served (tasks : τ → Option (Task α V)) (turns : List τ) : Prop :=
  ∀ t T, tasks t = some T → T.sources.length < turns.count t

variable {tasks : τ → Option (Task α V)} {memory : α → V}

/-- Threads have loaded what was there at first; a stored cell holds what its task comes to,
and every other cell what it held. -/
structure Progress (tasks : τ → Option (Task α V)) (memory : α → V) (s : State τ α V) :
    Prop where
  loaded : ∀ t T l, tasks t = some T → s.phase t = .loading l →
    l = (T.sources.map memory).take l.length
  stored : ∀ t T, tasks t = some T → s.phase t = .done → s.memory T.target = T.outcome memory
  others : ∀ a, (∀ t T, tasks t = some T → s.phase t = .done → T.target ≠ a) →
    s.memory a = memory a

section Steps

variable {s : State τ α V} {t : τ} {T : Task α V}

omit [DecidableEq τ] [DecidableEq α] in
theorem Progress.fresh (h : Progress tasks memory s) (apart : Undisturbed tasks memory)
    (ht : tasks t = some T) {l : List V} (hl : s.phase t = .loading l) {a : α}
    (ha : a ∈ T.sources) : s.memory a = memory a := by
  apply h.others
  rintro u U hu hdone rfl
  have hne : t ≠ u := by
    rintro rfl
    rw [hl] at hdone
    cases hdone
  exact apart.loads t u T U ht hu hne ha

omit [DecidableEq α] in
theorem Progress.load (h : Progress tasks memory s) (apart : Undisturbed tasks memory)
    (ht : tasks t = some T) {l : List V} (hl : s.phase t = .loading l) {a : α}
    (ha : T.sources[l.length]? = some a) : Progress tasks memory
      { s with phase := Function.update s.phase t (.loading (l ++ [s.memory a])) } := by
  have hphase : ∀ u, Function.update s.phase t (.loading (l ++ [s.memory a])) u = .done →
      s.phase u = .done := by
    intro u hu
    by_cases htu : u = t
    · subst htu
      simp at hu
    · simpa [htu] using hu
  constructor
  · intro u U l' hu hl'
    by_cases htu : u = t
    · subst htu
      obtain rfl : T = U := Option.some.inj (ht.symm.trans hu)
      obtain rfl : l ++ [s.memory a] = l' := by simpa using hl'
      rw [List.length_append, List.length_singleton, List.take_add_one, ← h.loaded u T l ht hl,
        List.getElem?_map, ha, h.fresh apart ht hl (List.mem_of_getElem? ha)]
      rfl
    · exact h.loaded u U l' hu (by simpa [htu] using hl')
  · exact fun u U hu hdone => h.stored u U hu (hphase u hdone)
  · intro b hb
    refine h.others b fun u U hu hdone => hb u U hu ?_
    have htu : u ≠ t := by
      rintro rfl
      rw [hl] at hdone
      cases hdone
    simpa [htu] using hdone

theorem Progress.store (h : Progress tasks memory s) (apart : Undisturbed tasks memory)
    (ht : tasks t = some T) {l : List V} (hl : s.phase t = .loading l)
    (hend : T.sources[l.length]? = none) : Progress tasks memory
      ⟨Function.update s.memory T.target (T.compute l), Function.update s.phase t .done⟩ := by
  have houtcome : T.compute l = T.outcome memory := by
    rw [h.loaded t T l ht hl, List.take_of_length_le, Task.outcome]
    rw [List.length_map]
    exact List.getElem?_eq_none_iff.1 hend
  constructor
  · intro u U l' hu hl'
    by_cases htu : u = t
    · subst htu
      simp at hl'
    · exact h.loaded u U l' hu (by simpa [htu] using hl')
  · intro u U hu hdone
    by_cases hsame : U.target = T.target
    · change Function.update s.memory T.target _ U.target = _
      rw [hsame, Function.update_self, houtcome]
      exact apart.stores t u T U ht hu hsame.symm
    · have htu : u ≠ t := by
        rintro rfl
        exact hsame (congrArg Task.target (Option.some.inj (hu.symm.trans ht)))
      change Function.update s.memory T.target _ U.target = _
      rw [Function.update_of_ne hsame]
      exact h.stored u U hu (by simpa [htu] using hdone)
  · intro a ha
    have hne : a ≠ T.target := fun heq => ha t T ht (by simp) heq.symm
    change Function.update s.memory T.target _ a = _
    rw [Function.update_of_ne hne]
    refine h.others a fun u U hu hdone => ha u U hu ?_
    by_cases htu : u = t
    · simp [htu]
    · simpa [htu] using hdone

theorem progress_step (apart : Undisturbed tasks memory) (h : Progress tasks memory s) (t : τ) :
    Progress tasks memory ((threads tasks memory).step s t).2 := by
  change Progress tasks memory ((tasks t).elim s (taskStep s t))
  cases ht : tasks t with
  | none => exact h
  | some T =>
    simp only [Option.elim_some, taskStep]
    split
    · exact h
    · next l hl =>
      split
      · next a ha => exact h.load apart ht hl ha
      · next hend => exact h.store apart ht hl hend

theorem step_other {u : τ} (h : t ≠ u) :
    ((threads tasks memory).step s u).2.phase t = s.phase t := by
  change ((tasks u).elim s (taskStep s u)).phase t = _
  cases tasks u with
  | none => rfl
  | some U =>
    simp only [Option.elim_some, taskStep]
    split
    · rfl
    · split <;> simp [h]

theorem step_done (h : s.phase t = .done) :
    ((threads tasks memory).step s t).2.phase t = .done := by
  change ((tasks t).elim s (taskStep s t)).phase t = _
  cases tasks t with
  | none => exact h
  | some T => simp [taskStep, h]

theorem step_loading (ht : tasks t = some T) {l : List V} (hl : s.phase t = .loading l) :
    (∃ l', ((threads tasks memory).step s t).2.phase t = .loading l' ∧
      l'.length = l.length + 1 ∧ l.length < T.sources.length) ∨
    ((threads tasks memory).step s t).2.phase t = .done := by
  change (∃ l', ((tasks t).elim s (taskStep s t)).phase t = _ ∧ _) ∨
    ((tasks t).elim s (taskStep s t)).phase t = _
  simp only [ht, Option.elim_some, taskStep, hl]
  split
  · next a ha =>
    left
    exact ⟨_, Function.update_self .., by simp, (List.getElem?_eq_some_iff.1 ha).1⟩
  · exact .inr (Function.update_self ..)

theorem turns_phase (ht : tasks t = some T) (turns : List τ) :
    ((threads tasks memory).after turns).phase t = .done ∨
      ∃ l, ((threads tasks memory).after turns).phase t = .loading l ∧
        l.length = turns.count t ∧ l.length ≤ T.sources.length := by
  refine invariant_after (threads tasks memory) (fun turns s => s.phase t = .done ∨
    ∃ l, s.phase t = .loading l ∧ l.length = turns.count t ∧ l.length ≤ T.sources.length)
    (.inr ⟨[], rfl, rfl, Nat.zero_le _⟩) ?_ turns
  intro turns u ih
  by_cases hu : t = u
  · subst hu
    rcases ih with hdone | ⟨l, hl, hcount, _⟩
    · exact .inl (step_done hdone)
    · rcases step_loading ht hl with ⟨l', hl', hlen, hlt⟩ | hdone
      · exact .inr ⟨l', hl', by simp [hlen, hcount], by omega⟩
      · exact .inl hdone
  · have hcount : (turns ++ [u]).count t = turns.count t := by
      simp [List.count_append, Ne.symm hu]
    rw [step_other hu, hcount]
    exact ih

end Steps

/-- However the threads take turns, each task's cell ends up with what the task comes to on
the initial memory, and nothing else changes. -/
theorem threads_settle (apart : Undisturbed tasks memory) {turns : List τ}
    (served : Served tasks turns) :
    (∀ t T, tasks t = some T →
      ((threads tasks memory).after turns).memory T.target = T.outcome memory) ∧
    ∀ a, (∀ t T, tasks t = some T → T.target ≠ a) →
      ((threads tasks memory).after turns).memory a = memory a := by
  have hprogress : Progress tasks memory ((threads tasks memory).after turns) := by
    refine invariant_after _ (fun _ => Progress tasks memory) ?_ ?_ turns
    · refine ⟨fun t T l _ hl => ?_, nofun, fun a _ => rfl⟩
      cases hl
      simp
    · exact fun _ t h => progress_step apart h t
  refine ⟨fun t T ht => hprogress.stored t T ht ?_, fun a ha => ?_⟩
  · rcases turns_phase ht turns with hdone | ⟨l, _, hcount, hle⟩
    · exact hdone
    · exact absurd (served t T ht) (by omega)
  · exact hprogress.others a fun t T ht _ => ha t T ht

end ThreadMaps
