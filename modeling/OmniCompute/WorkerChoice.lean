import OmniCompute.RunningMaximum
import OmniCompute.TaskRouter
import Mathlib.Tactic.Positivity

/-! Which worker the scheduler picks, with scores read as exact rationals. Scores are not
negative, so the search's sentinel never survives and it is a running maximum. The factor
for overloaded workers is finite, so it only handicaps them. -/
namespace WorkerChoice

open RustValues OmniDialect TaskRouter RunningMaximum

variable {F : Type}

structure NonNegative (worker : WorkerNode ℚ) : Prop where
  tflops : 0 ≤ worker.fp16Tflops
  rtt : 0 ≤ worker.rttMs
  load : 0 ≤ worker.currentLoad

/-- Throughput by load and latency; the load counts a hundredfold from 99 on. -/
def rating (worker : WorkerNode ℚ) : ℚ :=
  worker.fp16Tflops / (if 99 ≤ worker.currentLoad then 100 else 1 + worker.currentLoad / 100) *
    (1000 / (worker.rttMs + 1))

def UniqueBest (workers : List (WorkerNode ℚ)) : Prop :=
  ∀ v ∈ workers, ∀ w ∈ workers, (∀ u ∈ workers, rating u ≤ rating v) →
    (∀ u ∈ workers, rating u ≤ rating w) → v = w

/-- Every dispatch goes to `best`, at its score divided by the operation's 1-based position. -/
def DispatchedTo (best : WorkerNode ℚ) (dispatches : List (TaskDispatch F ℚ)) : Prop :=
  ∀ (k : ℕ) (d : TaskDispatch F ℚ), dispatches[k]? = some d →
    d.targetPeerId = best.peerId ∧ d.priority = rating best / ((k + 1 : ℕ) : ℚ)

section Search

variable {ops : List (OmniOp F)} {workers : List (WorkerNode ℚ)}

theorem score_rat (worker : WorkerNode ℚ) : score worker = rating worker := by
  simp [score, rating, loadFactor, ScoreArith.atLeast]

theorem rating_nonneg {worker : WorkerNode ℚ} (h : NonNegative worker) : 0 ≤ rating worker := by
  have htflops := h.tflops
  have hrtt := h.rtt
  have hload := h.load
  rw [rating]
  split <;> positivity

theorem bestWorker_scan (first : WorkerNode ℚ) (workers : List (WorkerNode ℚ)) :
    bestWorker first workers = runningMax rating (first, -1) workers := by
  have hstep : ∀ (best : WorkerNode ℚ × ℚ) worker, (if ScoreArith.exceeds (score worker) best.2 then
      (worker, score worker) else best) = raise rating best worker := by
    intro best worker
    simp [ScoreArith.exceeds, raise, score_rat]
  simp only [bestWorker, runningMax, hstep]
  rfl

theorem bestWorker_first (first : WorkerNode ℚ) (available : workers ≠ [])
    (hn : ∀ w ∈ workers, NonNegative w) :
    ∃ i best, FirstMaxAt rating workers i best ∧
      bestWorker first workers = (best, rating best) := by
  rw [bestWorker_scan]
  apply runningMax_first available
  intro w hw
  exact lt_of_lt_of_le (by norm_num) (rating_nonneg (hn w hw))

/-- One dispatch an operation, all to the first worker whose score is largest. -/
theorem schedule_first (ops : List (OmniOp F)) (available : workers ≠ [])
    (hn : ∀ w ∈ workers, NonNegative w) :
    ∃ dispatches i best, scheduleGlobalOps ops workers = .ok dispatches ∧
      dispatches.length = ops.length ∧ FirstMaxAt rating workers i best ∧
      DispatchedTo best dispatches := by
  cases workers with
  | nil => exact absurd rfl available
  | cons first rest =>
    obtain ⟨i, best, hbest, hsearch⟩ := bestWorker_first first available hn
    refine ⟨_, i, best, rfl, by simp, hbest, ?_⟩
    intro k d hd
    rw [List.getElem?_map, List.getElem?_zipIdx] at hd
    obtain ⟨⟨op, j⟩, hop, rfl⟩ := Option.map_eq_some_iff.mp hd
    obtain ⟨op', _, heq⟩ := Option.map_eq_some_iff.mp hop
    cases heq
    simp only [dispatch, hsearch, Nat.zero_add]
    exact ⟨trivial, mul_one_div _ _⟩

theorem dispatched_priorities {best best' : WorkerNode ℚ} {ds ds' : List (TaskDispatch F ℚ)}
    (h : DispatchedTo best ds) (h' : DispatchedTo best' ds') (hlen : ds.length = ds'.length)
    (hscore : rating best = rating best') :
    ds.map TaskDispatch.priority = ds'.map TaskDispatch.priority := by
  apply List.ext_getElem (by simpa using hlen)
  intro k hk hk'
  rw [List.length_map] at hk hk'
  rw [List.getElem_map, List.getElem_map, (h k _ (List.getElem?_eq_getElem hk)).2,
    (h' k _ (List.getElem?_eq_getElem hk')).2, hscore]

theorem dispatched_targets {best best' : WorkerNode ℚ} {ds ds' : List (TaskDispatch F ℚ)}
    (h : DispatchedTo best ds) (h' : DispatchedTo best' ds') (hlen : ds.length = ds'.length)
    (hbest : best = best') :
    ds.map TaskDispatch.targetPeerId = ds'.map TaskDispatch.targetPeerId := by
  apply List.ext_getElem (by simpa using hlen)
  intro k hk hk'
  rw [List.length_map] at hk hk'
  rw [List.getElem_map, List.getElem_map, (h k _ (List.getElem?_eq_getElem hk)).1,
    (h' k _ (List.getElem?_eq_getElem hk')).1, hbest]

end Search

section Best

variable {ops : List (OmniOp F)} {workers : List (WorkerNode ℚ)}

/-- The best worker is chosen, and the order of the list matters only between equals. -/
structure SchedulesBest (ops : List (OmniOp F)) (workers : List (WorkerNode ℚ))
    (dispatches : List (TaskDispatch F ℚ)) : Prop where
  all : dispatches.length = ops.length
  chosen : ∃ i best, FirstMaxAt rating workers i best ∧ DispatchedTo best dispatches
  reordered : ∀ workers' dispatches', workers'.Perm workers →
    scheduleGlobalOps ops workers' = .ok dispatches' →
      dispatches'.map TaskDispatch.priority = dispatches.map TaskDispatch.priority ∧
      (UniqueBest workers →
        dispatches'.map TaskDispatch.targetPeerId = dispatches.map TaskDispatch.targetPeerId)

theorem schedules_best (ops : List (OmniOp F)) (workers : List (WorkerNode ℚ))
    (available : workers ≠ []) (hn : ∀ w ∈ workers, NonNegative w) :
    ∃ dispatches, scheduleGlobalOps ops workers = .ok dispatches ∧
      SchedulesBest ops workers dispatches := by
  obtain ⟨ds, i, best, hds, hlen, hbest, hto⟩ := schedule_first ops available hn
  refine ⟨ds, hds, hlen, ⟨i, best, hbest, hto⟩, ?_⟩
  intro workers' ds' hp hds'
  have available' : workers' ≠ [] := by
    rintro rfl
    exact available (List.nil_perm.mp hp)
  obtain ⟨es, j, best', hes, hlen', hbest', hto'⟩ :=
    schedule_first ops available' fun w hw => hn w (hp.mem_iff.mp hw)
  cases hds'.symm.trans hes
  have hlens : ds'.length = ds.length := hlen'.trans hlen.symm
  refine ⟨dispatched_priorities hto' hto hlens (hbest'.value_perm hbest hp), ?_⟩
  intro hunique
  have hlargest : ∀ u ∈ workers, rating u ≤ rating best' :=
    fun u hu => hbest'.largest u (hp.mem_iff.mpr hu)
  exact dispatched_targets hto' hto hlens
    (hunique best' (hp.mem_iff.mp hbest'.mem) best hbest.mem hlargest hbest.largest)

def fastWorker : WorkerNode ℚ := ⟨"worker-A-tflops-100", 100, 50, 17179869184, 10⟩
def nearWorker : WorkerNode ℚ := ⟨"worker-B-tflops-20", 20, 10, 8589934592, 5⟩

theorem schedules_best_pair :
    ∃ dispatches, scheduleGlobalOps (embeddingLayer.ops) [fastWorker, nearWorker] =
      .ok dispatches ∧ SchedulesBest embeddingLayer.ops [fastWorker, nearWorker] dispatches := by
  apply schedules_best _ _ (by decide)
  intro w hw
  rcases List.mem_pair.mp hw with rfl | rfl
  · exact ⟨by decide +kernel, by decide +kernel, by decide +kernel⟩
  · exact ⟨by decide +kernel, by decide +kernel, by decide +kernel⟩

end Best

section Overload

variable {ops : List (OmniOp F)} {workers : List (WorkerNode ℚ)}

/-- Some profile listed for the worker's peer reports a load of 99 or more. -/
def Overloaded (workers : List (WorkerNode ℚ)) (worker : WorkerNode ℚ) : Prop :=
  ∃ v ∈ workers, v.peerId = worker.peerId ∧ 99 ≤ v.currentLoad

def AvoidsOverloaded (ops : List (OmniOp F)) (workers : List (WorkerNode ℚ)) : Prop :=
  ∀ dispatches, scheduleGlobalOps ops workers = .ok dispatches → ∀ d ∈ dispatches,
    ∀ v ∈ workers, v.peerId = d.targetPeerId → v.currentLoad < 99

/-- Some worker that is not overloaded scores more than every overloaded one, or as much as
those that are listed behind it. -/
def OverloadedOutscored (workers : List (WorkerNode ℚ)) : Prop :=
  ∃ (k : ℕ) (w : WorkerNode ℚ), workers[k]? = some w ∧ ¬ Overloaded workers w ∧
    ∀ (j : ℕ) (v : WorkerNode ℚ), workers[j]? = some v → Overloaded workers v →
      rating v < rating w ∨ (rating v = rating w ∧ k < j)

theorem avoids_iff_best {dispatches : List (TaskDispatch F ℚ)} {best : WorkerNode ℚ}
    (hds : scheduleGlobalOps ops workers = .ok dispatches) (hne : dispatches ≠ [])
    (hto : DispatchedTo best dispatches) :
    AvoidsOverloaded ops workers ↔ ¬ Overloaded workers best := by
  have htarget : ∀ d ∈ dispatches, d.targetPeerId = best.peerId := by
    intro d hd
    obtain ⟨k, hk⟩ := List.mem_iff_getElem?.mp hd
    exact (hto k d hk).1
  constructor
  · rintro h ⟨v, hv, hpeer, hload⟩
    obtain ⟨d, hd⟩ := List.exists_mem_of_ne_nil dispatches hne
    exact absurd (h dispatches hds d hd v hv (hpeer.trans (htarget d hd).symm)) (not_lt.mpr hload)
  · intro h dispatches' hds' d hd v hv hpeer
    cases hds.symm.trans hds'
    by_contra hload
    exact h ⟨v, hv, hpeer.trans (htarget d hd), not_lt.mp hload⟩

/-- Overloaded workers are avoided exactly when one that is not outscores them all. -/
theorem avoids_overloaded_iff (ops : List (OmniOp F)) (workers : List (WorkerNode ℚ))
    (available : workers ≠ []) (hn : ∀ w ∈ workers, NonNegative w) :
    AvoidsOverloaded ops workers ↔ ops = [] ∨ OverloadedOutscored workers := by
  obtain ⟨ds, i, best, hds, hlen, hbest, hto⟩ := schedule_first ops available hn
  by_cases hops : ops = []
  · have hnil : ds = [] := by
      rw [hops] at hlen
      exact List.length_eq_zero_iff.mp hlen
    refine ⟨fun _ => Or.inl hops, fun _ ds' hds' d hd => ?_⟩
    cases hds.symm.trans hds'
    rw [hnil] at hd
    cases hd
  · have hne : ds ≠ [] := by
      rintro rfl
      exact hops (List.length_eq_zero_iff.mp hlen.symm)
    rw [avoids_iff_best hds hne hto, hbest.avoids_iff]
    exact ⟨Or.inr, fun h => h.resolve_left hops⟩

def busyGiant : WorkerNode ℚ := ⟨"busy", 1000, 0, 0, 100⟩
def idleDwarf : WorkerNode ℚ := ⟨"idle", 1, 0, 0, 0⟩

theorem busyGiant_nonNegative : NonNegative busyGiant :=
  ⟨by decide +kernel, by decide +kernel, by decide +kernel⟩

theorem idleDwarf_nonNegative : NonNegative idleDwarf :=
  ⟨by decide +kernel, by decide +kernel, by decide +kernel⟩

def busyDwarf : WorkerNode ℚ := ⟨"tired", 1, 0, 0, 100⟩

/-- At equal throughput the hundredfold penalty decides, though the overloaded one is first. -/
theorem avoids_overloaded_iff_dwarfs :
    AvoidsOverloaded embeddingLayer.ops [busyDwarf, idleDwarf] := by
  refine (avoids_overloaded_iff embeddingLayer.ops [busyDwarf, idleDwarf] (by decide) ?_).mpr
    (Or.inr ?_)
  · intro w hw
    rcases List.mem_pair.mp hw with rfl | rfl
    · exact ⟨by decide +kernel, by decide +kernel, by decide +kernel⟩
    · exact idleDwarf_nonNegative
  · have hidle : ¬ Overloaded [busyDwarf, idleDwarf] idleDwarf := by
      rintro ⟨v, hv, hpeer, hload⟩
      rcases List.mem_pair.mp hv with rfl | rfl
      · exact absurd hpeer (by decide)
      · exact absurd hload (by decide +kernel)
    refine ⟨1, idleDwarf, rfl, hidle, ?_⟩
    intro j v hv hover
    rcases List.mem_pair.mp (List.mem_of_getElem? hv) with rfl | rfl
    · exact Or.inl (by decide +kernel)
    · exact absurd hover hidle

/-- A hundredfold penalty does not outweigh a thousandfold throughput. -/
theorem busy_giant_chosen :
    (∀ w ∈ [idleDwarf, busyGiant], NonNegative w) ∧
    (∃ w ∈ [idleDwarf, busyGiant], 0 < w.fp16Tflops ∧ w.currentLoad < 99) ∧
    ¬ AvoidsOverloaded embeddingLayer.ops [idleDwarf, busyGiant] := by
  refine ⟨?_, ⟨idleDwarf, by simp, by decide +kernel, by decide +kernel⟩, ?_⟩
  · intro w hw
    rcases List.mem_pair.mp hw with rfl | rfl
    · exact idleDwarf_nonNegative
    · exact busyGiant_nonNegative
  · intro h
    have hload := h _ rfl _ List.mem_cons_self busyGiant (by simp) (by decide +kernel)
    exact absurd hload (by decide +kernel)

end Overload

end WorkerChoice
