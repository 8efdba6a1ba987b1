import OmniCompute.OmniDialect
import Mathlib.Algebra.Order.Ring.Rat
import Mathlib.Data.List.Sort

/-! The task router: blind splitting of a module and scheduling of its offloadable part.
`S` is the reading of `f32`. Nothing that splitting or scheduling must not lose depends on
how scores are computed, so the scheduler is stated over any reading of its arithmetic. -/
namespace TaskRouter

open RustValues OmniDialect

/-- The `f32` operations of the scoring heuristic. -/
class ScoreArith (S : Type) extends Add S, Mul S, Div S, Neg S, NatCast S where
  exceeds : S → S → Bool
  atLeast : S → S → Bool

instance : ScoreArith ℚ where
  exceeds a b := decide (a > b)
  atLeast a b := decide (a ≥ b)

structure WorkerNode (S : Type) where
  peerId : String
  fp16Tflops : S
  rttMs : S
  vramCapacityBytes : UInt64
  currentLoad : S
  deriving DecidableEq

structure TaskDispatch (F S : Type) where
  targetPeerId : String
  opId : UInt64
  op : OmniOp F
  priority : S

variable {F S : Type}

section Splitting

def placeOp (placed : List (OmniOp F) × List (OmniOp F)) (op : OmniOp F) :
    List (OmniOp F) × List (OmniOp F) :=
  match op.kind with
  -- high-sensitivity layers holding direct user token data
  | .gather _ | .scatter _ | .softmax _ => (placed.1 ++ [op], placed.2)
  -- compute-heavy transformations containing no direct token indices
  | .matMul | .batchedMatMul | .add | .mul | .unaryFunc _ => (placed.1, placed.2 ++ [op])
  -- fallback to local
  | _ => (placed.1 ++ [op], placed.2)

def blindSplit (module : OmniModule F) : Result (List (OmniOp F) × List (OmniOp F)) :=
  .ok (module.ops.foldl placeOp ([], []))

def offloadable : OpKind F → Bool
  | .matMul | .batchedMatMul | .add | .mul | .unaryFunc _ => true
  | _ => false

theorem placeOp_eq (placed : List (OmniOp F) × List (OmniOp F)) (op : OmniOp F) :
    placeOp placed op =
      if offloadable op.kind then (placed.1, placed.2 ++ [op])
      else (placed.1 ++ [op], placed.2) := by
  rw [placeOp]
  split <;> simp_all [offloadable]

theorem blindSplit_eq (module : OmniModule F) : blindSplit module =
    .ok (module.ops.filter (fun op => !offloadable op.kind),
      module.ops.filter (fun op => offloadable op.kind)) := by
  have h : ∀ (ops : List (OmniOp F)) placed, ops.foldl placeOp placed =
      (placed.1 ++ ops.filter (fun op => !offloadable op.kind),
        placed.2 ++ ops.filter (fun op => offloadable op.kind)) := by
    intro ops
    induction ops with
    | nil => simp
    | cons op ops ih =>
      intro placed
      rw [List.foldl_cons, ih, placeOp_eq]
      by_cases ho : offloadable op.kind <;> simp [ho]
  rw [blindSplit, h]
  simp

end Splitting

section Scheduling

variable [ScoreArith S]

/-- Overloaded workers count as a hundred times as loaded. -/
def loadFactor (worker : WorkerNode S) : S :=
  if ScoreArith.atLeast worker.currentLoad ((99 : ℕ) : S) then ((100 : ℕ) : S)
  else ((1 : ℕ) : S) + worker.currentLoad / ((100 : ℕ) : S)

def score (worker : WorkerNode S) : S :=
  worker.fp16Tflops / loadFactor worker * (((1000 : ℕ) : S) / (worker.rttMs + ((1 : ℕ) : S)))

/-- The search keeps its first worker until another one scores more than the best so far. -/
def bestWorker (first : WorkerNode S) (workers : List (WorkerNode S)) : WorkerNode S × S :=
  workers.foldl (fun best worker =>
    if ScoreArith.exceeds (score worker) best.2 then (worker, score worker) else best)
    (first, -((1 : ℕ) : S))

def dispatch (first : WorkerNode S) (workers : List (WorkerNode S)) (op : OmniOp F) (i : ℕ) :
    TaskDispatch F S :=
  ⟨(bestWorker first workers).1.peerId, op.id, op,
    (bestWorker first workers).2 * (((1 : ℕ) : S) / ((i + 1 : ℕ) : S))⟩

def scheduleGlobalOps (globalOps : List (OmniOp F)) (workers : List (WorkerNode S)) :
    Result (List (TaskDispatch F S)) :=
  match workers with
  | [] => .error (.error "TaskRouter: no active P2P worker nodes available for scheduling")
  | first :: _ => .ok (globalOps.zipIdx.map fun op => dispatch first workers op.1 op.2)

theorem bestWorker_mem {first : WorkerNode S} {workers : List (WorkerNode S)}
    (h : first ∈ workers) : (bestWorker first workers).1 ∈ workers := by
  have hfold : ∀ (seen : List (WorkerNode S)) best, best.1 ∈ workers →
      (∀ w ∈ seen, w ∈ workers) → (seen.foldl (fun best worker =>
        if ScoreArith.exceeds (score worker) best.2 then (worker, score worker) else best)
        best).1 ∈ workers := by
    intro seen
    induction seen with
    | nil => exact fun _ hb _ => hb
    | cons w seen ih =>
      intro best hb hseen
      apply ih
      · by_cases hs : ScoreArith.exceeds (score w) best.2
        · simpa [hs] using hseen w List.mem_cons_self
        · simpa [hs] using hb
      · exact fun v hv => hseen v (List.mem_cons_of_mem _ hv)
  exact hfold workers _ h fun _ hw => hw

variable {ops : List (OmniOp F)} {workers : List (WorkerNode S)}

theorem schedule_spec (hw : workers ≠ []) :
    ∃ dispatches : List (TaskDispatch F S), scheduleGlobalOps ops workers = .ok dispatches ∧
      dispatches.map TaskDispatch.op = ops ∧
      ∀ d ∈ dispatches, d.opId = d.op.id ∧ ∃ w ∈ workers, d.targetPeerId = w.peerId := by
  cases workers with
  | nil => exact absurd rfl hw
  | cons first rest =>
    refine ⟨_, rfl, ?_, ?_⟩
    · rw [List.map_map]
      exact List.zipIdx_map_fst 0 ops
    · intro d hd
      obtain ⟨op, _, rfl⟩ := List.mem_map.mp hd
      exact ⟨rfl, _, bestWorker_mem List.mem_cons_self, rfl⟩

end Scheduling

section Partition

def byId (a b : OmniOp F) : Bool := a.id ≤ b.id

/-- The two parts of an increasing list merge back into it. -/
theorem merge_filter (p : OmniOp F → Bool) {ops : List (OmniOp F)}
    (h : ops.Pairwise fun a b => a.id < b.id) :
    List.merge (ops.filter fun op => !p op) (ops.filter p) byId = ops := by
  induction ops with
  | nil => simp
  | cons op ops ih =>
    obtain ⟨hhead, htail⟩ := List.pairwise_cons.mp h
    have rest := ih htail
    by_cases hp : p op
    · cases hl : ops.filter (fun op => !p op) with
      | nil =>
        rw [hl, List.nil_merge] at rest
        simp [hp, hl, rest]
      | cons a l =>
        have ha : a ∈ ops := List.mem_of_mem_filter (hl ▸ List.mem_cons_self)
        have hlt := hhead a ha
        have hle : ¬ byId a op := by simpa [byId] using hlt
        simp only [List.filter_cons, hp, hl, Bool.not_true, Bool.false_eq_true, if_false, if_true]
        rw [List.cons_merge_cons_neg _ _ _ hle, ← hl, rest]
    · cases hg : ops.filter p with
      | nil =>
        rw [hg, List.merge_right] at rest
        simp [hp, hg, rest]
      | cons a g =>
        have ha : a ∈ ops := List.mem_of_mem_filter (hg ▸ List.mem_cons_self)
        have hle : byId op a := by
          have hlt := hhead a ha
          simpa [byId] using UInt64.le_of_lt hlt
        simp only [List.filter_cons, hp, hg, Bool.not_false, Bool.false_eq_true, if_false, if_true]
        rw [List.cons_merge_cons_pos _ _ _ hle, ← hg, rest]

/-- What a split and a schedule may neither lose, double nor leak. -/
structure Partitioned (module : OmniModule F) (workers : List (WorkerNode S))
    (localOps : List (OmniOp F)) (dispatches : List (TaskDispatch F S)) : Prop where
  merged : List.merge localOps (dispatches.map TaskDispatch.op) byId = module.ops
  exclusive : ∀ op ∈ module.ops, op ∈ localOps ↔ op ∉ dispatches.map TaskDispatch.op
  disjoint : ∀ op ∈ localOps, op ∉ dispatches.map TaskDispatch.op
  labelled : ∀ d ∈ dispatches, d.opId = d.op.id ∧ ∃ w ∈ workers, d.targetPeerId = w.peerId
  onlyOffloadable : ∀ d ∈ dispatches, offloadable d.op.kind = true

theorem split_schedule_partitions [ScoreArith S] (module : OmniModule F)
    (increasing : module.ops.Pairwise fun a b => a.id < b.id) (workers : List (WorkerNode S))
    (available : workers ≠ []) :
    ∃ localOps globalOps dispatches, blindSplit module = .ok (localOps, globalOps) ∧
      scheduleGlobalOps globalOps workers = .ok dispatches ∧
      Partitioned module workers localOps dispatches := by
  obtain ⟨dispatches, hs, hops, hd⟩ :=
    @schedule_spec F S _ (module.ops.filter fun op => offloadable op.kind) workers available
  refine ⟨_, _, dispatches, blindSplit_eq module, hs, ?_⟩
  constructor
  · rw [hops]
    exact merge_filter (fun op => offloadable op.kind) increasing
  · intro op hop
    rw [hops]
    simp [hop]
  · intro op hop
    rw [hops]
    have hl := (List.mem_filter.mp hop).2
    simp_all
  · exact hd
  · intro d hmem
    have hop : d.op ∈ module.ops.filter fun op => offloadable op.kind :=
      hops ▸ List.mem_map_of_mem hmem
    exact (List.mem_filter.mp hop).2

def embeddingLayer : OmniModule ℚ :=
  .build [⟨0, .gather 0, ["tokens", "weights"], "v0", ∅, .staticTensor [1, 4096] .f32⟩,
    ⟨0, .matMul, ["v0", "layer1"], "v1", ∅, .staticTensor [1, 4096] .f32⟩]

def soleWorker : WorkerNode ℚ := ⟨"peer", 100, 50, 17179869184, 10⟩

theorem split_schedule_partitions_embedding :
    ∃ localOps globalOps dispatches, blindSplit embeddingLayer = .ok (localOps, globalOps) ∧
      scheduleGlobalOps globalOps [soleWorker] = .ok dispatches ∧
      Partitioned embeddingLayer [soleWorker] localOps dispatches :=
  split_schedule_partitions embeddingLayer (by decide) [soleWorker] (by decide)

end Partition

end TaskRouter
