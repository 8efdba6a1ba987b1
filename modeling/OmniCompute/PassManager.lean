import OmniCompute.OmniDialect
import Mathlib.Data.Finset.Dedup
import Mathlib.Data.Finset.Insert
import Mathlib.Data.Finset.Lattice.Basic

/-! The optimization pipeline: constant folding, operator fusion, loop tiling, dead code
elimination. Only folding can fail, by an index or an `unwrap` that panics. -/
namespace PassManager

open RustValues OmniDialect

section Hardware

inductive TargetBackend where
  | amdRocm (gfxArch : String) (wavefrontSize computeUnits : UInt32)
  | appleMetal (chipName : String) (unifiedMemoryBytes : UInt64) (gpuCores : UInt32)
  | vulkanGeneric (deviceName : String) (maxInvocations : UInt32)
  | cpuVectorized (coreCount simdWidth : UInt32)
  | remoteP2p (peerId : String) (latencyUs : UInt64)
  deriving DecidableEq, Repr

/-- The part of the profile that steers compilation; the other fields are read elsewhere. -/
structure HardwareProfile where
  targetBackend : TargetBackend
  deriving DecidableEq, Repr

end Hardware

variable {F : Type}

section ConstantFolding

variable [Add F] [Mul F]

/-- `constants.get(&op.inputs[i]).unwrap()`. -/
def constantAt (constants : HashMap String F) (op : OmniOp F) (i : ℕ) : Result F :=
  match op.inputs[i]? with
  | none => .error (.panic "index out of bounds")
  | some input =>
    match constants.lookup input with
    | none => .error (.panic "called `Option::unwrap()` on a `None` value")
    | some value => .ok value

/-- The arms of `Add` and `Mul`: fold when all inputs are constant. -/
def foldBinary (combine : F → F → F) (constants : HashMap String F) (op : OmniOp F) :
    Result (HashMap String F × OmniOp F) :=
  if op.inputs.all fun input => (constants.lookup input).isSome then do
    let a ← constantAt constants op 0
    let b ← constantAt constants op 1
    .ok (constants.insert op.output (combine a b), { op with kind := .fill (combine a b) })
  else .ok (constants, op)

def foldOp (constants : HashMap String F) (op : OmniOp F) :
    Result (HashMap String F × OmniOp F) :=
  match op.kind with
  | .fill value => .ok (constants.insert op.output value, op)
  | .add => foldBinary (· + ·) constants op
  | .mul => foldBinary (· * ·) constants op
  | _ => .ok (constants, op)

/-- The loop over `module.ops`, with the table it has built so far. -/
def foldOps (constants : HashMap String F) : List (OmniOp F) → Result (List (OmniOp F))
  | [] => .ok []
  | op :: rest => do
    let (constants', folded) ← foldOp constants op
    let foldedRest ← foldOps constants' rest
    .ok (folded :: foldedRest)

def runConstantFolding (m : OmniModule F) : Result (OmniModule F) := do
  let foldedOps ← foldOps ∅ m.ops
  .ok { m with ops := foldedOps }

end ConstantFolding

section OperatorFusion

variable [DebugText F]

/-- The pattern: a product, and the next operation is an eligible consumer of its output. -/
def fuses (current next : OmniOp F) : Bool :=
  current.kind.isMatMul && next.inputs.contains current.output && next.kind.isFusable

def fusedOp (current next : OmniOp F) : OmniOp F :=
  { current with
    attrs := current.attrs.insert "fused_activation" (.string next.kind.debug)
    inputs :=
      if next.kind.isAdd then current.inputs ++ next.inputs.filter (· != current.output)
      else current.inputs
    output := next.output
    resultType := next.resultType }

/-- One round of `for i in 0..module.ops.len()`: the fused operations and the skipped indices. -/
def fusionRound (ops : List (OmniOp F)) (acc : List (OmniOp F) × Finset ℕ) (i : ℕ) :
    List (OmniOp F) × Finset ℕ :=
  if i ∈ acc.2 then acc
  else
    match ops[i]?, ops[i + 1]? with
    | some current, some next =>
      if fuses current next then (acc.1 ++ [fusedOp current next], insert (i + 1) acc.2)
      else (acc.1 ++ [current], acc.2)
    | some current, none => (acc.1 ++ [current], acc.2)
    | none, _ => acc

def runOperatorFusion (m : OmniModule F) : OmniModule F :=
  if m.ops.isEmpty then m
  else { m with ops := ((List.range m.ops.length).foldl (fusionRound m.ops) ([], ∅)).1 }

/-- Fusion as a recursion over the list: a consumer is taken together with its producer. -/
def fuse : List (OmniOp F) → List (OmniOp F)
  | [] => []
  | [op] => [op]
  | current :: next :: rest =>
    if fuses current next then fusedOp current next :: fuse rest
    else current :: fuse (next :: rest)

/-- From any position that is not skipped, the rounds that are left do what `fuse` does. -/
theorem fusionRounds_eq (done rest : List (OmniOp F)) (out : List (OmniOp F))
    (skipped : Finset ℕ) (h : ∀ j ∈ skipped, j < done.length) :
    ((List.range' done.length rest.length).foldl (fusionRound (done ++ rest)) (out, skipped)).1 =
      out ++ fuse rest := by
  induction rest using fuse.induct generalizing done out skipped with
  | case1 => simp [fuse]
  | case2 op =>
    have hnot : done.length ∉ skipped := fun hm => lt_irrefl _ (h _ hm)
    simp [fusionRound, fuse, hnot]
  | case3 current next rest hf ih =>
    have hnot : done.length ∉ skipped := fun hm => lt_irrefl _ (h _ hm)
    have hfuse : fusionRound (done ++ current :: next :: rest) (out, skipped) done.length =
        (out ++ [fusedOp current next], insert (done.length + 1) skipped) := by
      simp [fusionRound, hnot, hf]
    have hskip : fusionRound (done ++ current :: next :: rest)
        (out ++ [fusedOp current next], insert (done.length + 1) skipped) (done.length + 1) =
        (out ++ [fusedOp current next], insert (done.length + 1) skipped) := by
      simp [fusionRound]
    have hrest := ih (done ++ [current, next]) (out ++ [fusedOp current next])
      (insert (done.length + 1) skipped) (by
        intro j hj
        rcases Finset.mem_insert.mp hj with rfl | hj
        · simp
        · have := h j hj
          simp only [List.length_append, List.length_cons, List.length_nil]
          omega)
    rw [List.length_cons, List.length_cons, List.range'_succ, List.range'_succ, List.foldl_cons,
      List.foldl_cons, hfuse, hskip]
    simpa [fuse, hf] using hrest
  | case4 current next rest hf ih =>
    have hnot : done.length ∉ skipped := fun hm => lt_irrefl _ (h _ hm)
    have hkeep : fusionRound (done ++ current :: next :: rest) (out, skipped) done.length =
        (out ++ [current], skipped) := by
      simp [fusionRound, hnot, hf]
    have hrest := ih (done ++ [current]) (out ++ [current]) skipped (by
      intro j hj
      have := h j hj
      simp only [List.length_append, List.length_singleton]
      omega)
    rw [List.length_cons, List.range'_succ, List.foldl_cons, hkeep]
    simpa [fuse, hf] using hrest

theorem runOperatorFusion_ops (m : OmniModule F) : (runOperatorFusion m).ops = fuse m.ops := by
  simp only [runOperatorFusion]
  cases hops : m.ops with
  | nil => simp [hops, fuse]
  | cons op rest =>
    have h := fusionRounds_eq [] (op :: rest) [] ∅ (by simp)
    simpa [List.range_eq_range'] using h

end OperatorFusion

section LoopTiling

def tileSize (hardware : HardwareProfile) : Int64 :=
  match hardware.targetBackend with
  | .amdRocm .. => 64
  | .appleMetal .. => 32
  | .vulkanGeneric .. => 16
  | .cpuVectorized .. | .remoteP2p .. => 8

def tileOp (hardware : HardwareProfile) (op : OmniOp F) : OmniOp F :=
  if op.kind.isMatMul then
    { op with
      attrs := (((op.attrs.insert "tile_m" (.int (tileSize hardware))).insert
        "tile_n" (.int (tileSize hardware))).insert "tile_k" (.int 16)).insert
        "vector_width" (.int 4) }
  else op

variable (hardware : HardwareProfile) (op : OmniOp F)

theorem tileOp_attrs_only : ∃ attrs, tileOp hardware op = { op with attrs := attrs } := by
  rw [tileOp]
  split
  · exact ⟨_, rfl⟩
  · exact ⟨op.attrs, rfl⟩

theorem tileOp_id : (tileOp hardware op).id = op.id := by
  obtain ⟨attrs, h⟩ := tileOp_attrs_only hardware op
  rw [h]

theorem tileOp_kind : (tileOp hardware op).kind = op.kind := by
  obtain ⟨attrs, h⟩ := tileOp_attrs_only hardware op
  rw [h]

theorem tileOp_inputs : (tileOp hardware op).inputs = op.inputs := by
  obtain ⟨attrs, h⟩ := tileOp_attrs_only hardware op
  rw [h]

theorem tileOp_output : (tileOp hardware op).output = op.output := by
  obtain ⟨attrs, h⟩ := tileOp_attrs_only hardware op
  rw [h]

theorem tileOp_resultType : (tileOp hardware op).resultType = op.resultType := by
  obtain ⟨attrs, h⟩ := tileOp_attrs_only hardware op
  rw [h]

theorem tileOp_lookup {key : String}
    (h : key ∉ ["tile_m", "tile_n", "tile_k", "vector_width"]) :
    (tileOp hardware op).attrs.lookup key = op.attrs.lookup key := by
  simp only [List.mem_cons, List.not_mem_nil, or_false, not_or] at h
  obtain ⟨hm, hn, hk, hw⟩ := h
  rw [tileOp]
  split
  · rw [AList.lookup_insert_ne hw, AList.lookup_insert_ne hk, AList.lookup_insert_ne hn,
      AList.lookup_insert_ne hm]
  · rfl

def runLoopTiling (hardware : HardwareProfile) (m : OmniModule F) : OmniModule F :=
  { m with ops := m.ops.map (tileOp hardware) }

end LoopTiling

section DeadCodeElimination

def markOp (opCount : ℕ) (op : OmniOp F) (acc : List (OmniOp F) × Finset String) :
    List (OmniOp F) × Finset String :=
  let isRoot := op.id = UInt64.ofNat (opCount - 1)
  if isRoot ∨ op.output ∈ acc.2 then (op :: acc.1, acc.2 ∪ op.inputs.toFinset) else acc

/-- `iter().rev()` is the right fold; it leaves the active operations in the original order. -/
def runDce (m : OmniModule F) : OmniModule F :=
  { m with ops := (m.ops.foldr (markOp m.opCount) ([], ∅)).1 }

end DeadCodeElimination

variable [Add F] [Mul F] [DebugText F]

def run (hardware : HardwareProfile) (m : OmniModule F) : Result (OmniModule F) := do
  let folded ← runConstantFolding m
  .ok (runDce (runLoopTiling hardware (runOperatorFusion folded)))

end PassManager
