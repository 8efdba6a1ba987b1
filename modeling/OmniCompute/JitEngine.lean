import OmniCompute.BackEnds
import OmniCompute.IrLifter
import OmniCompute.MatMulLowering

/-! The engine that links lifter, passes and generators behind a cache of kernels, and what
it compiles when the cache does not answer. -/
namespace JitEngine

open RustValues OmniDialect PassManager Codegen BackEnds IrLifter MatMulLowering

structure Engine where
  hardware : HardwareProfile
  kernelCache : HashMap UInt64 GeneratedKernel

def Engine.new (hardware : HardwareProfile) : Engine := ⟨hardware, ∅⟩

/-- CPU and remote targets take the SPIR-V path. -/
def backEnd : TargetBackend → BackEnd
  | .amdRocm .. => .amdGpu
  | .appleMetal .. => .metal
  | .vulkanGeneric .. => .spirv
  | .cpuVectorized .. | .remoteP2p .. => .spirv

def hashPtx (ptx : List UInt8) (kernelId : UInt64) : UInt64 :=
  ptx.foldl (fun hash b => hash * 0x00000100000001b3 ^^^ b.toUInt64)
    (0xcbf29ce484222325 * 0x00000100000001b3 ^^^ kernelId)

/-- The three stages behind the cache. No constant is ever lifted, so any `f64` will do. -/
def pipeline (hardware : HardwareProfile) (ptx : List UInt8) (kernelId : UInt64) :
    Result GeneratedKernel := do
  let lifted ← (liftPtx .new ptx kernelId).1
  let optimized ← PassManager.run hardware (lifted : OmniModule ℚ)
  (backEnd hardware.targetBackend).generate optimized

def Engine.compilePtx (engine : Engine) (ptx : List UInt8) (kernelId : UInt64) :
    Result GeneratedKernel × Engine :=
  let kernelHash := hashPtx ptx kernelId
  match engine.kernelCache.lookup kernelHash with
  | some cached => (.ok cached, engine)
  | none =>
    match pipeline engine.hardware ptx kernelId with
    | .ok kernel =>
      (.ok kernel, { engine with kernelCache := engine.kernelCache.insert kernelHash kernel })
    | .error failure => (.error failure, engine)

def Engine.clearCache (engine : Engine) : Engine := { engine with kernelCache := ∅ }

section Pipeline

/-- The passes only annotate a lone operation that was never pushed behind another. -/
theorem run_single (hardware : HardwareProfile) {m : OmniModule ℚ} {op : OmniOp ℚ}
    (hops : m.ops = [op]) (hid : op.id = 0)
    (hkind : ∀ value, op.kind ≠ .fill value ∧ op.kind ≠ .add ∧ op.kind ≠ .mul) :
    ∃ optimized, PassManager.run hardware m = .ok optimized ∧
      optimized.ops = [tileOp hardware op] := by
  have hfold : foldOps ∅ m.ops = .ok m.ops := by
    have hop : foldOp ∅ op = .ok (∅, op) := by
      simp only [foldOp]
      split
      · rename_i value hk
        exact absurd hk (hkind value).1
      · rename_i hk
        exact absurd hk (hkind 0).2.1
      · rename_i hk
        exact absurd hk (hkind 0).2.2
      · rfl
    rw [hops, foldOps, hop]
    rfl
  have hroot : (tileOp hardware op).id = UInt64.ofNat 0 := by rwa [tileOp_id]
  refine ⟨_, by rw [PassManager.run, runConstantFolding, hfold]; rfl, ?_⟩
  have hfuse := runOperatorFusion_ops m
  rw [hops, fuse] at hfuse
  simp only [runDce, runLoopTiling, OmniModule.opCount, hfuse]
  change (markOp 1 (tileOp hardware op) ([], ∅)).1 = _
  rw [markOp, if_pos (Or.inl hroot)]

theorem pipeline_lowers (hardware : HardwareProfile) (ptx : List UInt8) (kernelId : UInt64) :
    pipeline hardware ptx kernelId =
      ((backEnd hardware.targetBackend).dialect.lower (tileOp hardware (lifted ptx : OmniOp ℚ))).map
        ((backEnd hardware.targetBackend).dialect.single 0) := by
  have hkind : ∀ value, (opKind ptx : OpKind ℚ) ≠ .fill value ∧ (opKind ptx : OpKind ℚ) ≠ .add ∧
      (opKind ptx : OpKind ℚ) ≠ .mul := by
    intro value
    simp only [opKind]
    split
    · simp
    · split
      · simp
      · split <;> simp
  obtain ⟨m, hlift, hops⟩ := liftPtx_new ptx kernelId
  obtain ⟨optimized, hrun, hopt⟩ := run_single hardware hops rfl hkind
  rw [pipeline, hlift]
  change PassManager.run hardware m >>= _ = _
  rw [hrun]
  change (backEnd hardware.targetBackend).generate optimized = _
  rw [BackEnd.generate_eq, generate_single _ hopt, tileOp_id]
  rfl

def kernelSource (d : Dialect) (hardware : HardwareProfile) (ptx : List UInt8) : KernelSource :=
  if mentionsProduct ptx then
    .matMul ⟨d.datatype .f16, tileSize hardware, tileSize hardware, 16, d.matMulBlock, none⟩
  else .fallback (hashBytes ptx)

theorem lower_compilable (d : Dialect) (hardware : HardwareProfile) {ptx : List UInt8}
    (h : compilable ptx = true) :
    d.lower (tileOp hardware (lifted ptx : OmniOp ℚ)) = .ok (kernelSource d hardware ptx) := by
  have hkind : (opKind ptx : OpKind ℚ) = _ := opKind_compilable h
  rw [kernelSource]
  split
  · rename_i hp
    rw [if_pos hp] at hkind
    exact (emits_tiled d hardware hkind rfl).1
  · rename_i hp
    rw [if_neg hp] at hkind
    apply lower_fallback
    rw [tileOp_kind]
    exact hkind

theorem lower_not_compilable (d : Dialect) (hardware : HardwareProfile) {ptx : List UInt8}
    (h : compilable ptx = false) :
    d.lower (tileOp hardware (lifted ptx : OmniOp ℚ)) =
      .error (d.unsupported (opKind ptx : OpKind ℚ)) := by
  have hkind : (tileOp hardware (lifted ptx : OmniOp ℚ)).kind = opKind ptx := tileOp_kind _ _
  rw [lower_unsupported, hkind]
  rw [hkind]
  rcases opKind_not_compilable (F := ℚ) h with hk | hk
  · rw [hk]
    rfl
  · rw [hk]
    rfl

theorem pipeline_eq (hardware : HardwareProfile) (ptx : List UInt8) (kernelId : UInt64) :
    pipeline hardware ptx kernelId =
      if compilable ptx then
        .ok ((backEnd hardware.targetBackend).dialect.single 0
          (kernelSource (backEnd hardware.targetBackend).dialect hardware ptx))
      else
        .error ((backEnd hardware.targetBackend).dialect.unsupported
          (opKind ptx : OpKind ℚ)) := by
  rw [pipeline_lowers]
  split
  · rename_i h
    rw [lower_compilable _ _ h]
    rfl
  · rename_i h
    rw [lower_not_compilable _ _ (Bool.not_eq_true _ ▸ h)]
    rfl

end Pipeline

section FreshEngine

theorem compilePtx_new (hardware : HardwareProfile) (ptx : List UInt8) (kernelId : UInt64) :
    ((Engine.new hardware).compilePtx ptx kernelId).1 = pipeline hardware ptx kernelId := by
  have hempty : (Engine.new hardware).kernelCache.lookup (hashPtx ptx kernelId) = none :=
    AList.lookup_empty _
  have hhardware : (Engine.new hardware).hardware = hardware := rfl
  rw [Engine.compilePtx]
  simp only [hempty, hhardware]
  cases pipeline hardware ptx kernelId <;> rfl

/-- A fresh engine compiles a text to one kernel behind the header, or refuses the operation the
text was lifted to. -/
theorem compile_fresh (hardware : HardwareProfile) (ptx : List UInt8) (kernelId : UInt64) :
    ((Engine.new hardware).compilePtx ptx kernelId).1 =
      if compilable ptx then
        .ok ((backEnd hardware.targetBackend).dialect.single 0
          (kernelSource (backEnd hardware.targetBackend).dialect hardware ptx))
      else
        .error ((backEnd hardware.targetBackend).dialect.unsupported (opKind ptx : OpKind ℚ)) := by
  rw [compilePtx_new, pipeline_eq]

theorem tanh_refused :
    ((Engine.new ⟨.vulkanGeneric "gpu" 1024⟩).compilePtx (ascii "tanh.approx") 0).1 =
      .error (SpirvCodegen.dialect.unsupported (.unaryFunc .exp : OpKind ℚ)) := by
  have hc : compilable (ascii "tanh.approx") = false := by decide +kernel
  have hk : (opKind (ascii "tanh.approx") : OpKind ℚ) = .unaryFunc .exp := by
    rw [opKind, if_neg (by decide +kernel), if_neg (by decide +kernel),
      if_pos (by decide +kernel)]
  rw [compilePtx_new, pipeline_eq, hc, hk]
  rfl

end FreshEngine

end JitEngine
