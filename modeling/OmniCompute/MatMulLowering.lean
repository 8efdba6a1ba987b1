import OmniCompute.AmdGpuCodegen
import OmniCompute.MetalCodegen
import OmniCompute.PassManager
import OmniCompute.SpirvCodegen
import OmniCompute.TiledProduct
import Mathlib.Algebra.Field.Rat
import Mathlib.Algebra.Order.Ring.Rat

/-! From an annotated product to the product matrix: the tile sizes come from the tiling pass,
the local size from the generator, the index formulas from the text, and they meet here. -/
namespace MatMulLowering

open RustValues OmniDialect PassManager Codegen TiledKernel TiledProduct

variable {F : Type} [DebugText F]

/-- The generator lowers `op` to the template `k`, and returns the local size of `k`. -/
def Emits (d : Dialect) (op : OmniOp F) (k : MatMulKernel) : Prop :=
  d.lower op = .ok (.matMul k) ∧ ∀ current, d.blockSize current (.matMul k) = k.localSize

theorem lower_matMul (d : Dialect) {op : OmniOp F} (h : op.kind.isMatMul = true) :
    Emits d op ⟨d.datatype op.resultType.elementType, intAttr op "tile_m" d.defaultTile,
      intAttr op "tile_n" d.defaultTile, intAttr op "tile_k" 16, d.matMulBlock,
      fusedActivation op⟩ := by
  refine ⟨?_, fun _ => rfl⟩
  simp only [Dialect.lower]
  cases hk : op.kind <;> rw [hk] at h <;> first | rfl | cases h

omit [DebugText F] in
theorem tileOp_attrs (hardware : HardwareProfile) {op : OmniOp F} (h : op.kind.isMatMul = true)
    (default : Int64) :
    intAttr (tileOp hardware op) "tile_m" default = tileSize hardware ∧
    intAttr (tileOp hardware op) "tile_n" default = tileSize hardware ∧
    intAttr (tileOp hardware op) "tile_k" default = 16 := by
  rw [tileOp, if_pos h]
  refine ⟨?_, ?_, ?_⟩
  · simp only [intAttr, AList.lookup_insert_ne (show "tile_m" ≠ "vector_width" by decide),
      AList.lookup_insert_ne (show "tile_m" ≠ "tile_k" by decide),
      AList.lookup_insert_ne (show "tile_m" ≠ "tile_n" by decide), AList.lookup_insert]
  · simp only [intAttr, AList.lookup_insert_ne (show "tile_n" ≠ "vector_width" by decide),
      AList.lookup_insert_ne (show "tile_n" ≠ "tile_k" by decide), AList.lookup_insert]
  · simp only [intAttr, AList.lookup_insert_ne (show "tile_k" ≠ "vector_width" by decide),
      AList.lookup_insert]

omit [DebugText F] in
theorem fusedActivation_tileOp (hardware : HardwareProfile) (op : OmniOp F) :
    fusedActivation (tileOp hardware op) = fusedActivation op := by
  rw [fusedActivation, tileOp_lookup hardware op (by decide)]
  rfl

def tiledTemplate (d : Dialect) (hardware : HardwareProfile) (op : OmniOp F) : MatMulKernel :=
  ⟨d.datatype op.resultType.elementType, tileSize hardware, tileSize hardware, 16, d.matMulBlock,
    none⟩

theorem emits_annotated (d : Dialect) (hardware : HardwareProfile) {op : OmniOp F}
    (hm : op.kind.isMatMul = true) :
    Emits d (tileOp hardware op) ⟨d.datatype op.resultType.elementType, tileSize hardware,
      tileSize hardware, 16, d.matMulBlock, fusedActivation op⟩ := by
  have hm' : (tileOp hardware op).kind.isMatMul = true := by rwa [tileOp_kind]
  have h := lower_matMul d hm'
  obtain ⟨h1, h2, _⟩ := tileOp_attrs hardware hm d.defaultTile
  obtain ⟨_, _, h3⟩ := tileOp_attrs hardware hm 16
  rwa [h1, h2, h3, fusedActivation_tileOp, tileOp_resultType] at h

theorem emits_tiled (d : Dialect) (hardware : HardwareProfile) {op : OmniOp F}
    (hop : op.kind = .matMul) (plain : op.attrs.lookup "fused_activation" = none) :
    Emits d (tileOp hardware op) (tiledTemplate d hardware op) := by
  have hm : op.kind.isMatMul = true := by rw [hop]; rfl
  have hact : fusedActivation op = none := by rw [fusedActivation, plain]
  have h := emits_annotated d hardware hm
  rwa [hact] at h

section Kernels

omit [DebugText F]

variable {V : Type} [Field V] [LinearOrder V] (library : MathLibrary V) (op : OmniOp F)

theorem amd_sized (gfxArch : String) (wavefrontSize computeUnits : UInt32) :
    Sized (AmdGpuCodegen.kernel library (tiledTemplate AmdGpuCodegen.dialect
      ⟨.amdRocm gfxArch wavefrontSize computeUnits⟩ op)) 64 64 16 8 8 :=
  ⟨rfl, rfl, rfl, rfl, rfl, by decide, by decide, by decide⟩

theorem metal_sized (chipName : String) (unifiedMemoryBytes : UInt64) (gpuCores : UInt32) :
    Sized (MetalCodegen.kernel library (tiledTemplate MetalCodegen.dialect
      ⟨.appleMetal chipName unifiedMemoryBytes gpuCores⟩ op)) 32 32 16 8 8 :=
  ⟨rfl, rfl, rfl, rfl, rfl, by decide, by decide, by decide⟩

theorem vulkan_square (deviceName : String) (maxInvocations : UInt32) :
    Square (SpirvCodegen.kernel library (tiledTemplate SpirvCodegen.dialect
      ⟨.vulkanGeneric deviceName maxInvocations⟩ op)) 16 :=
  ⟨⟨rfl, rfl, rfl, rfl, rfl, by decide, by decide, by decide⟩, rfl⟩

end Kernels

/-- The GLSL kernel of a tiled product writes every element of the product once. -/
theorem vulkan_product (op : OmniOp F) (deviceName : String) (maxInvocations : UInt32)
    (hop : op.kind = .matMul) (plain : op.attrs.lookup "fused_activation" = none) :
    ∃ k, Emits SpirvCodegen.dialect (tileOp ⟨.vulkanGeneric deviceName maxInvocations⟩ op) k ∧
      ∀ (V : Type) [Field V] [LinearOrder V] (library : MathLibrary V) (p : Problem V),
        WritesOnce (SpirvCodegen.kernel library k) p := by
  refine ⟨_, emits_tiled SpirvCodegen.dialect _ hop plain, ?_⟩
  intro V _ _ library p
  exact (vulkan_square library op deviceName maxInvocations).writesOnce fun _ => rfl

/-- A block of 8 x 8 threads never fills tiles of depth 16. -/
theorem small_block_fails (op : OmniOp F) (hop : op.kind = .matMul)
    (plain : op.attrs.lookup "fused_activation" = none) :
    (∀ gfxArch wavefrontSize computeUnits, ∃ k,
      Emits AmdGpuCodegen.dialect (tileOp ⟨.amdRocm gfxArch wavefrontSize computeUnits⟩ op) k ∧
      ∀ (V : Type) [Field V] [LinearOrder V] (library : MathLibrary V) (p : Problem V),
        1 ≤ p.M → 1 ≤ p.N → 1 ≤ p.K → ¬ WritesProduct (AmdGpuCodegen.kernel library k) p) ∧
    (∀ chipName memoryBytes gpuCores, ∃ k,
      Emits MetalCodegen.dialect (tileOp ⟨.appleMetal chipName memoryBytes gpuCores⟩ op) k ∧
      ∀ (V : Type) [Field V] [LinearOrder V] (library : MathLibrary V) (p : Problem V),
        1 ≤ p.M → 1 ≤ p.N → 1 ≤ p.K → ¬ WritesProduct (MetalCodegen.kernel library k) p) := by
  constructor
  · intro gfxArch wavefrontSize computeUnits
    refine ⟨_, emits_tiled AmdGpuCodegen.dialect _ hop plain, ?_⟩
    intro V _ _ library p hM hN hK hprod
    exact (amd_sized library op gfxArch wavefrontSize computeUnits).not_fresh (by decide)
      (by decide) (by decide) hM hN hK hprod.fresh
  · intro chipName memoryBytes gpuCores
    refine ⟨_, emits_tiled MetalCodegen.dialect _ hop plain, ?_⟩
    intro V _ _ library p hM hN hK hprod
    exact (metal_sized library op chipName memoryBytes gpuCores).not_fresh (by decide)
      (by decide) (by decide) hM hN hK hprod.fresh

section Products

def plainProduct : OmniOp ℚ := ⟨0, .matMul, ["x", "w"], "y", ∅, .dynamic 2 .f32⟩

def nineRows : Problem ℚ := ⟨9, 1, 1, fun _ => 1, fun _ => 1⟩

theorem plainProduct_vulkan :
    plainProduct.kind = .matMul ∧ plainProduct.attrs.lookup "fused_activation" = none ∧
    ∃ k, Emits SpirvCodegen.dialect (tileOp ⟨.vulkanGeneric "gpu" 1024⟩ plainProduct) k ∧
      ∀ (V : Type) [Field V] [LinearOrder V] (library : MathLibrary V) (p : Problem V),
        WritesOnce (SpirvCodegen.kernel library k) p :=
  ⟨rfl, rfl, vulkan_product plainProduct "gpu" 1024 rfl rfl⟩

theorem plainProduct_amd :
    ∃ k, Emits AmdGpuCodegen.dialect (tileOp ⟨.amdRocm "gfx1100" 32 96⟩ plainProduct) k ∧
      ∀ library : MathLibrary ℚ, ¬ WritesProduct (AmdGpuCodegen.kernel library k) nineRows := by
  obtain ⟨k, hk, hfails⟩ := (small_block_fails plainProduct rfl rfl).1 "gfx1100" 32 96
  exact ⟨k, hk, fun library => hfails ℚ library nineRows (by decide) (by decide) (by decide)⟩

theorem ninth_row_missing :
    (∃ k, Emits AmdGpuCodegen.dialect (tileOp ⟨.amdRocm "gfx1100" 32 96⟩ plainProduct) k ∧
      ∀ library : MathLibrary ℚ, ¬ WritesProduct (AmdGpuCodegen.kernel library k) nineRows) ∧
    (∃ k, Emits MetalCodegen.dialect (tileOp ⟨.appleMetal "M3" 0 40⟩ plainProduct) k ∧
      ∀ library : MathLibrary ℚ, ¬ WritesProduct (MetalCodegen.kernel library k) nineRows) := by
  refine ⟨⟨_, emits_tiled _ _ rfl rfl, ?_⟩, ⟨_, emits_tiled _ _ rfl rfl, ?_⟩⟩
  · intro library
    exact (amd_sized library plainProduct "gfx1100" 32 96).not_written (by decide) (by decide)
      (by decide) (by decide)
  · intro library
    exact (metal_sized library plainProduct "M3" 0 40).not_written (by decide) (by decide)
      (by decide) (by decide)

end Products

end MatMulLowering
