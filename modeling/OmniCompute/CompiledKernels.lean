import OmniCompute.FlatKernels
import OmniCompute.SharedBounds

/-! What the engine's kernels compute. Of a text the lifter only finds out whether it mentions a
product, so there are two meanings a compiled kernel can have: a product, or a copy. -/
namespace CompiledKernels

open RustValues OmniDialect PassManager Codegen BackEnds TiledKernel TiledProduct SharedBounds
open IrLifter JitEngine LaunchShapes

/-- Whatever the interleaving, one thread writes each element of the product, with its value;
nothing else is written, and the matrices are read inside their bounds. -/
structure WritesEach {V : Type} [Semiring V] (kernel : Kernel V) (p : Problem V) : Prop where
  once : ∀ (e : Execution kernel p) (r c : ℕ), r < p.M → c < p.N →
    ∃! gt : WorkGroup × Thread, Runs kernel p gt.1 gt.2 ∧
      ∃ v, e.stored gt.1 gt.2 = some ((r : ℤ) * p.N + c, v)
  exact : ∀ (e : Execution kernel p) (g : WorkGroup) (t : Thread) (i : ℤ) (v : V),
    Runs kernel p g t → e.stored g t = some (i, v) →
    ∃ r c : ℕ, r < p.M ∧ c < p.N ∧ i = r * p.N + c ∧ v = product p r c
  readsInside : ∀ g t, Runs kernel p g t → ∀ phase < phases kernel p,
    ∀ read ∈ globalReads kernel p g phase t,
      0 ≤ read.2 ∧ read.2 < (extent p read.1 : ℤ)

/-- For all matrices, the kernel writes their product, and stays inside its shared arrays. -/
def Computes (b : BackEnd) (k : MatMulKernel) : Prop :=
  ∀ (V : Type) [Field V] [LinearOrder V] (library : MathLibrary V) (p : Problem V),
    1 ≤ p.M → 1 ≤ p.N → 1 ≤ p.K →
    WritesEach (b.kernel library k) p ∧
      SharedSafe (b.kernel library k) p {g | InGrid (b.kernel library k) p g}

/-- It does so without reading a shared cell that no thread has stored. -/
def Multiplies (b : BackEnd) (k : MatMulKernel) : Prop :=
  ∀ (V : Type) [Field V] [LinearOrder V] (library : MathLibrary V) (p : Problem V),
    1 ≤ p.M → 1 ≤ p.N → 1 ≤ p.K →
    WritesOnce (b.kernel library k) p ∧
      SharedSafe (b.kernel library k) p {g | InGrid (b.kernel library k) p g}

def IsVulkan (hardware : HardwareProfile) : Prop :=
  ∃ name invocations, hardware.targetBackend = .vulkanGeneric name invocations

section Products

variable {hardware : HardwareProfile}

def template (hardware : HardwareProfile) : MatMulKernel :=
  ⟨(backEnd hardware.targetBackend).dialect.datatype .f16, tileSize hardware, tileSize hardware, 16,
    (backEnd hardware.targetBackend).dialect.matMulBlock, none⟩

theorem corner_inGrid {V : Type} [Semiring V] {kernel : Kernel V} {p : Problem V} {m n k x y : ℕ}
    (h : Sized kernel m n k x y) (hM : 1 ≤ p.M) (hN : 1 ≤ p.N) : InGrid kernel p ⟨0, 0⟩ := by
  have hm := h.posM
  have hn := h.posN
  exact h.grid_iff.mpr ⟨Nat.div_pos (by omega) hn, Nat.div_pos (by omega) hm⟩

theorem multiplies_of_vulkan (h : IsVulkan hardware) :
    Multiplies (backEnd hardware.targetBackend) (template hardware) := by
  obtain ⟨name, invocations, hv⟩ := h
  obtain ⟨target⟩ := hardware
  obtain rfl : target = _ := hv
  intro V _ _ library p hM hN hK
  have hsized : Sized (BackEnd.spirv.kernel library (template ⟨.vulkanGeneric name invocations⟩))
      16 16 16 16 16 := ⟨rfl, rfl, rfl, rfl, rfl, by decide, by decide, by decide⟩
  have hsquare : Square (BackEnd.spirv.kernel library (template ⟨.vulkanGeneric name invocations⟩))
      16 := ⟨hsized, rfl⟩
  have hgrid : InGrid _ p ⟨0, 0⟩ := corner_inGrid hsized hM hN
  exact ⟨hsquare.writesOnce fun _ => rfl,
    (safe_iff hsized rfl (by decide) (by decide) hK ⟨_, hgrid⟩).mpr (by decide)⟩

theorem WritesEach.of_once {V : Type} [Semiring V] {kernel : Kernel V} {p : Problem V}
    (h : WritesOnce kernel p) : WritesEach kernel p := by
  refine ⟨h.once, fun e g t i v hrun hs => ?_, h.readsInside⟩
  obtain ⟨r, c, hr, hc, rfl⟩ := h.confined e g t i v hrun hs
  exact ⟨r, c, hr, hc, rfl, h.exact e g t r c v hrun hr hc hs⟩

theorem Multiplies.computes {b : BackEnd} {k : MatMulKernel} (h : Multiplies b k) :
    Computes b k := by
  intro V _ _ library p hM hN hK
  obtain ⟨hwrites, hsafe⟩ := h V library p hM hN hK
  exact ⟨.of_once hwrites, hsafe⟩

theorem not_writesEach {V : Type} [Semiring V] {kernel : Kernel V} {p : Problem V}
    {m n k x y : ℕ} (h : Sized kernel m n k x y) (hx : x ≤ n) (hy : y < m) (hM : y < p.M)
    (hN : 0 < p.N) : ¬ WritesEach kernel p := by
  intro heach
  let e : Execution kernel p := fun _ => .sequential fun _ => 0
  obtain ⟨⟨g, t⟩, ⟨hrun, v, hs⟩, -⟩ := heach.once e y 0 hM hN
  exact h.row_missing hx hy hN e ⟨g, t, v, hrun, hs⟩

/-- A column of nine rows shows it on the other targets: a block of eight rows leaves the ninth
out, and tiles of eight rows have no room for a block of sixteen. -/
theorem vulkan_of_computes
    (h : Computes (backEnd hardware.targetBackend) (template hardware)) : IsVulkan hardware := by
  have hnine := h ℚ ⟨id, id⟩ (ones ℚ 1 9 1) (by decide) le_rfl le_rfl
  by_cases route : backEnd hardware.targetBackend = .spirv
  · obtain ⟨tile, hsized, htile⟩ := routed_sized hardware (⟨id, id⟩ : MathLibrary ℚ) route
      (SpirvCodegen.dialect.datatype .f16) none
    rw [template, route] at hnine
    have hgrid : InGrid _ (ones ℚ 1 9 1) ⟨0, 0⟩ := corner_inGrid hsized (by decide) le_rfl
    have hfits :=
      (safe_iff hsized rfl (by decide) (by decide) Nat.one_pos ⟨_, hgrid⟩).mp hnine.2
    exact htile.mp hfits.1.1
  · have heach := hnine.1
    obtain ⟨target⟩ := hardware
    cases target with
    | amdRocm gfxArch wavefrontSize computeUnits =>
      have hsized : Sized (BackEnd.amdGpu.kernel (⟨id, id⟩ : MathLibrary ℚ) (template
          ⟨.amdRocm gfxArch wavefrontSize computeUnits⟩)) 64 64 16 8 8 :=
        ⟨rfl, rfl, rfl, rfl, rfl, by decide, by decide, by decide⟩
      exact absurd heach
        (not_writesEach hsized (by decide) (by decide) (by decide) (by decide))
    | appleMetal chipName memoryBytes gpuCores =>
      have hsized : Sized (BackEnd.metal.kernel (⟨id, id⟩ : MathLibrary ℚ) (template
          ⟨.appleMetal chipName memoryBytes gpuCores⟩)) 32 32 16 8 8 :=
        ⟨rfl, rfl, rfl, rfl, rfl, by decide, by decide, by decide⟩
      exact absurd heach
        (not_writesEach hsized (by decide) (by decide) (by decide) (by decide))
    | vulkanGeneric => exact absurd rfl route
    | cpuVectorized => exact absurd rfl route
    | remoteP2p => exact absurd rfl route

theorem multiplies_iff :
    Multiplies (backEnd hardware.targetBackend) (template hardware) ↔ IsVulkan hardware :=
  ⟨fun h => vulkan_of_computes h.computes, multiplies_of_vulkan⟩

end Products

section Copies

end Copies

end CompiledKernels
