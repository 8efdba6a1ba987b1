import OmniCompute.JitEngine

/-! Shared memory of the GLSL product kernels. Three places have to agree on it: the pass that
annotates the tiles, the constant local size of the generator, and the route from the hardware. -/
namespace SharedBounds

open RustValues OmniDialect PassManager Codegen TiledKernel TiledProduct MatMulLowering BackEnds
open JitEngine

section Safety

variable {V : Type} [Semiring V] (kernel : Kernel V) (p : Problem V)

/-- The cells of `sA[tile_m][tile_k]` and `sB[tile_k][tile_n]`. -/
def Declared : Cell → Prop
  | (.sA, i, j) => (0 ≤ i ∧ i < kernel.tileM) ∧ 0 ≤ j ∧ j < kernel.tileK
  | (.sB, i, j) => (0 ≤ i ∧ i < kernel.tileK) ∧ 0 ≤ j ∧ j < kernel.tileN

/-- On this grid every thread stays inside the shared arrays, and no two write in one place. -/
structure SharedSafe (grid : Set WorkGroup) : Prop where
  stores : ∀ g ∈ grid, ∀ t ∈ groupThreads kernel, ∀ phase < phases kernel p,
    ∀ write ∈ loads kernel p g phase t, Declared kernel write.1
  reads : ∀ g ∈ grid, ∀ t ∈ groupThreads kernel, ∀ phase < phases kernel p,
    ∀ cells ∈ multiplyReads kernel t, Declared kernel cells.1 ∧ Declared kernel cells.2
  cells : ∀ g ∈ grid, ∀ t ∈ groupThreads kernel, ∀ u ∈ groupThreads kernel,
    ∀ phase < phases kernel p, ∀ phase' < phases kernel p,
    ∀ write ∈ loads kernel p g phase t, ∀ write' ∈ loads kernel p g phase' u,
      write.1 = write'.1 → t = u
  elements : ∀ (e : Execution kernel p), ∀ g ∈ grid, ∀ g' ∈ grid, ∀ t ∈ groupThreads kernel,
    ∀ u ∈ groupThreads kernel, ∀ i v v', e.stored g t = some (i, v) →
      e.stored g' u = some (i, v') → g = g' ∧ t = u

end Safety

section Extents

variable {V : Type} [Semiring V] {kernel : Kernel V} {p : Problem V} {g g' : WorkGroup}
  {t u : Thread} {grid : Set WorkGroup} {m n k x y : ℕ}
  (h : Sized kernel m n k x y) (nested : kernel.layout = .nested)

include h nested

/-- The last thread of a group fills the last cell, so the group has to fit the tiles. -/
theorem fits_of_safe (hx : 0 < x) (hy : 0 < y) (hK : 0 < p.K) (hgrid : grid.Nonempty)
    (safe : SharedSafe kernel p grid) : (y ≤ m ∧ x ≤ k) ∧ y ≤ k ∧ x ≤ n := by
  obtain ⟨g, hg⟩ := hgrid
  have ht : (⟨x - 1, y - 1⟩ : Thread) ∈ groupThreads kernel :=
    h.mem_threads.mpr ⟨Nat.sub_one_lt hx.ne', Nat.sub_one_lt hy.ne'⟩
  have hstores := safe.stores g hg _ ht 0 (h.phases_pos hK)
  have hA := hstores _ List.mem_cons_self
  have hB := hstores _ (List.mem_cons_of_mem _ List.mem_cons_self)
  simp only [cellA, cellB, nested, Declared, h.tileM, h.tileN, h.tileK] at hA hB
  omega

theorem stores_declared (hA : y ≤ m ∧ x ≤ k) (hB : y ≤ k ∧ x ≤ n) (ht : t ∈ groupThreads kernel)
    {phase : ℕ} {write : Cell × V} (hw : write ∈ loads kernel p g phase t) :
    Declared kernel write.1 := by
  obtain ⟨htx, hty⟩ := h.mem_threads.mp ht
  rcases loads_cells nested hw with hc | hc
  · rw [hc]
    simp only [Declared, h.tileM, h.tileK]
    omega
  · rw [hc]
    simp only [Declared, h.tileN, h.tileK]
    omega

omit [Semiring V] in
theorem reads_declared (hy : y ≤ m) (hx : x ≤ n) (ht : t ∈ groupThreads kernel)
    {cells : Cell × Cell} (hc : cells ∈ multiplyReads kernel t) :
    Declared kernel cells.1 ∧ Declared kernel cells.2 := by
  obtain ⟨htx, hty⟩ := h.mem_threads.mp ht
  obtain ⟨i, hi, rfl⟩ := List.mem_map.mp hc
  have hik : i < k := by simpa [h.tileK] using hi
  constructor
  · simp only [cellA, nested, Declared, h.tileM, h.tileK]
    omega
  · simp only [cellB, nested, Declared, h.tileN, h.tileK]
    omega

omit nested in
theorem stored_thread (hy : y ≤ m) (hx : x ≤ n) (e : Execution kernel p)
    (ht : t ∈ groupThreads kernel) (hu : u ∈ groupThreads kernel) {i : ℤ} {v v' : V}
    (hs : e.stored g t = some (i, v)) (hs' : e.stored g' u = some (i, v')) :
    g = g' ∧ t = u := by
  obtain ⟨htx, hty⟩ := h.mem_threads.mp ht
  obtain ⟨hux, huy⟩ := h.mem_threads.mp hu
  obtain ⟨_, hc, hi, _⟩ := (h.stored_iff e).mp hs
  obtain ⟨_, hc', hi', _⟩ := (h.stored_iff e).mp hs'
  obtain ⟨hrow, hcol⟩ := index_inj hc hc' (hi.symm.trans hi')
  have hgy := RowMajor.index_inj (hty.trans_le hy) (huy.trans_le hy) hrow
  have hgx := RowMajor.index_inj (htx.trans_le hx) (hux.trans_le hx) hcol
  rcases g with ⟨gx, gy⟩
  rcases t with ⟨tx, ty⟩
  simp_all

theorem safe_iff (hx : 0 < x) (hy : 0 < y) (hK : 0 < p.K) (hgrid : grid.Nonempty) :
    SharedSafe kernel p grid ↔ (y ≤ m ∧ x ≤ k) ∧ y ≤ k ∧ x ≤ n := by
  constructor
  · exact fits_of_safe h nested hx hy hK hgrid
  · rintro ⟨hA, hB⟩
    refine ⟨?_, ?_, ?_, ?_⟩
    · intro g _ t ht phase _ write hw
      exact stores_declared h nested hA hB ht hw
    · intro g _ t ht phase _ cells hc
      exact reads_declared h nested hA.1 hB.2 ht hc
    · intro g _ t _ u _ phase _ phase' _ write hw write' hw' heq
      exact loads_thread nested hw hw' heq
    · intro e g _ g' _ t ht u hu i v v' hs hs'
      exact stored_thread h hA.1 hB.2 e ht hu hs hs'

end Extents

section Routes

variable {F : Type} [DebugText F] {hardware : HardwareProfile}

/-- The CPU and remote targets take the route, but not the tiles, of the Vulkan target. -/
theorem routed_sized (hardware : HardwareProfile) {V : Type} [Field V] [LinearOrder V]
    (library : MathLibrary V) (route : backEnd hardware.targetBackend = .spirv)
    (datatype : String) (activation : Option String) :
    ∃ tile, Sized (SpirvCodegen.kernel library ⟨datatype, tileSize hardware, tileSize hardware, 16,
        SpirvCodegen.dialect.matMulBlock, activation⟩) tile tile 16 16 16 ∧
      (16 ≤ tile ↔ ∃ name invocations,
        hardware.targetBackend = .vulkanGeneric name invocations) := by
  rcases hardware with ⟨target⟩
  cases target with
  | amdRocm => cases route
  | appleMetal => cases route
  | vulkanGeneric name invocations =>
    refine ⟨16, ⟨rfl, rfl, rfl, rfl, rfl, by decide, by decide, by decide⟩, ?_⟩
    simp
  | cpuVectorized | remoteP2p =>
    refine ⟨8, ⟨rfl, rfl, rfl, rfl, rfl, by decide, by decide, by decide⟩, ?_⟩
    simp

/-- On the GLSL route the shared arrays hold the group exactly for the Vulkan target. -/
theorem shared_safe_iff (route : backEnd hardware.targetBackend = .spirv) (m : OmniModule F)
    (op : OmniOp F) (hop : op ∈ (runLoopTiling hardware m).ops) (hk : op.kind = .matMul) :
    ∃ k, Emits SpirvCodegen.dialect op k ∧
      ∀ (V : Type) [Field V] [LinearOrder V] (library : MathLibrary V) (p : Problem V),
        1 ≤ p.M → 1 ≤ p.N → 1 ≤ p.K → ∀ grid : Set WorkGroup, grid.Nonempty →
          (SharedSafe (SpirvCodegen.kernel library k) p grid ↔
            ∃ name invocations, hardware.targetBackend = .vulkanGeneric name invocations) := by
  obtain ⟨product, _, rfl⟩ := List.mem_map.mp hop
  have hm : product.kind.isMatMul = true := by
    rw [tileOp_kind] at hk
    rw [hk]
    rfl
  refine ⟨_, emits_annotated SpirvCodegen.dialect hardware hm, ?_⟩
  intro V _ _ library p _ _ hK grid hgrid
  obtain ⟨tile, hsized, htile⟩ := routed_sized hardware library route
    (SpirvCodegen.dialect.datatype product.resultType.elementType) (fusedActivation product)
  rw [safe_iff hsized rfl (by decide) (by decide) hK hgrid, ← htile]
  simp

theorem shared_safe_iff_vulkan :
    ∃ k, Emits SpirvCodegen.dialect (tileOp ⟨.vulkanGeneric "gpu" 1024⟩ plainProduct) k ∧
      ∀ (V : Type) [Field V] [LinearOrder V] (library : MathLibrary V) (p : Problem V),
        1 ≤ p.M → 1 ≤ p.N → 1 ≤ p.K → ∀ grid : Set WorkGroup, grid.Nonempty →
          (SharedSafe (SpirvCodegen.kernel library k) p grid ↔ ∃ name invocations,
            TargetBackend.vulkanGeneric "gpu" 1024 = .vulkanGeneric name invocations) :=
  shared_safe_iff rfl (.build [plainProduct]) _ List.mem_cons_self rfl

/-- One element on the default route: the sixteenth row of threads has no row in `sA`. -/
theorem single_element_outside :
    ∃ k, Emits SpirvCodegen.dialect (tileOp ⟨.cpuVectorized 8 256⟩ plainProduct) k ∧
      ∀ library : MathLibrary ℚ, ¬ SharedSafe (SpirvCodegen.kernel library k)
        ⟨1, 1, 1, fun _ => 1, fun _ => 1⟩ {⟨0, 0⟩} := by
  refine ⟨_, emits_annotated SpirvCodegen.dialect _ rfl, ?_⟩
  intro library safe
  obtain ⟨tile, hsized, htile⟩ := routed_sized ⟨.cpuVectorized 8 256⟩ library rfl _ _
  have hfits := fits_of_safe hsized rfl (by decide) (by decide) (by decide)
    (Set.singleton_nonempty _) safe
  obtain ⟨name, invocations, h⟩ := htile.mp hfits.1.1
  cases h

end Routes

end SharedBounds
