import OmniCompute.BackEnds
import OmniCompute.MatMulLowering

/-! Batches of products. All three generators give a `BatchedMatMul` the template of a `MatMul`,
whose text has neither a batch count nor a third coordinate. -/
namespace BatchedLowering

open RustValues OmniDialect Codegen TiledKernel TiledProduct MatMulLowering BackEnds

section Batches

variable {V : Type} [Semiring V]

structure LaunchGrid where
  x : ℕ
  y : ℕ
  z : ℕ

/-- A thread of the launch stores the element. No text reads a third coordinate, so every layer
of groups runs the same program. -/
def Stores {kernel : Kernel V} {p : Problem V} (grid : LaunchGrid)
    (e : ℕ → Execution kernel p) (i : ℤ) : Prop :=
  ∃ layer < grid.z, ∃ g : WorkGroup, g.x < grid.x ∧ g.y < grid.y ∧
    ∃ t ∈ groupThreads kernel, ∃ v, (e layer).stored g t = some (i, v)

/-- The index belongs to `C[z]`, where `C` is one matrix after the other. -/
def InBatch (p : Problem V) (z : ℕ) (i : ℤ) : Prop :=
  (z : ℤ) * (p.M * p.N) ≤ i ∧ i < ((z : ℤ) + 1) * (p.M * p.N)

def WritesBatches (kernel : Kernel V) (p : Problem V) (Z : ℕ) : Prop :=
  ∃ grid : LaunchGrid, ∀ e : ℕ → Execution kernel p, ∀ z < Z, ∃ i, InBatch p z i ∧ Stores grid e i

variable {kernel : Kernel V} {p : Problem V} {g : WorkGroup} {t : Thread}

theorem stored_lt {e : Execution kernel p} {i : ℤ} {v : V} (h : e.stored g t = some (i, v)) :
    i < p.M * p.N := by
  rw [Execution.stored, finish] at h
  split at h
  · rename_i hin
    obtain ⟨rfl, _⟩ := Prod.mk.inj (Option.some.inj h)
    have hrow : row kernel g t * p.N ≤ (p.M - 1) * p.N := by
      apply mul_le_mul_of_nonneg_right _ (Int.natCast_nonneg _)
      omega
    have hsplit : ((p.M : ℤ) - 1) * p.N + p.N = p.M * p.N := by ring
    omega
  · cases h

theorem single_of_written {Z : ℕ} (h : WritesBatches kernel p Z) : Z ≤ 1 := by
  by_contra hZ
  obtain ⟨grid, hgrid⟩ := h
  obtain ⟨i, hin, layer, _, g, _, _, t, _, v, hs⟩ :=
    hgrid (fun _ _ => .sequential fun _ => 0) 1 (by omega)
  have hlow : (p.M : ℤ) * p.N ≤ i := by simpa using hin.1
  exact absurd (stored_lt hs) (not_lt.mpr hlow)

theorem first_stored (ht : (⟨0, 0⟩ : Thread) ∈ groupThreads kernel) (hM : 1 ≤ p.M)
    (hN : 1 ≤ p.N) : WritesBatches kernel p 1 := by
  refine ⟨⟨1, 1, 1⟩, ?_⟩
  intro e z hz
  obtain rfl : z = 0 := by omega
  have hcorner : row kernel ⟨0, 0⟩ ⟨0, 0⟩ = 0 ∧ col kernel ⟨0, 0⟩ ⟨0, 0⟩ = 0 := by
    simp [row, col]
  have hinside : (0 : ℤ) < p.M ∧ (0 : ℤ) < p.N := by omega
  refine ⟨0, ⟨by simp, ?_⟩, 0, by simp, ⟨0, 0⟩, by simp, by simp, ⟨0, 0⟩, ht,
    kernel.epilogue ((e 0).accumulated ⟨0, 0⟩ ⟨0, 0⟩), ?_⟩
  · simpa using mul_pos hinside.1 hinside.2
  · rw [Execution.stored, finish, hcorner.1, hcorner.2, if_pos hinside, zero_mul, add_zero]

end Batches

section BackEnds

variable {F : Type} [DebugText F] {V : Type} [Field V] [LinearOrder V]

omit [DebugText F] in
theorem corner_runs (b : BackEnd) (library : MathLibrary V) {k : MatMulKernel}
    (h : k.localSize = b.dialect.matMulBlock) :
    (⟨0, 0⟩ : Thread) ∈ groupThreads (b.kernel library k) := by
  rw [mem_groupThreads]
  cases b with
  | amdGpu | metal | spirv =>
    change 0 < k.localSize.x.toNat ∧ 0 < k.localSize.y.toNat
    rw [h]
    decide

/-- Every generator lowers a batched product to a kernel for a single one. -/
theorem batches_written_iff (b : BackEnd) (op : OmniOp F) (hk : op.kind = .batchedMatMul) :
    ∃ k, Emits b.dialect op k ∧
      ∀ (V : Type) [Field V] [LinearOrder V] (library : MathLibrary V) (p : Problem V) (Z : ℕ),
        1 ≤ Z → 1 ≤ p.M → 1 ≤ p.N → 1 ≤ p.K →
          (WritesBatches (b.kernel library k) p Z ↔ Z = 1) := by
  refine ⟨_, lower_matMul b.dialect (by rw [hk]; rfl), ?_⟩
  intro V _ _ library p Z hZ hM hN _
  constructor
  · intro h
    exact le_antisymm (single_of_written h) hZ
  · rintro rfl
    exact first_stored (corner_runs b library rfl) hM hN

def pairProduct : OmniOp ℚ := ⟨0, .batchedMatMul, ["x", "w"], "y", ∅, .dynamic 3 .f32⟩

theorem batches_written_iff_pairProduct :
    ∃ k, Emits BackEnd.metal.dialect pairProduct k ∧
      ∀ (V : Type) [Field V] [LinearOrder V] (library : MathLibrary V) (p : Problem V) (Z : ℕ),
        1 ≤ Z → 1 ≤ p.M → 1 ≤ p.N → 1 ≤ p.K →
          (WritesBatches (BackEnd.metal.kernel library k) p Z ↔ Z = 1) :=
  batches_written_iff .metal pairProduct rfl

theorem second_batch_missing :
    (∃ k, Emits BackEnd.amdGpu.dialect pairProduct k ∧ ∀ library : MathLibrary ℚ,
      ¬ WritesBatches (BackEnd.amdGpu.kernel library k) ⟨1, 1, 1, fun _ => 1, fun _ => 1⟩ 2) ∧
    (∃ k, Emits BackEnd.metal.dialect pairProduct k ∧ ∀ library : MathLibrary ℚ,
      ¬ WritesBatches (BackEnd.metal.kernel library k) ⟨1, 1, 1, fun _ => 1, fun _ => 1⟩ 2) ∧
    (∃ k, Emits BackEnd.spirv.dialect pairProduct k ∧ ∀ library : MathLibrary ℚ,
      ¬ WritesBatches (BackEnd.spirv.kernel library k) ⟨1, 1, 1, fun _ => 1, fun _ => 1⟩ 2) := by
  have hlost : ∀ b : BackEnd, ∃ k, Emits b.dialect pairProduct k ∧ ∀ library : MathLibrary ℚ,
      ¬ WritesBatches (b.kernel library k) ⟨1, 1, 1, fun _ => 1, fun _ => 1⟩ 2 := by
    intro b
    refine ⟨_, lower_matMul b.dialect rfl, ?_⟩
    intro library h
    exact absurd (single_of_written h) (by decide)
  exact ⟨hlost _, hlost _, hlost _⟩

end BackEnds

end BatchedLowering
