import OmniCompute.AmdGpuCodegen
import OmniCompute.MetalCodegen
import OmniCompute.SpirvCodegen
import Mathlib.Tactic.Ring

/-! The three back ends under one name: which operations they lower, and what the endings of
their product kernels compute. -/
namespace BackEnds

open RustValues OmniDialect Codegen TiledKernel

inductive BackEnd where
  | amdGpu
  | metal
  | spirv
  deriving DecidableEq, Repr

namespace BackEnd

def dialect : BackEnd → Dialect
  | .amdGpu => AmdGpuCodegen.dialect
  | .metal => MetalCodegen.dialect
  | .spirv => SpirvCodegen.dialect

def generate {F : Type} [DebugText F] : BackEnd → OmniModule F → Result GeneratedKernel
  | .amdGpu => AmdGpuCodegen.generate
  | .metal => MetalCodegen.generate
  | .spirv => SpirvCodegen.generate

theorem generate_eq {F : Type} [DebugText F] (b : BackEnd) (m : OmniModule F) :
    b.generate m = b.dialect.generate m := by
  cases b <;> rfl

section Endings

variable {V : Type} [Field V] [LinearOrder V] (library : MathLibrary V)

def activate : BackEnd → Option String → V → V
  | .amdGpu => AmdGpuCodegen.activate library
  | .metal => MetalCodegen.activate library
  | .spirv => SpirvCodegen.activate library

def kernel : BackEnd → MatMulKernel → Kernel V
  | .amdGpu => AmdGpuCodegen.kernel library
  | .metal => MetalCodegen.kernel library
  | .spirv => SpirvCodegen.kernel library

theorem kernel_epilogue (b : BackEnd) (k : MatMulKernel) :
    (b.kernel library k).epilogue = b.activate library k.activation := by
  cases b <;> rfl

theorem activate_relu (b : BackEnd) (sum : V) :
    b.activate library (some "Relu") sum = max sum 0 := by
  cases b with
  | amdGpu =>
    change (if 0 < sum then sum else 0) = max sum 0
    split
    · rename_i h
      exact (max_eq_left h.le).symm
    · rename_i h
      exact (max_eq_right (not_lt.mp h)).symm
  | metal => rfl
  | spirv => rfl

theorem activate_gelu (b : BackEnd) (sum : V) :
    b.activate library (some "Gelu") sum =
      sum * ((1 + library.erf (sum * rsqrtTwo)) * half) := by
  have h : b.activate library (some "Gelu") sum =
      sum * half * (1 + library.erf (sum * rsqrtTwo)) := by
    cases b <;> rfl
  rw [h]
  ring

theorem activate_silu (b : BackEnd) (sum : V) :
    b.activate library (some "Silu") sum = sum * (1 + library.exp (-sum))⁻¹ := by
  have h : b.activate library (some "Silu") sum = sum / (1 + library.exp (-sum)) := by
    cases b <;> rfl
  rw [h, div_eq_mul_inv]

/-- No ending mentions an addition: the text falls through to the silent default. -/
theorem activate_add (b : BackEnd) (sum : V) : b.activate library (some "Add") sum = sum := by
  cases b <;> rfl

end Endings

end BackEnd

end BackEnds
