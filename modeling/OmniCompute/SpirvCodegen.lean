import OmniCompute.TiledKernel

/-! The Vulkan back end: GLSL text, and what its matrix product kernel does when run. The
local size is part of the text, and every kernel sets the block size. -/
namespace SpirvCodegen

open RustValues OmniDialect Codegen TiledKernel

def header : String :=
  lines ["#version 450 core",
    "#extension GL_EXT_shader_explicit_arithmetic_types_float16 : enable",
    "#extension GL_EXT_shader_explicit_arithmetic_types_int64 : enable",
    ""]

/-- `map_element_type`. -/
def datatype : ElementType → String
  | .u8 => "uint"
  | .i8 => "int"
  | .i16 => "int"
  | .i32 => "int"
  | .i64 => "int64_t"
  | .f16 => "float16_t"
  | .bf16 => "float16_t"
  | .f32 => "float"
  | .f64 => "double"
  | _ => "float"

def activationLine : String → String
  | "Relu" => "\t\tsum = max(sum, float16_t(0.0));\n"
  | "Gelu" =>
    "\t\tsum = sum * float16_t(0.5) * (float16_t(1.0) + erf(sum * float16_t(0.70710678)));\n"
  | "Silu" => "\t\tsum = sum / (float16_t(1.0) + exp(-sum));\n"
  | _ => ""

def matMulText (k : MatMulKernel) : String :=
  lines ["layout(local_size_x = " ++ toString k.localSize.x ++ ", local_size_y = " ++
      toString k.localSize.y ++ ", local_size_z = 1) in;",
    "",
    "layout(std430, binding = 0) readonly buffer BufferA \x7b " ++ k.datatype ++ " A[]; \x7d;",
    "layout(std430, binding = 1) readonly buffer BufferB \x7b " ++ k.datatype ++ " B[]; \x7d;",
    "layout(std430, binding = 2) writeonly buffer BufferC \x7b " ++ k.datatype ++ " C[]; \x7d;",
    "",
    "layout(push_constant) uniform Params \x7b",
    "\tint M; int N; int K;",
    "\x7d params;",
    "",
    "shared " ++ k.datatype ++ " sA[" ++ toString k.tileM ++ "][" ++ toString k.tileK ++ "];",
    "shared " ++ k.datatype ++ " sB[" ++ toString k.tileK ++ "][" ++ toString k.tileN ++ "];",
    "",
    "void main() \x7b",
    "\tint tx = int(gl_LocalInvocationID.x);",
    "\tint ty = int(gl_LocalInvocationID.y);",
    "\tint row = int(gl_WorkGroupID.y) * " ++ toString k.tileM ++ " + ty;",
    "\tint col = int(gl_WorkGroupID.x) * " ++ toString k.tileN ++ " + tx;",
    "",
    "\t" ++ k.datatype ++ " sum = " ++ k.datatype ++ "(0.0);",
    "",
    "\tfor (int ph = 0; ph < (params.K + " ++ toString k.tileK ++ " - 1) / " ++
      toString k.tileK ++ "; ++ph) \x7b",
    "\t\tif (row < params.M && ph * " ++ toString k.tileK ++ " + tx < params.K) \x7b",
    "\t\t\tsA[ty][tx] = A[row * params.K + ph * " ++ toString k.tileK ++ " + tx];",
    "\t\t\x7d else \x7b",
    "\t\t\tsA[ty][tx] = " ++ k.datatype ++ "(0.0);",
    "\t\t\x7d",
    "",
    "\t\tif (ph * " ++ toString k.tileK ++ " + ty < params.K && col < params.N) \x7b",
    "\t\t\tsB[ty][tx] = B[(ph * " ++ toString k.tileK ++ " + ty) * params.N + col];",
    "\t\t\x7d else \x7b",
    "\t\t\tsB[ty][tx] = " ++ k.datatype ++ "(0.0);",
    "\t\t\x7d",
    "",
    "\t\tbarrier();",
    "",
    "\t\tfor (int k = 0; k < " ++ toString k.tileK ++ "; ++k) \x7b",
    "\t\t\tsum += sA[ty][k] * sB[k][tx];",
    "\t\t\x7d",
    "",
    "\t\tbarrier();",
    "\t\x7d",
    "",
    "\tif (row < params.M && col < params.N) \x7b"] ++
  (k.activation.map activationLine).getD "" ++
  lines ["\t\tC[row * params.N + col] = sum;",
    "\t\x7d",
    "\x7d"]

def reluText (datatype : String) : String :=
  lines ["layout(local_size_x = 256, local_size_y = 1, local_size_z = 1) in;",
    "",
    "layout(std430, binding = 0) readonly buffer BufferX \x7b " ++ datatype ++ " x[]; \x7d;",
    "layout(std430, binding = 1) writeonly buffer BufferY \x7b " ++ datatype ++ " y[]; \x7d;",
    "",
    "layout(push_constant) uniform Params \x7b int n; \x7d params;",
    "",
    "void main() \x7b",
    "\tint idx = int(gl_GlobalInvocationID.x);",
    "\tif (idx < params.n) \x7b",
    "\t\ty[idx] = max(x[idx], " ++ datatype ++ "(0.0));",
    "\t\x7d",
    "\x7d"]

def addText (datatype : String) : String :=
  lines ["layout(local_size_x = 256, local_size_y = 1, local_size_z = 1) in;",
    "",
    "layout(std430, binding = 0) readonly buffer BufferA \x7b " ++ datatype ++ " a[]; \x7d;",
    "layout(std430, binding = 1) readonly buffer BufferB \x7b " ++ datatype ++ " b[]; \x7d;",
    "layout(std430, binding = 2) writeonly buffer BufferC \x7b " ++ datatype ++ " c[]; \x7d;",
    "",
    "layout(push_constant) uniform Params \x7b int n; \x7d params;",
    "",
    "void main() \x7b",
    "\tint idx = int(gl_GlobalInvocationID.x);",
    "\tif (idx < params.n) \x7b",
    "\t\tc[idx] = a[idx] + b[idx];",
    "\t\x7d",
    "\x7d"]

def fallbackText (ptxHash : UInt64) : String :=
  lines ["// Fallback opaque block for PTX hash: 0x" ++ lowerHex ptxHash,
    "layout(local_size_x = 256, local_size_y = 1, local_size_z = 1) in;",
    "layout(std430, binding = 0) readonly buffer BufferIn \x7b float A[]; \x7d;",
    "layout(std430, binding = 1) writeonly buffer BufferOut \x7b float B[]; \x7d;",
    "layout(push_constant) uniform Params \x7b int n; \x7d params;",
    "",
    "void main() \x7b",
    "\tint idx = int(gl_GlobalInvocationID.x);",
    "\tif (idx < params.n) B[idx] = A[idx];",
    "\x7d"]

/-- The entry point of every GLSL kernel is `main`. -/
def text (_name : String) : KernelSource → String
  | .matMul k => matMulText k
  | .relu datatype => reluText datatype
  | .add datatype => addText datatype
  | .fallback ptxHash => fallbackText ptxHash

def dialect : Dialect where
  generator := "SpirvCodegen"
  header := header
  datatype := datatype
  defaultTile := 16
  defaultBlock := ⟨16, 16, 1⟩
  matMulBlock := ⟨16, 16, 1⟩
  flatBlock := some ⟨256, 1, 1⟩
  text := text

def generate {F : Type} [DebugText F] (m : OmniModule F) : Result GeneratedKernel :=
  dialect.generate m

section Semantics

variable {V : Type} [Field V] [LinearOrder V]

def activate (library : MathLibrary V) (activation : Option String) (sum : V) : V :=
  match activation with
  | some "Relu" => max sum 0
  | some "Gelu" => sum * half * (1 + library.erf (sum * rsqrtTwo))
  | some "Silu" => sum / (1 + library.exp (-sum))
  | _ => sum

def kernel (library : MathLibrary V) (k : MatMulKernel) : Kernel V :=
  .ofTemplate k .nested (activate library k.activation)

end Semantics

end SpirvCodegen
