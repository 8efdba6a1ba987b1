import OmniCompute.TiledKernel

/-! The AMD back end: HIP C++ text, and what its matrix product kernel does when run. The
thread block of a product is 8 x 8 whatever the tiles are. -/
namespace AmdGpuCodegen

open RustValues OmniDialect Codegen TiledKernel

def header : String :=
  lines ["// Auto-generated by OmniCompute AMD GPU backend",
    "#include <hip/hip_runtime.h>",
    "#include <hip/hip_fp16.h>",
    ""]

/-- `map_element_type`. -/
def datatype : ElementType → String
  | .u8 => "unsigned char"
  | .i8 => "char"
  | .i16 => "short"
  | .i32 => "int"
  | .i64 => "long long"
  | .f16 => "__half"
  | .bf16 => "hip_bfloat16"
  | .f32 => "float"
  | .f64 => "double"
  | _ => "float"

def activationLine : String → String
  | "Relu" => "\t\tsum = sum > 0.0f ? sum : 0.0f;\n"
  | "Gelu" => "\t\tsum = sum * 0.5f * (1.0f + erf(sum * 0.70710678f));\n"
  | "Silu" => "\t\tsum = sum / (1.0f + exp(-sum));\n"
  | _ => ""

def matMulText (name : String) (k : MatMulKernel) : String :=
  lines ["extern \"C\" __global__ void " ++ name ++ "(",
    "\tconst " ++ k.datatype ++ "* __restrict__ A,",
    "\tconst " ++ k.datatype ++ "* __restrict__ B,",
    "\t" ++ k.datatype ++ "* __restrict__ C,",
    "\tint M, int N, int K",
    ") \x7b",
    "\t// Tiled shared memory allocations",
    "\t__shared__ " ++ k.datatype ++ " sA[" ++ toString k.tileM ++ "][" ++ toString k.tileK ++ "];",
    "\t__shared__ " ++ k.datatype ++ " sB[" ++ toString k.tileK ++ "][" ++ toString k.tileN ++ "];",
    "",
    "\tint tx = threadIdx.x;",
    "\tint ty = threadIdx.y;",
    "\tint row = blockIdx.y * " ++ toString k.tileM ++ " + ty;",
    "\tint col = blockIdx.x * " ++ toString k.tileN ++ " + tx;",
    "",
    "\t" ++ k.datatype ++ " sum = 0.0f;",
    "",
    "\tfor (int ph = 0; ph < (K + " ++ toString k.tileK ++ " - 1) / " ++ toString k.tileK ++
      "; ++ph) \x7b",
    "\t\t// Cooperative load into SRAM / Shared Memory",
    "\t\tif (row < M && ph * " ++ toString k.tileK ++
      " + tx < K) sA[ty][tx] = A[row * K + ph * " ++ toString k.tileK ++ " + tx];",
    "\t\telse sA[ty][tx] = 0.0f;",
    "",
    "\t\tif (ph * " ++ toString k.tileK ++ " + ty < K && col < N) sB[ty][tx] = B[(ph * " ++
      toString k.tileK ++ " + ty) * N + col];",
    "\t\telse sB[ty][tx] = 0.0f;",
    "",
    "\t\t__syncthreads();",
    "",
    "\t\t// Matrix Multiply on Tiles",
    "\t\t#pragma unroll",
    "\t\tfor (int k = 0; k < " ++ toString k.tileK ++ "; ++k) \x7b",
    "\t\t\tsum += sA[ty][k] * sB[k][tx];",
    "\t\t\x7d",
    "\t\t__syncthreads();",
    "\t\x7d",
    "",
    "\tif (row < M && col < N) \x7b"] ++
  (k.activation.map activationLine).getD "" ++
  lines ["\t\tC[row * N + col] = sum;",
    "\t\x7d",
    "\x7d"]

def reluText (name datatype : String) : String :=
  lines ["extern \"C\" __global__ void " ++ name ++ "(const " ++ datatype ++ "* x, " ++ datatype ++
      "* y, int n) \x7b",
    "\tint idx = blockIdx.x * blockDim.x + threadIdx.x;",
    "\tif (idx < n) \x7b",
    "\t\ty[idx] = x[idx] > 0.0f ? x[idx] : 0.0f;",
    "\t\x7d",
    "\x7d"]

def addText (name datatype : String) : String :=
  lines ["extern \"C\" __global__ void " ++ name ++ "(const " ++ datatype ++ "* a, const " ++
      datatype ++ "* b, " ++ datatype ++ "* c, int n) \x7b",
    "\tint idx = blockIdx.x * blockDim.x + threadIdx.x;",
    "\tif (idx < n) \x7b",
    "\t\tc[idx] = a[idx] + b[idx];",
    "\t\x7d",
    "\x7d"]

def fallbackText (name : String) (ptxHash : UInt64) : String :=
  lines ["// Fallback opaque block for PTX hash: 0x" ++ lowerHex ptxHash,
    "extern \"C\" __global__ void " ++ name ++ "(const float* in, float* out, int n) \x7b",
    "\t// AMD HIP fallback execution logic",
    "\tint idx = blockIdx.x * blockDim.x + threadIdx.x;",
    "\tif (idx < n) out[idx] = in[idx];",
    "\x7d"]

def text (name : String) : KernelSource → String
  | .matMul k => matMulText name k
  | .relu datatype => reluText name datatype
  | .add datatype => addText name datatype
  | .fallback ptxHash => fallbackText name ptxHash

def dialect : Dialect where
  generator := "AmdGpuCodegen"
  header := header
  datatype := datatype
  defaultTile := 64
  defaultBlock := ⟨64, 1, 1⟩
  matMulBlock := ⟨8, 8, 1⟩
  flatBlock := none
  text := text

def generate {F : Type} [DebugText F] (m : OmniModule F) : Result GeneratedKernel :=
  dialect.generate m

section Semantics

variable {V : Type} [Field V] [LinearOrder V]

def activate (library : MathLibrary V) (activation : Option String) (sum : V) : V :=
  match activation with
  | some "Relu" => if 0 < sum then sum else 0
  | some "Gelu" => sum * half * (1 + library.erf (sum * rsqrtTwo))
  | some "Silu" => sum / (1 + library.exp (-sum))
  | _ => sum

def kernel (library : MathLibrary V) (k : MatMulKernel) : Kernel V :=
  .ofTemplate k .nested (activate library k.activation)

end Semantics

end AmdGpuCodegen
