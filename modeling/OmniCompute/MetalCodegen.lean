import OmniCompute.TiledKernel

/-! The Metal back end: MSL text, and what its matrix product kernel does when run. Shared
arrays are flat threadgroup buffers, indexed with the tile sizes. -/
namespace MetalCodegen

open RustValues OmniDialect Codegen TiledKernel

def header : String :=
  lines ["// Auto-generated by OmniCompute Metal backend",
    "#include <metal_stdlib>",
    "using namespace metal;",
    ""]

/-- `map_element_type`. -/
def datatype : ElementType → String
  | .u8 => "uchar"
  | .i8 => "char"
  | .i16 => "short"
  | .i32 => "int"
  | .i64 => "long"
  | .f16 => "half"
  | .bf16 => "half"
  | .f32 => "float"
  | .f64 => "double"
  | _ => "float"

def activationLine : String → String
  | "Relu" => "\t\tsum = max(sum, 0.0f);\n"
  | "Gelu" => "\t\tsum = sum * 0.5f * (1.0f + precise::erf(sum * 0.70710678f));\n"
  | "Silu" => "\t\tsum = sum / (1.0f + precise::exp(-sum));\n"
  | _ => ""

def matMulText (name : String) (k : MatMulKernel) : String :=
  lines ["kernel void " ++ name ++ "(",
    "\tdevice const " ++ k.datatype ++ "* A [[buffer(0)]],",
    "\tdevice const " ++ k.datatype ++ "* B [[buffer(1)]],",
    "\tdevice " ++ k.datatype ++ "* C [[buffer(2)]],",
    "\tconstant int& M [[buffer(3)]],",
    "\tconstant int& N [[buffer(4)]],",
    "\tconstant int& K [[buffer(5)]],",
    "\tthreadgroup " ++ k.datatype ++ "* sA [[threadgroup(0)]],",
    "\tthreadgroup " ++ k.datatype ++ "* sB [[threadgroup(1)]],",
    "\tuint2 threadgroup_position_in_grid [[threadgroup_position_in_grid]],",
    "\tuint2 thread_position_in_threadgroup [[thread_position_in_threadgroup]],",
    "\tuint2 thread_position_in_grid [[thread_position_in_grid]]",
    ") \x7b",
    "\tint tx = thread_position_in_threadgroup.x;",
    "\tint ty = thread_position_in_threadgroup.y;",
    "\tint row = threadgroup_position_in_grid.y * " ++ toString k.tileM ++ " + ty;",
    "\tint col = threadgroup_position_in_grid.x * " ++ toString k.tileN ++ " + tx;",
    "",
    "\t" ++ k.datatype ++ " sum = 0.0;",
    "",
    "\tfor (int ph = 0; ph < (K + " ++ toString k.tileK ++ " - 1) / " ++ toString k.tileK ++
      "; ++ph) \x7b",
    "\t\t// Tiled cooperative load into threadgroup local cache",
    "\t\tif (row < M && ph * " ++ toString k.tileK ++ " + tx < K) sA[ty * " ++ toString k.tileK ++
      " + tx] = A[row * K + ph * " ++ toString k.tileK ++ " + tx];",
    "\t\telse sA[ty * " ++ toString k.tileK ++ " + tx] = 0.0;",
    "",
    "\t\tif (ph * " ++ toString k.tileK ++ " + ty < K && col < N) sB[ty * " ++ toString k.tileN ++
      " + tx] = B[(ph * " ++ toString k.tileK ++ " + ty) * N + col];",
    "\t\telse sB[ty * " ++ toString k.tileN ++ " + tx] = 0.0;",
    "",
    "\t\tthreadgroup_barrier(mem_flags::mem_threadgroup);",
    "",
    "\t\t#pragma unroll",
    "\t\tfor (int k = 0; k < " ++ toString k.tileK ++ "; ++k) \x7b",
    "\t\t\tsum += sA[ty * " ++ toString k.tileK ++ " + k] * sB[k * " ++ toString k.tileN ++
      " + tx];",
    "\t\t\x7d",
    "\t\tthreadgroup_barrier(mem_flags::mem_threadgroup);",
    "\t\x7d",
    "",
    "\tif (row < M && col < N) \x7b"] ++
  (k.activation.map activationLine).getD "" ++
  lines ["\t\tC[row * N + col] = sum;",
    "\t\x7d",
    "\x7d"]

def reluText (name datatype : String) : String :=
  lines ["kernel void " ++ name ++ "(",
    "\tdevice const " ++ datatype ++ "* x [[buffer(0)]],",
    "\tdevice " ++ datatype ++ "* y [[buffer(1)]],",
    "\tconstant int& n [[buffer(2)]],",
    "\tuint idx [[thread_position_in_grid]]",
    ") \x7b",
    "\tif (idx < uint(n)) \x7b",
    "\t\ty[idx] = max(x[idx], " ++ datatype ++ "(0.0));",
    "\t\x7d",
    "\x7d"]

def addText (name datatype : String) : String :=
  lines ["kernel void " ++ name ++ "(",
    "\tdevice const " ++ datatype ++ "* a [[buffer(0)]],",
    "\tdevice const " ++ datatype ++ "* b [[buffer(1)]],",
    "\tdevice " ++ datatype ++ "* c [[buffer(2)]],",
    "\tconstant int& n [[buffer(3)]],",
    "\tuint idx [[thread_position_in_grid]]",
    ") \x7b",
    "\tif (idx < uint(n)) \x7b",
    "\t\tc[idx] = a[idx] + b[idx];",
    "\t\x7d",
    "\x7d"]

def fallbackText (name : String) (ptxHash : UInt64) : String :=
  lines ["// Fallback opaque block for PTX hash: 0x" ++ lowerHex ptxHash,
    "kernel void " ++ name ++ "(",
    "\tdevice const float* in [[buffer(0)]],",
    "\tdevice float* out [[buffer(1)]],",
    "\tconstant int& n [[buffer(2)]],",
    "\tuint idx [[thread_position_in_grid]]",
    ") \x7b",
    "\tif (idx < uint(n)) out[idx] = in[idx];",
    "\x7d"]

def text (name : String) : KernelSource → String
  | .matMul k => matMulText name k
  | .relu datatype => reluText name datatype
  | .add datatype => addText name datatype
  | .fallback ptxHash => fallbackText name ptxHash

def dialect : Dialect where
  generator := "MetalCodegen"
  header := header
  datatype := datatype
  defaultTile := 32
  defaultBlock := ⟨32, 1, 1⟩
  matMulBlock := ⟨8, 8, 1⟩
  flatBlock := none
  text := text

def generate {F : Type} [DebugText F] (m : OmniModule F) : Result GeneratedKernel :=
  dialect.generate m

section Semantics

variable {V : Type} [Field V] [LinearOrder V]

def activate (library : MathLibrary V) (activation : Option String) (sum : V) : V :=
  match activation with
  | some "Relu" => max sum 0
  | some "Gelu" => sum * half * (1 + library.erf (sum * rsqrtTwo))
  | some "Silu" => sum / (1 + library.exp (-sum))
  | _ => sum

def kernel (library : MathLibrary V) (k : MatMulKernel) : Kernel V :=
  .ofTemplate k .flat (activate library k.activation)

end Semantics

end MetalCodegen
