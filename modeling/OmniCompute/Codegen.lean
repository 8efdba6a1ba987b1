import OmniCompute.OmniDialect

/-! The interface of the code generators and the loop they share. A dialect collects what the
three generators do differently: texts, type names, default tiles and block sizes. -/
namespace Codegen

open RustValues OmniDialect

structure BlockSize where
  x : UInt32
  y : UInt32
  z : UInt32
  deriving DecidableEq, Repr

/-- A payload is the bytes of the source text. -/
structure GeneratedKernel where
  name : String
  payload : ByteArray
  blockSize : BlockSize

structure MatMulKernel where
  datatype : String
  tileM : Int64
  tileN : Int64
  tileK : Int64
  localSize : BlockSize
  activation : Option String
  deriving DecidableEq

/-- One kernel of a payload, before it is written out. -/
inductive KernelSource where
  | matMul (kernel : MatMulKernel)
  | relu (datatype : String)
  | add (datatype : String)
  | fallback (ptxHash : UInt64)
  deriving DecidableEq

structure Dialect where
  /-- The name in front of error messages. -/
  generator : String
  header : String
  datatype : ElementType → String
  defaultTile : Int64
  defaultBlock : BlockSize
  matMulBlock : BlockSize
  /-- The block size of the other kernels, where the generator sets one. -/
  flatBlock : Option BlockSize
  text : String → KernelSource → String

def lines (texts : List String) : String := String.join (texts.map fun t => t ++ "\n")

variable {F : Type}

/-- `op.attrs.get(key)` as an integer, or the default for anything else. -/
def intAttr (op : OmniOp F) (key : String) (default : Int64) : Int64 :=
  match op.attrs.lookup key with
  | some (.int v) => v
  | _ => default

def fusedActivation (op : OmniOp F) : Option String :=
  match op.attrs.lookup "fused_activation" with
  | some (.string act) => some act
  | _ => none

def KernelSource.entryPoint (id : UInt64) : KernelSource → String
  | .matMul _ => "omni_matmul_" ++ toString id
  | .relu _ => "omni_relu_" ++ toString id
  | .add _ => "omni_add_" ++ toString id
  | .fallback _ => "omni_fallback_" ++ toString id

def Dialect.blockSize (d : Dialect) (current : BlockSize) : KernelSource → BlockSize
  | .matMul _ => d.matMulBlock
  | _ => d.flatBlock.getD current

variable [DebugText F] (d : Dialect)

def Dialect.unsupported (kind : OpKind F) : Failure :=
  .error (d.generator ++ ": operation kind " ++ kind.debug ++ " not yet implemented")

/-- The `match` over the kind of an operation. -/
def Dialect.lower (op : OmniOp F) : Result KernelSource :=
  let datatype := d.datatype op.resultType.elementType
  let matMul := KernelSource.matMul
    { datatype
      tileM := intAttr op "tile_m" d.defaultTile
      tileN := intAttr op "tile_n" d.defaultTile
      tileK := intAttr op "tile_k" 16
      localSize := d.matMulBlock
      activation := fusedActivation op }
  match op.kind with
  | .matMul => .ok matMul
  | .batchedMatMul => .ok matMul
  | .relu => .ok (.relu datatype)
  | .add => .ok (.add datatype)
  | .opaqueOp ptxHash => .ok (.fallback ptxHash)
  | kind => .error (d.unsupported kind)

def lowerable : OpKind F → Bool
  | .matMul | .batchedMatMul | .relu | .add | .opaqueOp _ => true
  | _ => false

theorem lower_fallback {op : OmniOp F} {ptxHash : UInt64} (h : op.kind = .opaqueOp ptxHash) :
    d.lower op = .ok (.fallback ptxHash) := by
  rw [Dialect.lower, h]

theorem lower_unsupported {op : OmniOp F} (h : lowerable op.kind = false) :
    d.lower op = .error (d.unsupported op.kind) := by
  rw [Dialect.lower]
  split <;> simp_all [lowerable]

theorem lower_cases {op : OmniOp F} {source : KernelSource} (h : d.lower op = .ok source) :
    (op.kind.isMatMul = true ∧ ∃ k : MatMulKernel, source = .matMul k ∧
      k.datatype = d.datatype op.resultType.elementType) ∨
    (op.kind = .relu ∧ source = .relu (d.datatype op.resultType.elementType)) ∨
    (op.kind = .add ∧ source = .add (d.datatype op.resultType.elementType)) ∨
    ∃ ptxHash, op.kind = .opaqueOp ptxHash ∧ source = .fallback ptxHash := by
  simp only [Dialect.lower] at h
  split at h
  case h_1 hk => exact .inl ⟨by rw [hk]; rfl, _, (Except.ok.inj h).symm, rfl⟩
  case h_2 hk => exact .inl ⟨by rw [hk]; rfl, _, (Except.ok.inj h).symm, rfl⟩
  case h_3 hk => exact .inr (.inl ⟨hk, (Except.ok.inj h).symm⟩)
  case h_4 hk => exact .inr (.inr (.inl ⟨hk, (Except.ok.inj h).symm⟩))
  case h_5 hk => exact .inr (.inr (.inr ⟨_, hk, (Except.ok.inj h).symm⟩))
  case h_6 => cases h

/-- The mutable variables of `generate`. -/
structure Output where
  code : String
  kernelName : String
  blockSize : BlockSize

def Dialect.start : Output := ⟨d.header, "omni_kernel", d.defaultBlock⟩

def Dialect.emit (out : Output) (op : OmniOp F) : Result Output := do
  let source ← d.lower op
  let name := source.entryPoint op.id
  .ok ⟨out.code ++ d.text name source, name, d.blockSize out.blockSize source⟩

def Dialect.generate (m : OmniModule F) : Result GeneratedKernel := do
  let out ← m.ops.foldlM d.emit d.start
  .ok ⟨out.kernelName, out.code.toUTF8, out.blockSize⟩

def Dialect.single (id : UInt64) (source : KernelSource) : GeneratedKernel :=
  ⟨source.entryPoint id, (d.header ++ d.text (source.entryPoint id) source).toUTF8,
    d.blockSize d.defaultBlock source⟩

theorem generate_single {m : OmniModule F} {op : OmniOp F} (h : m.ops = [op]) :
    d.generate m = (d.lower op).map (d.single op.id) := by
  rw [Dialect.generate, h, List.foldlM_cons, Dialect.emit]
  cases d.lower op <;> rfl

end Codegen
