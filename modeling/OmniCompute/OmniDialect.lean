import OmniCompute.RustValues

/-! The `omni.tensor` dialect: element and tensor types, operations and modules.
`F` is the reading of `f64`: exact numbers for what a module computes, words for its bytes. -/
namespace OmniDialect

open RustValues

inductive ElementType where
  | u8 | i8 | i16 | i32 | i64 | f16 | bf16 | f32 | f64 | f8e4m3 | bool | opaqueType
  deriving DecidableEq, Repr

def ElementType.byteWidth : ElementType → UInt64
  | .u8 | .i8 | .bool | .f8e4m3 => 1
  | .i16 | .f16 | .bf16 => 2
  | .i32 | .f32 => 4
  | .i64 | .f64 => 8
  | .opaqueType => 0

inductive MemoryEncoding where
  | rowMajor
  | columnMajor
  | tiled (tileShape : List Int64)
  | sparse
  deriving DecidableEq

structure TensorType where
  shape : List (Option Int64)
  elementType : ElementType
  encoding : MemoryEncoding
  deriving DecidableEq

def TensorType.staticTensor (shape : List Int64) (elementType : ElementType) : TensorType :=
  ⟨shape.map some, elementType, .rowMajor⟩

def TensorType.dynamic (rank : ℕ) (elementType : ElementType) : TensorType :=
  ⟨List.replicate rank none, elementType, .rowMajor⟩

def TensorType.numElements (t : TensorType) : Option Int64 :=
  t.shape.foldlM (fun acc dim => dim.map fun d => acc * d) 1

def TensorType.byteSize (t : TensorType) : Option UInt64 :=
  t.numElements.map fun n => n.toUInt64 * t.elementType.byteWidth

inductive UnaryFunc where
  | exp | log | sqrt | rsqrt | abs | neg | ceil | floor | round | cos | sin | tan | erf
  deriving DecidableEq, Repr

inductive BinaryFunc where
  | pow | max | min | mod | atan2
  deriving DecidableEq, Repr

inductive OpKind (F : Type) where
  | matMul
  | batchedMatMul
  | gemv
  | conv (numSpatialDims : UInt64)
  | convTranspose (numSpatialDims : UInt64)
  | depthwiseConv
  | scaledDotProductAttention (causal : Bool)
  | multiHeadAttention (numHeads : UInt32)
  | add
  | mul
  | div
  | sub
  | unaryFunc (func : UnaryFunc)
  | binaryFunc (func : BinaryFunc)
  | relu
  | sigmoid
  | tanh
  | gelu
  | silu
  | softmax (axis : Int32)
  | layerNorm (eps : F)
  | groupNorm (numGroups : UInt32) (eps : F)
  | rmsNorm (eps : F)
  | reduceSum (axes : List Int32) (keepDims : Bool)
  | reduceMean (axes : List Int32) (keepDims : Bool)
  | reduceMax (axes : List Int32) (keepDims : Bool)
  | reshape
  | transpose (perm : List UInt32)
  | concat (axis : Int32)
  | split (axis : Int32) (splitSizes : List Int64)
  | broadcast
  | gather (axis : Int32)
  | scatter (axis : Int32)
  | memCopy
  | fill (value : F)
  | opaqueOp (ptxHash : UInt64)
  deriving DecidableEq

inductive AttrValue (F : Type) where
  | int (value : Int64)
  | float (value : F)
  | bool (value : Bool)
  | string (value : String)
  | intList (values : List Int64)
  deriving DecidableEq

structure OmniOp (F : Type) where
  id : UInt64
  kind : OpKind F
  inputs : List String
  output : String
  attrs : HashMap String (AttrValue F)
  resultType : TensorType

structure OmniModule (F : Type) where
  ops : List (OmniOp F)
  valueTypes : HashMap String TensorType
  attrs : HashMap String (AttrValue F)
  nextId : UInt64

variable {F : Type}

def OmniModule.new : OmniModule F := ⟨[], ∅, ∅, 0⟩

/-- The caller's `id` is overwritten by the module's counter. -/
def OmniModule.pushOp (m : OmniModule F) (op : OmniOp F) : OmniModule F :=
  { m with
    ops := m.ops ++ [{ op with id := m.nextId }]
    valueTypes := m.valueTypes.insert op.output op.resultType
    nextId := m.nextId + 1 }

def OmniModule.opCount (m : OmniModule F) : ℕ := m.ops.length

def OmniModule.build (pushed : List (OmniOp F)) : OmniModule F :=
  pushed.foldl OmniModule.pushOp .new

def UnaryFunc.debug : UnaryFunc → String
  | .exp => "Exp" | .log => "Log" | .sqrt => "Sqrt" | .rsqrt => "Rsqrt" | .abs => "Abs"
  | .neg => "Neg" | .ceil => "Ceil" | .floor => "Floor" | .round => "Round"
  | .cos => "Cos" | .sin => "Sin" | .tan => "Tan" | .erf => "Erf"

def BinaryFunc.debug : BinaryFunc → String
  | .pow => "Pow" | .max => "Max" | .min => "Min" | .mod => "Mod" | .atan2 => "Atan2"

/-- One variant with named fields, as derived `Debug` prints it. -/
def debugStruct (name : String) (fields : List (String × String)) : String :=
  name ++ " \x7b " ++ ", ".intercalate (fields.map fun f => f.1 ++ ": " ++ f.2) ++ " \x7d"

/-- `{:?}` of an operation kind. -/
def OpKind.debug [DebugText F] : OpKind F → String
  | .matMul => "MatMul"
  | .batchedMatMul => "BatchedMatMul"
  | .gemv => "Gemv"
  | .conv n => debugStruct "Conv" [("num_spatial_dims", toString n)]
  | .convTranspose n => debugStruct "ConvTranspose" [("num_spatial_dims", toString n)]
  | .depthwiseConv => "DepthwiseConv"
  | .scaledDotProductAttention c =>
    debugStruct "ScaledDotProductAttention" [("causal", toString c)]
  | .multiHeadAttention n => debugStruct "MultiHeadAttention" [("num_heads", toString n)]
  | .add => "Add"
  | .mul => "Mul"
  | .div => "Div"
  | .sub => "Sub"
  | .unaryFunc f => debugStruct "UnaryFunc" [("func", f.debug)]
  | .binaryFunc f => debugStruct "BinaryFunc" [("func", f.debug)]
  | .relu => "Relu"
  | .sigmoid => "Sigmoid"
  | .tanh => "Tanh"
  | .gelu => "Gelu"
  | .silu => "Silu"
  | .softmax a => debugStruct "Softmax" [("axis", toString a)]
  | .layerNorm e => debugStruct "LayerNorm" [("eps", DebugText.debug e)]
  | .groupNorm n e =>
    debugStruct "GroupNorm" [("num_groups", toString n), ("eps", DebugText.debug e)]
  | .rmsNorm e => debugStruct "RmsNorm" [("eps", DebugText.debug e)]
  | .reduceSum a k =>
    debugStruct "ReduceSum" [("axes", debugVec toString a), ("keep_dims", toString k)]
  | .reduceMean a k =>
    debugStruct "ReduceMean" [("axes", debugVec toString a), ("keep_dims", toString k)]
  | .reduceMax a k =>
    debugStruct "ReduceMax" [("axes", debugVec toString a), ("keep_dims", toString k)]
  | .reshape => "Reshape"
  | .transpose p => debugStruct "Transpose" [("perm", debugVec toString p)]
  | .concat a => debugStruct "Concat" [("axis", toString a)]
  | .split a s =>
    debugStruct "Split" [("axis", toString a), ("split_sizes", debugVec toString s)]
  | .broadcast => "Broadcast"
  | .gather a => debugStruct "Gather" [("axis", toString a)]
  | .scatter a => debugStruct "Scatter" [("axis", toString a)]
  | .memCopy => "MemCopy"
  | .fill v => debugStruct "Fill" [("value", DebugText.debug v)]
  | .opaqueOp h => debugStruct "Opaque" [("ptx_hash", toString h)]

/-- `kind == MatMul || kind == BatchedMatMul`, the test of fusion and of tiling. -/
def OpKind.isMatMul : OpKind F → Bool
  | .matMul | .batchedMatMul => true
  | _ => false

def OpKind.isFusable : OpKind F → Bool
  | .relu | .gelu | .silu | .add => true
  | _ => false

theorem OpKind.isFusable_cases {k : OpKind F} (h : k.isFusable = true) :
    k = .relu ∨ k = .gelu ∨ k = .silu ∨ k = .add := by
  cases k <;> simp_all [isFusable]

def OpKind.isAdd : OpKind F → Bool
  | .add => true
  | _ => false

theorem build_snoc (pushed : List (OmniOp F)) (op : OmniOp F) :
    OmniModule.build (pushed ++ [op]) = (OmniModule.build pushed).pushOp op := by
  simp [OmniModule.build]

theorem build_nextId (pushed : List (OmniOp F)) :
    (OmniModule.build pushed).nextId = UInt64.ofNat pushed.length := by
  induction pushed using List.reverseRecOn with
  | nil => rfl
  | append_singleton pushed op ih =>
    rw [build_snoc, OmniModule.pushOp, ih]
    simp [UInt64.ofNat_add]

/-- `push_op` numbers the operations by position and changes nothing else in them. -/
theorem build_ops (pushed : List (OmniOp F)) :
    (OmniModule.build pushed).ops =
      pushed.mapIdx fun i op => { op with id := UInt64.ofNat i } := by
  induction pushed using List.reverseRecOn with
  | nil => rfl
  | append_singleton pushed op ih =>
    rw [build_snoc, OmniModule.pushOp, ih, build_nextId]
    simp [List.mapIdx_append]

end OmniDialect
