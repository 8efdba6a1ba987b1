import OmniCompute.OmniDialect

/-! The first stage of the JIT. A kernel is classified by the instructions its text mentions
and becomes a module of one operation. -/
namespace IrLifter

open RustValues OmniDialect

structure LifterState where
  valueCounter : UInt64
  deriving DecidableEq, Repr

def LifterState.new : LifterState := ⟨0⟩

def freshValue (s : LifterState) : String × LifterState :=
  ("v" ++ toString s.valueCounter, { s with valueCounter := s.valueCounter + 1 })

def hashBytes (bytes : List UInt8) : UInt64 :=
  bytes.foldl (fun acc b => acc * 0x00000100000001b3 + b.toUInt64) 0xcbf29ce484222325

/-- Bytes that are no text stand for a binary kernel. -/
def ptxText (ptx : List UInt8) : List UInt8 := (fromUtf8 ptx).getD (ascii "<binary cubin>")

def mentionsProduct (ptx : List UInt8) : Bool :=
  contains (ptxText ptx) "mma.sync" || contains (ptxText ptx) "wmma"

section Lifting

variable {F : Type}

def opKind (ptx : List UInt8) : OpKind F :=
  if mentionsProduct ptx then .matMul
  else if contains (ptxText ptx) "ex2.approx" && contains (ptxText ptx) "div.approx" then
    .softmax (-1)
  else if contains (ptxText ptx) "tanh.approx" || contains (ptxText ptx) "ex2.approx" then
    .unaryFunc .exp
  else .opaqueOp (hashBytes ptx)

/-- The kernel id is only logged. -/
def liftPtx (s : LifterState) (ptx : List UInt8) (_kernelId : UInt64) :
    Result (OmniModule F) × LifterState :=
  let (inputA, s) := freshValue s
  let (inputB, s) := freshValue s
  let (output, s) := freshValue s
  let tensor := TensorType.dynamic 2 .f16
  let op : OmniOp F :=
    { id := 0
      kind := opKind ptx
      inputs := [inputA, inputB]
      output
      attrs := ∅
      resultType := tensor }
  let m : OmniModule F :=
    { OmniModule.new with valueTypes := (AList.insert inputA tensor ∅).insert inputB tensor }
  (.ok (m.pushOp op), s)

def lifted (ptx : List UInt8) : OmniOp F :=
  ⟨0, opKind ptx, ["v0", "v1"], "v2", ∅, .dynamic 2 .f16⟩

theorem liftPtx_new (ptx : List UInt8) (kernelId : UInt64) :
    ∃ m : OmniModule F, (liftPtx .new ptx kernelId).1 = .ok m ∧ m.ops = [lifted ptx] :=
  ⟨_, rfl, rfl⟩

end Lifting

section Kinds

variable {F : Type}

def compilable (ptx : List UInt8) : Bool :=
  mentionsProduct ptx ||
    !(contains (ptxText ptx) "tanh.approx" || contains (ptxText ptx) "ex2.approx")

theorem opKind_compilable {ptx : List UInt8} (h : compilable ptx = true) :
    (opKind ptx : OpKind F) =
      if mentionsProduct ptx then .matMul else .opaqueOp (hashBytes ptx) := by
  rw [opKind]
  split
  · rfl
  · rename_i hp
    rw [compilable, Bool.or_eq_true, Bool.not_eq_true', Bool.or_eq_false_iff] at h
    obtain ⟨htanh, hex2⟩ := h.resolve_left hp
    simp [htanh, hex2]

theorem opKind_not_compilable {ptx : List UInt8} (h : compilable ptx = false) :
    (opKind ptx : OpKind F) = .softmax (-1) ∨ (opKind ptx : OpKind F) = .unaryFunc .exp := by
  rw [compilable, Bool.or_eq_false_iff, Bool.not_eq_false'] at h
  rw [opKind, h.1, if_neg (by decide)]
  split
  · exact Or.inl rfl
  · rw [if_pos h.2]
    exact Or.inr rfl

end Kinds

end IrLifter
