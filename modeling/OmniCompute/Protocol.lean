import OmniCompute.Bincode
import OmniCompute.TaskRouter

/-! The messages of the peer-to-peer protocol and their bytes. `F` and `S` read `f64` and
`f32`; on the wire both are their bits. A map is traversed in the order of its entries, so a
statement about every message covers every order in which an encoder may visit it. -/
namespace Protocol

open RustValues OmniDialect TaskRouter ByteReaders

inductive NetworkMessage (F S : Type) where
  | ping (sentAtNs : UInt64)
  | pong (pingSentNs receivedAtNs : UInt64)
  | heartbeat (profile : WorkerNode S) (uptimeSecs : UInt64)
  | taskRequest (task : TaskDispatch F S) (inputData : List UInt8)
  | taskResponse (opId : UInt64) (success : Bool) (outputData : List UInt8)
      (errorMessage : Option String)

/-- A message whose floats are their bits. -/
abbrev WireMessage := NetworkMessage UInt64 UInt32

section Types

open Bincode

def f32 : Codec UInt32 := u32
def f64 : Codec UInt64 := u64
def usize : Codec UInt64 := u64

def elementType : Codec ElementType :=
  unitVariants [.u8, .i8, .i16, .i32, .i64, .f16, .bf16, .f32, .f64, .f8e4m3, .bool, .opaqueType]
    (fun a => by cases a <;> decide) (by decide)

def unaryFunc : Codec UnaryFunc :=
  unitVariants
    [.exp, .log, .sqrt, .rsqrt, .abs, .neg, .ceil, .floor, .round, .cos, .sin, .tan, .erf]
    (fun a => by cases a <;> decide) (by decide)

def binaryFunc : Codec BinaryFunc :=
  unitVariants [.pow, .max, .min, .mod, .atan2] (fun a => by cases a <;> decide) (by decide)

def memoryEncoding : Codec MemoryEncoding where
  encode
    | .rowMajor => variantTag 0 ++ []
    | .columnMajor => variantTag 1 ++ []
    | .tiled tileShape => variantTag 2 ++ (seq i64).encode tileShape
    | .sparse => variantTag 3 ++ []
  decode := do
    match ← word 4 with
    | 0 => return .rowMajor
    | 1 => return .columnMajor
    | 2 => MemoryEncoding.tiled <$> (seq i64).decode
    | 3 => return .sparse
    | _ => failure
  Fits
    | .tiled tileShape => (seq i64).Fits tileShape
    | _ => True
  reads e h := by
    cases e with
    | rowMajor | columnMajor | sparse =>
      exact reads_bind (reads_variantTag (by decide)) (reads_pure _)
    | tiled tileShape =>
      exact reads_bind (reads_variantTag (by decide)) (reads_map _ ((seq i64).reads tileShape h))
  stable := stable_bind (stable_word 4) fun i => by
    split
    all_goals first
      | exact stable_pure _
      | exact stable_map _ (Codec.stable _)
      | exact stable_failure

def tensorType : Codec TensorType where
  encode t := [(seq (option i64)).encode t.shape, elementType.encode t.elementType,
    memoryEncoding.encode t.encoding].flatten
  decode := do
    let shape ← (seq (option i64)).decode
    let elementType ← elementType.decode
    let encoding ← memoryEncoding.decode
    return ⟨shape, elementType, encoding⟩
  Fits t := (seq (option i64)).Fits t.shape ∧ memoryEncoding.Fits t.encoding
  reads t h := reads_bind ((seq (option i64)).reads _ h.1) (reads_bind (elementType.reads _ trivial)
    (reads_bind (memoryEncoding.reads _ h.2) (reads_pure t)))
  stable := stable_bind (seq (option i64)).stable fun _ => stable_bind elementType.stable fun _ =>
    stable_bind memoryEncoding.stable fun _ => stable_pure _

/-- Tags follow the declaration order of the source. -/
def opKind : Codec (OpKind UInt64) where
  encode
    | .matMul => variantTag 0 ++ []
    | .batchedMatMul => variantTag 1 ++ []
    | .gemv => variantTag 2 ++ []
    | .conv n => variantTag 3 ++ usize.encode n
    | .convTranspose n => variantTag 4 ++ usize.encode n
    | .depthwiseConv => variantTag 5 ++ []
    | .scaledDotProductAttention causal => variantTag 6 ++ bool.encode causal
    | .multiHeadAttention numHeads => variantTag 7 ++ u32.encode numHeads
    | .add => variantTag 8 ++ []
    | .mul => variantTag 9 ++ []
    | .div => variantTag 10 ++ []
    | .sub => variantTag 11 ++ []
    | .unaryFunc func => variantTag 12 ++ unaryFunc.encode func
    | .binaryFunc func => variantTag 13 ++ binaryFunc.encode func
    | .relu => variantTag 14 ++ []
    | .sigmoid => variantTag 15 ++ []
    | .tanh => variantTag 16 ++ []
    | .gelu => variantTag 17 ++ []
    | .silu => variantTag 18 ++ []
    | .softmax axis => variantTag 19 ++ i32.encode axis
    | .layerNorm eps => variantTag 20 ++ f64.encode eps
    | .groupNorm numGroups eps => variantTag 21 ++ (pair u32 f64).encode (numGroups, eps)
    | .rmsNorm eps => variantTag 22 ++ f64.encode eps
    | .reduceSum axes keepDims => variantTag 23 ++ (pair (seq i32) bool).encode (axes, keepDims)
    | .reduceMean axes keepDims => variantTag 24 ++ (pair (seq i32) bool).encode (axes, keepDims)
    | .reduceMax axes keepDims => variantTag 25 ++ (pair (seq i32) bool).encode (axes, keepDims)
    | .reshape => variantTag 26 ++ []
    | .transpose perm => variantTag 27 ++ (seq u32).encode perm
    | .concat axis => variantTag 28 ++ i32.encode axis
    | .split axis sizes => variantTag 29 ++ (pair i32 (seq i64)).encode (axis, sizes)
    | .broadcast => variantTag 30 ++ []
    | .gather axis => variantTag 31 ++ i32.encode axis
    | .scatter axis => variantTag 32 ++ i32.encode axis
    | .memCopy => variantTag 33 ++ []
    | .fill value => variantTag 34 ++ f64.encode value
    | .opaqueOp ptxHash => variantTag 35 ++ u64.encode ptxHash
  decode := do
    match ← word 4 with
    | 0 => return .matMul
    | 1 => return .batchedMatMul
    | 2 => return .gemv
    | 3 => OpKind.conv <$> usize.decode
    | 4 => OpKind.convTranspose <$> usize.decode
    | 5 => return .depthwiseConv
    | 6 => OpKind.scaledDotProductAttention <$> bool.decode
    | 7 => OpKind.multiHeadAttention <$> u32.decode
    | 8 => return .add
    | 9 => return .mul
    | 10 => return .div
    | 11 => return .sub
    | 12 => OpKind.unaryFunc <$> unaryFunc.decode
    | 13 => OpKind.binaryFunc <$> binaryFunc.decode
    | 14 => return .relu
    | 15 => return .sigmoid
    | 16 => return .tanh
    | 17 => return .gelu
    | 18 => return .silu
    | 19 => OpKind.softmax <$> i32.decode
    | 20 => OpKind.layerNorm <$> f64.decode
    | 21 => (fun p => OpKind.groupNorm p.1 p.2) <$> (pair u32 f64).decode
    | 22 => OpKind.rmsNorm <$> f64.decode
    | 23 => (fun p => OpKind.reduceSum p.1 p.2) <$> (pair (seq i32) bool).decode
    | 24 => (fun p => OpKind.reduceMean p.1 p.2) <$> (pair (seq i32) bool).decode
    | 25 => (fun p => OpKind.reduceMax p.1 p.2) <$> (pair (seq i32) bool).decode
    | 26 => return .reshape
    | 27 => OpKind.transpose <$> (seq u32).decode
    | 28 => OpKind.concat <$> i32.decode
    | 29 => (fun p => OpKind.split p.1 p.2) <$> (pair i32 (seq i64)).decode
    | 30 => return .broadcast
    | 31 => OpKind.gather <$> i32.decode
    | 32 => OpKind.scatter <$> i32.decode
    | 33 => return .memCopy
    | 34 => OpKind.fill <$> f64.decode
    | 35 => OpKind.opaqueOp <$> u64.decode
    | _ => failure
  Fits
    | .reduceSum axes _ | .reduceMean axes _ | .reduceMax axes _ => (seq i32).Fits axes
    | .transpose perm => (seq u32).Fits perm
    | .split _ sizes => (seq i64).Fits sizes
    | _ => True
  reads k h := by
    cases k with
    | matMul | batchedMatMul | gemv | depthwiseConv | add | mul | div | sub | relu | sigmoid | tanh
    | gelu | silu | reshape | broadcast | memCopy =>
      exact reads_bind (reads_variantTag (by decide)) (reads_pure _)
    | conv n | convTranspose n =>
      exact reads_bind (reads_variantTag (by decide)) (reads_map _ (usize.reads n trivial))
    | scaledDotProductAttention causal =>
      exact reads_bind (reads_variantTag (by decide)) (reads_map _ (bool.reads causal trivial))
    | multiHeadAttention numHeads =>
      exact reads_bind (reads_variantTag (by decide)) (reads_map _ (u32.reads numHeads trivial))
    | unaryFunc func =>
      exact reads_bind (reads_variantTag (by decide)) (reads_map _ (unaryFunc.reads func trivial))
    | binaryFunc func =>
      exact reads_bind (reads_variantTag (by decide)) (reads_map _ (binaryFunc.reads func trivial))
    | softmax axis | concat axis | gather axis | scatter axis =>
      exact reads_bind (reads_variantTag (by decide)) (reads_map _ (i32.reads axis trivial))
    | layerNorm x | rmsNorm x | fill x =>
      exact reads_bind (reads_variantTag (by decide)) (reads_map _ (f64.reads x trivial))
    | groupNorm numGroups eps =>
      exact reads_bind (reads_variantTag (by decide))
        (reads_map _ ((pair u32 f64).reads (numGroups, eps) ⟨trivial, trivial⟩))
    | reduceSum axes keepDims | reduceMean axes keepDims | reduceMax axes keepDims =>
      exact reads_bind (reads_variantTag (by decide))
        (reads_map _ ((pair (seq i32) bool).reads (axes, keepDims) ⟨h, trivial⟩))
    | transpose perm =>
      exact reads_bind (reads_variantTag (by decide)) (reads_map _ ((seq u32).reads perm h))
    | split axis sizes =>
      exact reads_bind (reads_variantTag (by decide))
        (reads_map _ ((pair i32 (seq i64)).reads (axis, sizes) ⟨trivial, h⟩))
    | opaqueOp ptxHash =>
      exact reads_bind (reads_variantTag (by decide)) (reads_map _ (u64.reads ptxHash trivial))
  stable := stable_bind (stable_word 4) fun i => by
    split
    all_goals first
      | exact stable_pure _
      | exact stable_map _ (Codec.stable _)
      | exact stable_failure

def attrValue : Codec (AttrValue UInt64) where
  encode
    | .int value => variantTag 0 ++ i64.encode value
    | .float value => variantTag 1 ++ f64.encode value
    | .bool value => variantTag 2 ++ bool.encode value
    | .string value => variantTag 3 ++ string.encode value
    | .intList values => variantTag 4 ++ (seq i64).encode values
  decode := do
    match ← word 4 with
    | 0 => AttrValue.int <$> i64.decode
    | 1 => AttrValue.float <$> f64.decode
    | 2 => AttrValue.bool <$> bool.decode
    | 3 => AttrValue.string <$> string.decode
    | 4 => AttrValue.intList <$> (seq i64).decode
    | _ => failure
  Fits
    | .string value => string.Fits value
    | .intList values => (seq i64).Fits values
    | _ => True
  reads v h := by
    cases v with
    | int value => exact reads_bind (reads_variantTag (by decide)) (reads_map _ (i64.reads value h))
    | float value =>
      exact reads_bind (reads_variantTag (by decide)) (reads_map _ (f64.reads value h))
    | bool value =>
      exact reads_bind (reads_variantTag (by decide)) (reads_map _ (bool.reads value h))
    | string value =>
      exact reads_bind (reads_variantTag (by decide)) (reads_map _ (string.reads value h))
    | intList values =>
      exact reads_bind (reads_variantTag (by decide)) (reads_map _ ((seq i64).reads values h))
  stable := stable_bind (stable_word 4) fun i => by
    split
    all_goals first
      | exact stable_map _ (Codec.stable _)
      | exact stable_failure

def attributes : Codec (HashMap String (AttrValue UInt64)) := map string attrValue

def omniOp : Codec (OmniOp UInt64) where
  encode op := [u64.encode op.id, opKind.encode op.kind, (seq string).encode op.inputs,
    string.encode op.output, attributes.encode op.attrs, tensorType.encode op.resultType].flatten
  decode := do
    let id ← u64.decode
    let kind ← opKind.decode
    let inputs ← (seq string).decode
    let output ← string.decode
    let attrs ← attributes.decode
    let resultType ← tensorType.decode
    return ⟨id, kind, inputs, output, attrs, resultType⟩
  Fits op := opKind.Fits op.kind ∧ (seq string).Fits op.inputs ∧ string.Fits op.output ∧
    attributes.Fits op.attrs ∧ tensorType.Fits op.resultType
  reads op h := reads_bind (u64.reads _ trivial) (reads_bind (opKind.reads _ h.1)
    (reads_bind ((seq string).reads _ h.2.1) (reads_bind (string.reads _ h.2.2.1)
    (reads_bind (attributes.reads _ h.2.2.2.1) (reads_bind (tensorType.reads _ h.2.2.2.2)
    (reads_pure op))))))
  stable := stable_bind u64.stable fun _ => stable_bind opKind.stable fun _ =>
    stable_bind (seq string).stable fun _ => stable_bind string.stable fun _ =>
    stable_bind attributes.stable fun _ => stable_bind tensorType.stable fun _ => stable_pure _

def workerNode : Codec (WorkerNode UInt32) where
  encode w := [string.encode w.peerId, f32.encode w.fp16Tflops, f32.encode w.rttMs,
    u64.encode w.vramCapacityBytes, f32.encode w.currentLoad].flatten
  decode := do
    let peerId ← string.decode
    let fp16Tflops ← f32.decode
    let rttMs ← f32.decode
    let vramCapacityBytes ← u64.decode
    let currentLoad ← f32.decode
    return ⟨peerId, fp16Tflops, rttMs, vramCapacityBytes, currentLoad⟩
  Fits w := string.Fits w.peerId
  reads w h := reads_bind (string.reads _ h) (reads_bind (f32.reads _ trivial)
    (reads_bind (f32.reads _ trivial) (reads_bind (u64.reads _ trivial)
    (reads_bind (f32.reads _ trivial) (reads_pure w)))))
  stable := stable_bind string.stable fun _ => stable_bind f32.stable fun _ =>
    stable_bind f32.stable fun _ => stable_bind u64.stable fun _ =>
    stable_bind f32.stable fun _ => stable_pure _

def taskDispatch : Codec (TaskDispatch UInt64 UInt32) where
  encode t := [string.encode t.targetPeerId, u64.encode t.opId, omniOp.encode t.op,
    f32.encode t.priority].flatten
  decode := do
    let targetPeerId ← string.decode
    let opId ← u64.decode
    let op ← omniOp.decode
    let priority ← f32.decode
    return ⟨targetPeerId, opId, op, priority⟩
  Fits t := string.Fits t.targetPeerId ∧ omniOp.Fits t.op
  reads t h := reads_bind (string.reads _ h.1) (reads_bind (u64.reads _ trivial)
    (reads_bind (omniOp.reads _ h.2) (reads_bind (f32.reads _ trivial) (reads_pure t))))
  stable := stable_bind string.stable fun _ => stable_bind u64.stable fun _ =>
    stable_bind omniOp.stable fun _ => stable_bind f32.stable fun _ => stable_pure _

/-- A message fits when its texts, buffers, lists and maps are counted by 64-bit lengths. -/
def networkMessage : Codec WireMessage where
  encode
    | .ping sentAtNs => variantTag 0 ++ [u64.encode sentAtNs].flatten
    | .pong pingSentNs receivedAtNs =>
      variantTag 1 ++ [u64.encode pingSentNs, u64.encode receivedAtNs].flatten
    | .heartbeat profile uptimeSecs =>
      variantTag 2 ++ [workerNode.encode profile, u64.encode uptimeSecs].flatten
    | .taskRequest task inputData =>
      variantTag 3 ++ [taskDispatch.encode task, (seq u8).encode inputData].flatten
    | .taskResponse opId success outputData errorMessage =>
      variantTag 4 ++ [u64.encode opId, bool.encode success, (seq u8).encode outputData,
        (option string).encode errorMessage].flatten
  decode := do
    match ← word 4 with
    | 0 =>
      let sentAtNs ← u64.decode
      return .ping sentAtNs
    | 1 =>
      let pingSentNs ← u64.decode
      let receivedAtNs ← u64.decode
      return .pong pingSentNs receivedAtNs
    | 2 =>
      let profile ← workerNode.decode
      let uptimeSecs ← u64.decode
      return .heartbeat profile uptimeSecs
    | 3 =>
      let task ← taskDispatch.decode
      let inputData ← (seq u8).decode
      return .taskRequest task inputData
    | 4 =>
      let opId ← u64.decode
      let success ← bool.decode
      let outputData ← (seq u8).decode
      let errorMessage ← (option string).decode
      return .taskResponse opId success outputData errorMessage
    | _ => failure
  Fits
    | .ping _ => True
    | .pong _ _ => True
    | .heartbeat profile _ => workerNode.Fits profile
    | .taskRequest task inputData => taskDispatch.Fits task ∧ (seq u8).Fits inputData
    | .taskResponse _ _ outputData errorMessage =>
      (seq u8).Fits outputData ∧ (option string).Fits errorMessage
  reads m h := by
    cases m with
    | ping sentAtNs =>
      exact reads_bind (reads_variantTag (by decide)) (reads_bind (u64.reads _ trivial)
        (reads_pure _))
    | pong pingSentNs receivedAtNs =>
      exact reads_bind (reads_variantTag (by decide)) (reads_bind (u64.reads _ trivial)
        (reads_bind (u64.reads _ trivial) (reads_pure _)))
    | heartbeat profile uptimeSecs =>
      exact reads_bind (reads_variantTag (by decide)) (reads_bind (workerNode.reads _ h)
        (reads_bind (u64.reads _ trivial) (reads_pure _)))
    | taskRequest task inputData =>
      exact reads_bind (reads_variantTag (by decide)) (reads_bind (taskDispatch.reads _ h.1)
        (reads_bind ((seq u8).reads _ h.2) (reads_pure _)))
    | taskResponse opId success outputData errorMessage =>
      exact reads_bind (reads_variantTag (by decide)) (reads_bind (u64.reads _ trivial)
        (reads_bind (bool.reads _ trivial) (reads_bind ((seq u8).reads _ h.1)
        (reads_bind ((option string).reads _ h.2) (reads_pure _)))))
  stable := stable_bind (stable_word 4) fun i => by
    split
    · exact stable_bind u64.stable fun _ => stable_pure _
    · exact stable_bind u64.stable fun _ => stable_bind u64.stable fun _ => stable_pure _
    · exact stable_bind workerNode.stable fun _ => stable_bind u64.stable fun _ => stable_pure _
    · exact stable_bind taskDispatch.stable fun _ => stable_bind (seq u8).stable fun _ =>
        stable_pure _
    · exact stable_bind u64.stable fun _ => stable_bind bool.stable fun _ =>
        stable_bind (seq u8).stable fun _ => stable_bind (option string).stable fun _ =>
        stable_pure _
    · exact stable_failure

end Types

/-- Serializing a message does not fail. -/
def NetworkMessage.encode (m : WireMessage) : List UInt8 := networkMessage.encode m

/-- `none` is an error of the deserializer. Bytes behind the message are allowed. -/
def NetworkMessage.decode (bytes : List UInt8) : Option WireMessage :=
  (networkMessage.decode bytes).map Prod.fst

/-- The same message, whose attributes may be traversed in another order. -/
inductive SameMessage : WireMessage → WireMessage → Prop where
  | refl (m : WireMessage) : SameMessage m m
  | reordered (task : TaskDispatch UInt64 UInt32) (inputData : List UInt8)
      (attrs : HashMap String (AttrValue UInt64))
      (perm : task.op.attrs.entries.Perm attrs.entries) :
    SameMessage (.taskRequest task inputData)
      (.taskRequest { task with op := { task.op with attrs := attrs } } inputData)

theorem attributes_fit {m m' : HashMap String (AttrValue UInt64)} (h : m.entries.Perm m'.entries)
    (fits : attributes.Fits m) : attributes.Fits m' := by
  have hp : (Bincode.pairs m).Perm (Bincode.pairs m') := h.map _
  obtain ⟨hcount, hall⟩ := fits
  exact ⟨hp.length_eq ▸ hcount, fun p hmem => hall p (hp.mem_iff.mpr hmem)⟩

theorem SameMessage.fits {m sent : WireMessage} (h : SameMessage m sent)
    (fits : networkMessage.Fits m) : networkMessage.Fits sent := by
  cases h with
  | refl => exact fits
  | reordered task inputData attrs perm =>
    obtain ⟨⟨hpeer, hkind, hinputs, hout, hattrs, htype⟩, hdata⟩ := fits
    exact ⟨⟨hpeer, hkind, hinputs, hout, attributes_fit perm hattrs, htype⟩, hdata⟩

/-- In whatever order `m`'s attributes were sent, the receiver gets `m` back, also when other
bytes follow, and it gets an error for every message that is cut short. -/
theorem round_trip (m sent : WireMessage) (fits : networkMessage.Fits m)
    (same : SameMessage m sent) :
    (∃ received, NetworkMessage.decode sent.encode = some received ∧ SameMessage m received) ∧
    (∀ more, ∃ received, NetworkMessage.decode (sent.encode ++ more) = some received ∧
      SameMessage m received) ∧
    ∀ front, front <+: sent.encode → front ≠ sent.encode → NetworkMessage.decode front = none := by
  have hreads := networkMessage.reads sent (same.fits fits)
  have received : ∀ more, NetworkMessage.decode (sent.encode ++ more) = some sent :=
    fun more => congrArg (Option.map Prod.fst) (hreads more)
  refine ⟨⟨sent, ?_, same⟩, fun more => ⟨sent, received more, same⟩, ?_⟩
  · have h := received []
    rwa [List.append_nil] at h
  · intro front hp hne
    exact congrArg (Option.map Prod.fst) (strict_prefix_fails networkMessage.stable hreads hp hne)

def fusedRequest : WireMessage :=
  .taskRequest ⟨"peer", 7, ⟨7, .reduceSum [-1] true, ["a", "b"], "c",
    Bincode.collect [("axis", .int 3), ("note", .string "x")],
    ⟨[none, some 32], .f32, .tiled [8, 8]⟩⟩, 0x41200000⟩ [1, 2, 3, 4]

theorem fusedRequest_fits : networkMessage.Fits fusedRequest := by
  have text : ∀ s ∈ ["peer", "a", "b", "c", "axis", "note", "x"], Bincode.string.Fits s := by
    change ∀ s ∈ ["peer", "a", "b", "c", "axis", "note", "x"], (Bincode.utf8 s).length < 256 ^ 8
    decide +kernel
  have attrs : attributes.Fits (Bincode.collect [("axis", .int 3), ("note", .string "x")]) := by
    refine ⟨by change 2 < 256 ^ 8; decide, ?_⟩
    intro p hp
    change p ∈ [("axis", AttrValue.int 3), ("note", AttrValue.string "x")] at hp
    simp only [List.mem_cons, List.not_mem_nil, or_false] at hp
    rcases hp with rfl | rfl
    · exact ⟨text _ (by simp), trivial⟩
    · exact ⟨text _ (by simp), text "x" (by simp)⟩
  refine ⟨⟨text _ (by simp), ⟨by change 1 < 256 ^ 8; decide, fun _ _ => trivial⟩, ?_,
    text _ (by simp), attrs, ⟨by change 2 < 256 ^ 8; decide, ?_⟩, ?_⟩, ?_⟩
  · refine ⟨by change 2 < 256 ^ 8; decide, ?_⟩
    intro s hs
    simp only [List.mem_cons, List.not_mem_nil, or_false] at hs
    rcases hs with rfl | rfl <;> exact text _ (by simp)
  · exact fun _ _ _ _ => trivial
  · exact ⟨by change 2 < 256 ^ 8; decide, fun _ _ => trivial⟩
  · exact ⟨by change 4 < 256 ^ 8; decide, fun _ _ => trivial⟩

theorem round_trip_request : ∃ received,
    NetworkMessage.decode fusedRequest.encode = some received ∧ SameMessage fusedRequest received :=
  (round_trip fusedRequest fusedRequest fusedRequest_fits (.refl _)).1

end Protocol
