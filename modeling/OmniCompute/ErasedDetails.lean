import OmniCompute.Compilation
import OmniCompute.PassCongruence

/-! What a kernel depends on. Of a module the compiler reads, operation by operation, the id, the
kind, the names and how the generator spells the element type, and of a product the activation
that it carries. Shapes, encodings, all other attributes and the tables of the module leave no
trace, so neither does the order in which attributes are stored. -/
namespace ErasedDetails

open RustValues OmniDialect PassManager PassCongruence Codegen BackEnds MatMulLowering JitEngine
  Compilation

variable {F : Type}

structure SameForKernel (d : Dialect) (a b : OmniOp F) : Prop where
  id : b.id = a.id
  kind : b.kind = a.kind
  inputs : b.inputs = a.inputs
  output : b.output = a.output
  datatype : d.datatype b.resultType.elementType = d.datatype a.resultType.elementType
  activation : a.kind.isMatMul = true → fusedActivation b = fusedActivation a

section Operations

variable [DebugText F] {d : Dialect} {a b : OmniOp F}

/-- Fusion sets the one attribute that counts, and a constant is no product. -/
theorem same_congruence (d : Dialect) : Congruence (SameForKernel (F := F) d) := by
  refine ⟨⟨SameForKernel.id, SameForKernel.inputs, SameForKernel.output⟩, SameForKernel.kind,
    ?_, ?_⟩
  · intro a b h ha value
    exact ⟨h.id, rfl, h.inputs, h.output, h.datatype, fun hk => by cases hk⟩
  · intro a b c e hab hce
    refine ⟨hab.id, hab.kind, ?_, hce.output, hce.datatype, fun _ => ?_⟩
    · simp only [fusedOp, hab.inputs, hab.output, hce.kind, hce.inputs]
    · simp only [fusedActivation, fusedOp, AList.lookup_insert, hce.kind]

structure LoweredAlike (d : Dialect) (a b : OmniOp F) : Prop where
  id : b.id = a.id
  inputs : b.inputs = a.inputs
  output : b.output = a.output
  lower : d.lower b = d.lower a

theorem SameForKernel.lower_plain (h : SameForKernel d a b) (ha : a.kind.isMatMul = false) :
    d.lower b = d.lower a := by
  simp only [Dialect.lower, h.kind, h.datatype]
  cases hk : a.kind <;> first | rfl | (rw [hk] at ha; cases ha)

theorem SameForKernel.lowered (h : SameForKernel d a b) (hardware : HardwareProfile) :
    LoweredAlike d (tileOp hardware a) (tileOp hardware b) := by
  refine ⟨?_, ?_, ?_, ?_⟩
  · rw [tileOp_id, tileOp_id, h.id]
  · rw [tileOp_inputs, tileOp_inputs, h.inputs]
  · rw [tileOp_output, tileOp_output, h.output]
  · cases ha : a.kind.isMatMul with
    | true =>
      have hb : b.kind.isMatMul = true := by rw [h.kind, ha]
      rw [(emits_annotated d hardware ha).1, (emits_annotated d hardware hb).1, h.datatype,
        h.activation ha]
    | false =>
      have hb : b.kind.isMatMul = false := by rw [h.kind, ha]
      rw [tileOp, tileOp, if_neg (by simp [hb]), if_neg (by simp [ha]), h.lower_plain ha]

theorem lowered_samePlace (d : Dialect) : SamePlace (LoweredAlike (F := F) d) :=
  ⟨LoweredAlike.id, LoweredAlike.inputs, LoweredAlike.output⟩

end Operations

section Modules

variable [DebugText F] {ops ops' : List (OmniOp F)}

theorem generate_alike (b : BackEnd) {m m' : OmniModule F}
    (h : List.Forall₂ (LoweredAlike b.dialect) m.ops m'.ops) : b.generate m' = b.generate m := by
  rw [BackEnd.generate_eq, BackEnd.generate_eq, Dialect.generate, Dialect.generate]
  generalize m.ops = ops at h ⊢
  generalize m'.ops = ops' at h ⊢
  generalize b.dialect.start = out
  have hfold : ops'.foldlM b.dialect.emit out = ops.foldlM b.dialect.emit out := by
    induction h generalizing out with
    | nil => rfl
    | cons hop _ ih =>
      rw [List.foldlM_cons, List.foldlM_cons, Dialect.emit, Dialect.emit, hop.lower, hop.id]
      exact congrArg _ (funext ih)
  rw [hfold]

theorem optimizedOps_alike (hardware : HardwareProfile) {d : Dialect}
    (h : List.Forall₂ (SameForKernel d) ops ops') :
    List.Forall₂ (LoweredAlike d) (optimizedOps hardware ops) (optimizedOps hardware ops') := by
  have htiled : List.Forall₂ (LoweredAlike d) ((fuse ops).map (tileOp hardware))
      ((fuse ops').map (tileOp hardware)) := by
    rw [List.forall₂_map_left_iff, List.forall₂_map_right_iff]
    exact ((same_congruence d).fuse h).imp fun _ _ hop => hop.lowered hardware
  simp only [optimizedOps, ← htiled.length_eq]
  exact ((lowered_samePlace d).mark _ htiled).1

variable [Add F] [Mul F]

/-- Two modules that agree, operation by operation, in what the compiler reads have the same
kernel, or the same failure. -/
theorem details_erased (hardware : HardwareProfile) (m m' : OmniModule F)
    (h : List.Forall₂ (SameForKernel (backEnd hardware.targetBackend).dialect) m.ops m'.ops) :
    compile hardware m' = compile hardware m := by
  have halike : Alike (SameForKernel (backEnd hardware.targetBackend).dialect)
      (foldOps ∅ m.ops) (foldOps ∅ m'.ops) := (same_congruence _).foldOps h
  rw [compile_eq, compile_eq]
  generalize foldOps ∅ m.ops = r at halike ⊢
  generalize foldOps ∅ m'.ops = r' at halike ⊢
  cases halike with
  | ok hops => exact generate_alike _ (optimizedOps_alike hardware hops)
  | error failure => rfl

end Modules

theorem details_erased_bias :
    compile ⟨.cpuVectorized 8 512⟩ { bias with ops := bias.ops.map fun op =>
        { op with
          attrs := op.attrs.insert "tile_m" (.int 128)
          resultType := .staticTensor [32, 32] .f32 } } =
      compile ⟨.cpuVectorized 8 512⟩ bias :=
  details_erased ⟨.cpuVectorized 8 512⟩ bias _
    (.cons ⟨rfl, rfl, rfl, rfl, rfl, fun _ => rfl⟩
      (.cons ⟨rfl, rfl, rfl, rfl, rfl, fun _ => rfl⟩ .nil))

end ErasedDetails
