import OmniCompute.KeyedTotals
import OmniCompute.PassCongruence

/-! Where loop tiling stands among the passes. The others look at ids, kinds, inputs and
outputs only, and the one attribute that fusion adds is none of tiling's. -/
namespace PassOrder

open RustValues KeyedTotals OmniDialect PassManager PassStructure PassCongruence

variable {F : Type}

inductive Pass where
  | constantFolding
  | operatorFusion
  | loopTiling
  | dce
  deriving DecidableEq

/-- `b` is `a`, tiled if `tiled` says so, with its attributes in any order. -/
structure Matches (hardware : HardwareProfile) (tiled : Bool) (a b : OmniOp F) : Prop where
  id : b.id = a.id
  kind : b.kind = a.kind
  inputs : b.inputs = a.inputs
  output : b.output = a.output
  resultType : b.resultType = a.resultType
  attrs : ∀ key, b.attrs.lookup key = (if tiled then tileOp hardware a else a).attrs.lookup key

structure SameModule (hardware : HardwareProfile) (tiled : Bool) (m m' : OmniModule F) : Prop where
  ops : List.Forall₂ (Matches hardware tiled) m.ops m'.ops
  valueTypes : m'.valueTypes = m.valueTypes
  attrs : m'.attrs = m.attrs
  nextId : m'.nextId = m.nextId

inductive Agree (hardware : HardwareProfile) (tiled : Bool) :
    Result (OmniModule F) → Result (OmniModule F) → Prop where
  | ok {m m' : OmniModule F} (h : SameModule hardware tiled m m') :
    Agree hardware tiled (.ok m) (.ok m')
  | error (failure : Failure) : Agree hardware tiled (.error failure) (.error failure)

section Passes

variable {hardware : HardwareProfile} {tiled : Bool} {a b c d : OmniOp F}
  {ops ops' : List (OmniOp F)}

theorem Matches.refl (a : OmniOp F) : Matches hardware false a a :=
  ⟨rfl, rfl, rfl, rfl, rfl, fun _ => rfl⟩

def tilingAttr (hardware : HardwareProfile) (key : String) : Option (AttrValue F) :=
  if key = "vector_width" then some (.int 4)
  else if key = "tile_k" then some (.int 16)
  else if key = "tile_n" ∨ key = "tile_m" then some (.int (tileSize hardware))
  else none

theorem tileOp_attrs (op : OmniOp F) (key : String) :
    (tileOp hardware op).attrs.lookup key =
      if op.kind.isMatMul then (tilingAttr hardware key).or (op.attrs.lookup key)
      else op.attrs.lookup key := by
  rw [tileOp]
  split
  · simp only [lookup_insert_ite, tilingAttr]
    split_ifs <;> simp_all
  · rfl

theorem Matches.tile (h : Matches hardware tiled a b) :
    Matches hardware true a (tileOp hardware b) := by
  refine ⟨?_, ?_, ?_, ?_, ?_, fun key => ?_⟩
  · rw [tileOp_id, h.id]
  · rw [tileOp_kind, h.kind]
  · rw [tileOp_inputs, h.inputs]
  · rw [tileOp_output, h.output]
  · rw [tileOp_resultType, h.resultType]
  · rw [if_pos rfl, tileOp_attrs, tileOp_attrs, h.kind, h.attrs]
    cases tiled with
    | false => rfl
    | true =>
      rw [if_pos rfl, tileOp_attrs]
      split
      · cases tilingAttr hardware key <;> rfl
      · rfl

theorem tilingAttr_fused :
    tilingAttr hardware "fused_activation" = (none : Option (AttrValue F)) := by
  simp [tilingAttr]

variable [DebugText F]

theorem Matches.fused (hab : Matches hardware tiled a b) (hcd : Matches hardware tiled c d) :
    Matches hardware tiled (fusedOp a c) (fusedOp b d) := by
  refine ⟨hab.id, hab.kind, ?_, hcd.output, hcd.resultType, fun key => ?_⟩
  · simp only [fusedOp, hab.inputs, hab.output, hcd.kind, hcd.inputs]
  · cases tiled with
    | false =>
      simp only [fusedOp, hcd.kind, lookup_insert_ite, hab.attrs key, Bool.false_eq_true, if_false]
    | true =>
      have hattrs := hab.attrs key
      rw [if_pos rfl, tileOp_attrs] at hattrs ⊢
      simp only [fusedOp, hcd.kind, lookup_insert_ite, hattrs]
      by_cases hkey : key = "fused_activation"
      · subst hkey
        simp [tilingAttr_fused]
      · simp [hkey]

omit [DebugText F] in
theorem Matches.refill (h : Matches hardware tiled a b) (ha : a.kind.isMatMul = false)
    (value : F) :
    Matches hardware tiled { a with kind := .fill value } { b with kind := .fill value } := by
  refine ⟨h.id, rfl, h.inputs, h.output, h.resultType, fun key => ?_⟩
  have hattrs := h.attrs key
  cases tiled with
  | false => exact hattrs
  | true =>
    rw [if_pos rfl, tileOp_attrs, ha] at hattrs
    rw [if_pos rfl, tileOp_attrs]
    exact hattrs

theorem matches_congruence : Congruence (Matches (F := F) hardware tiled) :=
  ⟨⟨Matches.id, Matches.inputs, Matches.output⟩, Matches.kind, Matches.refill, Matches.fused⟩

end Passes

section Order

variable [DebugText F] [Add F] [Mul F] (hardware : HardwareProfile)

def applyPass (m : OmniModule F) : Pass → Result (OmniModule F)
  | .constantFolding => runConstantFolding m
  | .operatorFusion => .ok (runOperatorFusion m)
  | .loopTiling => .ok (runLoopTiling hardware m)
  | .dce => .ok (runDce m)

/-- The passes in the order of the list; a folding that panics is the last one. -/
def runPasses (passes : List Pass) (m : OmniModule F) : Result (OmniModule F) :=
  passes.foldlM (applyPass hardware) m

variable {hardware} {tiled : Bool} {m m' : OmniModule F}

theorem SameModule.step (h : SameModule hardware tiled m m') {pass : Pass}
    (hp : pass ≠ .loopTiling) :
    Agree hardware tiled (applyPass hardware m pass) (applyPass hardware m' pass) := by
  cases pass with
  | constantFolding =>
    simp only [applyPass, runConstantFolding]
    have halike : Alike (Matches hardware tiled) (foldOps ∅ m.ops) (foldOps ∅ m'.ops) :=
      matches_congruence.foldOps h.ops
    generalize foldOps ∅ m.ops = r at halike ⊢
    generalize foldOps ∅ m'.ops = r' at halike ⊢
    cases halike with
    | ok hall => exact .ok ⟨hall, h.valueTypes, h.attrs, h.nextId⟩
    | error failure => exact .error failure
  | operatorFusion =>
    refine .ok ⟨?_, ?_, ?_, ?_⟩
    · rw [runOperatorFusion_ops, runOperatorFusion_ops]
      exact matches_congruence.fuse h.ops
    all_goals
      simp only [runOperatorFusion]
      split <;> split
    any_goals exact h.valueTypes
    any_goals exact h.attrs
    all_goals exact h.nextId
  | loopTiling => exact absurd rfl hp
  | dce =>
    have hcount : m'.opCount = m.opCount := h.ops.length_eq.symm
    refine .ok ⟨?_, h.valueTypes, h.attrs, h.nextId⟩
    simp only [runDce, hcount]
    exact (matches_congruence.mark _ h.ops).1

omit [DebugText F] [Add F] [Mul F] in
theorem SameModule.tile (h : SameModule hardware tiled m m') :
    SameModule hardware true m (runLoopTiling hardware m') := by
  refine ⟨?_, h.valueTypes, h.attrs, h.nextId⟩
  simp only [runLoopTiling]
  rw [List.forall₂_map_right_iff]
  exact h.ops.imp fun _ _ hop => hop.tile

theorem runPasses_cons (pass : Pass) (passes : List Pass) (r : OmniModule F) :
    runPasses hardware (pass :: passes) r =
      applyPass hardware r pass >>= runPasses hardware passes :=
  List.foldlM_cons

theorem agree_passes (passes : List Pass) (h : SameModule hardware tiled m m') :
    Agree hardware (tiled || decide (.loopTiling ∈ passes))
      (runPasses hardware (passes.filter (· ≠ .loopTiling)) m) (runPasses hardware passes m') := by
  induction passes generalizing tiled m m' with
  | nil =>
    rw [show (tiled || decide (Pass.loopTiling ∈ [])) = tiled by simp]
    exact .ok h
  | cons pass passes ih =>
    by_cases hp : pass = .loopTiling
    · subst hp
      have hflag : (tiled || decide (Pass.loopTiling ∈ Pass.loopTiling :: passes)) = true := by simp
      have hnext := ih h.tile
      rw [Bool.true_or] at hnext
      rw [hflag, List.filter_cons_of_neg (by simp), runPasses_cons]
      exact hnext
    · have hflag : (tiled || decide (Pass.loopTiling ∈ pass :: passes)) =
          (tiled || decide (Pass.loopTiling ∈ passes)) := by
        simp [Ne.symm hp]
      rw [hflag, List.filter_cons_of_pos (by simpa using hp), runPasses_cons, runPasses_cons]
      have hstep := h.step hp
      generalize applyPass hardware m pass = r at hstep ⊢
      generalize applyPass hardware m' pass = r' at hstep ⊢
      cases hstep with
      | ok hnext => exact ih hnext
      | error failure => exact .error failure

theorem run_eq (hardware : HardwareProfile) (m : OmniModule F) :
    PassManager.run hardware m =
      runPasses hardware [.constantFolding, .operatorFusion, .loopTiling, .dce] m := by
  rw [runPasses_cons, PassManager.run]
  rfl

end Order

/-- Wherever tiling stands among any sequence of passes, and however often, the outcome is that
of the other passes, tiled, up to the order of attributes. The pass manager runs one such
sequence for each compilation of a module. -/
theorem tiling_anywhere [DebugText F] [Add F] [Mul F] (hardware : HardwareProfile)
    (m : OmniModule F) :
    PassManager.run hardware m =
        runPasses hardware [.constantFolding, .operatorFusion, .loopTiling, .dce] m ∧
      ∀ passes, Agree hardware (decide (.loopTiling ∈ passes))
        (runPasses hardware (passes.filter (· ≠ .loopTiling)) m)
        (runPasses hardware passes m) := by
  refine ⟨run_eq hardware m, fun passes => ?_⟩
  have hsame : SameModule hardware false m m :=
    ⟨List.forall₂_same.2 fun op _ => .refl op, rfl, rfl, rfl⟩
  simpa using agree_passes passes hsame

end PassOrder
