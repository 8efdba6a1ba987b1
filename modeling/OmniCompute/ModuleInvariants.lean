import OmniCompute.PassStructure

/-! What one module keeps through any sequence of `push_op` calls and passes. A pass can only
drop ids and result types from their two lists, never make or move one, and it leaves the
counter and the type table alone. -/
namespace ModuleInvariants

open RustValues OmniDialect PassManager PassStructure

variable {F : Type}

inductive Step (F : Type) where
  | push (op : OmniOp F)
  | constantFolding
  | operatorFusion
  | loopTiling (hardware : HardwareProfile)
  | dce

def apply [Add F] [Mul F] [DebugText F] (m : OmniModule F) : Step F → Result (OmniModule F)
  | .push op => .ok (m.pushOp op)
  | .constantFolding => runConstantFolding m
  | .operatorFusion => .ok (runOperatorFusion m)
  | .loopTiling hardware => .ok (runLoopTiling hardware m)
  | .dce => .ok (runDce m)

/-- The module after the steps; a constant folding that panics is the last one. -/
def runSteps [Add F] [Mul F] [DebugText F] (steps : List (Step F)) : Result (OmniModule F) :=
  steps.foldlM apply .new

def pushedOutput : Step F → Option String
  | .push op => some op.output
  | _ => none

def FreshOutputs (steps : List (Step F)) : Prop := (steps.filterMap pushedOutput).Nodup

def pushes (steps : List (Step F)) : ℕ := (steps.filterMap pushedOutput).length

structure Structured (m : OmniModule F) : Prop where
  increasing : m.ops.Pairwise fun a b => a.id < b.id
  below : ∀ op ∈ m.ops, op.id < m.nextId
  distinct : (m.ops.map OmniOp.output).Nodup
  typed : ∀ op ∈ m.ops, m.valueTypes.lookup op.output = some op.resultType

def result (op : OmniOp F) : String × TensorType := (op.output, op.resultType)

/-- All a pass may do to a module, as far as its structure goes. -/
structure Narrows (m m' : OmniModule F) : Prop where
  ids : (m'.ops.map OmniOp.id).Sublist (m.ops.map OmniOp.id)
  results : (m'.ops.map result).Sublist (m.ops.map result)
  valueTypes : m'.valueTypes = m.valueTypes
  nextId : m'.nextId = m.nextId

section Passes

variable {m m' : OmniModule F}

theorem narrows_map {f : OmniOp F → OmniOp F} (hid : ∀ op, (f op).id = op.id)
    (hres : ∀ op, result (f op) = result op) : Narrows m { m with ops := m.ops.map f } := by
  refine ⟨?_, ?_, rfl, rfl⟩
  · rw [List.map_map, show OmniOp.id ∘ f = OmniOp.id from funext hid]
  · rw [List.map_map, show result ∘ f = result from funext hres]

theorem narrows_sublist {ops : List (OmniOp F)} (h : ops.Sublist m.ops) :
    Narrows m { m with ops := ops } :=
  ⟨h.map _, h.map _, rfl, rfl⟩

theorem narrows_tiling (hardware : HardwareProfile) : Narrows m (runLoopTiling hardware m) :=
  narrows_map (tileOp_id hardware) fun op =>
    Prod.ext (tileOp_output hardware op) (tileOp_resultType hardware op)

theorem narrows_dce : Narrows m (runDce m) := narrows_sublist (mark_sublist m.ops)

theorem narrows_fusion [DebugText F] : Narrows m (runOperatorFusion m) := by
  refine ⟨?_, ?_, ?_, ?_⟩
  · rw [runOperatorFusion_ops]
    exact fuse_map_sublist OmniOp.id (fun _ _ => .inl rfl) m.ops
  · rw [runOperatorFusion_ops]
    exact fuse_map_sublist result (fun _ _ => .inr rfl) m.ops
  · rw [runOperatorFusion]
    split <;> rfl
  · rw [runOperatorFusion]
    split <;> rfl

variable [Add F] [Mul F]

theorem foldOp_shape {constants constants' : HashMap String F} {op op' : OmniOp F}
    (h : foldOp constants op = .ok (constants', op')) : ∃ kind, op' = { op with kind := kind } := by
  have hbinary : ∀ combine : F → F → F,
      foldBinary combine constants op = .ok (constants', op') →
      ∃ kind, op' = { op with kind := kind } := by
    intro combine hb
    rw [foldBinary] at hb
    split at hb
    · cases ha : constantAt constants op 0 with
      | error failure => simp [ha, bind, Except.bind] at hb
      | ok a =>
        cases hc : constantAt constants op 1 with
        | error failure => simp [ha, hc, bind, Except.bind] at hb
        | ok b =>
          simp only [ha, hc, bind, Except.bind, Except.ok.injEq, Prod.mk.injEq] at hb
          exact ⟨_, hb.2.symm⟩
    · simp only [Except.ok.injEq, Prod.mk.injEq] at hb
      exact ⟨op.kind, hb.2.symm⟩
  rw [foldOp] at h
  split at h
  · simp only [Except.ok.injEq, Prod.mk.injEq] at h
    exact ⟨op.kind, h.2.symm⟩
  · exact hbinary _ h
  · exact hbinary _ h
  · simp only [Except.ok.injEq, Prod.mk.injEq] at h
    exact ⟨op.kind, h.2.symm⟩

theorem foldOps_shape {constants : HashMap String F} {ops ops' : List (OmniOp F)}
    (h : foldOps constants ops = .ok ops') :
    ops'.map OmniOp.id = ops.map OmniOp.id ∧ ops'.map result = ops.map result := by
  induction ops generalizing constants ops' with
  | nil =>
    cases h
    exact ⟨rfl, rfl⟩
  | cons op rest ih =>
    rw [foldOps] at h
    cases hop : foldOp constants op with
    | error failure => simp [hop, bind, Except.bind] at h
    | ok folded =>
      cases hrest : foldOps folded.1 rest with
      | error failure => simp [hop, hrest, bind, Except.bind] at h
      | ok rest' =>
        simp only [hop, hrest, bind, Except.bind, Except.ok.injEq] at h
        obtain ⟨kind, hkind⟩ := foldOp_shape hop
        obtain ⟨hid, hres⟩ := ih hrest
        subst h
        rw [List.map_cons, List.map_cons, List.map_cons, List.map_cons, hid, hres, hkind]
        exact ⟨rfl, rfl⟩

theorem narrows_folding (h : runConstantFolding m = .ok m') : Narrows m m' := by
  rw [runConstantFolding] at h
  cases hops : foldOps ∅ m.ops with
  | error failure => simp [hops, bind, Except.bind] at h
  | ok ops =>
    simp only [hops, bind, Except.bind, Except.ok.injEq] at h
    obtain ⟨hid, hres⟩ := foldOps_shape hops
    subst h
    exact ⟨hid ▸ List.Sublist.refl _, hres ▸ List.Sublist.refl _, rfl, rfl⟩

end Passes

section Runs

/-- The invariant of a run: what is promised, where the counter stands, and that every name
still in use was brought by some `push_op`. -/
structure Invariant (steps : List (Step F)) (m : OmniModule F) : Prop where
  structured : Structured m
  counter : m.nextId = UInt64.ofNat (pushes steps)
  brought : ∀ op ∈ m.ops, op.output ∈ steps.filterMap pushedOutput

variable {m m' : OmniModule F} {steps : List (Step F)}

theorem Structured.narrow (h : Structured m) (hn : Narrows m m') : Structured m' := by
  have hmem : ∀ op' ∈ m'.ops, ∃ op ∈ m.ops, result op = result op' := by
    intro op' hop'
    exact List.mem_map.mp (hn.results.subset (List.mem_map_of_mem hop'))
  constructor
  · exact List.pairwise_map.mp ((List.pairwise_map.mpr h.increasing).sublist hn.ids)
  · intro op' hop'
    obtain ⟨op, hop, hid⟩ := List.mem_map.mp (hn.ids.subset (List.mem_map_of_mem hop'))
    rw [hn.nextId, ← hid]
    exact h.below op hop
  · have hs := hn.results.map Prod.fst
    rw [List.map_map, List.map_map] at hs
    exact hs.nodup h.distinct
  · intro op' hop'
    obtain ⟨op, hop, hres⟩ := hmem op' hop'
    have hname : op.output = op'.output := congrArg Prod.fst hres
    have htype : op.resultType = op'.resultType := congrArg Prod.snd hres
    rw [hn.valueTypes, ← hname, ← htype]
    exact h.typed op hop

theorem Invariant.narrow {step : Step F} (h : Invariant steps m) (hn : Narrows m m')
    (hstep : pushedOutput step = none) : Invariant (steps ++ [step]) m' := by
  have hpushed : (steps ++ [step]).filterMap pushedOutput = steps.filterMap pushedOutput := by
    simp [hstep]
  refine ⟨h.structured.narrow hn, ?_, ?_⟩
  · rw [hn.nextId, h.counter, pushes, pushes, hpushed]
  · intro op' hop'
    obtain ⟨op, hop, hres⟩ := List.mem_map.mp (hn.results.subset (List.mem_map_of_mem hop'))
    have hname : op.output = op'.output := congrArg Prod.fst hres
    rw [hpushed, ← hname]
    exact h.brought op hop

theorem invariant_new : Invariant ([] : List (Step F)) .new := by
  refine ⟨⟨List.Pairwise.nil, ?_, List.nodup_nil, ?_⟩, rfl, ?_⟩ <;>
    · intro op hop
      cases hop

theorem Invariant.push {op : OmniOp F} (h : Invariant steps m)
    (fresh : op.output ∉ steps.filterMap pushedOutput) (few : pushes steps + 1 < 2 ^ 64) :
    Invariant (steps ++ [.push op]) (m.pushOp op) := by
  have hunused : op.output ∉ m.ops.map OmniOp.output := by
    intro hmem
    obtain ⟨old, hold, heq⟩ := List.mem_map.mp hmem
    exact fresh (heq ▸ h.brought old hold)
  have hcount : pushes (steps ++ [.push op]) = pushes steps + 1 := by
    simp [pushes, pushedOutput]
  have hnext : m.nextId < m.nextId + 1 := by
    rw [h.counter, ← UInt64.ofNat_one, ← UInt64.ofNat_add, UInt64.lt_iff_toNat_lt,
      UInt64.toNat_ofNat_of_lt' (show pushes steps < 2 ^ 64 by omega),
      UInt64.toNat_ofNat_of_lt' few]
    exact Nat.lt_succ_self _
  refine ⟨⟨?_, ?_, ?_, ?_⟩, ?_, ?_⟩
  · apply List.pairwise_append.mpr
    refine ⟨h.structured.increasing, List.pairwise_singleton _ _, ?_⟩
    intro a ha b hb
    rw [List.mem_singleton.mp hb]
    exact h.structured.below a ha
  · intro a ha
    rcases List.mem_append.mp ha with ha | ha
    · exact UInt64.lt_trans (h.structured.below a ha) hnext
    · rw [List.mem_singleton.mp ha]
      exact hnext
  · simp only [OmniModule.pushOp, List.map_append, List.map_cons, List.map_nil]
    exact List.nodup_append.mpr ⟨h.structured.distinct, List.nodup_singleton _, by
      intro a ha b hb
      rw [List.mem_singleton.mp hb]
      exact ne_of_mem_of_not_mem ha hunused⟩
  · intro a ha
    rcases List.mem_append.mp ha with ha | ha
    · have hne : a.output ≠ op.output :=
        ne_of_mem_of_not_mem (List.mem_map_of_mem ha) hunused
      exact (AList.lookup_insert_ne hne).trans (h.structured.typed a ha)
    · rw [List.mem_singleton.mp ha]
      exact AList.lookup_insert _
  · rw [hcount, UInt64.ofNat_add, ← h.counter]
    rfl
  · intro a ha
    rw [List.filterMap_append]
    rcases List.mem_append.mp ha with ha | ha
    · exact List.mem_append_left _ (h.brought a ha)
    · rw [List.mem_singleton.mp ha]
      exact List.mem_append_right _ List.mem_cons_self

variable [Add F] [Mul F] [DebugText F]

theorem Invariant.step {step : Step F} (h : Invariant steps m) (hm : apply m step = .ok m')
    (fresh : FreshOutputs (steps ++ [step])) (few : pushes (steps ++ [step]) < 2 ^ 64) :
    Invariant (steps ++ [step]) m' := by
  cases step with
  | push op =>
    cases hm
    have hcount : pushes (steps ++ [.push op]) = pushes steps + 1 := by
      simp [pushes, pushedOutput]
    rw [FreshOutputs, List.filterMap_append] at fresh
    apply h.push
    · intro hmem
      exact (List.nodup_append.mp fresh).2.2 _ hmem _ List.mem_cons_self rfl
    · rwa [← hcount]
  | constantFolding => exact h.narrow (narrows_folding hm) rfl
  | operatorFusion =>
    cases hm
    exact h.narrow narrows_fusion rfl
  | loopTiling hardware =>
    cases hm
    exact h.narrow (narrows_tiling hardware) rfl
  | dce =>
    cases hm
    exact h.narrow narrows_dce rfl

theorem invariant_steps (fresh : FreshOutputs steps) (few : pushes steps < 2 ^ 64)
    (hm : runSteps steps = .ok m) : Invariant steps m := by
  induction steps using List.reverseRecOn generalizing m with
  | nil =>
    cases hm
    exact invariant_new
  | append_singleton steps step ih =>
    rw [runSteps, List.foldlM_append] at hm
    cases hbefore : steps.foldlM apply .new with
    | error failure => simp [hbefore, bind, Except.bind] at hm
    | ok before =>
      simp only [hbefore, bind, Except.bind, List.foldlM_cons, List.foldlM_nil] at hm
      have hlast : apply before step = .ok m := by
        cases hlast : apply before step with
        | error failure => simp [hlast] at hm
        | ok after =>
          simp only [hlast] at hm
          exact hm
      have hfront : steps.filterMap pushedOutput <+: (steps ++ [step]).filterMap pushedOutput := by
        rw [List.filterMap_append]
        exact List.prefix_append _ _
      apply (ih (hfront.sublist.nodup fresh) ?_ hbefore).step hlast fresh few
      exact Nat.lt_of_le_of_lt hfront.length_le few

end Runs

/-- Every pushed operation brings a key of its own to the type table, so `few` is what any
sequence meets whose table fits in memory. -/
theorem structure_preserved [Add F] [Mul F] [DebugText F] (steps : List (Step F))
    (fresh : FreshOutputs steps) (few : pushes steps < 2 ^ 64) (m : OmniModule F)
    (ran : runSteps steps = .ok m) : Structured m :=
  (invariant_steps fresh few ran).structured

def copyOp (i : ℕ) : OmniOp ℚ :=
  ⟨0, .memCopy, ["x"], String.ofList (Nat.toDigits 10 i), ∅, .staticTensor [1] .f32⟩

def interleaved : List (Step ℚ) :=
  [.push (copyOp 0), .dce, .operatorFusion, .push (copyOp 1), .constantFolding,
    .loopTiling ⟨.cpuVectorized 1 1⟩, .dce]

theorem structure_preserved_interleaved :
    ∃ m, runSteps interleaved = .ok m ∧ m.ops.length = 1 ∧ Structured m := by
  have fresh : FreshOutputs interleaved := by
    rw [FreshOutputs]
    decide +kernel
  have hlen : (runSteps interleaved).toOption.map (fun m => m.ops.length) = some 1 := by
    decide +kernel
  cases hm : runSteps interleaved with
  | error failure =>
    rw [hm] at hlen
    cases hlen
  | ok m =>
    rw [hm] at hlen
    exact ⟨m, rfl, Option.some.inj hlen,
      structure_preserved interleaved fresh (by decide +kernel) m hm⟩

end ModuleInvariants
