import OmniCompute.JitEngine
import OmniCompute.LaunchShapes
import OmniCompute.ModuleInvariants
import Mathlib.Data.Set.Function

/-! From a module to a kernel: the passes, then the generator of the hardware. Names of values
link the operations of a module, and leave no other trace in the kernel. -/
namespace Compilation

open RustValues OmniDialect PassManager PassStructure Codegen BackEnds IrLifter JitEngine
open LaunchShapes

section Compile

variable {F : Type} [DebugText F] [Add F] [Mul F]

def compile (hardware : HardwareProfile) (m : OmniModule F) : Result GeneratedKernel := do
  let optimized ← PassManager.run hardware m
  (backEnd hardware.targetBackend).generate optimized

def optimizedOps (hardware : HardwareProfile) (folded : List (OmniOp F)) : List (OmniOp F) :=
  let tiled := (fuse folded).map (tileOp hardware)
  (tiled.foldr (markOp tiled.length) ([], ∅)).1

omit [Add F] [Mul F] in
theorem generate_congr (b : BackEnd) {m m' : OmniModule F} (h : m'.ops = m.ops) :
    b.generate m' = b.generate m := by
  rw [BackEnd.generate_eq, BackEnd.generate_eq, Dialect.generate, Dialect.generate, h]

theorem compile_eq (hardware : HardwareProfile) (m : OmniModule F) :
    compile hardware m = foldOps ∅ m.ops >>= fun folded =>
      (backEnd hardware.targetBackend).generate { m with ops := optimizedOps hardware folded } := by
  rw [compile, PassManager.run, runConstantFolding]
  cases foldOps ∅ m.ops with
  | error failure => rfl
  | ok folded =>
    refine generate_congr _ ?_
    simp only [runDce, runLoopTiling, OmniModule.opCount, runOperatorFusion_ops, optimizedOps]

end Compile

theorem pipeline_compile (hardware : HardwareProfile) (ptx : List UInt8) (kernelId : UInt64) :
    pipeline hardware ptx kernelId =
      ((liftPtx .new ptx kernelId).1 : Result (OmniModule ℚ)) >>= compile hardware :=
  rfl

section Lowering

variable {F : Type} {ops : List (OmniOp F)} {op : OmniOp F}

theorem foldOps_unchanged [Add F] [Mul F] (h : ∀ op ∈ ops, lowerable op.kind = true)
    (inputs : ∀ op ∈ ops, op.kind = .add → op.inputs ≠ []) : foldOps ∅ ops = .ok ops := by
  induction ops with
  | nil => rfl
  | cons op ops ih =>
    have hrest := ih (fun o ho => h o (List.mem_cons_of_mem _ ho))
      (fun o ho => inputs o (List.mem_cons_of_mem _ ho))
    have hop : foldOp ∅ op = .ok (∅, op) := by
      rw [foldOp]
      split
      · next hk => exact absurd (h op List.mem_cons_self) (by rw [hk]; exact Bool.false_ne_true)
      · next hk =>
        obtain ⟨x, xs, hxs⟩ := List.exists_cons_of_ne_nil (inputs op List.mem_cons_self hk)
        rw [foldBinary, hxs]
        exact if_neg (by simp)
      · next hk => exact absurd (h op List.mem_cons_self) (by rw [hk]; exact Bool.false_ne_true)
      · rfl
    rw [foldOps, hop]
    change foldOps ∅ ops >>= _ = _
    rw [hrest]
    rfl

/-- A sum of nothing passes the guard, and the pass reads its first input. -/
theorem foldOps_panics [Add F] [Mul F] {constants : HashMap String F} (hop : op ∈ ops)
    (hk : op.kind = .add) (hin : op.inputs = []) : ∃ failure,
    foldOps constants ops = .error failure := by
  induction ops generalizing constants with
  | nil => cases hop
  | cons o ops ih =>
    rw [foldOps]
    cases hfold : foldOp constants o with
    | error failure => exact ⟨failure, rfl⟩
    | ok next =>
      rcases List.mem_cons.1 hop with rfl | hop
      · simp only [foldOp, hk, foldBinary, hin, constantAt] at hfold
        cases hfold
      · obtain ⟨failure, hrest⟩ := @ih next.1 hop
        refine ⟨failure, ?_⟩
        change foldOps next.1 ops >>= _ = _
        rw [hrest]
        rfl

variable [DebugText F]

theorem fuse_lowerable (h : ∀ op ∈ ops, lowerable op.kind = true) :
    ∀ op ∈ fuse ops, lowerable op.kind = true := by
  induction ops using fuse.induct with
  | case1 => exact h
  | case2 => exact h
  | case3 current next rest hf ih =>
    rw [fuse, if_pos hf]
    intro op hop
    rcases List.mem_cons.1 hop with rfl | hop
    · exact h current List.mem_cons_self
    · exact ih (fun o ho => h o (List.mem_cons_of_mem _ (List.mem_cons_of_mem _ ho))) op hop
  | case4 current next rest hf ih =>
    rw [fuse, if_neg hf]
    intro op hop
    rcases List.mem_cons.1 hop with rfl | hop
    · exact h op List.mem_cons_self
    · exact ih (fun o ho => h o (List.mem_cons_of_mem _ ho)) op hop

theorem lower_lowerable (d : Dialect) (h : lowerable op.kind = true) :
    ∃ e, LoweredTo d op e := by
  cases hlower : d.lower op with
  | ok source => exact ⟨⟨op.id, source⟩, hlower, rfl⟩
  | error failure =>
    rw [Dialect.lower] at hlower
    split at hlower
    all_goals simp_all [lowerable]

theorem generate_lowerable (b : BackEnd) {m : OmniModule F}
    (h : ∀ op ∈ m.ops, lowerable op.kind = true) : ∃ kernel, b.generate m = .ok kernel := by
  have hall : ∃ es, List.Forall₂ (LoweredTo b.dialect) m.ops es := by
    generalize m.ops = ops at h
    induction ops with
    | nil => exact ⟨[], .nil⟩
    | cons op ops ih =>
      obtain ⟨es, hes⟩ := ih fun o ho => h o (List.mem_cons_of_mem _ ho)
      obtain ⟨e, he⟩ := lower_lowerable b.dialect (h op List.mem_cons_self)
      exact ⟨e :: es, .cons he hes⟩
  obtain ⟨es, hes⟩ := hall
  exact ⟨_, (BackEnd.generate_eq b m).trans (generate_iff.mpr ⟨es, hes, rfl⟩)⟩

variable [Add F] [Mul F]

/-- A module of kinds that the generators have an arm for compiles, for any hardware, unless it
sums nothing. -/
theorem compiles_iff (hardware : HardwareProfile) (m : OmniModule F)
    (h : ∀ op ∈ m.ops, lowerable op.kind = true) :
    (∃ kernel, compile hardware m = .ok kernel) ↔
      ∀ op ∈ m.ops, op.kind = .add → op.inputs ≠ [] := by
  constructor
  · rintro ⟨kernel, hkernel⟩ op hop hk hin
    obtain ⟨failure, hfold⟩ := @foldOps_panics F m.ops op _ _ ∅ hop hk hin
    rw [compile_eq, hfold] at hkernel
    cases hkernel
  · intro inputs
    rw [compile_eq, foldOps_unchanged h inputs]
    refine generate_lowerable _ fun op hop => ?_
    obtain ⟨fused, hfused, rfl⟩ := List.mem_map.1 ((mark_sublist _).subset hop)
    rw [tileOp_kind]
    exact fuse_lowerable h fused hfused

end Lowering

def bias : OmniModule ℚ :=
  ⟨[⟨0, .matMul, ["x", "w"], "h", ∅, .dynamic 2 .f32⟩,
    ⟨1, .add, ["h", "b"], "y", ∅, .dynamic 2 .f32⟩], ∅, ∅, 2⟩

theorem compiles_iff_bias : ∃ kernel, compile ⟨.cpuVectorized 8 512⟩ bias = .ok kernel := by
  have hkinds : ∀ op ∈ bias.ops, lowerable op.kind = true := by
    simp [bias, lowerable]
  exact (compiles_iff ⟨.cpuVectorized 8 512⟩ bias hkinds).mpr (by simp [bias])

section Names

variable {F : Type} {σ : String → String} {ops : List (OmniOp F)} {a b op : OmniOp F}

def rename (σ : String → String) (op : OmniOp F) : OmniOp F :=
  { op with inputs := op.inputs.map σ, output := σ op.output }

def names (ops : List (OmniOp F)) : Set String :=
  {x | ∃ op ∈ ops, x = op.output ∨ x ∈ op.inputs}

theorem output_mem_names (h : op ∈ ops) : op.output ∈ names ops := ⟨op, h, .inl rfl⟩

theorem input_mem_names (h : op ∈ ops) {x : String} (hx : x ∈ op.inputs) : x ∈ names ops :=
  ⟨op, h, .inr hx⟩

theorem names_tail (ops : List (OmniOp F)) : names ops ⊆ names (op :: ops) :=
  fun _ ⟨o, ho, hx⟩ => ⟨o, List.mem_cons_of_mem _ ho, hx⟩

theorem mem_rename_iff {s : Set String} (inj : Set.InjOn σ s) {l : List String}
    (hl : ∀ x ∈ l, x ∈ s) {x : String} (hx : x ∈ s) : σ x ∈ l.map σ ↔ x ∈ l := by
  constructor
  · intro h
    obtain ⟨y, hy, heq⟩ := List.mem_map.1 h
    rwa [← inj (hl y hy) hx heq]
  · exact List.mem_map_of_mem

section Folding

variable [Add F] [Mul F] {constants constants' : HashMap String F}

def Renames (σ : String → String) (s : Set String) (constants constants' : HashMap String F) :
    Prop :=
  ∀ x ∈ s, constants'.lookup (σ x) = constants.lookup x

variable {s : Set String}

omit [Add F] [Mul F] in
theorem Renames.insert (h : Renames σ s constants constants') (inj : Set.InjOn σ s) {x : String}
    (hx : x ∈ s) (value : F) : Renames σ s (constants.insert x value)
      (constants'.insert (σ x) value) := by
  intro y hy
  by_cases hxy : y = x
  · rw [hxy, AList.lookup_insert, AList.lookup_insert]
  · rw [AList.lookup_insert_ne hxy, AList.lookup_insert_ne (fun heq => hxy (inj hy hx heq)), h y hy]

omit [Add F] [Mul F] in
theorem constantAt_rename (h : Renames σ s constants constants') (hin : ∀ x ∈ op.inputs, x ∈ s)
    (i : ℕ) : constantAt constants' (rename σ op) i = constantAt constants op i := by
  simp only [constantAt, rename, List.getElem?_map]
  cases hi : op.inputs[i]? with
  | none => rfl
  | some input =>
    simp only [Option.map_some]
    rw [h input (hin input (List.mem_of_getElem? hi))]

omit [Add F] [Mul F] in
theorem foldBinary_rename (combine : F → F → F) (h : Renames σ s constants constants')
    (inj : Set.InjOn σ s) (hout : op.output ∈ s) (hin : ∀ x ∈ op.inputs, x ∈ s) :
    (∃ failure, foldBinary combine constants op = .error failure ∧
      foldBinary combine constants' (rename σ op) = .error failure) ∨
    ∃ next next' folded, foldBinary combine constants op = .ok (next, folded) ∧
      foldBinary combine constants' (rename σ op) = .ok (next', rename σ folded) ∧
      Renames σ s next next' := by
  have hguard : (rename σ op).inputs.all (fun input => (constants'.lookup input).isSome) =
      op.inputs.all (fun input => (constants.lookup input).isSome) := by
    rw [rename, List.all_map, Bool.eq_iff_iff, List.all_eq_true, List.all_eq_true]
    exact forall₂_congr fun x hx => by rw [Function.comp_apply, h x (hin x hx)]
  simp only [foldBinary, hguard, constantAt_rename h hin]
  split
  · cases constantAt constants op 0 with
    | error failure => exact .inl ⟨failure, rfl, rfl⟩
    | ok x =>
      cases constantAt constants op 1 with
      | error failure => exact .inl ⟨failure, rfl, rfl⟩
      | ok y => exact .inr ⟨_, _, _, rfl, rfl, h.insert inj hout _⟩
  · exact .inr ⟨_, _, _, rfl, rfl, h⟩

theorem foldOp_rename (h : Renames σ s constants constants') (inj : Set.InjOn σ s)
    (hout : op.output ∈ s) (hin : ∀ x ∈ op.inputs, x ∈ s) :
    (∃ failure, foldOp constants op = .error failure ∧
      foldOp constants' (rename σ op) = .error failure) ∨
    ∃ next next' folded, foldOp constants op = .ok (next, folded) ∧
      foldOp constants' (rename σ op) = .ok (next', rename σ folded) ∧
      Renames σ s next next' := by
  rw [foldOp, foldOp, show (rename σ op).kind = op.kind from rfl]
  cases op.kind with
  | fill value => exact .inr ⟨_, _, _, rfl, rfl, h.insert inj hout value⟩
  | add => exact foldBinary_rename _ h inj hout hin
  | mul => exact foldBinary_rename _ h inj hout hin
  | _ => exact .inr ⟨_, _, _, rfl, rfl, h⟩

theorem foldOps_rename (h : Renames σ s constants constants') (inj : Set.InjOn σ s)
    (hs : names ops ⊆ s) :
    foldOps constants' (ops.map (rename σ)) =
      (foldOps constants ops).map (List.map (rename σ)) := by
  induction ops generalizing constants constants' with
  | nil => rfl
  | cons op ops ih =>
    have hstep := foldOp_rename h inj (hs (output_mem_names List.mem_cons_self))
      fun x hx => hs (input_mem_names List.mem_cons_self hx)
    rw [List.map_cons, foldOps, foldOps]
    rcases hstep with ⟨failure, hl, hr⟩ | ⟨next, next', folded, hl, hr, hnext⟩
    · rw [hl, hr]
      rfl
    · rw [hl, hr]
      change foldOps next' _ >>= _ = Except.map _ (foldOps next ops >>= _)
      rw [ih hnext ((names_tail ops).trans hs)]
      cases foldOps next ops <;> rfl

theorem foldOps_names {folded : List (OmniOp F)} (h : foldOps constants ops = .ok folded) :
    names folded ⊆ names ops := by
  induction ops generalizing constants folded with
  | nil =>
    cases h
    exact subset_rfl
  | cons op ops ih =>
    rw [foldOps] at h
    cases hop : foldOp constants op with
    | error failure => simp [hop, bind, Except.bind] at h
    | ok next =>
      cases hrest : foldOps next.1 ops with
      | error failure => simp [hop, hrest, bind, Except.bind] at h
      | ok rest =>
        simp only [hop, hrest, bind, Except.bind, Except.ok.injEq] at h
        subst h
        obtain ⟨kind, hkind⟩ := ModuleInvariants.foldOp_shape hop
        rintro x ⟨o, ho, hx⟩
        rcases List.mem_cons.1 ho with rfl | ho
        · rw [hkind] at hx
          exact ⟨op, List.mem_cons_self, hx⟩
        · exact names_tail ops (ih hrest ⟨o, ho, hx⟩)

end Folding

section Fusion

variable [DebugText F]

omit [DebugText F] in
theorem fuses_rename {s : Set String} (inj : Set.InjOn σ s) (hout : a.output ∈ s)
    (hin : ∀ x ∈ b.inputs, x ∈ s) : fuses (rename σ a) (rename σ b) = fuses a b := by
  have hreads : (b.inputs.map σ).contains (σ a.output) = b.inputs.contains a.output := by
    rw [Bool.eq_iff_iff, List.contains_iff_mem, List.contains_iff_mem]
    exact mem_rename_iff inj hin hout
  simp only [fuses, rename, hreads]

theorem fusedOp_rename {s : Set String} (inj : Set.InjOn σ s) (hout : a.output ∈ s)
    (hin : ∀ x ∈ b.inputs, x ∈ s) :
    fusedOp (rename σ a) (rename σ b) = rename σ (fusedOp a b) := by
  have hkeep : (b.inputs.map σ).filter (· != σ a.output) =
      (b.inputs.filter (· != a.output)).map σ := by
    rw [List.filter_map]
    congr 1
    refine List.filter_congr fun x hx => ?_
    rw [Function.comp_apply, Bool.eq_iff_iff, bne_iff_ne, bne_iff_ne]
    exact not_congr (inj.eq_iff (hin x hx) hout)
  simp only [fusedOp, rename, hkeep]
  split
  · rw [List.map_append]
  · rfl

theorem fusedOp_names {rest : List (OmniOp F)} :
    names (fusedOp a b :: rest) ⊆ names (a :: b :: rest) := by
  rintro x ⟨op, hop, hx⟩
  rcases List.mem_cons.1 hop with rfl | hop
  · rcases hx with rfl | hx
    · exact ⟨b, List.mem_cons_of_mem _ List.mem_cons_self, .inl rfl⟩
    · rw [fusedOp] at hx
      split at hx
      · rcases List.mem_append.1 hx with hx | hx
        · exact input_mem_names List.mem_cons_self hx
        · exact input_mem_names (List.mem_cons_of_mem _ List.mem_cons_self)
            (List.mem_of_mem_filter hx)
      · exact input_mem_names List.mem_cons_self hx
  · exact ⟨op, List.mem_cons_of_mem _ (List.mem_cons_of_mem _ hop), hx⟩

theorem fuse_rename (inj : Set.InjOn σ (names ops)) :
    fuse (ops.map (rename σ)) = (fuse ops).map (rename σ) := by
  induction ops using fuse.induct with
  | case1 => rfl
  | case2 => rfl
  | case3 current next rest hf ih =>
    have hout := output_mem_names (List.mem_cons_self : current ∈ current :: next :: rest)
    have hin : ∀ x ∈ next.inputs, x ∈ names (current :: next :: rest) := fun x =>
      input_mem_names (List.mem_cons_of_mem _ List.mem_cons_self)
    have hpair := (fuses_rename inj hout hin).trans hf
    rw [List.map_cons, List.map_cons, fuse, fuse, if_pos hpair, if_pos hf, List.map_cons,
      fusedOp_rename inj hout hin, ih (inj.mono ((names_tail _).trans (names_tail _)))]
  | case4 current next rest hf ih =>
    have hout := output_mem_names (List.mem_cons_self : current ∈ current :: next :: rest)
    have hin : ∀ x ∈ next.inputs, x ∈ names (current :: next :: rest) := fun x =>
      input_mem_names (List.mem_cons_of_mem _ List.mem_cons_self)
    have hpair : ¬ fuses (rename σ current) (rename σ next) = true := by
      rwa [fuses_rename inj hout hin]
    rw [List.map_cons, List.map_cons, fuse, fuse, if_neg hpair, if_neg hf, List.map_cons]
    exact congrArg _ (ih (inj.mono (names_tail _)))

theorem fuse_names : names (fuse ops) ⊆ names ops := by
  induction ops using fuse.induct with
  | case1 => exact subset_rfl
  | case2 => exact subset_rfl
  | case3 current next rest hf ih =>
    rw [fuse, if_pos hf]
    rintro x ⟨op, hop, hx⟩
    rcases List.mem_cons.1 hop with rfl | hop
    · exact fusedOp_names ⟨_, List.mem_cons_self, hx⟩
    · exact names_tail _ (names_tail _ (ih ⟨op, hop, hx⟩))
  | case4 current next rest hf ih =>
    rw [fuse, if_neg hf]
    rintro x ⟨op, hop, hx⟩
    rcases List.mem_cons.1 hop with rfl | hop
    · exact ⟨op, List.mem_cons_self, hx⟩
    · exact names_tail _ (ih ⟨op, hop, hx⟩)

end Fusion

section Sweep

variable {n : ℕ}

theorem mark_rename (inj : Set.InjOn σ (names ops)) :
    (∀ x ∈ (ops.foldr (markOp n) ([], ∅)).2, x ∈ names ops) ∧
    (ops.map (rename σ)).foldr (markOp n) ([], ∅) =
      ((ops.foldr (markOp n) ([], ∅)).1.map (rename σ),
        (ops.foldr (markOp n) ([], ∅)).2.image σ) := by
  induction ops with
  | nil => exact ⟨by simp, rfl⟩
  | cons op ops ih =>
    obtain ⟨hsub, hrest⟩ := ih (inj.mono (names_tail ops))
    have hactive : σ op.output ∈ (ops.foldr (markOp n) ([], ∅)).2.image σ ↔
        op.output ∈ (ops.foldr (markOp n) ([], ∅)).2 := by
      constructor
      · intro h
        obtain ⟨x, hx, heq⟩ := Finset.mem_image.1 h
        rwa [← inj (names_tail ops (hsub x hx)) (output_mem_names List.mem_cons_self) heq]
      · exact Finset.mem_image_of_mem σ
    have hroot : (rename σ op).id = op.id := rfl
    have hout : (rename σ op).output = σ op.output := rfl
    rw [List.map_cons, List.foldr_cons, List.foldr_cons, hrest]
    simp only [markOp, hroot, hout, hactive]
    split
    · refine ⟨fun x hx => ?_, ?_⟩
      · rcases Finset.mem_union.1 hx with hx | hx
        · exact names_tail ops (hsub x hx)
        · exact input_mem_names List.mem_cons_self (List.mem_toFinset.1 hx)
      · have hinputs : (rename σ op).inputs.toFinset = op.inputs.toFinset.image σ := by
          ext x
          simp [rename]
        rw [Finset.image_union, hinputs, List.map_cons]
    · exact ⟨fun x hx => names_tail ops (hsub x hx), rfl⟩

end Sweep

section Kernels

variable [DebugText F] [Add F] [Mul F] {hardware : HardwareProfile} {m m' : OmniModule F}

omit [DebugText F] [Add F] [Mul F] in
theorem tileOp_rename (op : OmniOp F) :
    tileOp hardware (rename σ op) = rename σ (tileOp hardware op) := by
  cases hk : op.kind.isMatMul with
  | true => simp only [tileOp, rename, hk, if_true]
  | false => simp only [tileOp, rename, hk, Bool.false_eq_true, if_false]

omit [DebugText F] [Add F] [Mul F] in
theorem tileOp_names : names (ops.map (tileOp hardware)) = names ops := by
  ext x
  simp [names, tileOp_inputs, tileOp_output]

omit [Add F] [Mul F] in
theorem optimizedOps_rename (inj : Set.InjOn σ (names ops)) :
    optimizedOps hardware (ops.map (rename σ)) = (optimizedOps hardware ops).map (rename σ) := by
  have htiled : (fuse (ops.map (rename σ))).map (tileOp hardware) =
      ((fuse ops).map (tileOp hardware)).map (rename σ) := by
    rw [fuse_rename inj, List.map_map, List.map_map]
    exact List.map_congr_left fun op _ => tileOp_rename op
  have hnames : Set.InjOn σ (names ((fuse ops).map (tileOp hardware))) := by
    rw [tileOp_names]
    exact inj.mono fuse_names
  simp only [optimizedOps, htiled, List.length_map]
  rw [(mark_rename hnames).2]

omit [Add F] [Mul F] in
theorem generate_rename (b : BackEnd) (h : m'.ops = m.ops.map (rename σ)) :
    b.generate m' = b.generate m := by
  rw [BackEnd.generate_eq, BackEnd.generate_eq, Dialect.generate, Dialect.generate, h,
    List.foldlM_map]
  rfl

theorem compile_rename (hardware : HardwareProfile) (h : m'.ops = m.ops.map (rename σ))
    (inj : Set.InjOn σ (names m.ops)) : compile hardware m' = compile hardware m := by
  have hfold : foldOps ∅ m'.ops = (foldOps ∅ m.ops).map (List.map (rename σ)) := by
    rw [h]
    exact foldOps_rename (fun x _ => by simp) inj subset_rfl
  rw [compile_eq, compile_eq, hfold]
  cases hok : foldOps ∅ m.ops with
  | error failure => rfl
  | ok folded => exact generate_rename _ (optimizedOps_rename (inj.mono (foldOps_names hok)))

end Kernels

/-- Renaming the values of a module, so that different ones keep different names, changes neither
its kernel nor the failure it ends in. -/
theorem names_erased [DebugText F] [Add F] [Mul F] (hardware : HardwareProfile)
    (m m' : OmniModule F) (h : m'.ops = m.ops.map (rename σ)) (inj : Set.InjOn σ (names m.ops)) :
    compile hardware m' = compile hardware m :=
  compile_rename hardware h inj

end Names

theorem names_erased_bias :
    compile ⟨.cpuVectorized 8 512⟩ { bias with ops := bias.ops.map (rename ("%" ++ ·)) } =
      compile ⟨.cpuVectorized 8 512⟩ bias :=
  names_erased ⟨.cpuVectorized 8 512⟩ bias _ rfl fun _ _ _ _ h => String.append_right_inj _ |>.1 h

end Compilation
