import OmniCompute.BackEnds

/-! The loop of a generator over a whole module. Texts are appended, names overwritten, and the
block size is whatever the last operation that set one left behind. -/
namespace LaunchShapes

open RustValues OmniDialect Codegen BackEnds

section Loop

structure Emission where
  id : UInt64
  source : KernelSource
  deriving DecidableEq

def Emission.name (e : Emission) : String := e.source.entryPoint e.id

variable {F : Type} [DebugText F] (d : Dialect)

def LoweredTo (op : OmniOp F) (e : Emission) : Prop := d.lower op = .ok e.source ∧ e.id = op.id

def append (out : Output) (e : Emission) : Output :=
  ⟨out.code ++ d.text e.name e.source, e.name, d.blockSize out.blockSize e.source⟩

def returned (out : Output) : GeneratedKernel := ⟨out.kernelName, out.code.toUTF8, out.blockSize⟩

variable {d} {out out' : Output} {op : OmniOp F} {ops : List (OmniOp F)}

theorem emit_iff : d.emit out op = .ok out' ↔ ∃ e, LoweredTo d op e ∧ out' = append d out e := by
  rw [Dialect.emit]
  cases hlower : d.lower op with
  | error failure =>
    constructor
    · intro h
      cases h
    · rintro ⟨e, ⟨hok, _⟩, _⟩
      cases hlower.symm.trans hok
  | ok source =>
    constructor
    · intro h
      exact ⟨⟨op.id, source⟩, ⟨hlower, rfl⟩, (Except.ok.inj h).symm⟩
    · rintro ⟨⟨id, source'⟩, ⟨hok, rfl⟩, rfl⟩
      obtain rfl := Except.ok.inj (hlower.symm.trans hok)
      rfl

theorem emits_iff : ops.foldlM d.emit out = .ok out' ↔
    ∃ es, List.Forall₂ (LoweredTo d) ops es ∧ out' = es.foldl (append d) out := by
  induction ops generalizing out with
  | nil =>
    constructor
    · intro h
      exact ⟨[], .nil, (Except.ok.inj h).symm⟩
    · rintro ⟨es, hes, rfl⟩
      cases hes
      rfl
  | cons op ops ih =>
    rw [List.foldlM_cons]
    constructor
    · intro h
      cases hemit : d.emit out op with
      | error failure =>
        rw [hemit] at h
        cases h
      | ok next =>
        rw [hemit] at h
        obtain ⟨e, he, rfl⟩ := emit_iff.mp hemit
        obtain ⟨es, hes, rfl⟩ := ih.mp h
        exact ⟨e :: es, .cons he hes, rfl⟩
    · rintro ⟨_, hes, rfl⟩
      cases hes with
      | cons he hes =>
        rw [emit_iff.mpr ⟨_, he, rfl⟩]
        exact ih.mpr ⟨_, hes, rfl⟩

theorem generate_iff {m : OmniModule F} {k : GeneratedKernel} : d.generate m = .ok k ↔
    ∃ es, List.Forall₂ (LoweredTo d) m.ops es ∧ k = returned (es.foldl (append d) d.start) := by
  rw [Dialect.generate]
  cases hrun : m.ops.foldlM d.emit d.start with
  | error failure =>
    constructor
    · intro h
      cases h
    · rintro ⟨es, hes, _⟩
      cases hrun.symm.trans (emits_iff.mpr ⟨es, hes, rfl⟩)
  | ok out =>
    obtain ⟨es, hes, rfl⟩ := emits_iff.mp hrun
    constructor
    · intro h
      exact ⟨es, hes, (Except.ok.inj h).symm⟩
    · rintro ⟨es', hes', rfl⟩
      have heq := hrun.symm.trans (emits_iff.mpr ⟨es', hes', rfl⟩)
      rw [← Except.ok.inj heq]
      rfl

end Loop

section Blocks

variable {F : Type} [DebugText F] {d : Dialect} {op : OmniOp F} {e : Emission}
  {es : List Emission} {out : Output}

def isProduct : KernelSource → Bool
  | .matMul _ => true
  | _ => false

theorem LoweredTo.isProduct_eq (h : LoweredTo d op e) :
    isProduct e.source = op.kind.isMatMul := by
  rcases lower_cases d h.1 with ⟨hk, _, hs, _⟩ | ⟨hk, hs⟩ | ⟨hk, hs⟩ | ⟨_, hk, hs⟩ <;>
    rw [hs, hk] <;> rfl

def TypeNames (P : String → Prop) : KernelSource → Prop
  | .matMul k => P k.datatype
  | .relu datatype => P datatype
  | .add datatype => P datatype
  | .fallback _ => True

theorem LoweredTo.typeNames {P : String → Prop} (h : LoweredTo d op e)
    (hdt : P (d.datatype op.resultType.elementType)) : TypeNames P e.source := by
  rcases lower_cases d h.1 with ⟨_, k, hs, hk⟩ | ⟨_, hs⟩ | ⟨_, hs⟩ | ⟨_, _, hs⟩
  · rw [hs, TypeNames, hk]
    exact hdt
  · rw [hs]
    exact hdt
  · rw [hs]
    exact hdt
  · rw [hs]
    trivial

theorem products_iff {ops : List (OmniOp F)}
    (h : List.Forall₂ (LoweredTo d) ops es) :
    (∃ e ∈ es, isProduct e.source = true) ↔ ∃ op ∈ ops, op.kind.isMatMul = true := by
  induction h with
  | nil => simp
  | cons he _ ih =>
    simp only [List.mem_cons, exists_eq_or_imp, ih, he.isProduct_eq]

theorem block_append : (append d out e).blockSize =
    if isProduct e.source = true then d.matMulBlock else d.flatBlock.getD out.blockSize := by
  cases hs : e.source <;> simp [append, Dialect.blockSize, hs, isProduct]

/-- Without a block size of their own, the other kernels keep that of the last product. -/
theorem block_kept (hflat : d.flatBlock = none) :
    (es.foldl (append d) out).blockSize =
      if ∃ e ∈ es, isProduct e.source = true then d.matMulBlock else out.blockSize := by
  induction es generalizing out with
  | nil => simp
  | cons e es ih =>
    rw [List.foldl_cons, ih, block_append, hflat]
    by_cases he : isProduct e.source = true <;> simp [he]

theorem default_kept_iff {ops : List (OmniOp F)} (hflat : d.flatBlock = none)
    (hne : d.matMulBlock ≠ d.defaultBlock) (hes : List.Forall₂ (LoweredTo d) ops es) :
    (es.foldl (append d) d.start).blockSize = d.defaultBlock ↔
      ∀ op ∈ ops, op.kind.isMatMul = false := by
  rw [block_kept hflat]
  change (if _ then _ else d.defaultBlock) = _ ↔ _
  split
  · rename_i h
    obtain ⟨op, hop, hm⟩ := (products_iff hes).mp h
    refine iff_of_false hne ?_
    intro hall
    rw [hall op hop] at hm
    cases hm
  · rename_i h
    refine iff_of_true rfl ?_
    intro op hop
    exact Bool.eq_false_iff.mpr fun hm => h ((products_iff hes).mpr ⟨op, hop, hm⟩)

end Blocks

section Shapes

variable {F : Type} [DebugText F] {b : BackEnd} {m alone : OmniModule F} {ops : List (OmniOp F)}
  {o : OmniOp F} {k : GeneratedKernel}

theorem generate_split (hops : m.ops = ops ++ [o]) (h : b.generate m = .ok k) :
    ∃ es e, List.Forall₂ (LoweredTo b.dialect) ops es ∧ LoweredTo b.dialect o e ∧
      k = returned (append b.dialect (es.foldl (append b.dialect) b.dialect.start) e) := by
  rw [BackEnd.generate_eq] at h
  obtain ⟨all, hall, rfl⟩ := generate_iff.mp h
  have hrev := List.forall₂_reverse_iff.mpr hall
  rw [hops, List.reverse_append] at hrev
  obtain ⟨e, back, he, hback, heq⟩ := List.forall₂_cons_left_iff.mp hrev
  obtain rfl : all = back.reverse ++ [e] := by simpa using congrArg List.reverse heq
  refine ⟨back.reverse, e, ?_, he, ?_⟩
  · simpa using List.forall₂_reverse_iff.mpr hback
  · rw [List.foldl_append]
    rfl

theorem generate_alone {e : Emission} (hops : alone.ops = [o]) (he : LoweredTo b.dialect o e) :
    b.generate alone = .ok (returned (append b.dialect b.dialect.start e)) := by
  rw [BackEnd.generate_eq, generate_single _ hops, he.1, ← he.2]
  rfl

theorem block_eq_iff {es : List Emission} {e : Emission}
    (hes : List.Forall₂ (LoweredTo b.dialect) ops es) (he : LoweredTo b.dialect o e) :
    (append b.dialect (es.foldl (append b.dialect) b.dialect.start) e).blockSize =
        (append b.dialect b.dialect.start e).blockSize ↔
      b = .spirv ∨ o.kind.isMatMul = true ∨ ∀ op ∈ ops, op.kind.isMatMul = false := by
  rw [block_append, block_append, he.isProduct_eq]
  cases ho : o.kind.isMatMul with
  | true => simp
  | false =>
    simp only [Bool.false_eq_true, if_false, false_or]
    cases b with
    | amdGpu =>
      have hflat : BackEnd.amdGpu.dialect.flatBlock = none := rfl
      rw [hflat, Option.getD_none, Option.getD_none]
      exact (default_kept_iff hflat (by decide) hes).trans (by simp)
    | metal =>
      have hflat : BackEnd.metal.dialect.flatBlock = none := rfl
      rw [hflat, Option.getD_none, Option.getD_none]
      exact (default_kept_iff hflat (by decide) hes).trans (by simp)
    | spirv => exact iff_of_true rfl (.inl rfl)

theorem launch_shape_iff (b : BackEnd) (m alone : OmniModule F) (ops : List (OmniOp F))
    (o : OmniOp F) (k : GeneratedKernel) (hops : m.ops = ops ++ [o]) (halone : alone.ops = [o])
    (h : b.generate m = .ok k) :
    ∃ k', b.generate alone = .ok k' ∧
      ((k.name = k'.name ∧ k.blockSize = k'.blockSize) ↔
        b = .spirv ∨ o.kind.isMatMul = true ∨ ∀ op ∈ ops, op.kind.isMatMul = false) := by
  obtain ⟨es, e, hes, he, rfl⟩ := generate_split hops h
  refine ⟨_, generate_alone halone he, ?_⟩
  rw [← block_eq_iff hes he]
  constructor
  · rintro ⟨_, hblock⟩
    exact hblock
  · intro hblock
    exact ⟨rfl, hblock⟩

def product : OmniOp ℚ := ⟨0, .matMul, ["x", "w"], "h", ∅, .dynamic 2 .f32⟩
def activation : OmniOp ℚ := ⟨1, .relu, ["h"], "y", ∅, .dynamic 2 .f32⟩

def layer : OmniModule ℚ := ⟨[product, activation], ∅, ∅, 2⟩
def activationAlone : OmniModule ℚ := ⟨[activation], ∅, ∅, 2⟩

theorem launch_shape_iff_layer :
    ∃ k', BackEnd.spirv.generate activationAlone = .ok k' ∧
      (("omni_relu_1" = k'.name ∧ (⟨256, 1, 1⟩ : BlockSize) = k'.blockSize) ↔
        BackEnd.spirv = .spirv ∨ activation.kind.isMatMul = true ∨
          ∀ op ∈ [product], op.kind.isMatMul = false) :=
  launch_shape_iff .spirv layer activationAlone [product] activation _ rfl rfl rfl

/-- The elementwise kernel inherits the 8 x 8 block of the product. -/
theorem layer_block_stale : ∃ k k', BackEnd.amdGpu.generate layer = .ok k ∧
    BackEnd.amdGpu.generate activationAlone = .ok k' ∧ k.name = k'.name ∧
    k.blockSize = ⟨8, 8, 1⟩ ∧ k'.blockSize = ⟨64, 1, 1⟩ :=
  ⟨_, _, rfl, rfl, rfl, rfl, rfl⟩

end Shapes

end LaunchShapes
