import OmniCompute.BackEnds
import OmniCompute.MatMulLowering
import OmniCompute.PassStructure

/-! Fusion and the generators agree on a merged operation through one string attribute. What
the kernel of a merged pair stores, against what the consumer would have computed. -/
namespace FusedLowering

open RustValues OmniDialect PassManager PassStructure Codegen TiledKernel TiledProduct
open MatMulLowering BackEnds

variable {F : Type} [DebugText F]

section Pairs

def Merged (m : OmniModule F) (product consumer : OmniOp F) : Prop :=
  fuses product consumer = true ∧ ∃ front back, m.ops = front ++ product :: consumer :: back

theorem Merged.fused {m : OmniModule F} {product consumer : OmniOp F}
    (h : Merged m product consumer) : fusedOp product consumer ∈ (runOperatorFusion m).ops := by
  obtain ⟨hf, front, back, hops⟩ := h
  rw [runOperatorFusion_ops, hops, fuse_append]
  · apply List.mem_append_right
    rw [fuse, if_pos hf]
    exact List.mem_cons_self
  · intro x _ y hy
    obtain rfl := Option.mem_some_iff.mp hy
    exact not_fuses_product (fuses_isMatMul hf)

/-- What a generator may be handed for a merged pair: the fused operation, tiled or not. -/
def Reaches (product consumer op : OmniOp F) : Prop :=
  op = fusedOp product consumer ∨ ∃ hardware, op = tileOp hardware (fusedOp product consumer)

variable {product consumer op : OmniOp F}

theorem Reaches.attributes (h : Reaches product consumer op) (hf : fuses product consumer = true) :
    op.kind.isMatMul = true ∧ fusedActivation op = some consumer.kind.debug := by
  have hp := fuses_isMatMul hf
  have hm : (fusedOp product consumer).kind.isMatMul = true := hp
  have hact : fusedActivation (fusedOp product consumer) = some consumer.kind.debug := by
    rw [fusedActivation, fusedOp, AList.lookup_insert]
  rcases h with rfl | ⟨hardware, rfl⟩
  · exact ⟨hm, hact⟩
  · exact ⟨by rwa [tileOp_kind], (fusedActivation_tileOp hardware _).trans hact⟩

end Pairs

section Values

variable {V : Type} [Field V] [LinearOrder V] (library : MathLibrary V)

/-- One element of what a consumer computes, from that element of the product and of its other
operands. `half` and `rsqrtTwo` stand for 1/2 and 1/√2. -/
def consumed (consumer : OmniOp F) (product : String) (operand : String → V) (sum : V) : V :=
  match consumer.kind with
  | .relu => max sum 0
  | .gelu => sum * ((1 + library.erf (sum * rsqrtTwo)) * half)
  | .silu => sum * (1 + library.exp (-sum))⁻¹
  | .add => (consumer.inputs.map fun x => if x = product then sum else operand x).sum
  | _ => sum

theorem activate_eq {product consumer : OmniOp F} (b : BackEnd)
    (h : consumer.kind.isFusable = true)
    (alone : consumer.kind = .add → consumer.inputs = [product.output]) (operand : String → V)
    (sum : V) :
    b.activate library (some consumer.kind.debug) sum =
      consumed library consumer product.output operand sum := by
  simp only [consumed]
  rcases OpKind.isFusable_cases h with hk | hk | hk | hk
  · rw [hk]
    exact b.activate_relu library sum
  · rw [hk]
    exact b.activate_gelu library sum
  · rw [hk]
    exact b.activate_silu library sum
  · rw [hk, alone hk]
    simp only [List.map_cons, List.map_nil, if_true, List.sum_singleton]
    exact b.activate_add library sum

end Values

/-- Every kernel a back end emits for a pair merged in the module stores the consumer's value
wherever it stores. The other operands have one element for each position. -/
def FusionKept (b : BackEnd) (m : OmniModule F) : Prop :=
  ∀ product consumer, Merged m product consumer → ∀ op, Reaches product consumer op →
    ∃ k, Emits b.dialect op k ∧
      ∀ (V : Type) [Field V] [LinearOrder V] (library : MathLibrary V) (p : Problem V)
        (operand : String → ℤ → V) (e : Execution (b.kernel library k) p) g t i v,
        Runs (b.kernel library k) p g t → e.stored g t = some (i, v) →
        v = consumed library consumer product.output (operand · i) (e.accumulated g t)

section Endings

theorem emits_unique {d : Dialect} {op : OmniOp F} {k k' : MatMulKernel} (h : Emits d op k)
    (h' : Emits d op k') : k = k' := by
  have heq := h.1.symm.trans h'.1
  exact KernelSource.matMul.inj (Except.ok.inj heq)

theorem emits_fused (b : BackEnd) {product consumer : OmniOp F}
    (hf : fuses product consumer = true) :
    ∃ op datatype, Reaches product consumer op ∧
      Emits b.dialect op
        ⟨datatype, 16, 16, 16, b.dialect.matMulBlock, some consumer.kind.debug⟩ := by
  have hfused : Reaches product consumer (fusedOp product consumer) := Or.inl rfl
  obtain ⟨hm, hact⟩ := hfused.attributes hf
  have h := emits_annotated b.dialect ⟨.vulkanGeneric "" 0⟩ hm
  rw [hact] at h
  exact ⟨_, _, Or.inr ⟨_, rfl⟩, h⟩

theorem kernel_sized {V : Type} [Field V] [LinearOrder V] (library : MathLibrary V) (b : BackEnd)
    (datatype : String) (activation : Option String) :
    ∃ x y, 0 < x ∧ 0 < y ∧ x ≤ 16 ∧ y ≤ 16 ∧
      Sized (b.kernel library ⟨datatype, 16, 16, 16, b.dialect.matMulBlock, activation⟩)
        16 16 16 x y := by
  cases b with
  | amdGpu | metal =>
    exact ⟨8, 8, by decide, by decide, by decide, by decide, rfl, rfl, rfl, rfl, rfl, by decide,
      by decide, by decide⟩
  | spirv =>
    exact ⟨16, 16, by decide, by decide, by decide, by decide, rfl, rfl, rfl, rfl, rfl, by decide,
      by decide, by decide⟩

theorem addition_run {library : MathLibrary ℚ} (b : BackEnd) {k : MatMulKernel} {x y : ℕ}
    (h : Sized (b.kernel library k) 16 16 16 x y) (hx : 0 < x) (hy : 0 < y) (hx' : x ≤ 16)
    (hy' : y ≤ 16) (hact : k.activation = some "Add") :
    ∃ (p : Problem ℚ) (e : Execution (b.kernel library k) p) (g : WorkGroup) (t : Thread) (i : ℤ),
      Runs (b.kernel library k) p g t ∧ e.accumulated g t = 16 ∧ e.stored g t = some (i, 16) := by
  have hsum := h.ones_accumulated hx' hy' ⟨0, 0⟩
  refine ⟨ones ℚ x y 16, onesExecution _ x y 16, ⟨0, 0⟩, ⟨0, 0⟩, _, ⟨?_, ?_⟩, hsum,
    (h.stored_iff _).mpr ⟨?_, ?_, rfl, ?_⟩⟩
  · exact h.grid_iff.mpr ⟨Nat.div_pos (by simp only [ones]; omega) (by decide),
      Nat.div_pos (by simp only [ones]; omega) (by decide)⟩
  · exact h.mem_threads.mpr ⟨hx, hy⟩
  · simpa [ones] using hy
  · simpa [ones] using hx
  · rw [hsum, b.kernel_epilogue, hact]
    exact (b.activate_add library 16).symm

/-- A merged addition of two operands is dropped: with 16 everywhere it would be the sum of as
many copies of 16 as it has operands. -/
theorem addition_dropped (b : BackEnd) {m : OmniModule F} {product consumer : OmniOp F}
    (h : Merged m product consumer) (hadd : consumer.kind = .add) (kept : FusionKept b m) :
    consumer.inputs = [product.output] := by
  obtain ⟨op, datatype, hreach, hemits⟩ := emits_fused b h.1
  obtain ⟨k, hk, hstores⟩ := kept product consumer h op hreach
  obtain rfl := emits_unique hk hemits
  let library : MathLibrary ℚ := ⟨fun _ => 0, fun _ => 0⟩
  obtain ⟨x, y, hx, hy, hx', hy', hsized⟩ := kernel_sized library b datatype _
  obtain ⟨p, e, g, t, i, hruns, hsum, hs⟩ :=
    addition_run b hsized hx hy hx' hy' (congrArg (fun kind => some kind.debug) hadd)
  have hv := hstores ℚ library p (fun _ _ => 16) e g t i 16 hruns hs
  have hlen : consumer.inputs.length = 1 := by
    rw [hsum, consumed, hadd] at hv
    simp at hv
    exact_mod_cast hv
  obtain ⟨input, hinput⟩ := List.length_eq_one_iff.mp hlen
  have hreads := fuses_reads h.1
  rw [hinput, List.mem_singleton] at hreads
  rw [hinput, hreads]

end Endings

/-- Fusion and a generator agree exactly on modules where no addition of two is merged. -/
theorem fusion_kept_iff (b : BackEnd) (m : OmniModule F) :
    FusionKept b m ↔ ∀ product consumer, Merged m product consumer → consumer.kind = .add →
      consumer.inputs = [product.output] := by
  constructor
  · intro kept product consumer h hadd
    exact addition_dropped b h hadd kept
  · intro alone product consumer h op hreach
    obtain ⟨hm, hact⟩ := hreach.attributes h.1
    have hemits := lower_matMul b.dialect hm
    rw [hact] at hemits
    refine ⟨_, hemits, ?_⟩
    intro V _ _ library p operand e g t i v _ hs
    rw [stored_value hs, b.kernel_epilogue]
    exact activate_eq library b (fuses_isFusable h.1) (alone product consumer h) _ _

section Layers

def biased : List (OmniOp ℚ) :=
  [⟨0, .matMul, ["x", "w"], "h", ∅, .dynamic 2 .f32⟩,
    ⟨0, .add, ["h", "b"], "y", ∅, .dynamic 2 .f32⟩]

theorem bias_dropped :
    ¬ FusionKept .amdGpu (OmniModule.build biased) ∧ ¬ FusionKept .metal (OmniModule.build biased) ∧
    ¬ FusionKept .spirv (OmniModule.build biased) := by
  have hmerged : ∃ product consumer, Merged (OmniModule.build biased) product consumer ∧
      consumer.kind = .add ∧ consumer.inputs = ["h", "b"] := by
    refine ⟨_, _, ⟨?_, [], [], rfl⟩, rfl, rfl⟩
    decide
  obtain ⟨product, consumer, hm, hadd, hinputs⟩ := hmerged
  have hlost : ∀ b : BackEnd, ¬ FusionKept b (OmniModule.build biased) := by
    intro b kept
    have h := addition_dropped b hm hadd kept
    rw [hinputs] at h
    simp at h
  exact ⟨hlost _, hlost _, hlost _⟩

end Layers

end FusedLowering
