import OmniCompute.ModuleMeaning
import OmniCompute.PassStructure
import Mathlib.Algebra.Order.BigOperators.Group.List
import Mathlib.Algebra.Order.Group.Abs
import Mathlib.Tactic.Linarith
import Mathlib.Tactic.Positivity
import Mathlib.Tactic.Ring

/-! When a fused product computes what the product and its consumer computed together.
One direction holds in every ℚ-algebra; for the other, two probing interpretations over ℚ
tell the two readings apart whenever the operands do not match. -/
namespace FusedPair

open RustValues OmniDialect PassManager PassStructure StraightLine ModuleMeaning

/-- The fused operation has the consumer's value, whatever the kinds mean. -/
def PairAgrees (pre : List (OmniOp ℚ)) (m a : OmniOp ℚ) : Prop :=
  ∀ (V : Type) [CommRing V] [Algebra ℚ V] (I : Interpretation V) (env : String → V),
    (code I).value ((code I).exec env pre) (fusedOp m a) =
      (code I).value ((code I).assign ((code I).exec env pre) m) a

def Vanishes (pre : List (OmniOp ℚ)) (m : OmniOp ℚ) : Prop :=
  ∀ (V : Type) [CommRing V] [Algebra ℚ V] (I : Interpretation V) (env : String → V),
    (code I).value ((code I).exec env pre) m = 0

/-- What the operands of a product and its consumer must look like. -/
inductive PairSafe (pre : List (OmniOp ℚ)) (m a : OmniOp ℚ) : Prop where
  /-- A plain product, or an earlier `Add` that appended nothing, under one activation. -/
  | activation (ha : a.kind ≠ .add) (reads : a.inputs = [m.output])
      (plain : recorded m = none ∨ recorded m = some .add ∧ m.inputs.length ≤ 2)
  /-- A product of exactly two factors, or one that already adds operands behind the two. -/
  | operand (ha : a.kind = .add) (x : String) (hx : x ∈ a.inputs) (hne : x ≠ m.output)
      (factors : recorded m = none ∧ m.inputs.length = 2 ∨
        recorded m = some .add ∧ 2 ≤ m.inputs.length)
  /-- The product added to itself: only a sum that is always 0 survives. -/
  | doubled (ha : a.kind = .add) (all : ∀ x ∈ a.inputs, x = m.output)
      (sum : recorded m = some .add) (zero : Vanishes pre m)

section Shape

variable {m a : OmniOp ℚ}

theorem recorded_cases (op : OmniOp ℚ) :
    recorded op = none ∨ recorded op = some .add ∨ ∃ k, recorded op = some k ∧ IsActivation k := by
  simp only [recorded]
  split
  · exact Or.inr (Or.inr ⟨_, rfl, Or.inl rfl⟩)
  · exact Or.inr (Or.inr ⟨_, rfl, Or.inr (Or.inl rfl)⟩)
  · exact Or.inr (Or.inr ⟨_, rfl, Or.inr (Or.inr rfl)⟩)
  · exact Or.inr (Or.inl rfl)
  · exact Or.inl rfl

theorem recorded_fused (h : a.kind.isFusable = true) : recorded (fusedOp m a) = some a.kind := by
  have hl : (fusedOp m a).attrs.lookup "fused_activation" = some (.string a.kind.debug) :=
    AList.lookup_insert _
  rw [recorded, hl]
  rcases fusable_cases h with hk | hk | hk | hk <;> rw [hk] <;> rfl

theorem add_operands (hreads : m.output ∈ a.inputs) (hlen : a.inputs.length = 2) :
    a.inputs = [m.output, m.output] ∨
      ∃ x, x ≠ m.output ∧ (a.inputs = [m.output, x] ∨ a.inputs = [x, m.output]) := by
  obtain ⟨x, y, hin⟩ := List.length_eq_two.mp hlen
  rw [hin, List.mem_pair] at hreads
  by_cases hx : x = m.output
  · by_cases hy : y = m.output
    · left; rw [hin, hx, hy]
    · right; exact ⟨y, hy, Or.inl (by rw [hin, hx])⟩
  · have hy : y = m.output := (hreads.resolve_left (Ne.symm hx)).symm
    right; exact ⟨x, hx, Or.inr (by rw [hin, hy])⟩

theorem fusedOp_inputs_activation (ha : a.kind ≠ .add) : (fusedOp m a).inputs = m.inputs := by
  have h : a.kind.isAdd = false := by
    cases hk : a.kind <;> first | rfl | exact absurd hk ha
  simp [fusedOp, h]

theorem fusedOp_inputs_add (ha : a.kind = .add) :
    (fusedOp m a).inputs = m.inputs ++ a.inputs.filter (· != m.output) := by
  simp [fusedOp, ha, OpKind.isAdd]

end Shape

section Values

variable {V : Type} [CommRing V] [Algebra ℚ V] (I : Interpretation V) (e : String → V)
  {m a : OmniOp ℚ}

theorem product_value (hm : m.kind.isMatMul = true) :
    (code I).value e m = applyRecorded I.kind m.kind (m.inputs.map e) (recorded m) := by
  change meaning I m _ = _
  rw [meaning, if_pos hm]
  rfl

theorem consumer_value (ha : a.kind.isFusable = true) :
    (code I).value ((code I).assign e m) a =
      I.kind a.kind (a.inputs.map ((code I).assign e m)) := by
  change meaning I a _ = _
  rw [meaning, fusable_not_matMul ha]
  rfl

theorem fused_value (h : fuses m a = true) :
    (code I).value e (fusedOp m a) =
      applyRecorded I.kind m.kind ((fusedOp m a).inputs.map e) (some a.kind) := by
  have hm : (fusedOp m a).kind.isMatMul = true := @fuses_isMatMul _ m a h
  rw [product_value I e hm, recorded_fused (fuses_isFusable h)]
  rfl

theorem fused_value_activation (h : fuses m a = true) (ha : a.kind ≠ .add) :
    (code I).value e (fusedOp m a) = I.kind a.kind [I.kind m.kind (m.inputs.map e)] := by
  rw [fused_value I e h, fusedOp_inputs_activation ha]
  rcases fusable_cases (fuses_isFusable h) with hk | hk | hk | hk
  · exact absurd hk ha
  all_goals rw [hk]; rfl

theorem fused_value_add (h : fuses m a = true) (ha : a.kind = .add) :
    (code I).value e (fusedOp m a) =
      applyRecorded I.kind m.kind
        (m.inputs.map e ++ (a.inputs.filter (· != m.output)).map e) (some .add) := by
  rw [fused_value I e h, fusedOp_inputs_add ha, List.map_append, ha]

theorem operand_value (ha : a.kind = .add) {x : String} (hx : x ≠ m.output)
    (hin : a.inputs = [m.output, x] ∨ a.inputs = [x, m.output]) :
    (code I).value ((code I).assign e m) a = (code I).value e m + e x ∧
      a.inputs.filter (· != m.output) = [x] := by
  have hc : (code I).assign e m m.output = (code I).value e m := assign_dst (code I) e m
  have ho : (code I).assign e m x = e x := assign_other (code I) hx
  rw [consumer_value I e (by rw [ha]; rfl), ha]
  rcases hin with hin | hin
  · rw [hin]
    refine ⟨?_, by simp [hx]⟩
    rw [List.map_cons, List.map_cons, List.map_nil, hc, ho, I.add]
  · rw [hin]
    refine ⟨?_, by simp [hx]⟩
    rw [List.map_cons, List.map_cons, List.map_nil, hc, ho, I.add, add_comm]

theorem doubled_value (ha : a.kind = .add) (hin : a.inputs = [m.output, m.output]) :
    (code I).value ((code I).assign e m) a = (code I).value e m + (code I).value e m ∧
      a.inputs.filter (· != m.output) = [] := by
  have hc : (code I).assign e m m.output = (code I).value e m := assign_dst (code I) e m
  rw [consumer_value I e (by rw [ha]; rfl), ha, hin]
  refine ⟨?_, by simp⟩
  rw [List.map_cons, List.map_cons, List.map_nil, hc, I.add]

omit [Algebra ℚ V] in
theorem applyRecorded_append (kind : OpKind ℚ → List V → V) (k : OpKind ℚ) {args : List V}
    (h : 2 ≤ args.length) (y : V) :
    applyRecorded kind k (args ++ [y]) (some .add) =
      applyRecorded kind k args (some .add) + y := by
  simp only [applyRecorded]
  rw [List.take_append_of_le_length h, List.drop_append_of_le_length h, List.sum_append,
    List.sum_singleton, add_assoc]

omit [Algebra ℚ V] in
theorem applyRecorded_short (kind : OpKind ℚ → List V → V) (k : OpKind ℚ) {args : List V}
    (h : args.length ≤ 2) :
    applyRecorded kind k args (some .add) = applyRecorded kind k args none := by
  simp [applyRecorded, List.take_of_length_le h, List.drop_of_length_le h]

end Values

variable {pre : List (OmniOp ℚ)} {m a : OmniOp ℚ}

theorem agrees_of_safe (h : fuses m a = true) (hbinary : a.kind = .add → a.inputs.length = 2)
    (safe : PairSafe pre m a) : PairAgrees pre m a := by
  intro V _ _ I env
  have hm := fuses_isMatMul h
  cases safe with
  | activation ha reads plain =>
    have hc : (code I).assign ((code I).exec env pre) m m.output = _ :=
      assign_dst (code I) _ m
    rw [fused_value_activation I _ h ha, consumer_value I _ (fuses_isFusable h), reads,
      List.map_singleton, hc, product_value I _ hm]
    rcases plain with hr | ⟨hr, hlen⟩
    · rw [hr]; rfl
    · rw [hr, applyRecorded_short _ _ (by simpa using hlen)]; rfl
  | operand ha x hx hne factors =>
    rcases add_operands (fuses_reads h) (hbinary ha) with hin | ⟨y, hy, hin⟩
    · simp [hin, hne] at hx
    · obtain ⟨hv, hfilter⟩ := operand_value I ((code I).exec env pre) ha hy hin
      rw [fused_value_add I _ h ha, hfilter, hv, product_value I _ hm]
      rcases factors with ⟨hr, hlen⟩ | ⟨hr, hlen⟩
      · rw [List.map_singleton, applyRecorded_append _ _ (by simpa using hlen.ge), hr,
          applyRecorded_short _ _ (by simpa using hlen.le)]
      · rw [List.map_singleton, applyRecorded_append _ _ (by simpa using hlen), hr]
  | doubled ha all sum zero =>
    rcases add_operands (fuses_reads h) (hbinary ha) with hin | ⟨y, hy, hin⟩
    · obtain ⟨hv, hfilter⟩ := doubled_value I ((code I).exec env pre) ha hin
      have hz := zero V I env
      rw [fused_value_add I _ h ha, hfilter, hv, hz, add_zero, List.map_nil, List.append_nil,
        ← sum, ← product_value I _ hm, hz]
    · exact absurd (all y (by rcases hin with hin | hin <;> simp [hin])) hy

section Probe

def magnitude (args : List ℚ) : ℚ := 2 * (args.map abs).sum + args.length + 1

def probeKind (act : List ℚ → ℚ) : OpKind ℚ → List ℚ → ℚ
  | .fill value, _ => value
  | .add, args => args.sum
  | .mul, args => args.prod
  | .matMul, args => magnitude args
  | .batchedMatMul, args => magnitude args
  | .relu, args => act args
  | .gelu, args => act args
  | .silu, args => act args
  | _, _ => 0

def probe (act : List ℚ → ℚ) : Interpretation ℚ where
  kind := probeKind act
  fill _ _ := rfl
  add x y := by simp [probeKind]
  mul x y := by simp [probeKind]

def shifted (args : List ℚ) : ℚ := args.headD 0 + 1 / 2

theorem probe_product {act : List ℚ → ℚ} {k : OpKind ℚ} (h : k.isMatMul = true)
    (args : List ℚ) : (probe act).kind k args = magnitude args := by
  cases k <;> first | rfl | cases h

theorem probe_activation {act : List ℚ → ℚ} {k : OpKind ℚ} (h : IsActivation k)
    (args : List ℚ) : (probe act).kind k args = act args := by
  rcases h with rfl | rfl | rfl <;> rfl

theorem abs_sum_nonneg (args : List ℚ) : 0 ≤ (args.map abs).sum := by
  apply List.sum_nonneg
  simp

theorem sum_le_abs_sum (args : List ℚ) : args.sum ≤ (args.map abs).sum := by
  induction args with
  | nil => simp
  | cons x args ih =>
    have := le_abs_self x
    simp only [List.sum_cons, List.map_cons]
    linarith

theorem magnitude_pos (args : List ℚ) : 0 < magnitude args := by
  have := abs_sum_nonneg args
  simp only [magnitude]
  positivity

theorem magnitude_append (args more : List ℚ) :
    magnitude (args ++ more) = magnitude args + 2 * (more.map abs).sum + more.length := by
  simp only [magnitude, List.map_append, List.sum_append, List.length_append]
  push_cast
  ring

def short (args : List ℚ) : ℚ := magnitude (args.take 2) + (args.drop 2).sum

theorem magnitude_split (args : List ℚ) :
    magnitude args = magnitude (args.take 2) + 2 * ((args.drop 2).map abs).sum +
      (args.drop 2).length := by
  rw [← magnitude_append, List.take_append_drop]

theorem short_le (args : List ℚ) : short args ≤ magnitude args := by
  have h := magnitude_split args
  have hs := sum_le_abs_sum (args.drop 2)
  have hn := abs_sum_nonneg (args.drop 2)
  have hl : (0 : ℚ) ≤ (args.drop 2).length := Nat.cast_nonneg _
  simp only [short]
  linarith

theorem short_lt {args : List ℚ} (h : 2 < args.length) : short args < magnitude args := by
  have hm := magnitude_split args
  have hs := sum_le_abs_sum (args.drop 2)
  have hn := abs_sum_nonneg (args.drop 2)
  have hl : (0 : ℚ) < (args.drop 2).length := by
    rw [List.length_drop]
    exact_mod_cast Nat.sub_pos_of_lt h
  simp only [short]
  linarith

theorem short_eq {args : List ℚ} (h : args.length ≤ 2) : short args = magnitude args := by
  simp [short, List.take_of_length_le h, List.drop_of_length_le h]

theorem short_append {args : List ℚ} (h : 2 ≤ args.length) (y : ℚ) :
    short (args ++ [y]) = short args + y := by
  simp only [short]
  rw [List.take_append_of_le_length h, List.drop_append_of_le_length h, List.sum_append,
    List.sum_singleton, add_assoc]

theorem short_append_lt {args : List ℚ} (h : args.length < 2) (y : ℚ) :
    magnitude args + y + 1 ≤ short (args ++ [y]) := by
  have hy := le_abs_self y
  have hn := abs_nonneg y
  rw [short_eq (by simp; omega), magnitude_append]
  simp only [List.map_singleton, List.sum_singleton, List.length_singleton]
  push_cast
  linarith

theorem probe_short {act : List ℚ → ℚ} {k : OpKind ℚ} (h : k.isMatMul = true)
    (args : List ℚ) : applyRecorded (probe act).kind k args (some .add) = short args := by
  simp only [applyRecorded]
  rw [probe_product h]
  rfl

theorem probe_shifted {k r : OpKind ℚ} (h : k.isMatMul = true) (hr : IsActivation r)
    (args : List ℚ) :
    applyRecorded (probe shifted).kind k args (some r) = magnitude args + 1 / 2 := by
  have ha : applyRecorded (probe shifted).kind k args (some r) =
      (probe shifted).kind r [(probe shifted).kind k args] := by
    rcases hr with rfl | rfl | rfl <;> rfl
  rw [ha, probe_activation hr, probe_product h]
  rfl

end Probe

section Necessity

variable (h : fuses m a = true)

include h

theorem reads_of_agrees (agrees : PairAgrees pre m a) (ha : IsActivation a.kind) :
    a.inputs = [m.output] := by
  have hne : a.kind ≠ .add := by rcases ha with ha | ha | ha <;> rw [ha] <;> simp
  have hv := agrees ℚ (probe fun args => args.length) fun _ => 0
  rw [fused_value_activation _ _ h hne, consumer_value _ _ (fuses_isFusable h),
    probe_activation ha, probe_activation ha, List.length_map] at hv
  have hlen : a.inputs.length = 1 := by
    have : ((1 : ℕ) : ℚ) = (a.inputs.length : ℕ) := by simpa using hv
    exact_mod_cast this.symm
  obtain ⟨x, hx⟩ := List.length_eq_one_iff.mp hlen
  have hin := fuses_reads h
  rw [hx, List.mem_singleton] at hin
  rw [hx, hin]

theorem plain_of_agrees (agrees : PairAgrees pre m a) (ha : IsActivation a.kind) :
    recorded m = none ∨ recorded m = some .add ∧ m.inputs.length ≤ 2 := by
  have hne : a.kind ≠ .add := by rcases ha with ha | ha | ha <;> rw [ha] <;> simp
  have hm := fuses_isMatMul h
  have hreads := reads_of_agrees h agrees ha
  have hv := agrees ℚ (probe shifted) fun _ => 0
  have hc : (code (probe shifted)).assign ((code (probe shifted)).exec (fun _ => 0) pre) m
      m.output = _ := assign_dst (code (probe shifted)) _ m
  rw [fused_value_activation _ _ h hne, consumer_value _ _ (fuses_isFusable h), hreads,
    List.map_singleton, hc, product_value _ _ hm, probe_activation ha, probe_activation ha,
    probe_product hm] at hv
  simp only [shifted, List.headD_cons, add_left_inj] at hv
  rcases recorded_cases m with hr | hr | ⟨k, hr, hk⟩
  · exact Or.inl hr
  · right
    refine ⟨hr, ?_⟩
    by_contra hlong
    rw [hr, probe_short hm] at hv
    have := @short_lt (m.inputs.map ((code (probe shifted)).exec (fun _ => 0) pre))
      (by rw [List.length_map]; omega)
    linarith
  · rw [hr, probe_shifted hm hk] at hv
    linarith

theorem factors_of_agrees (agrees : PairAgrees pre m a) (ha : a.kind = .add) {x : String}
    (hx : x ≠ m.output) (hin : a.inputs = [m.output, x] ∨ a.inputs = [x, m.output]) :
    recorded m = none ∧ m.inputs.length = 2 ∨ recorded m = some .add ∧ 2 ≤ m.inputs.length := by
  have hm := fuses_isMatMul h
  have hv := agrees ℚ (probe shifted) fun _ => 0
  generalize (code (probe shifted)).exec (fun _ => 0) pre = e at hv
  obtain ⟨ho, hfilter⟩ := operand_value (probe shifted) e ha hx hin
  rw [fused_value_add _ _ h ha, hfilter, ho, product_value _ _ hm, probe_short hm,
    List.map_singleton] at hv
  have hlen : (m.inputs.map e).length = m.inputs.length := List.length_map e
  have hle := short_le (m.inputs.map e)
  by_cases hfew : m.inputs.length < 2
  · have hlt := @short_append_lt (m.inputs.map e) (by omega) (e x)
    rcases recorded_cases m with hr | hr | ⟨k, hr, hk⟩
    · rw [hr, applyRecorded, probe_product hm] at hv
      linarith
    · rw [hr, probe_short hm] at hv
      linarith
    · rw [hr, probe_shifted hm hk] at hv
      linarith
  · rw [short_append (by omega)] at hv
    rcases recorded_cases m with hr | hr | ⟨k, hr, hk⟩
    · left
      refine ⟨hr, ?_⟩
      by_contra hne
      have hlt := @short_lt (m.inputs.map e) (by omega)
      rw [hr, applyRecorded, probe_product hm] at hv
      linarith
    · exact Or.inr ⟨hr, by omega⟩
    · rw [hr, probe_shifted hm hk] at hv
      linarith

theorem doubled_of_agrees (agrees : PairAgrees pre m a) (ha : a.kind = .add)
    (hin : a.inputs = [m.output, m.output]) : recorded m = some .add ∧ Vanishes pre m := by
  have hm := fuses_isMatMul h
  have hsum : recorded m = some .add := by
    have hv := agrees ℚ (probe shifted) fun _ => 0
    generalize (code (probe shifted)).exec (fun _ => 0) pre = e at hv
    obtain ⟨ho, hfilter⟩ := doubled_value (probe shifted) e ha hin
    rw [fused_value_add _ _ h ha, hfilter, ho, product_value _ _ hm, probe_short hm,
      List.map_nil, List.append_nil] at hv
    have hle := short_le (m.inputs.map e)
    have hpos := magnitude_pos (m.inputs.map e)
    rcases recorded_cases m with hr | hr | ⟨k, hr, hk⟩
    · rw [hr, applyRecorded, probe_product hm] at hv
      linarith
    · exact hr
    · rw [hr, probe_shifted hm hk] at hv
      linarith
  refine ⟨hsum, ?_⟩
  intro V _ _ I env
  have hv := agrees V I env
  obtain ⟨ho, hfilter⟩ := doubled_value I ((code I).exec env pre) ha hin
  rw [fused_value_add _ _ h ha, hfilter, List.map_nil, List.append_nil, ← hsum,
    ← product_value I _ hm, ho] at hv
  exact left_eq_add.mp hv

end Necessity

theorem pair_agrees_iff (h : fuses m a = true) (hbinary : a.kind = .add → a.inputs.length = 2) :
    PairAgrees pre m a ↔ PairSafe pre m a := by
  constructor
  · intro agrees
    rcases fusable_cases (fuses_isFusable h) with ha | ha
    · rcases add_operands (fuses_reads h) (hbinary ha) with hin | ⟨x, hx, hin⟩
      · obtain ⟨hsum, hzero⟩ := doubled_of_agrees h agrees ha hin
        exact .doubled ha (by simp [hin]) hsum hzero
      · have hmem : x ∈ a.inputs := by rcases hin with hin | hin <;> simp [hin]
        exact .operand ha x hmem hx (factors_of_agrees h agrees ha hx hin)
    · have hne : a.kind ≠ .add := by rcases ha with ha | ha | ha <;> rw [ha] <;> simp
      exact .activation hne (reads_of_agrees h agrees ha) (plain_of_agrees h agrees ha)
  · exact agrees_of_safe h hbinary

end FusedPair
