import OmniCompute.FusedPair
import OmniCompute.FusionMeaning

/-! Fusion under the readings in which `Fill`, `Add` and `Mul` are exact. The order of a sum no
longer matters, and neither does doubling a product that is 0, but an `Add` of any other number
of operands than two is still free to mean something else. -/
namespace FusionSums

open OmniDialect PassManager PassStructure StraightLine ModuleMeaning FusedPair FusionMeaning

def exactReading : Readings ℚ := fun V sem =>
  ∃ (_ : CommRing V) (_ : Algebra ℚ V) (I : Interpretation V), sem = meaning I

theorem agree_exact {pre : List (OmniOp ℚ)} {p a : OmniOp ℚ} :
    Agree exactReading pre p a ↔ PairAgrees pre p a := by
  constructor
  · intro h V _ _ I env
    exact h V (meaning I) ⟨_, _, I, rfl⟩ env
  · rintro h V sem ⟨_, _, I, rfl⟩ env
    exact h V I env

section Crowded

/-- Two operands are added; any other number of them gives more than they can add up to. -/
def crowdedKind : OpKind ℚ → List ℚ → ℚ
  | .fill value, _ => value
  | .add, [x, y] => x + y
  | .add, args => magnitude args
  | .mul, args => args.prod
  | .matMul, args => magnitude args
  | .batchedMatMul, args => magnitude args
  | .relu, args => args.headD 0
  | .gelu, args => args.headD 0
  | .silu, args => args.headD 0
  | _, _ => 0

def crowded : Interpretation ℚ where
  kind := crowdedKind
  fill _ _ := rfl
  add _ _ := rfl
  mul x y := by simp [crowdedKind]

theorem crowded_add {args : List ℚ} (h : args.length ≠ 2) :
    crowded.kind .add args = magnitude args := by
  match args with
  | [] => rfl
  | [_] => rfl
  | [_, _] => exact absurd rfl h
  | _ :: _ :: _ :: _ => rfl

theorem crowded_product {k : OpKind ℚ} (h : k.isMatMul = true) (args : List ℚ) :
    crowded.kind k args = magnitude args := by
  cases k <;> first | rfl | cases h

theorem crowded_sum {k : OpKind ℚ} (h : k.isMatMul = true) (args : List ℚ) :
    applyRecorded crowded.kind k args (some .add) = short args := by
  simp only [applyRecorded]
  rw [crowded_product h]
  rfl

theorem crowded_recorded {k : OpKind ℚ} (h : k.isMatMul = true) (op : OmniOp ℚ) (args : List ℚ) :
    applyRecorded crowded.kind k args (recorded op) = magnitude args ∨
      applyRecorded crowded.kind k args (recorded op) = short args := by
  rcases recorded_cases op with hr | hr | ⟨act, hr, hact⟩
  · rw [hr]
    exact .inl (crowded_product h args)
  · rw [hr]
    exact .inr (crowded_sum h args)
  · left
    rw [hr, ← crowded_product h args]
    rcases hact with rfl | rfl | rfl <;> rfl

theorem short_append_lt_magnitude (args extras : List ℚ) {product rest : ℚ}
    (hp : product = magnitude args ∨ product = short args)
    (hrest : |product| + (extras.map abs).sum ≤ rest) {n : ℕ} (hn : extras.length < n) :
    short (args ++ extras) < 2 * rest + n + 1 := by
  have hextras := sum_le_abs_sum extras
  have hpos := abs_sum_nonneg extras
  have hself := le_abs_self product
  have hcast : (extras.length : ℚ) < n := by exact_mod_cast hn
  have hnonneg : (0 : ℚ) ≤ extras.length := Nat.cast_nonneg _
  by_cases hlen : 2 ≤ args.length
  · have hshort : short (args ++ extras) = short args + extras.sum := by
      simp only [short]
      rw [List.take_append_of_le_length hlen, List.drop_append_of_le_length hlen, List.sum_append,
        add_assoc]
    have hproduct : short args ≤ product := by
      rcases hp with rfl | rfl
      · exact short_le args
      · exact le_rfl
    have := abs_nonneg product
    linarith
  · have hproduct : product = magnitude args := by
      rcases hp with rfl | rfl
      · rfl
      · exact short_eq (by omega)
    have hle := short_le (args ++ extras)
    have hmagnitude := magnitude_append args extras
    have := magnitude_pos args
    linarith

end Crowded

theorem sum_operands {product : String} (e : String → ℚ) {inputs : List String}
    (h : product ∈ inputs) :
    |e product| + (((inputs.filter (· != product)).map e).map abs).sum ≤
        ((inputs.map e).map abs).sum ∧
      (inputs.filter (· != product)).length < inputs.length := by
  have hle : ∀ names : List String, (((names.filter (· != product)).map e).map abs).sum ≤
      ((names.map e).map abs).sum := by
    intro names
    apply List.Sublist.sum_le_sum (List.filter_sublist.map e |>.map abs)
    intro x hx
    obtain ⟨y, _, rfl⟩ := List.mem_map.mp hx
    exact abs_nonneg y
  induction inputs with
  | nil => cases h
  | cons x inputs ih =>
    by_cases hx : x = product
    · subst hx
      have hrest := hle inputs
      have hlen := List.length_filter_le (· != x) inputs
      simp only [List.filter_cons, bne_self_eq_false, Bool.false_eq_true, if_false, List.map_cons,
        List.sum_cons, List.length_cons]
      exact ⟨by linarith, by omega⟩
    · have hmem := (List.mem_cons.mp h).resolve_left (Ne.symm hx)
      have hrest := ih hmem
      have hkeep : (x != product) = true := by simpa using hx
      simp only [List.filter_cons, hkeep, if_true, List.map_cons, List.sum_cons, List.length_cons]
      exact ⟨by linarith [hrest.1], by omega⟩

section Exactly

variable {pre : List (OmniOp ℚ)} {p a : OmniOp ℚ}

theorem binary_of_agrees (h : fuses p a = true) (ha : a.kind = .add)
    (agrees : PairAgrees pre p a) : a.inputs.length = 2 := by
  by_contra hlen
  have hp := fuses_isMatMul h
  have hv := agrees ℚ crowded fun _ => 0
  generalize (code crowded).exec (fun _ => 0) pre = e at hv
  have hproduct : (code crowded).assign e p p.output =
      applyRecorded crowded.kind p.kind (p.inputs.map e) (recorded p) :=
    (assign_dst (code crowded) e p).trans (product_value crowded e hp)
  have hothers : (a.inputs.filter (· != p.output)).map ((code crowded).assign e p) =
      (a.inputs.filter (· != p.output)).map e := by
    apply List.map_congr_left
    intro x hx
    have hne : x ≠ p.output := by simpa using (List.mem_filter.mp hx).2
    exact assign_other (code crowded) hne
  obtain ⟨hsum, hcount⟩ := sum_operands ((code crowded).assign e p) (fuses_reads h)
  rw [hothers, hproduct] at hsum
  rw [fused_value_add _ _ h ha, crowded_sum hp, consumer_value _ _ (fuses_isFusable h), ha,
    crowded_add (by simpa using hlen), magnitude, List.length_map] at hv
  have hlt := short_append_lt_magnitude (p.inputs.map e)
    ((a.inputs.filter (· != p.output)).map e) (crowded_recorded hp p _) hsum
    (by rw [List.length_map]; exact hcount)
  linarith

theorem agree_exact_iff (h : fuses p a = true) : Agree exactReading pre p a ↔
    (a.kind = .add → a.inputs.length = 2) ∧ PairSafe pre p a := by
  rw [agree_exact]
  constructor
  · intro agrees
    have hbinary : a.kind = .add → a.inputs.length = 2 := fun ha => binary_of_agrees h ha agrees
    exact ⟨hbinary, (pair_agrees_iff h hbinary).mp agrees⟩
  · rintro ⟨hbinary, safe⟩
    exact (pair_agrees_iff h hbinary).mpr safe

end Exactly

/-- The counterpart for exact sums of what fusion preserves under every reading. -/
theorem fusion_preserves_sums_iff (m : OmniModule ℚ) (sorted : Sorted m.ops) :
    FusionPreserves exactReading m ↔
      ∀ pre p a post, m.ops = pre ++ p :: a :: post → fuses p a = true →
        (∀ op ∈ post, p.output ∉ op.inputs) ∧ (a.kind = .add → a.inputs.length = 2) ∧
          PairSafe pre p a := by
  have reads : ∀ pre p a, fuses p a = true → a.kind ≠ .add → Agree exactReading pre p a →
      a.inputs = [p.output] := by
    intro pre p a h ha agree
    exact reads_of_agrees h (agree_exact.mp agree)
      ((fusable_cases (fuses_isFusable h)).resolve_left ha)
  rw [preserves_iff_pairs sorted reads]
  constructor
  · intro pairs pre p a post heq h
    exact ⟨(pairs pre p a post heq h).1, (agree_exact_iff h).mp (pairs pre p a post heq h).2⟩
  · intro pairs pre p a post heq h
    exact ⟨(pairs pre p a post heq h).1, (agree_exact_iff h).mpr (pairs pre p a post heq h).2⟩

def biasFirst : OmniModule ℚ :=
  .build [⟨0, .matMul, ["x", "w"], "h", ∅, .staticTensor [1] .f32⟩,
    ⟨0, .add, ["b", "h"], "y", ∅, .staticTensor [1] .f32⟩]

theorem fusion_preserves_sums_iff_bias :
    Sorted biasFirst.ops ∧ FusionPreserves exactReading biasFirst := by
  have sorted : Sorted biasFirst.ops := sorted_of_take (by decide) (by decide)
  refine ⟨sorted, (fusion_preserves_sums_iff biasFirst sorted).mpr ?_⟩
  intro pre p a post heq h
  have hlen := congrArg List.length heq
  simp only [List.length_append, List.length_cons] at hlen
  have hpre : pre = [] := List.length_eq_zero_iff.mp (by change 2 = _ at hlen; omega)
  have hpost : post = [] := List.length_eq_zero_iff.mp (by change 2 = _ at hlen; omega)
  subst hpre hpost
  cases heq
  exact ⟨fun op hop => absurd hop List.not_mem_nil, fun _ => rfl,
    .operand rfl "b" (by decide) (by decide) (.inl ⟨rfl, rfl⟩)⟩

end FusionSums
