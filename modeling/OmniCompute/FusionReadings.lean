import OmniCompute.FusionMeaning

/-! Fusion under every reading of the operation kinds. A product that carries a fused operation
is read as that operation applied to the product; an `Add` adds the further operands one after
another. Two operations agree in every reading when they compute the same expression. -/
namespace FusionReadings

open RustValues OmniDialect PassManager PassStructure StraightLine Expressions FusionMeaning

variable {F V W : Type}

/-- The operation recorded in `fused_activation`, when it is one that fusion records. -/
def recordedKind (op : OmniOp F) : Option (OpKind F) :=
  match op.attrs.lookup "fused_activation" with
  | some (.string "Relu") => some .relu
  | some (.string "Gelu") => some .gelu
  | some (.string "Silu") => some .silu
  | some (.string "Add") => some .add
  | _ => none

def appended (kind : OpKind F → List V → V) (product : V) (operands : List V) : V :=
  operands.foldl (fun sum y => kind .add [sum, y]) product

def applied (kind : OpKind F → List V → V) (product : OpKind F) (args : List V) :
    Option (OpKind F) → V
  | none => kind product args
  | some .add => appended kind (kind product (args.take 2)) (args.drop 2)
  | some act => kind act [kind product args]

def reading (kind : OpKind F → List V → V) (op : OmniOp F) (args : List V) : V :=
  if op.kind.isMatMul then applied kind op.kind args (recordedKind op) else kind op.kind args

def everyReading : Readings F := fun V sem => ∃ kind : OpKind F → List V → V, sem = reading kind

section Recorded

variable {p a : OmniOp F}

theorem recordedKind_cases (op : OmniOp F) : recordedKind op = none ∨
    recordedKind op = some .add ∨ ∃ k, recordedKind op = some k ∧ IsActivation k := by
  simp only [recordedKind]
  split
  · exact .inr (.inr ⟨_, rfl, .inl rfl⟩)
  · exact .inr (.inr ⟨_, rfl, .inr (.inl rfl)⟩)
  · exact .inr (.inr ⟨_, rfl, .inr (.inr rfl)⟩)
  · exact .inr (.inl rfl)
  · exact .inl rfl

theorem recordedKind_fused [DebugText F] (h : a.kind.isFusable = true) :
    recordedKind (fusedOp p a) = some a.kind := by
  have hl : (fusedOp p a).attrs.lookup "fused_activation" = some (.string a.kind.debug) :=
    AList.lookup_insert _
  rw [recordedKind, hl]
  rcases fusable_cases h with hk | hk | hk | hk <;> rw [hk] <;> rfl

theorem matMul_ne {k : OpKind F} (h : k.isMatMul = true) : k ≠ .add ∧ ¬ IsActivation k := by
  constructor
  · rintro rfl
    cases h
  · rintro (rfl | rfl | rfl) <;> cases h

end Recorded

section Scheme

theorem appended_snoc (kind : OpKind F → List V → V) (product : V) (operands : List V) (y : V) :
    appended kind product (operands ++ [y]) = kind .add [appended kind product operands, y] := by
  simp [appended]

variable {f : OpKind F → List V → V} {g : OpKind F → List W → W} {h : V → W}

theorem appended_natural (hom : ∀ k args, h (f k args) = g k (args.map h)) (product : V)
    (operands : List V) :
    h (appended f product operands) = appended g (h product) (operands.map h) := by
  induction operands using List.reverseRecOn with
  | nil => rfl
  | append_singleton operands y ih =>
    rw [appended_snoc, hom, List.map_append, List.map_singleton, appended_snoc, ← ih]
    rfl

theorem applied_natural (hom : ∀ k args, h (f k args) = g k (args.map h)) (product : OpKind F)
    (args : List V) (r : Option (OpKind F)) :
    h (applied f product args r) = applied g product (args.map h) r := by
  simp only [applied]
  split
  · exact hom product args
  · rw [appended_natural hom, hom, List.map_take, List.map_drop]
  · rw [hom, List.map_singleton, hom]

theorem reading_natural (hom : ∀ k args, h (f k args) = g k (args.map h)) (op : OmniOp F)
    (args : List V) : h (reading f op args) = reading g op (args.map h) := by
  rw [reading, reading]
  split
  · exact applied_natural hom op.kind args _
  · exact hom op.kind args

def scheme : Scheme (OmniOp F) (OpKind F) String where
  dst := OmniOp.output
  src := OmniOp.inputs
  sem := reading
  natural _ _ _ hom op args := reading_natural hom op args

end Scheme

section Pairs

variable {pre : List (OmniOp F)} {p a : OmniOp F}

theorem expression_product : scheme.expression (pre ++ [p]) p.output = scheme.computed pre p := by
  rw [Scheme.expression, exec_snoc]
  exact assign_dst scheme.symbolic _ p

theorem expression_other {x : String} (hx : x ≠ p.output) :
    scheme.expression (pre ++ [p]) x = scheme.expression pre x := by
  rw [Scheme.expression, exec_snoc]
  exact assign_other scheme.symbolic hx

theorem computed_product (hp : p.kind.isMatMul = true) : scheme.computed pre p =
    applied Expr.app p.kind (p.inputs.map (scheme.expression pre)) (recordedKind p) := by
  change reading Expr.app p _ = _
  rw [reading, if_pos hp]
  rfl

theorem computed_consumer (ha : a.kind.isFusable = true) : scheme.computed (pre ++ [p]) a =
    .app a.kind (a.inputs.map (scheme.expression (pre ++ [p]))) := by
  change reading Expr.app a _ = _
  rw [reading, fusable_not_matMul ha]
  rfl

variable [DebugText F]

theorem agree_iff : Agree everyReading pre p a ↔
    scheme.computed pre (fusedOp p a) = scheme.computed (pre ++ [p]) a := by
  constructor
  · intro h
    rw [Scheme.computed, Scheme.computed, exec_snoc]
    exact h (Expr (OpKind F) String) (reading Expr.app) ⟨Expr.app, rfl⟩ Expr.name
  · rintro h V sem ⟨kind, rfl⟩ env
    have hfused := value_eval scheme kind env pre (fusedOp p a)
    have hpair := value_eval scheme kind env (pre ++ [p]) a
    rw [exec_snoc] at hpair
    exact hfused.trans ((congrArg (Expr.eval kind env) h).trans hpair.symm)

theorem computed_fused (h : fuses p a = true) : scheme.computed pre (fusedOp p a) =
    applied Expr.app p.kind ((fusedOp p a).inputs.map (scheme.expression pre)) (some a.kind) := by
  have hp : (fusedOp p a).kind.isMatMul = true := @fuses_isMatMul _ p a h
  rw [computed_product hp, recordedKind_fused (fuses_isFusable h)]
  rfl

theorem computed_fused_activation (h : fuses p a = true) (ha : a.kind ≠ .add) :
    scheme.computed pre (fusedOp p a) =
      .app a.kind [.app p.kind (p.inputs.map (scheme.expression pre))] := by
  have hadd : a.kind.isAdd = false := by
    cases hk : a.kind <;> first | rfl | exact absurd hk ha
  have hin : (fusedOp p a).inputs = p.inputs := by simp [fusedOp, hadd]
  rw [computed_fused h, hin]
  rcases fusable_cases (fuses_isFusable h) with hk | hk | hk | hk
  · exact absurd hk ha
  all_goals
    rw [hk]
    rfl

theorem computed_fused_add (h : fuses p a = true) (ha : a.kind = .add) :
    scheme.computed pre (fusedOp p a) =
      applied Expr.app p.kind (p.inputs.map (scheme.expression pre) ++
        (a.inputs.filter (· != p.output)).map (scheme.expression pre)) (some .add) := by
  have hin : (fusedOp p a).inputs = p.inputs ++ a.inputs.filter (· != p.output) := by
    simp [fusedOp, ha, OpKind.isAdd]
  rw [computed_fused h, hin, List.map_append, ha]

end Pairs

section Shapes

/-- The operands of a product and its consumer that fusion puts together correctly. -/
inductive Mergeable (pre : List (OmniOp F)) (p a : OmniOp F) : Prop where
  /-- A plain product, or an earlier `Add` that appended nothing, under one activation. -/
  | activation (ha : a.kind ≠ .add) (reads : a.inputs = [p.output])
      (plain : recordedKind p = none ∨ recordedKind p = some .add ∧ p.inputs.length ≤ 2)
  /-- A sum of the product and one other name, in this order unless that name computes the
  same expression; the product has two factors, or already adds operands behind the two. -/
  | operand (ha : a.kind = .add) (x : String) (hne : x ≠ p.output)
      (order : a.inputs = [p.output, x] ∨
        a.inputs = [x, p.output] ∧ scheme.expression pre x = scheme.computed pre p)
      (factors : recordedKind p = none ∧ p.inputs.length = 2 ∨
        recordedKind p = some .add ∧ 2 ≤ p.inputs.length)

variable {k : OpKind F} {args : List (Expr (OpKind F) String)}

theorem appended_cases (product : Expr (OpKind F) String)
    (operands : List (Expr (OpKind F) String)) :
    operands = [] ∧ appended Expr.app product operands = product ∨
    ∃ front last, operands = front ++ [last] ∧
      appended Expr.app product operands = .app .add [appended Expr.app product front, last] := by
  induction operands using List.reverseRecOn with
  | nil => exact .inl ⟨rfl, rfl⟩
  | append_singleton front last _ => exact .inr ⟨front, last, rfl, appended_snoc _ _ _ _⟩

theorem applied_plain (hk : k.isMatMul = true) (op : OmniOp F)
    (h : applied Expr.app k args (recordedKind op) = .app k args) :
    recordedKind op = none ∨ recordedKind op = some .add ∧ args.length ≤ 2 := by
  rcases recordedKind_cases op with hr | hr | ⟨act, hr, hact⟩
  · exact .inl hr
  · rw [hr, applied] at h
    rcases appended_cases (.app k (args.take 2)) (args.drop 2) with ⟨hnil, _⟩ | ⟨_, _, _, hsum⟩
    · exact .inr ⟨hr, List.drop_eq_nil_iff.mp hnil⟩
    · rw [hsum, Expr.app.injEq] at h
      exact absurd h.1.symm (matMul_ne hk).1
  · have hone : applied Expr.app k args (some act) = .app act [.app k args] := by
      rcases hact with rfl | rfl | rfl <;> rfl
    rw [hr, hone, Expr.app.injEq] at h
    exact absurd (h.1 ▸ hact) (matMul_ne hk).2

theorem applied_factors (hk : k.isMatMul = true) (op : OmniOp F) (hlen : 2 ≤ args.length)
    (h : applied Expr.app k args (recordedKind op) =
      appended Expr.app (.app k (args.take 2)) (args.drop 2)) :
    recordedKind op = none ∧ args.length = 2 ∨ recordedKind op = some .add ∧ 2 ≤ args.length := by
  rcases recordedKind_cases op with hr | hr | ⟨act, hr, hact⟩
  · left
    refine ⟨hr, ?_⟩
    rw [hr, applied] at h
    rcases appended_cases (.app k (args.take 2)) (args.drop 2) with ⟨hnil, _⟩ | ⟨_, _, _, hsum⟩
    · have := List.drop_eq_nil_iff.mp hnil
      omega
    · rw [hsum, Expr.app.injEq] at h
      exact absurd h.1 (matMul_ne hk).1
  · exact .inr ⟨hr, hlen⟩
  · have hone : applied Expr.app k args (some act) = .app act [.app k args] := by
      rcases hact with rfl | rfl | rfl <;> rfl
    rw [hr, hone] at h
    rcases appended_cases (.app k (args.take 2)) (args.drop 2) with ⟨_, hsame⟩ | ⟨_, _, _, hsum⟩
    · rw [hsame, Expr.app.injEq] at h
      exact absurd (h.1 ▸ hact) (matMul_ne hk).2
    · rw [hsum, Expr.app.injEq] at h
      rcases hact with rfl | rfl | rfl <;> cases h.1

theorem sum_shape (hk : k.isMatMul = true) {operands : List (Expr (OpKind F) String)}
    (h : applied Expr.app k args (some .add) = .app .add operands) :
    ∃ front last, args.drop 2 = front ++ [last] ∧
      operands = [appended Expr.app (.app k (args.take 2)) front, last] := by
  rw [applied] at h
  rcases appended_cases (.app k (args.take 2)) (args.drop 2) with
    ⟨_, hproduct⟩ | ⟨front, last, hdrop, hsum⟩
  · rw [hproduct, Expr.app.injEq] at h
    exact absurd h.1 (matMul_ne hk).1
  · rw [hsum, Expr.app.injEq] at h
    exact ⟨front, last, hdrop, h.2.symm⟩

theorem extra_shape {x last : Expr (OpKind F) String} {front : List (Expr (OpKind F) String)}
    (h : (args ++ [x]).drop 2 = front ++ [last]) :
    2 ≤ args.length ∧ last = x ∧ front = args.drop 2 ∧ (args ++ [x]).take 2 = args.take 2 := by
  have hlen : 2 ≤ args.length := by
    have hl := congrArg List.length h
    simp only [List.length_drop, List.length_append, List.length_singleton] at hl
    omega
  rw [List.drop_append_of_le_length hlen] at h
  obtain ⟨hfront, hlast⟩ := List.append_inj' h rfl
  exact ⟨hlen, (List.singleton_inj.mp hlast).symm, hfront.symm,
    List.take_append_of_le_length hlen⟩

theorem sizeOf_lt_applied {y : Expr (OpKind F) String} (hy : y ∈ args) (r : Option (OpKind F)) :
    sizeOf y < sizeOf (applied Expr.app k args r) := by
  have hsum : ∀ (operands : List (Expr (OpKind F) String)) (product : Expr (OpKind F) String),
      sizeOf product ≤ sizeOf (appended Expr.app product operands) ∧
        ∀ z ∈ operands, sizeOf z < sizeOf (appended Expr.app product operands) := by
    intro operands product
    induction operands using List.reverseRecOn with
    | nil => exact ⟨le_rfl, fun z hz => by cases hz⟩
    | append_singleton front last ih =>
      rw [appended_snoc]
      have hfront : sizeOf (appended Expr.app product front) <
          sizeOf (Expr.app .add [appended Expr.app product front, last]) :=
        sizeOf_lt_app List.mem_cons_self
      refine ⟨ih.1.trans hfront.le, ?_⟩
      intro z hz
      rcases List.mem_append.mp hz with hz | hz
      · exact (ih.2 z hz).trans hfront
      · rw [List.mem_singleton.mp hz]
        exact sizeOf_lt_app (List.mem_cons_of_mem _ List.mem_cons_self)
  simp only [applied]
  split
  · exact sizeOf_lt_app hy
  · have hparts := hsum (args.drop 2) (.app k (args.take 2))
    rw [← List.take_append_drop 2 args] at hy
    rcases List.mem_append.mp hy with hy | hy
    · exact (sizeOf_lt_app hy).trans_le hparts.1
    · exact hparts.2 y hy
  · exact (sizeOf_lt_app hy).trans (sizeOf_lt_app List.mem_cons_self)

end Shapes

section Exactly

variable [DebugText F] {pre : List (OmniOp F)} {p a : OmniOp F}

theorem agree_of_mergeable (h : fuses p a = true) (safe : Mergeable pre p a) :
    Agree everyReading pre p a := by
  have hp := fuses_isMatMul h
  rw [agree_iff, computed_consumer (fuses_isFusable h)]
  cases safe with
  | activation ha reads plain =>
    rw [computed_fused_activation h ha, reads, List.map_singleton, expression_product,
      computed_product hp]
    rcases plain with hr | ⟨hr, hlen⟩
    · rw [hr]
      rfl
    · have hshort : (p.inputs.map (scheme.expression pre)).length ≤ 2 := by simpa using hlen
      rw [hr, applied, List.take_of_length_le hshort, List.drop_eq_nil_of_le hshort]
      rfl
  | operand ha x hne order factors =>
    have hfilter : a.inputs.filter (· != p.output) = [x] := by
      rcases order with hin | ⟨hin, _⟩ <;> simp [hin, hne]
    have hlen : 2 ≤ (p.inputs.map (scheme.expression pre)).length := by
      rw [List.length_map]
      rcases factors with ⟨_, hlen⟩ | ⟨_, hlen⟩
      · exact hlen.ge
      · exact hlen
    have hproduct : scheme.computed pre p = appended Expr.app
        (.app p.kind ((p.inputs.map (scheme.expression pre)).take 2))
        ((p.inputs.map (scheme.expression pre)).drop 2) := by
      rw [computed_product hp]
      rcases factors with ⟨hr, htwo⟩ | ⟨hr, _⟩
      · have hshort : (p.inputs.map (scheme.expression pre)).length ≤ 2 := by simp [htwo]
        rw [hr, List.take_of_length_le hshort, List.drop_eq_nil_of_le hshort]
        rfl
      · rw [hr]
        rfl
    have hfused : scheme.computed pre (fusedOp p a) =
        .app .add [scheme.computed pre p, scheme.expression pre x] := by
      rw [computed_fused_add h ha, hfilter, List.map_singleton, applied,
        List.take_append_of_le_length hlen, List.drop_append_of_le_length hlen, appended_snoc,
        ← hproduct]
    rw [hfused, ha]
    rcases order with hin | ⟨hin, hsame⟩
    · rw [hin, List.map_cons, List.map_singleton, expression_product, expression_other hne]
    · rw [hin, List.map_cons, List.map_singleton, expression_product, expression_other hne, hsame]

theorem activation_of_agree (h : fuses p a = true) (ha : a.kind ≠ .add)
    (agree : Agree everyReading pre p a) : a.inputs = [p.output] ∧
      (recordedKind p = none ∨ recordedKind p = some .add ∧ p.inputs.length ≤ 2) := by
  have hp := fuses_isMatMul h
  rw [agree_iff, computed_consumer (fuses_isFusable h), computed_fused_activation h ha,
    Expr.app.injEq] at agree
  have hlen := congrArg List.length agree.2
  rw [List.length_map, List.length_singleton] at hlen
  obtain ⟨x, hx⟩ := List.length_eq_one_iff.mp hlen.symm
  have hin := fuses_reads h
  rw [hx, List.mem_singleton] at hin
  rw [hx, ← hin, List.map_singleton, expression_product, computed_product hp] at agree
  refine ⟨by rw [hx, hin], ?_⟩
  have hplain := applied_plain hp p (List.singleton_inj.mp agree.2).symm
  rwa [List.length_map] at hplain

theorem operand_of_agree (h : fuses p a = true) (ha : a.kind = .add)
    (agree : Agree everyReading pre p a) : Mergeable pre p a := by
  have hp := fuses_isMatMul h
  rw [agree_iff, computed_consumer (fuses_isFusable h), computed_fused_add h ha, ha] at agree
  generalize hargs : p.inputs.map (scheme.expression pre) = args at agree
  generalize hextras : (a.inputs.filter (· != p.output)).map (scheme.expression pre) = extras
    at agree
  have hlength : args.length = p.inputs.length := by rw [← hargs, List.length_map]
  have hproduct : scheme.computed pre p = applied Expr.app p.kind args (recordedKind p) := by
    rw [computed_product hp, hargs]
  obtain ⟨front, last, hdrop, hoperands⟩ := sum_shape hp agree
  have htwo := congrArg List.length hoperands
  rw [List.length_map] at htwo
  obtain ⟨u, v, huv⟩ := List.length_eq_two.mp htwo
  rw [huv, List.map_cons, List.map_singleton, List.cons.injEq, List.singleton_inj] at hoperands
  obtain ⟨hu, hv⟩ := hoperands
  have hin := fuses_reads h
  rw [huv, List.mem_pair] at hin
  rw [huv] at hextras
  by_cases hup : u = p.output
  · by_cases hvp : v = p.output
    · -- the product twice: the last operand would be the product itself
      exfalso
      have hnone : extras = [] := by simp [← hextras, hup, hvp]
      rw [hnone, List.append_nil] at hdrop
      have hmem : last ∈ args := by
        apply List.mem_of_mem_drop
        rw [hdrop]
        exact List.mem_append_right _ (List.mem_singleton_self last)
      have hlt := @sizeOf_lt_applied F p.kind args last hmem (recordedKind p)
      rw [← hproduct, ← expression_product, ← hvp, hv] at hlt
      exact lt_irrefl _ hlt
    · have hone : extras = [scheme.expression pre v] := by simp [← hextras, hup, hvp]
      rw [hone] at hdrop hu
      obtain ⟨hlen, _, hfront, htake⟩ := extra_shape hdrop
      rw [hup, expression_product, hproduct, htake, hfront] at hu
      have hfactors := applied_factors hp p hlen hu
      rw [hlength] at hfactors
      exact .operand ha v hvp (.inl (by rw [huv, hup])) hfactors
  · have hvp : v = p.output := (hin.resolve_left (Ne.symm hup)).symm
    have hone : extras = [scheme.expression pre u] := by simp [← hextras, hup, hvp]
    rw [hone] at hdrop hu
    obtain ⟨hlen, hlast, hfront, htake⟩ := extra_shape hdrop
    have hsame : scheme.expression pre u = scheme.computed pre p := by
      rw [← hlast, ← hv, hvp, expression_product]
    rw [htake, hfront, expression_other hup, hsame, hproduct] at hu
    have hfactors := applied_factors hp p hlen hu
    rw [hlength] at hfactors
    exact .operand ha u hup (.inr ⟨by rw [huv, hvp], hsame⟩) hfactors

theorem agree_iff_mergeable (h : fuses p a = true) :
    Agree everyReading pre p a ↔ Mergeable pre p a := by
  constructor
  · intro agree
    by_cases ha : a.kind = .add
    · exact operand_of_agree h ha agree
    · obtain ⟨reads, plain⟩ := activation_of_agree h ha agree
      exact .activation ha reads plain
  · exact agree_of_mergeable h

end Exactly

/-- Fusion preserves the meaning of a module exactly when no merged product is read behind its
consumer and the operands of every merged pair fit. -/
theorem fusion_preserves_iff [DebugText F] (m : OmniModule F) (sorted : Sorted m.ops) :
    FusionPreserves everyReading m ↔
      ∀ pre p a post, m.ops = pre ++ p :: a :: post → fuses p a = true →
        (∀ op ∈ post, p.output ∉ op.inputs) ∧ Mergeable pre p a := by
  rw [preserves_iff_pairs sorted fun pre p a h ha agree => (activation_of_agree h ha agree).1]
  constructor
  · intro pairs pre p a post heq h
    exact ⟨(pairs pre p a post heq h).1, (agree_iff_mergeable h).mp (pairs pre p a post heq h).2⟩
  · intro pairs pre p a post heq h
    exact ⟨(pairs pre p a post heq h).1, (agree_iff_mergeable h).mpr (pairs pre p a post heq h).2⟩

def biased : OmniModule ℚ :=
  .build [⟨0, .matMul, ["x", "w"], "h", ∅, .staticTensor [1] .f32⟩,
    ⟨0, .add, ["h", "b"], "y", ∅, .staticTensor [1] .f32⟩]

theorem fusion_preserves_iff_biased : Sorted biased.ops ∧ FusionPreserves everyReading biased := by
  have sorted : Sorted biased.ops := sorted_of_take (by decide) (by decide)
  refine ⟨sorted, (fusion_preserves_iff biased sorted).mpr ?_⟩
  intro pre p a post heq h
  have hlen := congrArg List.length heq
  simp only [List.length_append, List.length_cons] at hlen
  have hpre : pre = [] := List.length_eq_zero_iff.mp (by change 2 = _ at hlen; omega)
  have hpost : post = [] := List.length_eq_zero_iff.mp (by change 2 = _ at hlen; omega)
  subst hpre hpost
  cases heq
  constructor
  · intro op hop
    cases hop
  · exact .operand rfl "b" (by decide) (.inl rfl) (.inl ⟨rfl, rfl⟩)

def gated : OmniModule ℚ :=
  .build [⟨0, .matMul, ["x", "w"], "h", ∅, .staticTensor [1] .f32⟩,
    ⟨0, .relu, ["h"], "y", ∅, .staticTensor [1] .f32⟩,
    ⟨0, .mul, ["h", "y"], "z", ∅, .staticTensor [1] .f32⟩]

theorem gated_undefined : Sorted gated.ops ∧ ¬ FusionPreserves everyReading gated := by
  refine ⟨sorted_of_take (by decide) (by decide), ?_⟩
  intro h
  have hmem := h.closed _ _ [] (show (runOperatorFusion gated).ops = [_] ++ _ :: [] from rfl) "h"
    (by decide) (by decide)
  revert hmem
  decide

end FusionReadings
