import OmniCompute.FusionMeaning
import OmniCompute.ModuleMeaning

/-! What constant folding knows. Its table holds exactly the names that can be derived from
`Fill` operations through `Add` and `Mul`, each from names defined before it, and it indexes the
first two inputs of an operation as soon as all of them are in the knows. -/
namespace DerivedConstants

open RustValues OmniDialect PassManager PassStructure FusionMeaning

variable {F : Type}

def IsFill (k : OpKind F) : Prop := ∃ value, k = .fill value

instance (k : OpKind F) : Decidable (IsFill k) :=
  decidable_of_iff ((k matches .fill _) = true) (by cases k <;> simp [IsFill])

def Combines (k : OpKind F) : Prop := k = .add ∨ k = .mul

instance [DecidableEq F] (k : OpKind F) : Decidable (Combines k) :=
  inferInstanceAs (Decidable (_ ∨ _))

/-- The operations, in this order, derive a constant for the name. -/
inductive Constant : List (OmniOp F) → String → Prop
  | fill {front back : List (OmniOp F)} {op : OmniOp F} :
      IsFill op.kind → Constant (front ++ op :: back) op.output
  | combine {front back : List (OmniOp F)} {op : OmniOp F} :
      Combines op.kind → (∀ x ∈ op.inputs, Constant front x) →
      Constant (front ++ op :: back) op.output

def Derives (front : List (OmniOp F)) (op : OmniOp F) : Prop :=
  IsFill op.kind ∨ Combines op.kind ∧ ∀ x ∈ op.inputs, Constant front x

def Short (front : List (OmniOp F)) (op : OmniOp F) : Prop :=
  Combines op.kind ∧ (∀ x ∈ op.inputs, Constant front x) ∧ op.inputs.length < 2

theorem Combines.not_fill {k : OpKind F} (h : Combines k) : ¬ IsFill k := by
  rintro ⟨value, rfl⟩
  rcases h with h | h <;> cases h

section Lists

variable {front back : List (OmniOp F)} {op : OmniOp F} {x : String}

theorem Constant.append (h : Constant front x) (back : List (OmniOp F)) :
    Constant (front ++ back) x := by
  cases h with
  | fill hk =>
    rw [List.append_assoc, List.cons_append]
    exact .fill hk
  | combine hk hin =>
    rw [List.append_assoc, List.cons_append]
    exact .combine hk hin

theorem constant_nil : ¬ Constant ([] : List (OmniOp F)) x := by
  intro h
  generalize hops : ([] : List (OmniOp F)) = ops at h
  cases h <;> simp at hops

theorem Derives.constant (h : Derives front op) : Constant (front ++ op :: back) op.output := by
  rcases h with hk | ⟨hk, hin⟩
  · exact .fill hk
  · exact .combine hk hin

theorem constant_iff {ops : List (OmniOp F)} : Constant ops x ↔
    ∃ front op back, ops = front ++ op :: back ∧ op.output = x ∧ Derives front op := by
  constructor
  · intro h
    cases h with
    | fill hk => exact ⟨_, _, _, rfl, rfl, .inl hk⟩
    | combine hk hin => exact ⟨_, _, _, rfl, rfl, .inr ⟨hk, hin⟩⟩
  · rintro ⟨front, op, back, rfl, rfl, h⟩
    exact h.constant

theorem constant_snoc : Constant (front ++ [op]) x ↔
    Constant front x ∨ op.output = x ∧ Derives front op := by
  constructor
  · intro h
    obtain ⟨before, q, behind, heq, hout, hq⟩ := constant_iff.mp h
    rcases List.eq_nil_or_concat' behind with rfl | ⟨behind, last, rfl⟩
    · obtain ⟨rfl, hlast⟩ := List.append_inj' heq rfl
      obtain rfl := List.singleton_inj.mp hlast
      exact .inr ⟨hout, hq⟩
    · rw [← List.cons_append, ← List.append_assoc] at heq
      obtain ⟨rfl, _⟩ := List.append_inj' heq rfl
      exact .inl (hout ▸ hq.constant)
  · rintro (h | ⟨rfl, h⟩)
    · exact h.append [op]
    · exact h.constant

end Lists

section Folding

def Knows (constants : HashMap String F) (done : List (OmniOp F)) : Prop :=
  ∀ x, (constants.lookup x).isSome ↔ Constant done x

structure FoldedOp (front : List (OmniOp F)) (op folded : OmniOp F) : Prop where
  same : ∃ kind, folded = { op with kind := kind }
  fill : IsFill folded.kind ↔ Derives front op

variable {constants : HashMap String F} {done : List (OmniOp F)} {op : OmniOp F}
  {combine : F → F → F}

theorem knows_nothing : Knows (∅ : HashMap String F) [] := by
  intro x
  simp [constant_nil]

theorem Knows.skip (knows : Knows constants done) (h : ¬ Derives done op) :
    Knows constants (done ++ [op]) := by
  intro x
  rw [knows, constant_snoc]
  exact ⟨.inl, fun hx => hx.resolve_right fun hop => h hop.2⟩

theorem Knows.record (knows : Knows constants done) (h : Derives done op) (value : F) :
    Knows (constants.insert op.output value) (done ++ [op]) := by
  intro x
  rw [constant_snoc, ← knows x]
  by_cases hx : x = op.output
  · subst hx
    simp [h]
  · rw [AList.lookup_insert_ne hx]
    exact ⟨.inl, fun hx' => hx'.resolve_right fun hop => hx hop.1.symm⟩

theorem Knows.guard_iff (knows : Knows constants done) :
    (op.inputs.all fun input => (constants.lookup input).isSome) = true ↔
      ∀ x ∈ op.inputs, Constant done x := by
  rw [List.all_eq_true]
  exact forall₂_congr fun x _ => knows x

theorem constantAt_some {i : ℕ} (h : i < op.inputs.length)
    (known : ∀ x ∈ op.inputs, (constants.lookup x).isSome) :
    ∃ value, constantAt constants op i = .ok value := by
  obtain ⟨value, hvalue⟩ := Option.isSome_iff_exists.mp (known _ (List.getElem_mem h))
  refine ⟨value, ?_⟩
  simp [constantAt, List.getElem?_eq_getElem h, hvalue]

theorem constantAt_none {i : ℕ} (h : op.inputs.length ≤ i) :
    constantAt constants op i = .error (.panic "index out of bounds") := by
  simp [constantAt, List.getElem?_eq_none h]

theorem foldBinary_cases (knows : Knows constants done) :
    ((∀ x ∈ op.inputs, Constant done x) → 2 ≤ op.inputs.length → ∃ value,
      foldBinary combine constants op =
        .ok (constants.insert op.output value, { op with kind := .fill value })) ∧
    ((∀ x ∈ op.inputs, Constant done x) → op.inputs.length < 2 → ∃ message,
      foldBinary combine constants op = .error (.panic message)) ∧
    (¬ (∀ x ∈ op.inputs, Constant done x) →
      foldBinary combine constants op = .ok (constants, op)) := by
  refine ⟨?_, ?_, ?_⟩
  · intro hall hlen
    have hknown : ∀ x ∈ op.inputs, (constants.lookup x).isSome := by
      intro x hx
      exact (knows x).mpr (hall x hx)
    obtain ⟨a, ha⟩ := constantAt_some (show 0 < op.inputs.length by omega) hknown
    obtain ⟨b, hb⟩ := constantAt_some (show 1 < op.inputs.length by omega) hknown
    refine ⟨combine a b, ?_⟩
    rw [foldBinary, if_pos (knows.guard_iff.mpr hall), ha, hb]
    rfl
  · intro hall hlen
    refine ⟨"index out of bounds", ?_⟩
    have hb : constantAt constants op 1 = _ := constantAt_none (by omega)
    rw [foldBinary, if_pos (knows.guard_iff.mpr hall), hb]
    by_cases hempty : op.inputs.length = 0
    · have ha : constantAt constants op 0 = _ := constantAt_none (by omega)
      rw [ha]
      rfl
    · have hknown : ∀ x ∈ op.inputs, (constants.lookup x).isSome :=
        fun x hx => (knows x).mpr (hall x hx)
      obtain ⟨a, ha⟩ := constantAt_some (show 0 < op.inputs.length by omega) hknown
      rw [ha]
      rfl
  · intro hsome
    rw [foldBinary, if_neg]
    exact fun hguard => hsome (knows.guard_iff.mp hguard)

variable [Add F] [Mul F]

theorem foldOp_arm (constants : HashMap String F) (op : OmniOp F) :
    (∃ value, op.kind = .fill value ∧
      foldOp constants op = .ok (constants.insert op.output value, op)) ∨
    (Combines op.kind ∧ ∃ combine, foldOp constants op = foldBinary combine constants op) ∨
    (¬ IsFill op.kind ∧ ¬ Combines op.kind ∧ foldOp constants op = .ok (constants, op)) := by
  simp only [foldOp]
  split
  · rename_i value hk
    exact .inl ⟨value, hk, rfl⟩
  · rename_i hk
    exact .inr (.inl ⟨.inl hk, _, rfl⟩)
  · rename_i hk
    exact .inr (.inl ⟨.inr hk, _, rfl⟩)
  · rename_i hfill hadd hmul
    refine .inr (.inr ⟨?_, ?_, rfl⟩)
    · rintro ⟨value, hk⟩
      exact hfill value hk
    · rintro (hk | hk)
      · exact hadd hk
      · exact hmul hk

theorem foldOp_short (knows : Knows constants done) (h : Short done op) :
    ∃ message, foldOp constants op = .error (.panic message) := by
  obtain ⟨hk, hall, hlen⟩ := h
  rcases foldOp_arm constants op with ⟨value, hfill, _⟩ | ⟨_, combine, heq⟩ | ⟨_, hnot, _⟩
  · exact absurd ⟨value, hfill⟩ hk.not_fill
  · rw [heq]
    exact (foldBinary_cases knows).2.1 hall hlen
  · exact absurd hk hnot

theorem foldOp_long (knows : Knows constants done) (h : ¬ Short done op) :
    ∃ constants' folded, foldOp constants op = .ok (constants', folded) ∧
      Knows constants' (done ++ [op]) ∧ FoldedOp done op folded := by
  rcases foldOp_arm constants op with ⟨value, hfill, heq⟩ | ⟨hk, combine, heq⟩ | ⟨hfill, hk, heq⟩
  · have hd : Derives done op := .inl ⟨value, hfill⟩
    exact ⟨_, _, heq, knows.record hd value, ⟨op.kind, rfl⟩, fun _ => hd, fun _ => ⟨value, hfill⟩⟩
  · have hcases := @foldBinary_cases F constants done op combine knows
    by_cases hall : ∀ x ∈ op.inputs, Constant done x
    · have hlen : 2 ≤ op.inputs.length := by
        by_contra hlen
        exact h ⟨hk, hall, by omega⟩
      have hd : Derives done op := .inr ⟨hk, hall⟩
      obtain ⟨value, hvalue⟩ := hcases.1 hall hlen
      exact ⟨_, _, heq.trans hvalue, knows.record hd value, ⟨_, rfl⟩, fun _ => hd,
        fun _ => ⟨value, rfl⟩⟩
    · have hd : ¬ Derives done op := by
        rintro (hfill | ⟨_, hin⟩)
        · exact hk.not_fill hfill
        · exact hall hin
      exact ⟨_, _, heq.trans (hcases.2.2 hall), knows.skip hd, ⟨op.kind, rfl⟩,
        fun hfill => absurd hfill hk.not_fill, fun hd' => absurd hd' hd⟩
  · have hd : ¬ Derives done op := by
      rintro (hf | ⟨hc, _⟩)
      · exact hfill hf
      · exact hk hc
    exact ⟨_, _, heq, knows.skip hd, ⟨op.kind, rfl⟩, fun hf => absurd hf hfill,
      fun hd' => absurd hd' hd⟩

theorem foldOps_long {ops : List (OmniOp F)} (knows : Knows constants done)
    (long : ∀ front op back, ops = front ++ op :: back → ¬ Short (done ++ front) op) :
    ∃ folded, foldOps constants ops = .ok folded ∧ folded.length = ops.length ∧
      ∀ i op, ops[i]? = some op →
        ∃ op', folded[i]? = some op' ∧ FoldedOp (done ++ ops.take i) op op' := by
  induction ops generalizing constants done with
  | nil => exact ⟨[], rfl, rfl, fun i op hop => by simp at hop⟩
  | cons op rest ih =>
    have hop : ¬ Short done op := by simpa using long [] op rest rfl
    obtain ⟨constants', op', hfold, hknows, hfolded⟩ := foldOp_long knows hop
    obtain ⟨rest', hrest, hlen, hall⟩ := ih hknows (by
      intro front q back heq
      have hq := long (op :: front) q back (by rw [heq, List.cons_append])
      rwa [List.append_assoc, List.singleton_append])
    refine ⟨op' :: rest', ?_, by rw [List.length_cons, List.length_cons, hlen], ?_⟩
    · rw [foldOps, hfold]
      change (foldOps constants' rest).bind _ = _
      rw [hrest]
      rfl
    · intro i q hq
      cases i with
      | zero =>
        obtain rfl : op = q := by simpa using hq
        exact ⟨op', rfl, by simpa using hfolded⟩
      | succ i =>
        rw [List.getElem?_cons_succ] at hq ⊢
        have hq' := hall i q hq
        rwa [List.append_assoc, List.singleton_append] at hq'

theorem foldOps_short {ops : List (OmniOp F)} (knows : Knows constants done)
    {front back : List (OmniOp F)} (heq : ops = front ++ op :: back)
    (short : Short (done ++ front) op) :
    ∃ message, foldOps constants ops = .error (.panic message) := by
  induction ops generalizing constants done front with
  | nil => simp at heq
  | cons q rest ih =>
    by_cases hq : Short done q
    · obtain ⟨message, hfold⟩ := foldOp_short knows hq
      exact ⟨message, by rw [foldOps, hfold]; rfl⟩
    · obtain ⟨constants', q', hfold, hknows, _⟩ := foldOp_long knows hq
      rcases front with _ | ⟨r, front⟩
      · rw [List.nil_append, List.cons.injEq] at heq
        rw [List.append_nil, ← heq.1] at short
        exact absurd short hq
      · rw [List.cons_append, List.cons.injEq] at heq
        obtain ⟨rfl, heq⟩ := heq
        obtain ⟨message, hrest⟩ := ih hknows heq (by
          rwa [List.append_assoc, List.singleton_append])
        refine ⟨message, ?_⟩
        rw [foldOps, hfold]
        change (foldOps constants' rest).bind _ = _
        rw [hrest]
        rfl

end Folding

section Panics

variable [Add F] [Mul F]

/-- The call comes back to its caller, with a value or with an error. -/
def Returns {α : Type} (r : Result α) : Prop := ∀ message, r ≠ .error (.panic message)

theorem folding_returns_iff (m : OmniModule F) : Returns (runConstantFolding m) ↔
    ∀ front op back, m.ops = front ++ op :: back → ¬ Short front op := by
  constructor
  · intro returns front op back heq short
    obtain ⟨message, hfold⟩ := foldOps_short knows_nothing heq short
    exact returns message (by rw [runConstantFolding, hfold]; rfl)
  · intro long message hpanic
    obtain ⟨ops, hfold, _⟩ := foldOps_long knows_nothing long
    rw [runConstantFolding, hfold] at hpanic
    cases hpanic

def loneSum : OmniModule ℚ :=
  .build [⟨0, .fill 1, [], "c", ∅, .staticTensor [1] .f32⟩,
    ⟨0, .add, ["c"], "y", ∅, .staticTensor [1] .f32⟩]

theorem loneSum_panics : ¬ Returns (runConstantFolding loneSum) := by
  intro h
  exact h "index out of bounds" rfl

end Panics

section Sorted

variable {ops front back : List (OmniOp F)} {op : OmniOp F} {x : String}

/-- The name can be derived from `Fill` operations through `Add` and `Mul` alone. -/
inductive Derivable (ops : List (OmniOp F)) : String → Prop
  | fill {op : OmniOp F} : op ∈ ops → IsFill op.kind → Derivable ops op.output
  | combine {op : OmniOp F} : op ∈ ops → Combines op.kind →
      (∀ x ∈ op.inputs, Derivable ops x) → Derivable ops op.output

theorem Derivable.mono (h : Derivable front x) (hsub : front ⊆ ops) : Derivable ops x := by
  induction h with
  | fill hop hk => exact .fill (hsub hop) hk
  | combine hop hk _ ih => exact .combine (hsub hop) hk ih

theorem Derivable.defined (h : Derivable ops x) : x ∈ ops.map OmniOp.output := by
  cases h with
  | fill hop _ => exact List.mem_map_of_mem hop
  | combine hop _ _ => exact List.mem_map_of_mem hop

theorem Constant.derivable (h : Constant ops x) : Derivable ops x := by
  induction h with
  | fill hk => exact .fill (by simp) hk
  | combine hk _ ih =>
    refine .combine (by simp) hk ?_
    intro x hx
    exact (ih x hx).mono (List.subset_append_left _ _)

theorem split_at {i : ℕ} (h : ops[i]? = some op) :
    ops = ops.take i ++ op :: ops.drop (i + 1) := by
  obtain ⟨hi, rfl⟩ := List.getElem?_eq_some_iff.mp h
  rw [List.getElem_cons_drop, List.take_append_drop]

structure Partner (ops : List (OmniOp F)) (op folded : OmniOp F) : Prop where
  same : ∃ kind, folded = { op with kind := kind }
  fill : IsFill folded.kind ↔ Derivable ops op.output

variable (sorted : Sorted ops)

include sorted

theorem Constant.before (h : Constant ops x) (heq : ops = front ++ back)
    (hx : x ∈ front.map OmniOp.output) : Constant front x := by
  obtain ⟨before, q, behind, hsplit, hout, hq⟩ := constant_iff.mp h
  have hnot : q ∉ back := by
    intro hmem
    exact sorted.apart heq hx (hout ▸ List.mem_map_of_mem hmem)
  rw [hsplit] at heq
  rcases List.append_eq_append_iff.mp heq with ⟨mid, hfront, hmid⟩ | ⟨mid, _, hmid⟩
  · rcases mid with _ | ⟨r, mid⟩
    · exact absurd (show q ∈ back by rw [List.nil_append] at hmid; simp [← hmid]) hnot
    · rw [List.cons_append, List.cons.injEq] at hmid
      obtain ⟨rfl, _⟩ := hmid
      rw [hfront, ← hout]
      exact hq.constant
  · exact absurd (show q ∈ back by simp [hmid]) hnot

/-- In sorted lists the order is no restriction. -/
theorem derivable_iff : Derivable ops x ↔ Constant ops x := by
  constructor
  · intro h
    induction h with
    | fill hop hk =>
      obtain ⟨front, back, rfl⟩ := List.append_of_mem hop
      exact .fill hk
    | @combine op hop hk hin ih =>
      obtain ⟨front, back, heq⟩ := List.append_of_mem hop
      rw [heq]
      refine .combine hk ?_
      intro x hx
      have hdef := sorted.topological front op back heq x hx (hin x hx).defined
      exact (ih x hx).before sorted heq hdef
  · exact Constant.derivable

theorem derives_iff (heq : ops = front ++ op :: back) :
    Derives front op ↔ Derivable ops op.output := by
  rw [derivable_iff sorted]
  constructor
  · intro h
    rw [heq]
    exact h.constant
  · intro h
    have hsplit : ops = (front ++ [op]) ++ back := by simp [heq]
    rcases constant_snoc.mp (h.before sorted hsplit (by simp)) with hbefore | ⟨_, hd⟩
    · have hdef := hbefore.derivable.defined
      exact absurd (by simp) (sorted.apart heq hdef)
    · exact hd

theorem folded_partners [Add F] [Mul F]
    (long : ∀ front op back, ops = front ++ op :: back → ¬ Short front op) :
    ∃ folded, foldOps ∅ ops = .ok folded ∧ List.Forall₂ (Partner ops) ops folded := by
  obtain ⟨folded, hfold, hlen, hall⟩ := @foldOps_long F ∅ [] _ _ ops knows_nothing long
  refine ⟨folded, hfold, List.forall₂_iff_get.mpr ⟨hlen.symm, ?_⟩⟩
  intro i hi hi'
  have hget : ops[i]? = some ops[i] := List.getElem?_eq_getElem hi
  obtain ⟨op', hop', hfolded⟩ := hall i _ hget
  obtain rfl : folded[i] = op' := by
    rw [List.getElem?_eq_getElem hi'] at hop'
    exact Option.some.inj hop'
  exact ⟨hfolded.same, hfolded.fill.trans (derives_iff sorted (split_at hget))⟩

end Sorted

section Values

open ModuleMeaning

/-- Folding changes no value, and of the operations only the kinds of the derivable ones. -/
structure FoldsExactly (m folded : OmniModule ℚ) : Prop where
  values : ∀ (V : Type) [CommRing V] [Algebra ℚ V] (I : Interpretation V) (env : String → V),
    valueOf I env folded = valueOf I env m
  partners : List.Forall₂ (Partner m.ops) m.ops folded.ops

theorem not_short_of_binary {ops : List (OmniOp F)}
    (binary : ∀ op ∈ ops, Combines op.kind → op.inputs.length = 2) (front : List (OmniOp F))
    (op : OmniOp F) (back : List (OmniOp F)) (heq : ops = front ++ op :: back) :
    ¬ Short front op := by
  rintro ⟨hk, _, hlen⟩
  have := binary op (by simp [heq]) hk
  omega

theorem folding_exact (m : OmniModule ℚ) (sorted : Sorted m.ops)
    (binary : ∀ op ∈ m.ops, Combines op.kind → op.inputs.length = 2) :
    ∃ folded, runConstantFolding m = .ok folded ∧ FoldsExactly m folded := by
  obtain ⟨ops, hfold, partners⟩ := folded_partners sorted (not_short_of_binary binary)
  obtain ⟨ops', hfold', _, hexec⟩ := @foldOps_spec (fun _ => True) m.ops ∅ sorted.distinct binary
    (fun _ _ _ => trivial) ⟨by simp, by simp⟩
  obtain rfl : ops = ops' := Except.ok.inj (hfold.symm.trans hfold')
  refine ⟨{ m with ops := ops }, by rw [runConstantFolding, hfold]; rfl, ?_, partners⟩
  intro V _ _ I env
  have h := hexec V I env (by intro x value hx; simp at hx) ops.length
  rwa [List.take_length, ← partners.length_eq, List.take_length] at h

def cascade : OmniModule ℚ :=
  .build [⟨0, .fill (5 / 2), [], "a", ∅, .staticTensor [1] .f32⟩,
    ⟨0, .add, ["a", "a"], "b", ∅, .staticTensor [1] .f32⟩,
    ⟨0, .mul, ["b", "a"], "c", ∅, .staticTensor [1] .f32⟩,
    ⟨0, .mul, ["c", "x"], "y", ∅, .staticTensor [1] .f32⟩]

theorem folding_exact_cascade :
    ∃ folded, runConstantFolding cascade = .ok folded ∧ FoldsExactly cascade folded :=
  folding_exact cascade (sorted_of_take (by decide) (by decide)) (by decide)

end Values

end DerivedConstants
