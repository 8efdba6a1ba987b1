import OmniCompute.BackwardSweep
import OmniCompute.FusionMeaning

/-! Dead code elimination on a module as `push_op` built it, where the id that marks the root
is the position of the last operation, and on its own result, where ids have gaps. -/
namespace DeadCode

open OmniDialect PassManager PassStructure BackwardSweep FusionMeaning

variable {F : Type}

def Uses (ops : List (OmniOp F)) (a b : OmniOp F) : Prop := b ∈ ops ∧ b.output ∈ a.inputs

/-- The last operation depends on `op` through a chain of names, possibly empty. -/
def Depends (ops : List (OmniOp F)) (op : OmniOp F) : Prop :=
  ∃ last ∈ ops.getLast?, Relation.ReflTransGen (Uses ops) last op

/-- What the pass keeps: the operations the last one depends on, each as it was and in order. -/
structure KeepsDependencies (m : OmniModule F) : Prop where
  order : (runDce m).ops.Sublist m.ops
  kept : ∀ op, op ∈ (runDce m).ops ↔ op ∈ m.ops ∧ Depends m.ops op
  rest : runDce m = { m with ops := (runDce m).ops }

section Sweep

/-- The root test of the pass for a module of `n` operations. -/
def isRoot (n : ℕ) (op : OmniOp F) : Prop := op.id = UInt64.ofNat (n - 1)

instance (n : ℕ) : DecidablePred (isRoot n : OmniOp F → Prop) :=
  fun op => inferInstanceAs (Decidable (op.id = _))

theorem runDce_ops (m : OmniModule F) :
    (runDce m).ops = (sweep OmniOp.output OmniOp.inputs (isRoot m.opCount) m.ops).1 := rfl

theorem definedFirst {ops : List (OmniOp F)} (sorted : Sorted ops) :
    DefinedFirst OmniOp.output OmniOp.inputs ops := by
  intro front op back heq other hother hread
  have hback : other.output ∈ (op :: back).map OmniOp.output := List.mem_map_of_mem hother
  have hall : other.output ∈ ops.map OmniOp.output := by
    rw [heq, List.map_append]
    exact List.mem_append_right _ hback
  exact sorted.apart heq (sorted.topological front op back heq _ hread hall) hback

theorem sorted_nodup {ops : List (OmniOp F)} (sorted : Sorted ops) : ops.Nodup :=
  List.Nodup.of_map _ sorted.distinct

variable {ops : List (OmniOp F)} {op : OmniOp F}

theorem isRoot_iff (numbered : Numbered ops) (few : ops.length < 2 ^ 64) (hop : op ∈ ops) :
    isRoot ops.length op ↔ op ∈ ops.getLast? := by
  rw [List.getLast?_eq_getElem?, Option.mem_def]
  constructor
  · intro h
    obtain ⟨i, hi, hget⟩ := List.getElem_of_mem hop
    have hi? : ops[i]? = some op := by rw [List.getElem?_eq_getElem hi, hget]
    rw [isRoot, numbered i op hi?, ofNat_eq_iff (by omega) (by omega)] at h
    rwa [← h]
  · exact numbered _ op

theorem needed_iff (numbered : Numbered ops) (few : ops.length < 2 ^ 64) :
    Needed OmniOp.output OmniOp.inputs (isRoot ops.length) ops op ↔ Depends ops op := by
  constructor
  · rintro ⟨r, hr, hroot, hchain⟩
    exact ⟨r, (isRoot_iff numbered few hr).mp hroot, hchain⟩
  · rintro ⟨last, hlast, hchain⟩
    have hmem : last ∈ ops := List.mem_of_getLast? hlast
    exact ⟨last, hmem, (isRoot_iff numbered few hmem).mpr hlast, hchain⟩

theorem mark_append {n : ℕ} (front : List (OmniOp F)) (acc : List (OmniOp F) × Finset String) :
    ∃ kept, kept.Sublist front ∧ (front.foldr (markOp n) acc).1 = kept ++ acc.1 := by
  induction front with
  | nil => exact ⟨[], List.Sublist.refl _, rfl⟩
  | cons op front ih =>
    obtain ⟨kept, hsub, heq⟩ := ih
    rw [List.foldr_cons, markOp]
    split
    · exact ⟨op :: kept, hsub.cons_cons _, by rw [heq, List.cons_append]⟩
    · exact ⟨kept, hsub.cons _, heq⟩

variable {m : OmniModule F} {front : List (OmniOp F)} {last : OmniOp F}

theorem mem_runDce (numbered : Numbered m.ops) (sorted : Sorted m.ops)
    (few : m.ops.length < 2 ^ 64) : op ∈ (runDce m).ops ↔ Depends m.ops op := by
  rw [runDce_ops, mem_sweep (definedFirst sorted)]
  exact needed_iff numbered few

theorem dce_ends (hsplit : m.ops = front ++ [last]) (hid : last.id = UInt64.ofNat front.length) :
    ∃ kept, kept.Sublist front ∧ (runDce m).ops = kept ++ [last] := by
  have hcount : m.opCount - 1 = front.length := by simp [OmniModule.opCount, hsplit]
  obtain ⟨kept, hsub, hkept⟩ := @mark_append F m.opCount front ([last], ∅ ∪ last.inputs.toFinset)
  have hlast : markOp m.opCount last ([], ∅) = ([last], ∅ ∪ last.inputs.toFinset) := by
    simp [markOp, hid, hcount]
  refine ⟨kept, hsub, ?_⟩
  rw [runDce]
  simp only [hsplit, List.foldr_append, List.foldr_cons, List.foldr_nil, hlast]
  exact hkept

theorem dce_getLast (numbered : Numbered m.ops) : (runDce m).ops.getLast? = m.ops.getLast? := by
  rcases List.eq_nil_or_concat' m.ops with hnil | ⟨front, last, hsplit⟩
  · simp [runDce, hnil]
  · have hid : last.id = UInt64.ofNat front.length := by
      rw [hsplit] at numbered
      exact numbered.at_split
    obtain ⟨kept, _, hops⟩ := dce_ends hsplit hid
    rw [hops, hsplit, List.getLast?_concat, List.getLast?_concat]

end Sweep

def copyOf (input output : String) : OmniOp ℚ :=
  ⟨0, .memCopy, [input], output, ∅, .staticTensor [1] .f32⟩

def abandoned : List (OmniOp ℚ) := [copyOf "x" "a", copyOf "x" "b"]

theorem abandoned_sorted : Sorted (OmniModule.build abandoned).ops :=
  sorted_of_take (by decide) (by decide)

theorem dce_exact (pushed : List (OmniOp F)) (sorted : Sorted (OmniModule.build pushed).ops)
    (few : (OmniModule.build pushed).ops.length < 2 ^ 64) :
    KeepsDependencies (OmniModule.build pushed) := by
  have numbered := build_numbered pushed
  generalize OmniModule.build pushed = m at *
  refine ⟨?_, ?_, rfl⟩
  · rw [runDce_ops]
    exact sweep_sublist m.ops
  · intro op
    rw [mem_runDce numbered sorted few]
    constructor
    · intro h
      exact ⟨(sweep_sublist m.ops).subset ((mem_runDce numbered sorted few).mpr h), h⟩
    · rintro ⟨_, h⟩
      exact h

theorem dce_exact_abandoned : (runDce (OmniModule.build abandoned)).ops.length = 1 ∧
    KeepsDependencies (OmniModule.build abandoned) :=
  ⟨rfl, dce_exact abandoned abandoned_sorted (by decide)⟩

section Repeated

def AllRead (ops : List (OmniOp F)) : Prop :=
  ∀ op ∈ ops, op ∈ ops.getLast? ∨ ∃ reader ∈ ops, op.output ∈ reader.inputs

variable {m : OmniModule F}

/-- A first run that removes nothing leaves nothing for a second one. -/
theorem dce_self_iff (numbered : Numbered m.ops) (sorted : Sorted m.ops)
    (few : m.ops.length < 2 ^ 64) : (runDce m).ops = m.ops ↔ AllRead m.ops := by
  have first := definedFirst sorted
  have hself : (runDce m).ops = m.ops ↔
      ∀ op ∈ m.ops, Needed OmniOp.output OmniOp.inputs (isRoot m.opCount) m.ops op :=
    sweep_eq_self_iff first (sorted_nodup sorted)
  rw [hself]
  constructor
  · intro hall op hop
    rcases (hall op hop).cases with hroot | ⟨reader, hreader, hread⟩
    · exact .inl ((isRoot_iff numbered few hop).mp hroot)
    · exact .inr ⟨reader, hreader.mem, hread⟩
  · intro hread
    apply all_needed first
    intro op hop
    exact (hread op hop).imp_left (isRoot_iff numbered few hop).mpr

/-- A run that removes something moves the last operation away from the position its id names,
and the next run takes it for dead. -/
theorem dce_again (numbered : Numbered m.ops) (few : m.ops.length < 2 ^ 64)
    (h : (runDce (runDce m)).ops = (runDce m).ops) : (runDce m).ops = m.ops := by
  rcases List.eq_nil_or_concat' m.ops with hnil | ⟨front, last, hsplit⟩
  · simp [runDce, hnil]
  have hid : last.id = UInt64.ofNat front.length := by
    rw [hsplit] at numbered
    exact numbered.at_split
  obtain ⟨kept, hsub, hops⟩ := dce_ends hsplit hid
  have hlen : kept.length = front.length := by
    by_contra hne
    have hle := hsub.length_le
    have hstale : last.id ≠ UInt64.ofNat (kept.length + 1 - 1) := by
      rw [hsplit, List.length_append, List.length_singleton] at few
      rw [hid, ne_eq, ofNat_eq_iff (by omega) (by omega)]
      omega
    have hlost := @sweep_rootless F _ kept last hstale
    have hsecond : (runDce (runDce m)).ops =
        ((kept ++ [last]).foldr (markOp (kept.length + 1)) ([], ∅)).1 := by
      simp only [runDce, OmniModule.opCount] at hops ⊢
      rw [hops, List.length_append, List.length_singleton]
    rw [← hsecond, h, hops] at hlost
    have := hlost.length_le
    rw [List.length_append, List.length_singleton] at this
    omega
  rw [hops, hsplit, hsub.eq_of_length hlen]

theorem dce_idempotent_iff (pushed : List (OmniOp F))
    (sorted : Sorted (OmniModule.build pushed).ops)
    (few : (OmniModule.build pushed).ops.length < 2 ^ 64) :
    runDce (runDce (OmniModule.build pushed)) = runDce (OmniModule.build pushed) ↔
      AllRead (OmniModule.build pushed).ops := by
  have numbered := build_numbered pushed
  generalize OmniModule.build pushed = m at *
  constructor
  · intro h
    exact (dce_self_iff numbered sorted few).mp (dce_again numbered few (congrArg _ h))
  · intro h
    have hself : runDce m = m := by
      have hops := (dce_self_iff numbered sorted few).mpr h
      rw [runDce] at hops ⊢
      simp only at hops
      rw [hops]
    rw [hself, hself]

def chained : List (OmniOp ℚ) := [copyOf "x" "a", copyOf "a" "b"]

theorem dce_idempotent_iff_chained :
    runDce (runDce (OmniModule.build chained)) = runDce (OmniModule.build chained) := by
  have sorted : Sorted (OmniModule.build chained).ops := sorted_of_take (by decide) (by decide)
  refine (dce_idempotent_iff chained sorted (by decide)).mpr ?_
  intro op hop
  rcases List.mem_pair.mp hop with rfl | rfl
  · exact .inr ⟨_, List.mem_cons_of_mem _ List.mem_cons_self, by decide⟩
  · exact .inl rfl

theorem abandoned_emptied : Sorted (OmniModule.build abandoned).ops ∧
    runDce (runDce (OmniModule.build abandoned)) ≠ runDce (OmniModule.build abandoned) := by
  refine ⟨abandoned_sorted, ?_⟩
  intro h
  have hlen := congrArg (fun m => m.ops.length) h
  revert hlen
  decide

end Repeated

end DeadCode
