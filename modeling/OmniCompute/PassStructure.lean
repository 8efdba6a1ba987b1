import OmniCompute.PassManager
import Mathlib.Algebra.Group.Nat.Defs
import Mathlib.Data.List.Infix

/-! How the passes reshape an operation list: which neighbours fusion merges, what is left
of the end of the list, and which operation the sweep of the last pass takes as its root. -/
namespace PassStructure

open RustValues OmniDialect PassManager

variable {F : Type}

section Ids

def Numbered (ops : List (OmniOp F)) : Prop :=
  ∀ (i : ℕ) (op : OmniOp F), ops[i]? = some op → op.id = UInt64.ofNat i

theorem build_numbered (pushed : List (OmniOp F)) : Numbered (OmniModule.build pushed).ops := by
  intro i op h
  rw [build_ops, List.getElem?_mapIdx] at h
  obtain ⟨p, _, rfl⟩ := Option.map_eq_some_iff.mp h
  rfl

theorem Numbered.at_split {front back : List (OmniOp F)} {op : OmniOp F}
    (h : Numbered (front ++ op :: back)) : op.id = UInt64.ofNat front.length :=
  h front.length op (by simp)

theorem ofNat_eq_iff {i j : ℕ} (hi : i < 2 ^ 64) (hj : j < 2 ^ 64) :
    UInt64.ofNat i = UInt64.ofNat j ↔ i = j := by
  constructor
  · intro h
    have ht := congrArg UInt64.toNat h
    rwa [UInt64.toNat_ofNat_of_lt' hi, UInt64.toNat_ofNat_of_lt' hj] at ht
  · exact congrArg UInt64.ofNat

end Ids

section Pairs

def hasPair : List (OmniOp F) → Bool
  | current :: next :: rest => fuses current next || hasPair (next :: rest)
  | _ => false

theorem fuses_isMatMul {m a : OmniOp F} (h : fuses m a = true) : m.kind.isMatMul = true := by
  simp only [fuses, Bool.and_eq_true] at h
  exact h.1.1

theorem fuses_reads {m a : OmniOp F} (h : fuses m a = true) : m.output ∈ a.inputs := by
  simp only [fuses, Bool.and_eq_true] at h
  simpa using h.1.2

theorem fuses_isFusable {m a : OmniOp F} (h : fuses m a = true) : a.kind.isFusable = true := by
  simp only [fuses, Bool.and_eq_true] at h
  exact h.2

def IsActivation (k : OpKind F) : Prop := k = .relu ∨ k = .gelu ∨ k = .silu

theorem fusable_cases {k : OpKind F} (h : k.isFusable = true) : k = .add ∨ IsActivation k := by
  rcases OpKind.isFusable_cases h with hk | hk | hk | hk
  · exact Or.inr (Or.inl hk)
  · exact Or.inr (Or.inr (Or.inl hk))
  · exact Or.inr (Or.inr (Or.inr hk))
  · exact Or.inl hk

theorem fusable_not_matMul {k : OpKind F} (h : k.isFusable = true) : k.isMatMul = false := by
  rcases OpKind.isFusable_cases h with rfl | rfl | rfl | rfl <;> rfl

theorem not_fuses_product {a m : OmniOp F} (h : m.kind.isMatMul = true) : fuses a m = false := by
  have hk : m.kind.isFusable = false := by
    by_contra hf
    rw [fusable_not_matMul (Bool.eq_true_of_not_eq_false hf)] at h
    cases h
  simp [fuses, hk]

/-- Nothing is fused across the boundary of the two lists. -/
def Apart (front back : List (OmniOp F)) : Prop :=
  ∀ a ∈ front.getLast?, ∀ b ∈ back.head?, fuses a b = false

theorem Apart.tail {a b : OmniOp F} {front back : List (OmniOp F)}
    (h : Apart (a :: b :: front) back) : Apart (b :: front) back := by
  intro x hx
  exact h x (by rwa [List.getLast?_cons_cons])

theorem Apart.tail_pair {a b : OmniOp F} {front back : List (OmniOp F)}
    (h : Apart (a :: b :: front) back) : Apart front back := by
  intro x hx
  refine h x ?_
  cases front with
  | nil => simp at hx
  | cons c front => rwa [List.getLast?_cons_cons, List.getLast?_cons_cons]

theorem hasPair_append {front back : List (OmniOp F)} (h : Apart front back) :
    hasPair (front ++ back) = (hasPair front || hasPair back) := by
  induction front with
  | nil => simp [hasPair]
  | cons a front ih =>
    cases front with
    | nil =>
      cases back with
      | nil => simp [hasPair]
      | cons b back =>
        have hab : fuses a b = false := h a (by simp) b (by simp)
        simp [hasPair, hab]
    | cons b front =>
      have hrest := ih h.tail
      rw [List.cons_append, List.cons_append, hasPair, ← List.cons_append, hrest, hasPair,
        Bool.or_assoc]

theorem apart_pair {pre : List (OmniOp F)} {m a : OmniOp F} (h : fuses m a = true) :
    Apart pre [m, a] := by
  intro x _ b hb
  rw [List.head?_cons, Option.mem_some_iff] at hb
  subst b
  exact not_fuses_product (fuses_isMatMul h)

variable [DebugText F]

theorem fuse_append {front back : List (OmniOp F)} (h : Apart front back) :
    fuse (front ++ back) = fuse front ++ fuse back := by
  induction front using fuse.induct with
  | case1 => simp [fuse]
  | case2 a =>
    cases back with
    | nil => simp [fuse]
    | cons b back =>
      have hab : fuses a b = false := h a (by simp) b (by simp)
      simp [fuse, hab]
  | case3 a b front hf ih =>
    simp [fuse, hf, ih h.tail_pair]
  | case4 a b front hf ih =>
    have hrest := ih h.tail
    rw [List.cons_append] at hrest
    simp [fuse, hf, hrest]

theorem fuse_snoc_pair {pre : List (OmniOp F)} {m a : OmniOp F} (h : fuses m a = true) :
    fuse (pre ++ [m, a]) = fuse pre ++ [fusedOp m a] := by
  rw [fuse_append (apart_pair h)]
  simp [fuse, h]

theorem fuse_snoc_single {pre : List (OmniOp F)} {a : OmniOp F} (h : Apart pre [a]) :
    fuse (pre ++ [a]) = fuse pre ++ [a] := fuse_append h

theorem fuse_eq_self {ops : List (OmniOp F)} (h : hasPair ops = false) : fuse ops = ops := by
  induction ops using fuse.induct with
  | case1 => rfl
  | case2 => rfl
  | case3 a b rest hf => simp [hasPair, hf] at h
  | case4 a b rest hf ih =>
    rw [hasPair, Bool.or_eq_false_iff] at h
    simp [fuse, hf, ih h.2]

theorem fuse_length_le (ops : List (OmniOp F)) : (fuse ops).length ≤ ops.length := by
  induction ops using fuse.induct with
  | case1 => exact le_rfl
  | case2 => exact le_rfl
  | case3 a b rest hf ih =>
    simp only [fuse, hf, if_true, List.length_cons]
    omega
  | case4 a b rest hf ih =>
    rw [fuse, if_neg hf]
    exact Nat.succ_le_succ ih

theorem fuse_length_lt {ops : List (OmniOp F)} (h : hasPair ops = true) :
    (fuse ops).length < ops.length := by
  induction ops using fuse.induct with
  | case1 => cases h
  | case2 => cases h
  | case3 a b rest hf ih =>
    have := fuse_length_le rest
    simp only [fuse, hf, if_true, List.length_cons]
    omega
  | case4 a b rest hf ih =>
    rw [hasPair, Bool.eq_false_of_not_eq_true hf, Bool.false_or] at h
    rw [fuse, if_neg hf]
    exact Nat.succ_lt_succ (ih h)

/-- What a fused pair takes over from one of the two never appears anew or out of order. -/
theorem fuse_map_sublist {β : Type} (g : OmniOp F → β)
    (hg : ∀ p a, g (fusedOp p a) = g p ∨ g (fusedOp p a) = g a) (ops : List (OmniOp F)) :
    ((fuse ops).map g).Sublist (ops.map g) := by
  induction ops using fuse.induct with
  | case1 => exact List.Sublist.refl _
  | case2 => exact List.Sublist.refl _
  | case3 a b rest hf ih =>
    rw [fuse, if_pos hf, List.map_cons, List.map_cons, List.map_cons]
    rcases hg a b with h | h
    · rw [h]
      exact (ih.cons _).cons_cons _
    · rw [h]
      exact (ih.cons_cons _).cons _
  | case4 a b rest hf ih =>
    rw [fuse, if_neg hf]
    exact ih.cons_cons _

theorem fuse_outputs (ops : List (OmniOp F)) :
    ((fuse ops).map OmniOp.output).Sublist (ops.map OmniOp.output) :=
  fuse_map_sublist OmniOp.output (fun _ _ => .inr rfl) ops

end Pairs

section Sweep

variable {n : ℕ} {acc : List (OmniOp F) × Finset String}

theorem mark_mono (front : List (OmniOp F)) :
    acc.1.Sublist (front.foldr (markOp n) acc).1 := by
  induction front with
  | nil => exact List.Sublist.refl _
  | cons op front ih =>
    rw [List.foldr_cons, markOp]
    split
    · exact ih.cons _
    · exact ih

theorem mark_sublist (front : List (OmniOp F)) :
    (front.foldr (markOp n) ([], ∅)).1.Sublist front := by
  induction front with
  | nil => exact List.Sublist.refl _
  | cons op front ih =>
    rw [List.foldr_cons, markOp]
    split
    · exact ih.cons_cons _
    · exact ih.cons _

/-- The last operation stays if its id is the operation count less one. -/
theorem sweep_root {front : List (OmniOp F)} {op : OmniOp F} (h : op.id = UInt64.ofNat (n - 1)) :
    op ∈ ((front ++ [op]).foldr (markOp n) ([], ∅)).1 := by
  have hop : markOp n op ([], ∅) = ([op], ∅ ∪ op.inputs.toFinset) := by simp [markOp, h]
  rw [List.foldr_append, List.foldr_cons, List.foldr_nil, hop]
  exact (mark_mono front).subset (List.mem_singleton_self op)

theorem sweep_rootless {front : List (OmniOp F)} {op : OmniOp F}
    (h : op.id ≠ UInt64.ofNat (n - 1)) :
    ((front ++ [op]).foldr (markOp n) ([], ∅)).1.Sublist front := by
  have hop : markOp n op ([], ∅) = ([], ∅) := by simp [markOp, h]
  rw [List.foldr_append, List.foldr_cons, List.foldr_nil, hop]
  exact mark_sublist front

end Sweep

end PassStructure
