import Mathlib.Algebra.BigOperators.Group.List.Basic
import Mathlib.Data.List.Basic
import Mathlib.Tactic.Ring

/-! A block inserted behind some elements of a list. What was inserted can be found and taken out
again if its elements occur nowhere else, and weights that cancel in the block are kept. -/
namespace InsertedBlocks

variable {α M : Type*}

section Insertion

variable (p : α → Bool) (block : List α)

/-- The block behind every element that satisfies `p`. -/
def insertBehind (xs : List α) : List α := xs.flatMap fun x => if p x then x :: block else [x]

variable {p block} {xs ys front back post : List α} {x d : α}

@[simp] theorem insertBehind_nil : insertBehind p block [] = [] := rfl

theorem insertBehind_cons : insertBehind p block (x :: xs) =
    x :: ((if p x then block else []) ++ insertBehind p block xs) := by
  unfold insertBehind
  rw [List.flatMap_cons]
  split <;> rfl

theorem insertBehind_append :
    insertBehind p block (xs ++ ys) = insertBehind p block xs ++ insertBehind p block ys :=
  List.flatMap_append

theorem foldl_insertBehind (xs acc : List α) :
    xs.foldl (fun acc x => acc ++ if p x then x :: block else [x]) acc =
      acc ++ insertBehind p block xs := by
  rw [List.foldl_append_eq_append]
  rfl

theorem mem_insertBehind (h : d ∈ insertBehind p block xs) : d ∈ xs ∨ d ∈ block := by
  obtain ⟨x, hx, hd⟩ := List.mem_flatMap.mp h
  split at hd
  · rcases List.mem_cons.mp hd with rfl | hd
    · exact Or.inl hx
    · exact Or.inr hd
  · obtain rfl := List.mem_singleton.mp hd
    exact Or.inl hx

theorem filter_insertBehind (q : α → Bool) (hblock : ∀ d ∈ block, q d = false)
    (hxs : ∀ x ∈ xs, q x = true) : (insertBehind p block xs).filter q = xs := by
  induction xs with
  | nil => rfl
  | cons x xs ih =>
    have hnone : (if p x then block else []).filter q = [] := by
      rw [List.filter_eq_nil_iff]
      intro d hd
      split at hd
      · rw [hblock d hd]
        decide
      · cases hd
    rw [insertBehind_cons, List.filter_cons_of_pos (hxs x List.mem_cons_self),
      List.filter_append, hnone, List.nil_append, ih fun y hy => hxs y (List.mem_cons_of_mem _ hy)]

theorem split_insertBehind (pre : List α) (hblock : block = pre ++ d :: post) (hpre : d ∉ pre)
    (hpost : d ∉ post) (hxs : d ∉ xs) (h : insertBehind p block xs = front ++ d :: back) :
    ∃ before x after, xs = before ++ x :: after ∧ p x = true ∧
      front = insertBehind p block before ++ x :: pre ∧
      back = post ++ insertBehind p block after := by
  induction xs generalizing front with
  | nil => simp at h
  | cons x xs ih =>
    rw [List.mem_cons, not_or] at hxs
    rw [insertBehind_cons] at h
    cases front with
    | nil => exact absurd (List.cons.inj h).1.symm hxs.1
    | cons y front =>
      obtain ⟨rfl, hrest⟩ := List.cons.inj h
      replace hrest : (if p x then block else []) ++ insertBehind p block xs =
        front ++ d :: back := hrest
      by_cases hp : p x = true
      · rw [if_pos hp, List.append_eq_append_iff] at hrest
        rcases hrest with ⟨rest, rfl, htail⟩ | ⟨rest, hhead, htail⟩
        · obtain ⟨before, z, after, rfl, hz, rfl, rfl⟩ := ih hxs.2 htail
          refine ⟨x :: before, z, after, rfl, hz, ?_, rfl⟩
          rw [insertBehind_cons, if_pos hp]
          simp
        · cases rest with
          | nil =>
            -- The marker would be the first element behind the block, which is not inserted.
            have hfirst : insertBehind p block xs = [] ++ d :: back := htail.symm
            obtain ⟨before, z, after, _, _, hnil, _⟩ := ih hxs.2 hfirst
            simp at hnil
          | cons y rest =>
            obtain ⟨rfl, rfl⟩ := List.cons.inj htail
            obtain ⟨rfl, _, rfl⟩ :=
              (List.append_cons_inj_of_notMem hpre hpost).mp (hhead.symm.trans hblock).symm
            exact ⟨[], x, xs, rfl, hp, rfl, rfl⟩
      · rw [if_neg hp, List.nil_append] at hrest
        obtain ⟨before, z, after, rfl, hz, rfl, rfl⟩ := ih hxs.2 hrest
        refine ⟨x :: before, z, after, rfl, hz, ?_, rfl⟩
        rw [insertBehind_cons, if_neg hp]
        rfl

end Insertion

section Weights

variable [AddCommGroup M] {w : α → M} {p : α → Bool} {block xs : List α}

theorem sum_insertBehind (h : (block.map w).sum = 0) :
    ((insertBehind p block xs).map w).sum = (xs.map w).sum := by
  induction xs with
  | nil => rfl
  | cons x xs ih =>
    have hnone : ((if p x then block else []).map w).sum = 0 := by
      split
      · exact h
      · rfl
    rw [insertBehind_cons, List.map_cons, List.map_append, List.sum_cons, List.sum_append, ih,
      hnone, zero_add, List.map_cons, List.sum_cons]

end Weights

section Depth

variable [DecidableEq α] {opening closing : α} {xs ys : List α}

/-- How many of the pairs that begin in the list are still open at its end. -/
def depth (opening closing : α) (xs : List α) : ℤ := xs.count opening - xs.count closing

theorem depth_append :
    depth opening closing (xs ++ ys) = depth opening closing xs + depth opening closing ys := by
  unfold depth
  rw [List.count_append, List.count_append]
  push_cast
  ring

theorem depth_of_not_mem (ho : opening ∉ xs) (hc : closing ∉ xs) :
    depth opening closing xs = 0 := by
  unfold depth
  rw [List.count_eq_zero_of_not_mem ho, List.count_eq_zero_of_not_mem hc]
  rfl

end Depth

end InsertedBlocks
