import Mathlib.Data.List.Induction
import Mathlib.Order.Lattice

/-! The running maximum of a list: a scan that replaces its candidate on a strictly larger
value only. It ends on the first position that holds a largest value. -/
namespace RunningMaximum

variable {α β : Type*} [LinearOrder β] {f : α → β} {xs ys : List α} {i j : ℕ} {x y : α}

/-- Position `i` holds `x`, nothing is larger, and whatever stands before it is smaller. -/
structure FirstMaxAt (f : α → β) (xs : List α) (i : ℕ) (x : α) : Prop where
  here : xs[i]? = some x
  largest : ∀ v ∈ xs, f v ≤ f x
  first : ∀ j v, j < i → xs[j]? = some v → f v < f x

def raise (f : α → β) (best : α × β) (x : α) : α × β := if f x > best.2 then (x, f x) else best

def runningMax (f : α → β) (start : α × β) (xs : List α) : α × β := xs.foldl (raise f) start

theorem FirstMaxAt.mem (h : FirstMaxAt f xs i x) : x ∈ xs := List.mem_of_getElem? h.here

theorem FirstMaxAt.value_perm (h : FirstMaxAt f xs i x) (h' : FirstMaxAt f ys j y)
    (hp : xs.Perm ys) : f x = f y :=
  le_antisymm (h'.largest x (hp.mem_iff.mp h.mem)) (h.largest y (hp.mem_iff.mpr h'.mem))

theorem firstMaxAt_singleton (x : α) : FirstMaxAt f [x] 0 x := by
  constructor
  · rfl
  · simp
  · intro j v hj
    omega

theorem FirstMaxAt.replace (h : FirstMaxAt f xs i x) (hy : f x < f y) :
    FirstMaxAt f (xs ++ [y]) xs.length y := by
  constructor
  · simp
  · intro v hv
    rcases List.mem_append.mp hv with hv | hv
    · exact (h.largest v hv).trans hy.le
    · rw [List.mem_singleton.mp hv]
  · intro j v hj hv
    rw [List.getElem?_append_left hj] at hv
    exact lt_of_le_of_lt (h.largest v (List.mem_of_getElem? hv)) hy

theorem FirstMaxAt.keep (h : FirstMaxAt f xs i x) (hy : f y ≤ f x) :
    FirstMaxAt f (xs ++ [y]) i x := by
  have hi : i < xs.length := (List.getElem?_eq_some_iff.mp h.here).1
  constructor
  · rw [List.getElem?_append_left hi, h.here]
  · intro v hv
    rcases List.mem_append.mp hv with hv | hv
    · exact h.largest v hv
    · rwa [List.mem_singleton.mp hv]
  · intro j v hj hv
    rw [List.getElem?_append_left (hj.trans hi)] at hv
    exact h.first j v hj hv

/-- The sentinel below all values gives way to the first element; then one step at a time. -/
theorem runningMax_first {start : α × β} (hne : xs ≠ []) (hstart : ∀ x ∈ xs, start.2 < f x) :
    ∃ i x, FirstMaxAt f xs i x ∧ runningMax f start xs = (x, f x) := by
  induction xs using List.reverseRecOn with
  | nil => exact absurd rfl hne
  | append_singleton xs y ih =>
    have hsnoc : runningMax f start (xs ++ [y]) = raise f (runningMax f start xs) y := by
      simp [runningMax]
    by_cases hxs : xs = []
    · subst xs
      have hy : f y > start.2 := hstart y (by simp)
      exact ⟨0, y, firstMaxAt_singleton y, hsnoc.trans (if_pos hy)⟩
    · obtain ⟨i, x, hx, hrun⟩ := ih hxs fun v hv => hstart v (List.mem_append_left _ hv)
      rw [hsnoc, hrun]
      by_cases hy : f y > f x
      · exact ⟨_, y, hx.replace hy, if_pos hy⟩
      · exact ⟨i, x, hx.keep (not_lt.mp hy), if_neg hy⟩

/-- The maximum avoids a property exactly when some element without it beats every element
with it, where the earlier of two equal values wins. -/
theorem FirstMaxAt.avoids_iff (h : FirstMaxAt f xs i x) (p : α → Prop) :
    ¬ p x ↔ ∃ (k : ℕ) (w : α), xs[k]? = some w ∧ ¬ p w ∧
      ∀ (j : ℕ) (v : α), xs[j]? = some v → p v → f v < f w ∨ (f v = f w ∧ k < j) := by
  constructor
  · intro hp
    refine ⟨i, x, h.here, hp, ?_⟩
    intro j v hj hv
    rcases (h.largest v (List.mem_of_getElem? hj)).lt_or_eq with hlt | heq
    · exact Or.inl hlt
    · refine Or.inr ⟨heq, ?_⟩
      rcases Nat.lt_trichotomy i j with hij | rfl | hji
      · exact hij
      · cases h.here.symm.trans hj
        exact absurd hv hp
      · exact absurd heq (h.first j v hji hj).ne
  · rintro ⟨k, w, hk, _, hbeats⟩ hp
    rcases hbeats i x h.here hp with hlt | ⟨heq, hki⟩
    · exact absurd hlt (not_lt_of_ge (h.largest w (List.mem_of_getElem? hk)))
    · exact absurd heq.symm (h.first k w hki hk).ne

end RunningMaximum
