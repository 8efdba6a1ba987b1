import Mathlib.Algebra.Order.Field.Basic
import Mathlib.Data.List.Induction

/-! Exponential moving averages: every sample is mixed into the estimate with the same weight,
so the estimate depends on all samples so far and on the first guess. -/
namespace MovingAverage

variable {K : Type*} [Field K]

def average (weight start : K) (samples : List K) : K :=
  samples.foldl (fun estimate x => (1 - weight) * estimate + weight * x) start

theorem average_snoc (weight start : K) (samples : List K) (x : K) :
    average weight start (samples ++ [x]) =
      (1 - weight) * average weight start samples + weight * x := by
  rw [average, List.foldl_append]
  rfl

/-- The first guess never wears off entirely. -/
theorem average_pos [LinearOrder K] [IsStrictOrderedRing K] {weight start : K} {samples : List K}
    (hweight : 0 ≤ weight) (hless : weight < 1) (hstart : 0 < start)
    (h : ∀ x ∈ samples, 0 ≤ x) : 0 < average weight start samples := by
  induction samples using List.reverseRecOn with
  | nil => exact hstart
  | append_singleton samples x ih =>
    rw [average_snoc]
    have hpast := ih fun y hy => h y (List.mem_append_left _ hy)
    have hx := h x (List.mem_append_right _ List.mem_cons_self)
    exact add_pos_of_pos_of_nonneg (mul_pos (sub_pos.mpr hless) hpast) (mul_nonneg hweight hx)

end MovingAverage
