import Mathlib.Algebra.BigOperators.Intervals

/-! Sums that a loop nest accumulates tile by tile, the last tile padded with zeros. -/
namespace TiledSums

open Finset

variable {V : Type*} [AddCommMonoid V]

theorem foldl_add (f : ℕ → V) (start : V) (n : ℕ) :
    (List.range n).foldl (fun sum i => sum + f i) start = start + ∑ i ∈ range n, f i := by
  induction n with
  | zero => simp
  | succ n ih =>
    rw [List.range_succ, List.foldl_append, ih, sum_range_succ, ← add_assoc]
    rfl

theorem sum_tiles (f : ℕ → V) (tile n : ℕ) :
    ∑ phase ∈ range n, ∑ i ∈ range tile, f (phase * tile + i) = ∑ j ∈ range (n * tile), f j := by
  induction n with
  | zero => simp
  | succ n ih => rw [sum_range_succ, ih, Nat.succ_mul, sum_range_add]

theorem sum_padded (f : ℕ → V) {bound total : ℕ} (h : bound ≤ total) :
    ∑ j ∈ range total, (if j < bound then f j else 0) = ∑ j ∈ range bound, f j := by
  rw [← sum_filter]
  congr 1
  ext j
  simp only [mem_filter, mem_range]
  omega

theorem tiles_cover {tile : ℕ} (h : 0 < tile) (bound : ℕ) :
    bound ≤ (bound + tile - 1) / tile * tile := by
  have hm := Nat.div_add_mod (bound + tile - 1) tile
  have hlt := Nat.mod_lt (bound + tile - 1) h
  have hc := Nat.mul_comm tile ((bound + tile - 1) / tile)
  omega

theorem tiled_sum (f : ℕ → V) {tile bound : ℕ} (h : 0 < tile) :
    ∑ phase ∈ range ((bound + tile - 1) / tile), ∑ i ∈ range tile,
        (if phase * tile + i < bound then f (phase * tile + i) else 0) =
      ∑ j ∈ range bound, f j := by
  rw [sum_tiles (fun j => if j < bound then f j else 0) tile]
  exact sum_padded f (tiles_cover h bound)

end TiledSums
