import OmniCompute.GaussJordan
import Mathlib.Algebra.Order.BigOperators.Group.Finset
import Mathlib.Algebra.Order.Field.Basic
import Mathlib.Data.Finset.Max

/-! Pivots of a diagonally dominant matrix. Whatever rows a Gauss–Jordan elimination has
swapped so far, each original row acts on the kernel of the finished rows either as zero or
as one of the rows still to come; so the column to be eliminated next has an entry that is
at least as large as the margin by which the diagonal dominates. -/
namespace DominantPivots

open RowMajor GaussJordan

section Action

variable {K : Type*} [Field K] {n i p : ℕ} {A M : Table K} {x : ℕ → K}

def rowDot (n : ℕ) (row x : ℕ → K) : K := ∑ j ∈ Finset.range n, row j * x j

/-- On vectors that the finished rows send to zero, an original row is zero or a later row. -/
def Accounts (n i : ℕ) (A M : Table K) : Prop :=
  ∀ x, (∀ r < i, rowDot n (M r) x = 0) → ∀ m < n, rowDot n (A m) x = 0 ∨
    ∃ r, i ≤ r ∧ r < n ∧ rowDot n (A m) x = rowDot n (M r) x

theorem rowDot_div (row x : ℕ → K) (factor : K) :
    rowDot n (fun c => row c / factor) x = rowDot n row x / factor := by
  simp only [rowDot, Finset.sum_div]
  apply Finset.sum_congr rfl
  intro j _
  ring

theorem rowDot_sub (row other x : ℕ → K) (scale : K) :
    rowDot n (fun c => row c - scale * other c) x =
      rowDot n row x - scale * rowDot n other x := by
  simp only [rowDot, Finset.mul_sum, ← Finset.sum_sub_distrib]
  apply Finset.sum_congr rfl
  intro j _
  ring

theorem rowDot_pivot_row : rowDot n (pivoted M i p i) x = rowDot n (M p) x / M p i := by
  rw [← rowDot_div]
  simp [pivoted, cleared, scaled, swapped]

theorem rowDot_other_row {r : ℕ} (hr : r ≠ i) (hx : rowDot n (M p) x = 0) :
    rowDot n (pivoted M i p r) x = rowDot n (swapped M i p r) x := by
  have hrow : pivoted M i p r = fun c => swapped M i p r c -
      swapped M i p r i * pivoted M i p i c := by
    funext c
    simp [pivoted, cleared, scaled, hr]
  rw [hrow, rowDot_sub, rowDot_pivot_row, hx, zero_div, mul_zero, sub_zero]

theorem accounts_augmented : Accounts n 0 A (augmented n A) := by
  intro x _ m hm
  refine Or.inr ⟨m, Nat.zero_le m, hm, ?_⟩
  apply Finset.sum_congr rfl
  intro j hj
  simp [augmented, Finset.mem_range.mp hj]

theorem accounts_pivoted (h : Accounts n i A M) (hip : i ≤ p) (hp : p < n)
    (hpivot : M p i ≠ 0) : Accounts n (i + 1) A (pivoted M i p) := by
  intro x hx m hm
  have hlead : rowDot n (M p) x = 0 := by
    have hi := hx i (Nat.lt_succ_self i)
    rw [rowDot_pivot_row] at hi
    exact (div_eq_zero_iff.mp hi).resolve_right hpivot
  have hdone : ∀ r < i, rowDot n (M r) x = 0 := by
    intro r hr
    have hrow := hx r (Nat.lt_succ_of_lt hr)
    rw [rowDot_other_row (by omega) hlead] at hrow
    simpa [swapped, show r ≠ i by omega, show r ≠ p by omega] using hrow
  rcases h x hdone m hm with hzero | ⟨r, hir, hr, hrow⟩
  · exact Or.inl hzero
  · by_cases hrp : r = p
    · exact Or.inl (by rw [hrow, hrp, hlead])
    · by_cases hri : r = i
      · refine Or.inr ⟨p, by omega, hp, ?_⟩
        rw [rowDot_other_row (by omega) hlead, hrow]
        simp [swapped, hri, show p ≠ i by omega]
      · refine Or.inr ⟨r, by omega, hr, ?_⟩
        rw [rowDot_other_row hri hlead, hrow]
        simp [swapped, hri, hrp]

/-- The vector that undoes the finished columns on column `i`. -/
def columnKernel (M : Table K) (i : ℕ) : ℕ → K :=
  fun c => if c < i then -M c i else if c = i then 1 else 0

theorem rowDot_columnKernel (hu : UnitColumns n i M) (hi : i < n) {r : ℕ} (hr : r < n) :
    rowDot n (M r) (columnKernel M i) = if r < i then 0 else M r i := by
  have hsplit : ∀ c ∈ Finset.range n, M r c * columnKernel M i c =
      (if c = r then (if r < i then -M r i else 0) else 0) + if c = i then M r i else 0 := by
    intro c _
    rcases Nat.lt_trichotomy c i with hlt | rfl | hgt
    · rw [hu c hlt r hr]
      by_cases hc : c = r
      · subst hc
        simp [columnKernel, hlt, show c ≠ i by omega]
      · simp [columnKernel, hlt, hc, Ne.symm hc, show c ≠ i by omega]
    · by_cases hc : c = r
      · subst hc
        simp [columnKernel]
      · simp [columnKernel, hc]
    · have hne : c ≠ i := by omega
      by_cases hc : c = r
      · subst hc
        simp [columnKernel, hne, Nat.not_lt_of_gt hgt]
      · simp [columnKernel, hne, hc, Nat.not_lt_of_gt hgt]
  rw [rowDot, Finset.sum_congr rfl hsplit, Finset.sum_add_distrib, Finset.sum_ite_eq',
    Finset.sum_ite_eq', if_pos (Finset.mem_range.mpr hr), if_pos (Finset.mem_range.mpr hi)]
  split <;> simp

end Action

section Dominance

variable {K : Type*} [Field K] [LinearOrder K] [IsStrictOrderedRing K]
variable {n i : ℕ} {A M : Table K} {margin : K}

def DominatesBy (n : ℕ) (margin : K) (A : Table K) : Prop :=
  ∀ r < n, ∑ c ∈ (Finset.range n).erase r, |A r c| + margin ≤ |A r r|

theorem margin_le_rowDot (h : DominatesBy n margin A) {x : ℕ → K} {m : ℕ} (hm : m < n)
    (hmax : ∀ c < n, |x c| ≤ |x m|) : margin * |x m| ≤ |rowDot n (A m) x| := by
  have hmem : m ∈ Finset.range n := Finset.mem_range.mpr hm
  have hrest : |∑ c ∈ (Finset.range n).erase m, A m c * x c| ≤
      (∑ c ∈ (Finset.range n).erase m, |A m c|) * |x m| := by
    rw [Finset.sum_mul]
    refine (Finset.abs_sum_le_sum_abs _ _).trans (Finset.sum_le_sum ?_)
    intro c hc
    rw [abs_mul]
    have hcn := Finset.mem_range.mp (Finset.mem_of_mem_erase hc)
    exact mul_le_mul_of_nonneg_left (hmax c hcn) (abs_nonneg _)
  have hdiag := mul_le_mul_of_nonneg_right (h m hm) (abs_nonneg (x m))
  have hsum : rowDot n (A m) x =
      A m m * x m + ∑ c ∈ (Finset.range n).erase m, A m c * x c :=
    (Finset.add_sum_erase _ _ hmem).symm
  have htri := abs_sub_abs_le_abs_sub (A m m * x m)
    (-∑ c ∈ (Finset.range n).erase m, A m c * x c)
  rw [abs_neg, sub_neg_eq_add, ← hsum, abs_mul] at htri
  linarith

/-- However the rows were swapped, the next column still has an entry of the margin's size. -/
theorem exists_pivot (h : DominatesBy n margin A) (hmargin : 0 < margin)
    (ha : Accounts n i A M) (hu : UnitColumns n i M) (hi : i < n) :
    ∃ r, i ≤ r ∧ r < n ∧ margin ≤ |M r i| := by
  obtain ⟨m, hm, hmax⟩ := Finset.exists_max_image (Finset.range n)
    (fun c => |columnKernel M i c|) ⟨i, Finset.mem_range.mpr hi⟩
  have hmn := Finset.mem_range.mp hm
  have hone : 1 ≤ |columnKernel M i m| := by
    have := hmax i (Finset.mem_range.mpr hi)
    simpa [columnKernel] using this
  have hlarge : margin ≤ |rowDot n (A m) (columnKernel M i)| :=
    calc margin ≤ margin * |columnKernel M i m| := le_mul_of_one_le_right hmargin.le hone
      _ ≤ _ := margin_le_rowDot h hmn fun c hc => hmax c (Finset.mem_range.mpr hc)
  have hkernel : ∀ r < i, rowDot n (M r) (columnKernel M i) = 0 := by
    intro r hr
    rw [rowDot_columnKernel hu hi (by omega), if_pos hr]
  rcases ha _ hkernel m hmn with hzero | ⟨r, hir, hr, hrow⟩
  · rw [hzero, abs_zero] at hlarge
    exact absurd hlarge (not_le_of_gt hmargin)
  · refine ⟨r, hir, hr, ?_⟩
    rwa [hrow, rowDot_columnKernel hu hi hr, if_neg (by omega)] at hlarge

end Dominance

end DominantPivots
