import OmniCompute.RowMajor
import Mathlib.Algebra.BigOperators.Fin
import Mathlib.Algebra.BigOperators.Ring.Finset
import Mathlib.Algebra.BigOperators.Field
import Mathlib.LinearAlgebra.Matrix.NonsingularInverse

/-! Gauss–Jordan elimination on the table `[A | I]` over any field.
Every row operation keeps, row by row, that the left half is the right half times `A`;
every pivot step makes one more left column a unit column. -/
namespace GaussJordan

open RowMajor

variable {K : Type*} [Field K] {n i p : ℕ} {A M : Table K}

def augmented (n : ℕ) (A : Table K) : Table K :=
  fun r c => if c < n then A r c else if c = n + r then 1 else 0

def swapped (M : Table K) (i p : ℕ) : Table K :=
  fun r => if r = i then M p else if r = p then M i else M r

def scaled (M : Table K) (i : ℕ) (factor : K) : Table K :=
  fun r => if r = i then fun c => M r c / factor else M r

def cleared (M : Table K) (i : ℕ) : Table K :=
  fun r => if r = i then M r else fun c => M r c - M r i * M i c

def pivoted (M : Table K) (i p : ℕ) : Table K := cleared (scaled (swapped M i p) i (M p i)) i

/-- Row `r` of the left half is row `r` of the right half times `A`. -/
def RowConsistent (n : ℕ) (A : Table K) (row : ℕ → K) : Prop :=
  ∀ j < n, row j = ∑ k ∈ Finset.range n, row (n + k) * A k j

def Consistent (n : ℕ) (A M : Table K) : Prop := ∀ r < n, RowConsistent n A (M r)

def UnitColumns (n i : ℕ) (M : Table K) : Prop :=
  ∀ c < i, ∀ r < n, M r c = if r = c then 1 else 0

section Rows

variable {row other : ℕ → K}

theorem RowConsistent.div (h : RowConsistent n A row) (factor : K) :
    RowConsistent n A fun c => row c / factor := by
  intro j hj
  simp only
  rw [h j hj, Finset.sum_div]
  apply Finset.sum_congr rfl
  intro k _
  ring

theorem RowConsistent.sub (h : RowConsistent n A row) (ho : RowConsistent n A other) (scale : K) :
    RowConsistent n A fun c => row c - scale * other c := by
  intro j hj
  simp only
  rw [h j hj, ho j hj, Finset.mul_sum, ← Finset.sum_sub_distrib]
  apply Finset.sum_congr rfl
  intro k _
  ring

end Rows

theorem consistent_augmented : Consistent n A (augmented n A) := by
  intro r hr j hj
  have hone : ∀ k ∈ Finset.range n, augmented n A r (n + k) * A k j =
      if k = r then A r j else 0 := by
    intro k _
    by_cases hk : k = r
    · subst k
      simp [augmented]
    · simp [augmented, hk]
  rw [Finset.sum_congr rfl hone, Finset.sum_ite_eq' (Finset.range n) r]
  simp [augmented, hj, hr]

theorem consistent_swapped (h : Consistent n A M) (hi : i < n) (hp : p < n) :
    Consistent n A (swapped M i p) := by
  intro r hr
  simp only [swapped]
  split
  · exact h p hp
  · split
    · exact h i hi
    · exact h r hr

theorem consistent_scaled (h : Consistent n A M) (factor : K) :
    Consistent n A (scaled M i factor) := by
  intro r hr
  simp only [scaled]
  split
  · exact (h r hr).div factor
  · exact h r hr

theorem consistent_cleared (h : Consistent n A M) (hi : i < n) : Consistent n A (cleared M i) := by
  intro r hr
  simp only [cleared]
  split
  · exact h r hr
  · exact (h r hr).sub (h i hi) (M r i)

theorem consistent_pivoted (h : Consistent n A M) (hi : i < n) (hp : p < n) :
    Consistent n A (pivoted M i p) :=
  consistent_cleared (consistent_scaled (consistent_swapped h hi hp) _) hi

theorem unitColumns_pivoted (h : UnitColumns n i M) (hip : i ≤ p) (hp : p < n)
    (hpivot : M p i ≠ 0) : UnitColumns n (i + 1) (pivoted M i p) := by
  have hi : i < n := Nat.lt_of_le_of_lt hip hp
  intro c hc r hr
  rcases Nat.lt_succ_iff_lt_or_eq.mp hc with hlt | rfl
  · have hzero : M p c = 0 := by
      rw [h c hlt p hp, if_neg (by omega)]
    have hizero : M i c = 0 := by
      rw [h c hlt i hi, if_neg (by omega)]
    have hne : i ≠ c := by omega
    by_cases hri : r = i
    · simp [pivoted, cleared, scaled, swapped, hri, hzero, hne]
    · by_cases hrp : r = p
      · subst hrp
        have hrc : r ≠ c := by omega
        simp [pivoted, cleared, scaled, swapped, hri, hzero, hizero, hrc]
      · simp [pivoted, cleared, scaled, swapped, hri, hrp, hzero, h c hlt r hr]
  · by_cases hri : r = c
    · simp [pivoted, cleared, scaled, swapped, hri, hpivot]
    · simp [pivoted, cleared, scaled, swapped, hri, hpivot]

theorem inverse_of_unitColumns (h : Consistent n A M) (hu : UnitColumns n n M) :
    (Matrix.of fun r c : Fin n => M r (n + c)) * (Matrix.of fun r c : Fin n => A r c) = 1 ∧
    (Matrix.of fun r c : Fin n => A r c) * (Matrix.of fun r c : Fin n => M r (n + c)) = 1 := by
  have hleft :
      (Matrix.of fun r c : Fin n => M r (n + c)) * (Matrix.of fun r c : Fin n => A r c) = 1 := by
    ext r c
    have hrow := h r r.isLt c c.isLt
    rw [hu c c.isLt r r.isLt, Finset.sum_range] at hrow
    rw [Matrix.mul_apply, Matrix.one_apply]
    simp only [Matrix.of_apply, ← hrow, Fin.ext_iff]
  exact ⟨hleft, mul_eq_one_comm.mp hleft⟩

end GaussJordan
