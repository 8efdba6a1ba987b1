import OmniCompute.FirstAttempt
import Mathlib.LinearAlgebra.Matrix.ToLinearEquiv

/-! Whether obfuscation changes every tensor. A private matrix leaves some tensor alone exactly
if it has a fixed row vector, and from dimension 3 on the sampler can return such matrices. -/
namespace FixedTensors

open RustValues RowMajor DominantPivots Obfuscator ObfuscatorInverse RestoredProducts FirstAttempt

/-- No tensor with a non-zero entry is its own obfuscation. -/
def AlwaysChanges (m : ObfuscationMatrix) : Prop :=
  ∀ rows tensor, tensor.length = rows * m.dim → (∃ x ∈ tensor, x ≠ 0) →
    ∃ output, obfuscate id m tensor rows = .ok output ∧ output ≠ tensor

section Matrices

variable {n : ℕ}

theorem fixes_only_zero_iff {K : Type*} [Field K] (A : Matrix (Fin n) (Fin n) K) :
    (∀ rows (X : Matrix (Fin rows) (Fin n) K), X * A = X → X = 0) ↔ (A - 1).det ≠ 0 := by
  constructor
  · intro h hdet
    obtain ⟨v, hv, hzero⟩ := Matrix.exists_vecMul_eq_zero_iff.mpr hdet
    rw [Matrix.vecMul_sub, Matrix.vecMul_one, sub_eq_zero] at hzero
    have hrow := h 1 (Matrix.of fun _ => v) (by
      ext i j
      exact congrFun hzero j)
    exact hv (congrFun hrow 0)
  · intro hdet rows X hX
    have hzero : X * (A - 1) = 0 := by rw [Matrix.mul_sub, Matrix.mul_one, hX, sub_self]
    have hunit : IsUnit (A - 1).det := isUnit_iff_ne_zero.mpr hdet
    rw [← Matrix.mul_nonsing_inv_cancel_right (A - 1) X hunit, hzero, Matrix.zero_mul]

theorem det_ne_zero_of_dominatesBy {M : Table ℚ} {margin : ℚ} (hmargin : 0 < margin)
    (h : DominatesBy n margin M) :
    (Matrix.of fun r c : Fin n => M r c).det ≠ 0 := by
  intro hdet
  obtain ⟨v, hv, hzero⟩ := Matrix.exists_mulVec_eq_zero_iff.mpr hdet
  obtain ⟨k, hk⟩ := Function.ne_iff.mp hv
  obtain ⟨m, _, hmax⟩ := Finset.exists_max_image Finset.univ (fun c => |v c|)
    ⟨k, Finset.mem_univ k⟩
  let x : ℕ → ℚ := fun c => if hc : c < n then v ⟨c, hc⟩ else 0
  have hx : ∀ c : Fin n, x c = v c := fun c => dif_pos c.isLt
  have hrow : rowDot n (M m) x = 0 := by
    rw [rowDot, Finset.sum_range]
    simp only [hx]
    exact congrFun hzero m
  have hlarge := margin_le_rowDot h (x := x) m.isLt fun c hc => by
    have hle := hmax ⟨c, hc⟩ (Finset.mem_univ _)
    rwa [← hx, ← hx] at hle
  have hpos : 0 < |v m| := lt_of_lt_of_le (abs_pos.mpr hk) (hmax k (Finset.mem_univ k))
  rw [hrow, abs_zero, hx] at hlarge
  exact absurd (mul_pos hmargin hpos) (not_lt_of_ge hlarge)

end Matrices

section Tensors

variable {m : ObfuscationMatrix} {rows : ℕ} {tensor : List ℚ}

theorem toMatrix_eq_zero_iff (ht : tensor.length = rows * m.dim) :
    toMatrix tensor rows m.dim = 0 ↔ ∀ x ∈ tensor, x = 0 := by
  have hzero := stores_replicate (0 : ℚ) rows m.dim
  have hmatrix : toMatrix (List.replicate (rows * m.dim) (0 : ℚ)) rows m.dim = 0 := by
    rw [hzero.toMatrix]
    rfl
  constructor
  · intro h
    have heq := toMatrix_inj ht hzero.length (h.trans hmatrix.symm)
    rw [heq]
    exact fun x hx => List.eq_of_mem_replicate hx
  · intro h
    rw [List.eq_replicate_of_mem h, ht, hmatrix]

theorem changed_iff (hm : m.data.length = m.dim * m.dim) (ht : tensor.length = rows * m.dim) :
    (∃ output, obfuscate id m tensor rows = .ok output ∧ output ≠ tensor) ↔
      toMatrix tensor rows m.dim * toMatrix m.data m.dim m.dim ≠ toMatrix tensor rows m.dim := by
  obtain ⟨output, hok, hlength, hmatrix⟩ := obfuscate_spec hm ht
  constructor
  · rintro ⟨output', hok', hne⟩ hfixed
    cases hok.symm.trans hok'
    exact hne (toMatrix_inj hlength ht (hmatrix.trans hfixed))
  · intro hne
    refine ⟨output, hok, fun heq => hne ?_⟩
    rw [← hmatrix, heq]

theorem alwaysChanges_iff_det (hm : m.data.length = m.dim * m.dim) :
    AlwaysChanges m ↔ (toMatrix m.data m.dim m.dim - 1).det ≠ 0 := by
  rw [← fixes_only_zero_iff]
  constructor
  · intro h rows X hX
    by_contra hne
    have hlength : (ofMatrix X).length = rows * m.dim := List.length_ofFn
    have hentry : ∃ x ∈ ofMatrix X, x ≠ 0 := by
      by_contra hall
      push Not at hall
      rw [← toMatrix_eq_zero_iff hlength, toMatrix_ofMatrix] at hall
      exact hne hall
    have hchanged := (changed_iff hm hlength).mp (h rows (ofMatrix X) hlength hentry)
    rw [toMatrix_ofMatrix] at hchanged
    exact hchanged hX
  · rintro h rows tensor ht ⟨x, hx, hne⟩
    refine (changed_iff hm ht).mpr fun hfixed => hne ?_
    exact (toMatrix_eq_zero_iff ht).mp (h rows _ hfixed) x hx

end Tensors

section Draws

variable {m : ObfuscationMatrix} {dim : ℕ} {data : List ℚ} {draw : Draw}

def shiftedEntry (draw : Draw) : Table ℚ := fun r c =>
  if r = c then (draw r c : ℚ) + 14 else draw r c

theorem shifted_matrix (hst : Stores data dim dim fun r c =>
      if r = c then draw r c + 15 else (draw r c : ℚ)) :
    toMatrix data dim dim - 1 = Matrix.of fun r c : Fin dim => shiftedEntry draw r c := by
  rw [hst.toMatrix]
  ext r c
  by_cases hrc : r = c
  · subst hrc
    simp only [Matrix.sub_apply, Matrix.of_apply, Matrix.one_apply_eq, shiftedEntry, if_true]
    ring
  · have hne : (r : ℕ) ≠ c := fun h => hrc (Fin.ext h)
    simp [shiftedEntry, hrc, hne]

theorem generated_shifted (hm : CanGenerate m) :
    m.data.length = m.dim * m.dim ∧ ∃ draw : Draw, draw.InRange ∧
      toMatrix m.data m.dim m.dim - 1 =
        Matrix.of fun r c : Fin m.dim => shiftedEntry draw r c := by
  obtain ⟨draws, range, hgen⟩ := hm
  obtain ⟨_, draw, hmem, hcandidate, _⟩ := generated_candidate hgen
  obtain ⟨data, hdata, hst⟩ := candidate_stores m.dim draw
  cases hdata.symm.trans hcandidate
  exact ⟨hst.length, draw, range draw hmem, shifted_matrix hst⟩

theorem shifted_dominates (hd : dim ≤ 2) (range : draw.InRange) :
    DominatesBy dim 4 (shiftedEntry draw) := by
  intro r hr
  have hrest : ∑ c ∈ (Finset.range dim).erase r, |shiftedEntry draw r c| =
      ((∑ c ∈ (Finset.range dim).erase r, |draw r c| : ℤ) : ℚ) := by
    rw [Int.cast_sum]
    apply Finset.sum_congr rfl
    intro c hc
    rw [shiftedEntry, if_neg (Ne.symm (Finset.ne_of_mem_erase hc)), Int.cast_abs]
  have hdiag : shiftedEntry draw r r = ((draw r r + 14 : ℤ) : ℚ) := by
    rw [shiftedEntry, if_pos rfl]
    push_cast
    rfl
  have hfive := rest_le range hr
  have hlow := (range r r).1
  rw [hrest, hdiag]
  refine le_trans ?_ (le_abs_self _)
  exact_mod_cast (by omega : ∑ c ∈ (Finset.range dim).erase r, |draw r c| + 4 ≤ draw r r + 14)

theorem alwaysChanges_small (hm : CanGenerate m) (hd : m.dim ≤ 2) : AlwaysChanges m := by
  obtain ⟨hlength, draw, range, hshifted⟩ := generated_shifted hm
  rw [alwaysChanges_iff_det hlength, hshifted]
  exact det_ne_zero_of_dominatesBy (by norm_num) (shifted_dominates hd range)

end Draws

section Corner

def cornerDraw : Draw := fun i j =>
  if i < 3 ∧ j < 3 then if i = j then -4 else -5 else 0

theorem cornerDraw_inRange : cornerDraw.InRange := by
  intro i j
  unfold cornerDraw
  split
  · split <;> omega
  · omega

theorem cornerDraw_dominant (dim : ℕ) (hd : 3 ≤ dim) : DrawDominant dim cornerDraw := by
  intro i hi
  have hsum : ∑ j ∈ (Finset.range dim).erase i, |cornerDraw i j| =
      ∑ j ∈ (Finset.range 3).erase i, |cornerDraw i j| := by
    refine (Finset.sum_subset (Finset.erase_subset_erase i (Finset.range_mono hd)) ?_).symm
    intro j hj hout
    have hj3 : ¬ j < 3 := fun h =>
      hout (Finset.mem_erase.mpr ⟨Finset.ne_of_mem_erase hj, Finset.mem_range.mpr h⟩)
    simp [cornerDraw, hj3]
  rw [hsum]
  by_cases hi3 : i < 3
  · have hten := rest_le cornerDraw_inRange hi3
    have hdiag : cornerDraw i i = -4 := by simp [cornerDraw, hi3]
    rw [hdiag]
    exact lt_of_le_of_lt hten (by norm_num)
  · simp [cornerDraw, hi3]

theorem corner_fixed (dim : ℕ) (hd : 3 ≤ dim) :
    (Matrix.of fun r c : Fin dim => shiftedEntry cornerDraw r c).det = 0 := by
  refine Matrix.exists_vecMul_eq_zero_iff.mp
    ⟨fun r => if (r : ℕ) < 3 then 1 else 0, fun h => ?_, ?_⟩
  · have hfirst := congrFun h ⟨0, by omega⟩
    simp at hfirst
  · funext c
    have hsum : ∑ r ∈ Finset.range dim, (if r < 3 then 1 else 0) * shiftedEntry cornerDraw r c =
        ∑ r ∈ Finset.range 3, (if r < 3 then 1 else 0) * shiftedEntry cornerDraw r c := by
      refine (Finset.sum_subset (Finset.range_mono hd) ?_).symm
      intro r _ hout
      simp [Finset.mem_range.not.mp hout]
    rw [Finset.sum_range] at hsum
    refine hsum.trans ?_
    by_cases hc : (c : ℕ) < 3
    · obtain ⟨c, _⟩ := c
      simp only at hc ⊢
      interval_cases c <;> simp [Finset.sum_range_succ, shiftedEntry, cornerDraw] <;> norm_num
    · apply Finset.sum_eq_zero
      intro r hr
      have hrc : r ≠ c := fun h => hc (h ▸ Finset.mem_range.mp hr)
      simp [shiftedEntry, cornerDraw, hc, hrc]

theorem corner_generated (dim : ℕ) (hd : 3 ≤ dim) :
    ∃ m, CanGenerate m ∧ m.dim = dim ∧ ¬ AlwaysChanges m := by
  obtain ⟨data, inverse, hs⟩ :=
    settled_of_dominant cornerDraw_inRange (cornerDraw_dominant dim hd)
  obtain ⟨data', hdata, hst⟩ := candidate_stores dim cornerDraw
  cases hdata.symm.trans hs.drawn
  refine ⟨⟨dim, data, inverse⟩, ⟨[cornerDraw], ?_, hs.done []⟩, rfl, ?_⟩
  · intro draw hmem
    obtain rfl := List.mem_singleton.mp hmem
    exact cornerDraw_inRange
  · rw [alwaysChanges_iff_det hst.length, shifted_matrix hst]
    exact fun h => h (corner_fixed dim hd)

end Corner

/-- A dimension has no matrix with a fixed tensor exactly when it is at most 2; in any dimension
a single matrix has none exactly when it does not have the eigenvalue 1. -/
theorem always_changes_iff (dim : ℕ) :
    ((∀ m, CanGenerate m → m.dim = dim → AlwaysChanges m) ↔ dim ≤ 2) ∧
    ∀ m, CanGenerate m → m.dim = dim →
      (AlwaysChanges m ↔ (toMatrix m.data m.dim m.dim - 1).det ≠ 0) := by
  refine ⟨⟨?_, ?_⟩, ?_⟩
  · intro h
    by_contra hd
    obtain ⟨m, hm, hdim, hfixed⟩ := corner_generated dim (by omega)
    exact hfixed (h m hm hdim)
  · intro hd m hm hdim
    exact alwaysChanges_small hm (hdim ▸ hd)
  · intro m hm _
    exact alwaysChanges_iff_det (generated_shifted hm).1

def cornerMatrix : ObfuscationMatrix :=
  ⟨3, [11, -5, -5, -5, 11, -5, -5, -5, 11],
    [3 / 8, 5 / 16, 5 / 16, 5 / 16, 3 / 8, 5 / 16, 5 / 16, 5 / 16, 3 / 8]⟩

theorem ones_unchanged :
    CanGenerate cornerMatrix ∧ obfuscate id cornerMatrix [1, 1, 1] 1 = .ok [1, 1, 1] ∧
    ¬ AlwaysChanges cornerMatrix := by
  have hsame : obfuscate id cornerMatrix [1, 1, 1] 1 = .ok [1, 1, 1] := by decide +kernel
  refine ⟨⟨[cornerDraw], ?_, by decide +kernel⟩, hsame, ?_⟩
  · intro draw hmem
    obtain rfl := List.mem_singleton.mp hmem
    exact cornerDraw_inRange
  · intro h
    obtain ⟨output, hok, hne⟩ := h 1 [1, 1, 1] rfl ⟨1, List.mem_cons_self, one_ne_zero⟩
    cases hsame.symm.trans hok
    exact hne rfl

end FixedTensors
