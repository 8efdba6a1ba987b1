import OmniCompute.DominantPivots
import OmniCompute.RestoredProducts

/-! Whether `generate` is done after its first candidate. The diagonal offset is a constant
while the rest of a row grows with the dimension, so the candidate is dominant for small
dimensions only; where a candidate is dominant, no pivot of its inversion is below one. -/
namespace FirstAttempt

open RustValues RowMajor GaussJordan DominantPivots Obfuscator ObfuscatorInverse RestoredProducts

def StrictlyDominant (dim : ℕ) (data : List ℚ) : Prop :=
  ∀ i < dim, ∑ j ∈ (Finset.range dim).erase i, |table data dim i j| < |table data dim i i|

/-- The first candidate is dominant, nonsingular and inverted, and no further one is drawn. -/
structure Settled (dim : ℕ) (draw : Draw) (data inverse : List ℚ) : Prop where
  drawn : candidate dim draw = .ok data
  dominant : StrictlyDominant dim data
  nonsingular : (toMatrix data dim dim).det ≠ 0
  inverted : invert data dim = .ok (some inverse)
  done : ∀ draws, generate dim (draw :: draws) = .ok (some ⟨dim, data, inverse⟩)

def FirstAttemptSucceeds (dim : ℕ) (draw : Draw) : Prop :=
  ∃ data inverse, Settled dim draw data inverse

/-- In every row the drawn entries beside the diagonal stay below the shifted diagonal one. -/
def DrawDominant (dim : ℕ) (draw : Draw) : Prop :=
  ∀ i < dim, ∑ j ∈ (Finset.range dim).erase i, |draw i j| < draw i i + 15

section Inversion

variable {aug matrix : List ℚ} {dim i : ℕ} {M : Table ℚ}

theorem findPivotRow_largest (h : Stores aug dim (2 * dim) M) (hi : i < dim) :
    ∃ p, findPivotRow aug dim i = .ok p ∧ p < dim ∧ ∀ r, i ≤ r → r < dim → |M r i| ≤ |M p i| := by
  have hc : i < 2 * dim := by omega
  obtain ⟨p, hp, hpd, hmax⟩ : ∃ p, findPivotRow aug dim i = .ok p ∧
      (p < dim ∧ ∀ r, i ≤ r → r < dim → |M r i| ≤ |M p i|) := by
    apply forRange_ok (fun k p => p < dim ∧ ∀ r, i ≤ r → r < k → |M r i| ≤ |M p i|)
      (Nat.succ_le_of_lt hi)
    · intro r q hir hr ⟨hq, hmax⟩
      rw [read_cell h hr hc, read_cell h hq hc]
      refine ⟨_, rfl, ?_⟩
      split
      · rename_i hlt
        refine ⟨hr, fun k hik hk => ?_⟩
        rcases Nat.lt_succ_iff_lt_or_eq.mp hk with hk | rfl
        · exact (hmax k hik hk).trans hlt.le
        · exact le_rfl
      · rename_i hle
        refine ⟨hq, fun k hik hk => ?_⟩
        rcases Nat.lt_succ_iff_lt_or_eq.mp hk with hk | rfl
        · exact hmax k hik hk
        · exact not_lt.mp hle
    · refine ⟨hi, fun r hir hr => ?_⟩
      have hri : r = i := by omega
      rw [hri]
  exact ⟨p, hp, hpd, hmax⟩

theorem pivotStep_none (h : Stores aug dim (2 * dim) M) (hi : i < dim)
    (hnone : pivotStep dim aug i = .ok none) {r : ℕ} (hir : i ≤ r) (hr : r < dim) :
    |M r i| < singularBelow := by
  obtain ⟨p, hp, hpd, hmax⟩ := findPivotRow_largest h hi
  by_contra hlarge
  have hlead : ¬ |M p i| < singularBelow :=
    fun hs => hlarge (lt_of_le_of_lt (hmax r hir hr) hs)
  obtain ⟨us, hus, hst₁⟩ := swapRows_stores h hi hpd
  obtain ⟨vs, hvs, hst₂⟩ := scalePivotRow_stores hst₁ hi
  obtain ⟨ys, hys, _⟩ := eliminateOthers_stores hst₂ hi
  rw [pivotStep, hp, ok_bind, read_cell h hpd (by omega : i < 2 * dim), ok_bind, if_neg hlead,
    hus, ok_bind, hvs, ok_bind, hys] at hnone
  cases hnone

def Running (dim : ℕ) (A : Table ℚ) (i : ℕ) (state : Option (List ℚ)) : Prop :=
  ∃ aug M, state = some aug ∧ Stores aug dim (2 * dim) M ∧ Accounts dim i A M ∧
    UnitColumns dim i M

theorem invert_dominant (h : matrix.length = dim * dim) {margin : ℚ}
    (husable : singularBelow ≤ margin) (hdom : DominatesBy dim margin (table matrix dim)) :
    ∃ inverse, invert matrix dim = .ok (some inverse) := by
  have hpos : 0 < margin := lt_of_lt_of_le (by norm_num [singularBelow]) husable
  obtain ⟨aug, haug, hst⟩ := augment_stores (stores_table h)
  have main : ∃ swept, forRange 0 dim (sweepRound dim) (some aug) = .ok swept ∧
      Running dim (table matrix dim) dim swept := by
    apply forRange_ok (Running dim (table matrix dim)) (Nat.zero_le dim)
    · rintro i state _ hi ⟨ys, M, rfl, hM, hacc, hunit⟩
      rcases pivotStep_stores hM hi with hnone | ⟨p, zs, hip, hp, hne, hzs, hst'⟩
      · obtain ⟨r, hir, hr, hlarge⟩ := exists_pivot hdom hpos hacc hunit hi
        have hsmall := pivotStep_none hM hi hnone hir hr
        exact absurd (lt_of_lt_of_le hsmall husable) (not_lt_of_ge hlarge)
      · exact ⟨some zs, hzs, zs, _, rfl, hst', accounts_pivoted hacc hip hp hne,
          unitColumns_pivoted hunit hip hp hne⟩
    · exact ⟨aug, _, rfl, hst, accounts_augmented, fun c hc => absurd hc (Nat.not_lt_zero c)⟩
  obtain ⟨swept, hswept, ys, M, rfl, hM, _⟩ := main
  obtain ⟨inverse, hinv, _⟩ := extractInverse_stores hM
  refine ⟨inverse, ?_⟩
  rw [invert, haug, ok_bind, hswept, ok_bind]
  simp only [hinv]
  rfl

end Inversion

section Draws

variable {dim : ℕ} {draw : Draw} {data : List ℚ}

theorem candidate_entry (hst : Stores data dim dim fun r c =>
      if r = c then draw r c + 15 else (draw r c : ℚ)) {r c : ℕ} (hr : r < dim) (hc : c < dim) :
    table data dim r c = if r = c then (draw r c : ℚ) + 15 else draw r c := by
  simp only [table, List.getD_eq_getElem?_getD, hst.cell r c hr hc, Option.getD_some]

theorem candidate_rest (hst : Stores data dim dim fun r c =>
      if r = c then draw r c + 15 else (draw r c : ℚ)) {r : ℕ} (hr : r < dim) :
    ∑ c ∈ (Finset.range dim).erase r, |table data dim r c| =
      ((∑ c ∈ (Finset.range dim).erase r, |draw r c| : ℤ) : ℚ) := by
  rw [Int.cast_sum]
  apply Finset.sum_congr rfl
  intro c hc
  obtain ⟨hne, hcn⟩ := Finset.mem_erase.mp hc
  rw [candidate_entry hst hr (Finset.mem_range.mp hcn), if_neg (Ne.symm hne), Int.cast_abs]

theorem candidate_diagonal (hst : Stores data dim dim fun r c =>
      if r = c then draw r c + 15 else (draw r c : ℚ)) (range : draw.InRange) {r : ℕ}
    (hr : r < dim) : |table data dim r r| = ((draw r r + 15 : ℤ) : ℚ) := by
  have hlow := (range r r).1
  have hpos : (0 : ℚ) ≤ ((draw r r + 15 : ℤ) : ℚ) := by
    exact_mod_cast (by omega : (0 : ℤ) ≤ draw r r + 15)
  rw [candidate_entry hst hr hr, if_pos rfl, ← abs_of_nonneg hpos]
  push_cast
  rfl

theorem strictlyDominant_iff (hst : Stores data dim dim fun r c =>
      if r = c then draw r c + 15 else (draw r c : ℚ)) (range : draw.InRange) :
    StrictlyDominant dim data ↔ DrawDominant dim draw := by
  constructor
  · intro h i hi
    have hrow := h i hi
    rw [candidate_rest hst hi, candidate_diagonal hst range hi] at hrow
    exact_mod_cast hrow
  · intro h i hi
    rw [candidate_rest hst hi, candidate_diagonal hst range hi]
    exact_mod_cast h i hi

theorem dominatesBy_one (hst : Stores data dim dim fun r c =>
      if r = c then draw r c + 15 else (draw r c : ℚ)) (range : draw.InRange)
    (h : DrawDominant dim draw) : DominatesBy dim 1 (table data dim) := by
  intro i hi
  rw [candidate_rest hst hi, candidate_diagonal hst range hi]
  exact_mod_cast Int.add_one_le_iff.mpr (h i hi)

theorem settled_of_dominant (range : draw.InRange) (h : DrawDominant dim draw) :
    FirstAttemptSucceeds dim draw := by
  obtain ⟨data, hdata, hst⟩ := candidate_stores dim draw
  obtain ⟨inverse, hinv⟩ := invert_dominant hst.length (by norm_num [singularBelow])
    (dominatesBy_one hst range h)
  obtain ⟨result, hr, hspec⟩ := invert_spec hst.length
  cases hr.symm.trans hinv
  obtain ⟨_, _, hright⟩ := hspec inverse rfl
  have hdet := congrArg Matrix.det hright
  rw [Matrix.det_mul, Matrix.det_one] at hdet
  refine ⟨data, inverse, hdata, (strictlyDominant_iff hst range).mpr h,
    left_ne_zero_of_mul_eq_one hdet, hinv, ?_⟩
  intro draws
  rw [generate, hdata, ok_bind, hinv, ok_bind]
  rfl

theorem dominant_of_settled (range : draw.InRange) (h : FirstAttemptSucceeds dim draw) :
    DrawDominant dim draw := by
  obtain ⟨data, inverse, hs⟩ := h
  obtain ⟨data', hdata, hst⟩ := candidate_stores dim draw
  cases hdata.symm.trans hs.drawn
  exact (strictlyDominant_iff hst range).mp hs.dominant

end Draws

section Dimensions

theorem rest_le {dim i : ℕ} {draw : Draw} (range : draw.InRange) (hi : i < dim) :
    ∑ j ∈ (Finset.range dim).erase i, |draw i j| ≤ ((dim - 1 : ℕ) : ℤ) * 5 := by
  have hcard : ((Finset.range dim).erase i).card = dim - 1 := by
    rw [Finset.card_erase_of_mem (Finset.mem_range.mpr hi), Finset.card_range]
  have hsum : ∑ j ∈ (Finset.range dim).erase i, |draw i j| ≤
      ((Finset.range dim).erase i).card • 5 :=
    Finset.sum_le_card_nsmul _ _ _ fun j _ => abs_le.mpr (range i j)
  rwa [hcard, nsmul_eq_mul] at hsum

theorem drawDominant_small {dim : ℕ} (hd : dim ≤ 2) {draw : Draw} (range : draw.InRange) :
    DrawDominant dim draw := by
  intro i hi
  have hrest := rest_le range hi
  have hlow := (range i i).1
  omega

def evenDraw : Draw := fun _ _ => -5

theorem evenDraw_inRange : evenDraw.InRange := fun _ _ => ⟨le_rfl, by simp [evenDraw]⟩

theorem evenDraw_not_dominant {dim : ℕ} (hd : 2 < dim) : ¬ DrawDominant dim evenDraw := by
  intro h
  have hrow := h 0 (by omega)
  have hcard : ((Finset.range dim).erase 0).card = dim - 1 := by
    rw [Finset.card_erase_of_mem (Finset.mem_range.mpr (by omega)), Finset.card_range]
  simp only [evenDraw, Finset.sum_const, hcard, nsmul_eq_mul] at hrow
  norm_num at hrow
  omega

end Dimensions

/-- A dimension never needs a second attempt exactly when it is at most 2; in any dimension
the first attempt succeeds for exactly the dominant draws. -/
theorem first_attempt_iff (dim : ℕ) :
    ((∀ draw : Draw, draw.InRange → FirstAttemptSucceeds dim draw) ↔ dim ≤ 2) ∧
    ∀ draw : Draw, draw.InRange → (FirstAttemptSucceeds dim draw ↔ DrawDominant dim draw) := by
  refine ⟨⟨?_, ?_⟩, ?_⟩
  · intro h
    by_contra hd
    exact evenDraw_not_dominant (not_le.mp hd)
      (dominant_of_settled evenDraw_inRange (h evenDraw evenDraw_inRange))
  · intro hd draw range
    exact settled_of_dominant range (drawDominant_small hd range)
  · intro draw range
    exact ⟨dominant_of_settled range, settled_of_dominant range⟩

/-- Three rows of 10 and two -5 add up to zero: the candidate is singular and thrown away. -/
theorem even_candidate_rejected : evenDraw.InRange ∧
    candidate 3 evenDraw = .ok [10, -5, -5, -5, 10, -5, -5, -5, 10] ∧
    ¬ StrictlyDominant 3 [10, -5, -5, -5, 10, -5, -5, -5, 10] ∧
    (toMatrix [10, -5, -5, -5, 10, -5, -5, -5, 10] 3 3 : Matrix _ _ ℚ).det = 0 ∧
    generate 3 [evenDraw] = .ok none ∧ ¬ FirstAttemptSucceeds 3 evenDraw := by
  refine ⟨evenDraw_inRange, by decide +kernel, ?_, ?_, by decide +kernel, ?_⟩
  · intro h
    have hrow := h 0 (by omega)
    revert hrow
    decide +kernel
  · rw [Matrix.det_fin_three]
    decide +kernel
  · intro h
    exact evenDraw_not_dominant (by omega) (dominant_of_settled evenDraw_inRange h)

end FirstAttempt
