import OmniCompute.RestoredProducts
import Mathlib.Algebra.BigOperators.Ring.Finset
import Mathlib.Algebra.Order.Ring.Int
import Mathlib.LinearAlgebra.Matrix.NonsingularInverse

/-! What an obfuscated tensor gives away. The entries of a private matrix are small integers, so
one row of powers makes each column of the matrix a number with these entries as its digits; and
whatever the matrix, rows of a tensor depend on each other behind it as they did before. -/
namespace KeyRecovery

open RustValues RowMajor Obfuscator ObfuscatorInverse RestoredProducts

section Digits

variable {base : ℤ} {n : ℕ} {d : ℕ → ℤ}

theorem digits_eq_zero (hbase : 0 < base) (small : ∀ k < n, |d k| < base)
    (h : ∑ k ∈ Finset.range n, base ^ k * d k = 0) : ∀ k < n, d k = 0 := by
  induction n generalizing d with
  | zero =>
    intro k hk
    cases hk
  | succ n ih =>
    have hsplit : d 0 + base * ∑ k ∈ Finset.range n, base ^ k * d (k + 1) = 0 := by
      rw [← h, Finset.sum_range_succ', Finset.mul_sum, pow_zero, one_mul, add_comm]
      congr 1
      apply Finset.sum_congr rfl
      intro k _
      rw [pow_succ']
      ring
    have hdvd : base ∣ d 0 := by
      rw [eq_neg_of_add_eq_zero_left hsplit]
      exact (dvd_mul_right _ _).neg_right
    have hfirst : d 0 = 0 := Int.eq_zero_of_abs_lt_dvd hdvd (small 0 (Nat.succ_pos n))
    rw [hfirst, zero_add] at hsplit
    have hrest := ih (fun k hk => small (k + 1) (Nat.succ_lt_succ hk))
      ((mul_eq_zero.1 hsplit).resolve_left hbase.ne')
    intro k hk
    cases k with
    | zero => exact hfirst
    | succ k => exact hrest k (Nat.lt_of_succ_lt_succ hk)

theorem digits_inj {e : ℕ → ℤ} (hbase : 0 < base) (small : ∀ k < n, |d k - e k| < base)
    (h : ∑ k ∈ Finset.range n, base ^ k * d k = ∑ k ∈ Finset.range n, base ^ k * e k) :
    ∀ k < n, d k = e k := by
  have hzero : ∑ k ∈ Finset.range n, base ^ k * (d k - e k) = 0 := by
    simp only [mul_sub, Finset.sum_sub_distrib]
    rw [h, sub_self]
  intro k hk
  exact sub_eq_zero.1 (digits_eq_zero hbase small hzero k hk)

end Digits

section Keys

variable {m m' : ObfuscationMatrix}

def entry (draw : Draw) (r c : ℕ) : ℤ := if r = c then draw r c + 15 else draw r c

theorem generated_draw (hm : CanGenerate m) : ∃ draw : Draw, draw.InRange ∧
    Stores m.data m.dim m.dim (fun r c => (entry draw r c : ℚ)) ∧
    invert m.data m.dim = .ok (some m.inverse) := by
  obtain ⟨draws, range, hgen⟩ := hm
  obtain ⟨_, draw, hmem, hcandidate, hinvert⟩ := generated_candidate hgen
  obtain ⟨data, hdata, hst⟩ := candidate_stores m.dim draw
  cases hdata.symm.trans hcandidate
  refine ⟨draw, range draw hmem, hst.congr fun r c _ _ => ?_, hinvert⟩
  rw [entry]
  split
  · push_cast
    rfl
  · rfl

theorem entry_close {draw draw' : Draw} (h : draw.InRange) (h' : draw'.InRange) (r c : ℕ) :
    |entry draw r c - entry draw' r c| < 11 := by
  have := h r c
  have := h' r c
  rw [abs_lt]
  unfold entry
  split <;> omega

def probe (dim : ℕ) : List ℚ := (List.range dim).map fun k => 11 ^ k

theorem probe_length (dim : ℕ) : (probe dim).length = 1 * dim := by
  rw [probe, List.length_map, List.length_range, one_mul]

theorem probe_matrix (dim : ℕ) (c : Fin dim) : toMatrix (probe dim) 1 dim 0 c = 11 ^ (c : ℕ) := by
  simp [toMatrix, table, probe, List.getD_eq_getElem?_getD]

/-- The obfuscated probe holds a number for each column, its digits the entries of the column. -/
theorem obfuscated_probe {draw : Draw}
    (hst : Stores m.data m.dim m.dim fun r c => (entry draw r c : ℚ)) (c : Fin m.dim) :
    (toMatrix (probe m.dim) 1 m.dim * toMatrix m.data m.dim m.dim) 0 c =
      ((∑ k ∈ Finset.range m.dim, 11 ^ k * entry draw k c : ℤ) : ℚ) := by
  rw [Matrix.mul_apply, hst.toMatrix, Finset.sum_range]
  push_cast
  apply Finset.sum_congr rfl
  intro k _
  rw [probe_matrix, Matrix.of_apply]

theorem probe_reveals (hm : CanGenerate m) (hm' : CanGenerate m') (hdim : m.dim = m'.dim)
    (h : obfuscate id m (probe m.dim) 1 = obfuscate id m' (probe m.dim) 1) : m = m' := by
  obtain ⟨dim, data, inverse⟩ := m
  obtain ⟨dim', data', inverse'⟩ := m'
  obtain rfl : dim = dim' := hdim
  obtain ⟨draw, range, hst, hinvert⟩ := generated_draw hm
  obtain ⟨draw', range', hst', hinvert'⟩ := generated_draw hm'
  obtain ⟨output, hok, -, hmatrix⟩ := obfuscate_spec hst.length (probe_length dim)
  obtain ⟨output', hok', -, hmatrix'⟩ := obfuscate_spec hst'.length (probe_length dim)
  obtain rfl : output = output' := Except.ok.inj ((hok.symm.trans h).trans hok')
  have hentries : ∀ r c, r < dim → c < dim → entry draw r c = entry draw' r c := by
    intro r c hr hc
    have hcolumn := congrFun (congrFun (hmatrix.symm.trans hmatrix') 0) ⟨c, hc⟩
    rw [obfuscated_probe hst, obfuscated_probe hst'] at hcolumn
    exact digits_inj (by norm_num) (fun k _ => entry_close range range' k c)
      (Int.cast_inj.1 hcolumn) r hr
  have hdata : data = data' := by
    refine toMatrix_inj hst.length hst'.length ?_
    rw [hst.toMatrix, hst'.toMatrix]
    ext r c
    exact congrArg Int.cast (hentries r c r.isLt c.isLt)
  subst hdata
  cases hinvert.symm.trans hinvert'
  rfl

end Keys

section Relations

variable {m : ObfuscationMatrix} {rows : ℕ} {tensor : List ℚ}

theorem relation_kept (hm : CanGenerate m) (ht : tensor.length = rows * m.dim) :
    ∃ obfuscated, obfuscate id m tensor rows = .ok obfuscated ∧ ∀ weights : Fin rows → ℚ,
      Matrix.vecMul weights (toMatrix obfuscated rows m.dim) = 0 ↔
        Matrix.vecMul weights (toMatrix tensor rows m.dim) = 0 := by
  obtain ⟨draw, _, hst, hinvert⟩ := generated_draw hm
  obtain ⟨result, hr, hspec⟩ := invert_spec hst.length
  cases hr.symm.trans hinvert
  obtain ⟨_, _, hright⟩ := hspec m.inverse rfl
  obtain ⟨obfuscated, hok, _, hmatrix⟩ := obfuscate_spec hst.length ht
  refine ⟨obfuscated, hok, fun weights => ?_⟩
  rw [hmatrix, ← Matrix.vecMul_vecMul]
  constructor
  · intro h
    have hback := congrArg (Matrix.vecMul · (toMatrix m.inverse m.dim m.dim)) h
    simpa [Matrix.vecMul_vecMul, Matrix.mul_assoc, hright] using hback
  · intro h
    rw [h, Matrix.zero_vecMul]

end Relations

/-- One known row tells which private matrix is in use; and without any, the worker still sees
every linear relation between the rows of a tensor. -/
theorem obfuscation_reveals :
    (∀ m m' : ObfuscationMatrix, CanGenerate m → CanGenerate m' → m.dim = m'.dim →
      (obfuscate id m (probe m.dim) 1 = obfuscate id m' (probe m.dim) 1 ↔ m = m')) ∧
    ∀ (m : ObfuscationMatrix) rows tensor, CanGenerate m → tensor.length = rows * m.dim →
      ∃ obfuscated, obfuscate id m tensor rows = .ok obfuscated ∧ ∀ weights : Fin rows → ℚ,
        Matrix.vecMul weights (toMatrix obfuscated rows m.dim) = 0 ↔
          Matrix.vecMul weights (toMatrix tensor rows m.dim) = 0 :=
  ⟨fun _ _ hm hm' hdim => ⟨probe_reveals hm hm' hdim, fun h => h ▸ rfl⟩,
    fun _ _ _ hm ht => relation_kept hm ht⟩

end KeyRecovery
