import OmniCompute.GaussJordan
import OmniCompute.Obfuscator

/-! `invert` refines Gauss–Jordan elimination: its flat buffer stores the table `[A | I]`,
each of its loops is one row operation, and no index of any loop leaves its buffer. -/
namespace ObfuscatorInverse

open RustValues RowMajor GaussJordan Obfuscator

section Access

variable {xs : List ℚ} {rows cols r c : ℕ} {M : Table ℚ}

theorem read_cell (h : Stores xs rows cols M) (hr : r < rows) (hc : c < cols) :
    read xs (r * cols + c) = .ok (M r c) := h.read hr hc

theorem write_cell (h : Stores xs rows cols M) (hr : r < rows) (hc : c < cols) (x : ℚ) :
    ∃ ys, write xs (r * cols + c) x = .ok ys ∧ Stores ys rows cols (setCell M r c x) :=
  h.write hr hc x

end Access

section Loops

variable {aug matrix : List ℚ} {dim i p : ℕ} {A M : Table ℚ}

theorem augment_stores (h : Stores matrix dim dim A) :
    ∃ aug, augment matrix dim = .ok aug ∧ Stores aug dim (2 * dim) (augmented dim A) := by
  have hsize : dim * dim * 2 = dim * (2 * dim) := by ring
  have h₀ := stores_replicate (0 : ℚ) dim (2 * dim)
  obtain ⟨aug, haug, hst⟩ : ∃ aug, augment matrix dim = .ok aug ∧
      Stores aug dim (2 * dim) (partway (fun r _ => r) dim (fun _ _ => 0) (augmented dim A)) := by
    rw [augment, hsize]
    apply h₀.sweep (fun r _ => r)
    intro i ys hi hst
    have row : ∃ zs, forRange 0 dim (fun aug j => do
        let x ← read matrix (i * dim + j)
        write aug (i * (2 * dim) + j) x) ys = .ok zs ∧
        Stores zs dim (2 * dim) (filled (partway (fun r _ => r) i (fun _ _ => 0)
          (augmented dim A)) i dim (A i)) := by
      apply hst.fillRow outOfBounds (A i) hi (by omega)
      intro k ys hk _
      rw [read_cell h hi hk, ok_bind]
      rfl
    obtain ⟨zs, hzs, hst'⟩ := row
    obtain ⟨us, hus, hst''⟩ := write_cell hst' hi (by omega : dim + i < 2 * dim) 1
    refine ⟨us, ?_, hst''.congr fun r c _ _ => ?_⟩
    · rw [hzs, ok_bind, Nat.add_assoc]
      exact hus
    · by_cases hri : r = i
      · subst hri
        by_cases hc : c < dim
        · have hne : c ≠ dim + r := by omega
          simp [setCell, filled, augmented, hc, hne]
        · simp [setCell, filled, augmented, partway, hc]
      · simp [setCell, filled, hri]
  exact ⟨aug, haug, hst.congr fun r c hr _ => by simp [partway, hr]⟩

theorem findPivotRow_ok (h : Stores aug dim (2 * dim) M) (hi : i < dim) :
    ∃ p, findPivotRow aug dim i = .ok p ∧ i ≤ p ∧ p < dim := by
  apply forRange_ok (fun _ p => i ≤ p ∧ p < dim) (Nat.succ_le_of_lt hi) _ ⟨le_rfl, hi⟩
  intro r q hir hr ⟨hiq, hq⟩
  have hc : i < 2 * dim := by omega
  rw [read_cell h hr hc, read_cell h hq hc]
  refine ⟨_, rfl, ?_⟩
  split
  · exact ⟨by omega, hr⟩
  · exact ⟨hiq, hq⟩

theorem swapRows_stores (h : Stores aug dim (2 * dim) M) (hi : i < dim) (hp : p < dim) :
    ∃ ys, swapRows aug dim i p = .ok ys ∧ Stores ys dim (2 * dim) (swapped M i p) := by
  by_cases hpi : p = i
  · subst hpi
    refine ⟨aug, by simp [swapRows], h.congr fun r c _ _ => ?_⟩
    by_cases hr : r = p <;> simp [swapped, hr]
  · obtain ⟨ys, hys, hst⟩ : ∃ ys, swapRows aug dim i p = .ok ys ∧
        Stores ys dim (2 * dim) (partway (fun _ c => c) (2 * dim) M (swapped M i p)) := by
      rw [swapRows, if_pos hpi]
      apply h.sweep (fun _ c => c)
      intro k ys hk hst
      obtain ⟨zs, hzs, hst'⟩ := write_cell hst hi hk (M p k)
      obtain ⟨us, hus, hst''⟩ := write_cell hst' hp hk (M i k)
      refine ⟨us, ?_, hst''.congr fun r c _ _ => ?_⟩
      · rw [read_cell hst hi hk, ok_bind, read_cell hst hp hk, ok_bind]
        simp only [partway, Nat.lt_irrefl, if_false]
        rw [hzs, ok_bind, hus]
      · by_cases hc : c = k
        · subst hc
          by_cases hrp : r = p
          · simp [setCell, swapped, hrp, hpi]
          · by_cases hri : r = i
            · simp [setCell, swapped, hri, Ne.symm hpi]
            · simp [setCell, swapped, partway, hrp, hri]
        · simp [setCell, hc]
    exact ⟨ys, hys, hst.congr fun r c _ hc => by simp [partway, hc]⟩

theorem scalePivotRow_stores (h : Stores aug dim (2 * dim) M) (hi : i < dim) :
    ∃ ys, scalePivotRow aug dim i = .ok ys ∧ Stores ys dim (2 * dim) (scaled M i (M i i)) := by
  obtain ⟨ys, hys, hst⟩ : ∃ ys, scalePivotRow aug dim i = .ok ys ∧
      Stores ys dim (2 * dim) (filled M i (2 * dim) fun c => M i c / M i i) := by
    rw [scalePivotRow, read_cell h hi (by omega), ok_bind]
    apply h.fillRow outOfBounds _ hi le_rfl
    intro k ys hk hst
    rw [read_cell hst hi hk, ok_bind]
    simp [filled, write]
  refine ⟨ys, hys, hst.congr fun r c _ hc => ?_⟩
  by_cases hr : r = i <;> simp [filled, scaled, hr, hc]

theorem eliminateOthers_stores (h : Stores aug dim (2 * dim) M) (hi : i < dim) :
    ∃ ys, eliminateOthers aug dim i = .ok ys ∧ Stores ys dim (2 * dim) (cleared M i) := by
  obtain ⟨ys, hys, hst⟩ : ∃ ys, eliminateOthers aug dim i = .ok ys ∧
      Stores ys dim (2 * dim) (partway (fun r _ => r) dim M (cleared M i)) := by
    apply h.sweep (fun r _ => r)
    intro r ys hr hst
    by_cases hri : r = i
    · subst hri
      refine ⟨ys, by simp, hst.congr fun r' c _ _ => ?_⟩
      by_cases hr' : r' = r <;> simp [partway, cleared, hr']
    · -- the pivot row reads the same before and after its own stage
      have hpivot : ∀ c, partway (fun r _ => r) r M (cleared M i) i c = M i c := by
        intro c
        simp [partway, cleared]
      have hown : ∀ c, partway (fun r _ => r) r M (cleared M i) r c = M r c := by
        intro c
        simp [partway]
      have row : ∃ zs, forRange 0 (2 * dim) (fun aug col => do
          let pivot ← read aug (i * (2 * dim) + col)
          let x ← read aug (r * (2 * dim) + col)
          write aug (r * (2 * dim) + col) (x - M r i * pivot)) ys = .ok zs ∧
          Stores zs dim (2 * dim) (filled (partway (fun r _ => r) r M (cleared M i)) r (2 * dim)
            fun c => M r c - M r i * M i c) := by
        apply hst.fillRow outOfBounds _ hr le_rfl
        intro k us hk hus
        rw [read_cell hus hi hk, ok_bind, read_cell hus hr hk, ok_bind]
        simp only [filled, Nat.lt_irrefl, and_false, if_false, Ne.symm hri, hpivot, hown]
        rfl
      obtain ⟨zs, hzs, hst'⟩ := row
      refine ⟨zs, ?_, hst'.congr fun r' c _ hc => ?_⟩
      · rw [if_pos hri, read_cell hst hr (by omega), ok_bind, hown]
        exact hzs
      · by_cases hr' : r' = r
        · subst hr'
          simp [filled, cleared, hri, hc]
        · simp [filled, hr']
  exact ⟨ys, hys, hst.congr fun r c hr _ => by simp [partway, hr]⟩

theorem extractInverse_stores (h : Stores aug dim (2 * dim) M) :
    ∃ inv, extractInverse aug dim = .ok inv ∧ Stores inv dim dim fun r c => M r (dim + c) := by
  obtain ⟨inv, hinv, hst⟩ : ∃ inv, extractInverse aug dim = .ok inv ∧ Stores inv dim dim
      (partway (fun r _ => r) dim (fun _ _ => 0) fun r c => M r (dim + c)) := by
    apply (stores_replicate (0 : ℚ) dim dim).sweep (fun r _ => r)
    intro i ys hi hst
    have row : ∃ zs, forRange 0 dim (fun inv j => do
        let x ← read aug (i * (2 * dim) + dim + j)
        write inv (i * dim + j) x) ys = .ok zs ∧
        Stores zs dim dim (filled (partway (fun r _ => r) i (fun _ _ => 0)
          fun r c => M r (dim + c)) i dim fun c => M i (dim + c)) := by
      apply hst.fillRow outOfBounds _ hi le_rfl
      intro k us hk _
      rw [Nat.add_assoc, read_cell h hi (by omega), ok_bind]
      rfl
    obtain ⟨zs, hzs, hst'⟩ := row
    refine ⟨zs, hzs, hst'.congr fun r c _ hc => ?_⟩
    by_cases hr : r = i
    · simp [filled, hr, hc]
    · simp [filled, hr]
  exact ⟨inv, hinv, hst.congr fun r c hr _ => by simp [partway, hr]⟩

theorem pivotStep_stores (h : Stores aug dim (2 * dim) M) (hi : i < dim) :
    pivotStep dim aug i = .ok none ∨ ∃ p ys, i ≤ p ∧ p < dim ∧ M p i ≠ 0 ∧
      pivotStep dim aug i = .ok (some ys) ∧ Stores ys dim (2 * dim) (pivoted M i p) := by
  obtain ⟨p, hp, hip, hpd⟩ := findPivotRow_ok h hi
  have hlead := read_cell h hpd (by omega : i < 2 * dim)
  by_cases hs : |M p i| < singularBelow
  · left
    rw [pivotStep, hp, ok_bind, hlead, ok_bind, if_pos hs]
    rfl
  · right
    have hne : M p i ≠ 0 := by
      intro h0
      apply hs
      rw [h0, abs_zero]
      norm_num [singularBelow]
    obtain ⟨us, hus, hst₁⟩ := swapRows_stores h hi hpd
    obtain ⟨vs, hvs, hst₂⟩ := scalePivotRow_stores hst₁ hi
    obtain ⟨ys, hys, hst₃⟩ := eliminateOthers_stores hst₂ hi
    have hpivot : swapped M i p i i = M p i := by simp [swapped]
    rw [hpivot] at hst₃
    refine ⟨p, ys, hip, hpd, hne, ?_, hst₃⟩
    rw [pivotStep, hp, ok_bind, hlead, ok_bind, if_neg hs, hus, ok_bind, hvs, ok_bind, hys]
    rfl

/-- The state of the main loop before round `i`: given up, or `i` columns are done. -/
def Swept (dim : ℕ) (A : Table ℚ) (i : ℕ) (state : Option (List ℚ)) : Prop :=
  ∀ aug, state = some aug → ∃ M, Stores aug dim (2 * dim) M ∧ Consistent dim A M ∧
    UnitColumns dim i M

/-- `invert` stays inside its buffers, and what it returns is a two-sided inverse. -/
theorem invert_spec (h : matrix.length = dim * dim) :
    ∃ result, invert matrix dim = .ok result ∧ ∀ inv, result = some inv →
      inv.length = dim * dim ∧
      toMatrix inv dim dim * toMatrix matrix dim dim = 1 ∧
      toMatrix matrix dim dim * toMatrix inv dim dim = 1 := by
  obtain ⟨aug, haug, hst⟩ := augment_stores (stores_table h)
  have main : ∃ swept, forRange 0 dim (sweepRound dim) (some aug) = .ok swept ∧
      Swept dim (table matrix dim) dim swept := by
    apply forRange_ok (Swept dim (table matrix dim)) (Nat.zero_le dim)
    · intro i state _ hi hs
      cases state with
      | none => exact ⟨none, rfl, fun _ h => by cases h⟩
      | some ys =>
        obtain ⟨M, hM, hcons, hunit⟩ := hs ys rfl
        rcases pivotStep_stores hM hi with hnone | ⟨p, zs, hip, hp, hne, hzs, hst'⟩
        · exact ⟨none, hnone, fun _ h => by cases h⟩
        · refine ⟨some zs, hzs, ?_⟩
          intro us hus
          cases hus
          exact ⟨_, hst', consistent_pivoted hcons hi hp, unitColumns_pivoted hunit hip hp hne⟩
    · intro ys hys
      cases hys
      exact ⟨_, hst, consistent_augmented, fun c hc => absurd hc (Nat.not_lt_zero c)⟩
  obtain ⟨swept, hswept, hdone⟩ := main
  rw [invert, haug, ok_bind, hswept, ok_bind]
  cases swept with
  | none => exact ⟨none, rfl, fun _ h => by cases h⟩
  | some ys =>
    obtain ⟨M, hM, hcons, hunit⟩ := hdone ys rfl
    obtain ⟨inv, hinv, hstored⟩ := extractInverse_stores hM
    refine ⟨some inv, by simp only [hinv]; rfl, ?_⟩
    intro inv' hinv'
    cases hinv'
    rw [hstored.toMatrix]
    exact ⟨hstored.length, inverse_of_unitColumns hcons hunit⟩

end Loops

section Products

variable {matrix tensor : List ℚ} {dim rows : ℕ}

theorem product_spec (hm : matrix.length = dim * dim) (ht : tensor.length = rows * dim) :
    ∃ output, product id matrix dim tensor rows = .ok output ∧ output.length = rows * dim ∧
      toMatrix output rows dim = toMatrix tensor rows dim * toMatrix matrix dim dim := by
  have hX := stores_table ht
  have hP := stores_table hm
  let N : Table ℚ := fun r c =>
    ∑ k ∈ Finset.range dim, table tensor dim r k * table matrix dim k c
  obtain ⟨ys, hys, hst⟩ : ∃ ys, product id matrix dim tensor rows = .ok ys ∧
      Stores ys rows dim (partway (fun r _ => r) rows (fun _ _ => 0) N) := by
    apply (stores_replicate (0 : ℚ) rows dim).sweep (fun r _ => r)
    intro r ys hr hst
    have row : ∃ zs, forRange 0 dim (fun output col => do
        let sum ← forRange 0 dim (fun sum k => do
          let x ← read tensor (id (id (r * dim) + k))
          let y ← read matrix (id (id (k * dim) + col))
          return sum + x * y) 0
        write output (id (id (r * dim) + col)) sum) ys = .ok zs ∧
        Stores zs rows dim (filled (partway (fun r _ => r) r (fun _ _ => 0) N) r dim (N r)) := by
      apply hst.fillRow outOfBounds _ hr le_rfl
      intro c us hc _
      have cell : ∃ sum, forRange 0 dim (fun sum k => do
          let x ← read tensor (id (id (r * dim) + k))
          let y ← read matrix (id (id (k * dim) + c))
          return sum + x * y) 0 = .ok sum ∧ sum = N r c := by
        apply forRange_ok (fun k sum => sum =
          ∑ j ∈ Finset.range k, table tensor dim r j * table matrix dim j c) (Nat.zero_le dim)
        · intro k sum _ hk hsum
          simp only [id, read_cell hX hr hk, read_cell hP hk hc, ok_bind]
          exact ⟨_, rfl, by rw [Finset.sum_range_succ, hsum]⟩
        · simp
      obtain ⟨sum, hsum, rfl⟩ := cell
      rw [hsum]
      rfl
    obtain ⟨zs, hzs, hst'⟩ := row
    refine ⟨zs, hzs, hst'.congr fun r' c _ hc => ?_⟩
    by_cases hr' : r' = r
    · simp [filled, hr', hc]
    · simp [filled, hr']
  have hN : Stores ys rows dim N := hst.congr fun r c hr _ => by simp [partway, hr]
  refine ⟨ys, hys, hN.length, ?_⟩
  rw [hN.toMatrix]
  ext r c
  simp [N, Matrix.mul_apply, RowMajor.toMatrix, Finset.sum_range]

theorem obfuscate_spec {m : ObfuscationMatrix} (hm : m.data.length = m.dim * m.dim)
    (ht : tensor.length = rows * m.dim) :
    ∃ output, obfuscate id m tensor rows = .ok output ∧ output.length = rows * m.dim ∧
      toMatrix output rows m.dim = toMatrix tensor rows m.dim * toMatrix m.data m.dim m.dim := by
  rw [obfuscate, shapeChecked, if_neg (by simpa using ht)]
  exact product_spec hm ht

theorem restore_spec {m : ObfuscationMatrix} (hm : m.inverse.length = m.dim * m.dim)
    (ht : tensor.length = rows * m.dim) :
    ∃ output, restore id m tensor rows = .ok output ∧ output.length = rows * m.dim ∧
      toMatrix output rows m.dim =
        toMatrix tensor rows m.dim * toMatrix m.inverse m.dim m.dim := by
  rw [restore, shapeChecked, if_neg (by simpa using ht)]
  exact product_spec hm ht

end Products

/-- What `invert` promises of a matrix and its result: both products are the identity, and a
tensor obfuscated with the pair is restored exactly, whatever its number of rows. -/
def Reversible (dim : ℕ) (matrix inverse : List ℚ) : Prop :=
  toMatrix matrix dim dim * toMatrix inverse dim dim = 1 ∧
  toMatrix inverse dim dim * toMatrix matrix dim dim = 1 ∧
  ∀ rows tensor, tensor.length = rows * dim →
    (obfuscate id ⟨dim, matrix, inverse⟩ tensor rows >>= fun obfuscated =>
      restore id ⟨dim, matrix, inverse⟩ obfuscated rows) = .ok tensor

theorem invert_reversible (dim : ℕ) (matrix : List ℚ) (h : matrix.length = dim * dim) :
    ∃ result, invert matrix dim = .ok result ∧
      ∀ inverse, result = some inverse → Reversible dim matrix inverse := by
  obtain ⟨result, hr, hinv⟩ := invert_spec h
  refine ⟨result, hr, ?_⟩
  intro inverse heq
  obtain ⟨hlen, hleft, hright⟩ := hinv inverse heq
  refine ⟨hright, hleft, ?_⟩
  intro rows tensor ht
  obtain ⟨obfuscated, hob, hol, hom⟩ := @obfuscate_spec tensor rows ⟨dim, matrix, inverse⟩ h ht
  obtain ⟨restored, hre, hrl, hrm⟩ := @restore_spec obfuscated rows ⟨dim, matrix, inverse⟩ hlen hol
  rw [hob, ok_bind, hre]
  apply congrArg Except.ok
  apply toMatrix_inj hrl ht
  rw [hrm, hom, Matrix.mul_assoc, hright, Matrix.mul_one]

theorem invert_reversible_swapped : Reversible 2 [0, 2, 1, 0] [0, 1, 1 / 2, 0] := by
  obtain ⟨result, hr, h⟩ := invert_reversible 2 [0, 2, 1, 0] rfl
  have he : invert [0, 2, 1, 0] 2 = .ok (some [0, 1, 1 / 2, 0]) := by decide +kernel
  cases hr.symm.trans he
  exact h _ rfl

end ObfuscatorInverse
