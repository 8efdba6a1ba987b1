import OmniCompute.RestoredProducts

/-! What the shape check of `obfuscate` and `restore` is worth in the release profile. The
product it compares with is reduced modulo 2^64, so a slice can have the expected length
although `rows` rows would need many more entries. -/
namespace WrappedShapes

open RustValues RowMajor Obfuscator ObfuscatorInverse RestoredProducts

/-- A `usize` result without overflow checks. -/
def wrapped (n : ℕ) : ℕ := n % 2 ^ 64

/-- The call is refused, or the slice has the stated shape and the loops stay inside it. -/
def Checked (m : ObfuscationMatrix) (tensor : List ℚ) (rows : ℕ) (result : Result (List ℚ)) :
    Prop :=
  (∃ message, result = .error (.error message)) ∨
    (tensor.length = rows * m.dim ∧ ∃ output, result = .ok output)

/-- The shape fits a word, or the slice does not even have its wrapped size. -/
def ShapeFits (m : ObfuscationMatrix) (tensor : List ℚ) (rows : ℕ) : Prop :=
  rows * m.dim < 2 ^ 64 ∨ tensor.length ≠ rows * m.dim % 2 ^ 64

section Loops

variable {usize : ℕ → ℕ} {matrix tensor : List ℚ} {dim rows : ℕ}

theorem read_inside {xs : List ℚ} {i : ℕ} (h : i < xs.length) : ∃ x, read xs i = .ok x := by
  refine ⟨xs[i], ?_⟩
  rw [Obfuscator.read, readAt, List.getElem?_eq_getElem h]

theorem read_error {xs : List ℚ} {i : ℕ} {e : Failure} (h : read xs i = .error e) :
    e = outOfBounds := by
  unfold Obfuscator.read readAt at h
  split at h
  · cases h
  · exact (Except.error.inj h).symm

theorem write_error {xs : List ℚ} {i : ℕ} {x : ℚ} {e : Failure} (h : write xs i x = .error e) :
    e = outOfBounds := by
  unfold write writeAt at h
  split at h
  · cases h
  · exact (Except.error.inj h).symm

theorem product_error {e : Failure} (h : product usize matrix dim tensor rows = .error e) :
    e = outOfBounds := by
  refine forRange_error (E := fun e => e = outOfBounds) (fun output r e h => ?_) h
  refine forRange_error (E := fun e => e = outOfBounds) (fun output col e h => ?_) h
  rcases bind_error h with hsum | ⟨sum, _, hwrite⟩
  · refine forRange_error (E := fun e => e = outOfBounds) (fun sum k e h => ?_) hsum
    rcases bind_error h with hx | ⟨x, _, h⟩
    · exact read_error hx
    · rcases bind_error h with hy | ⟨y, _, h⟩
      · exact read_error hy
      · cases h
  · exact write_error hwrite

theorem wrapped_le (n : ℕ) : wrapped n ≤ n := Nat.mod_le n _

theorem wrapped_index_le (i dim j : ℕ) : wrapped (wrapped (i * dim) + j) ≤ i * dim + j :=
  (wrapped_le _).trans (Nat.add_le_add_right (wrapped_le _) j)

/-- While the shape fits a word, reduced indices are at most the true ones, hence in range. -/
theorem product_returns (hm : matrix.length = dim * dim) (ht : tensor.length = rows * dim)
    (hfits : rows * dim < 2 ^ 64) :
    ∃ output, product wrapped matrix dim tensor rows = .ok output := by
  have hsize : wrapped (rows * dim) = rows * dim := Nat.mod_eq_of_lt hfits
  obtain ⟨output, hout, _⟩ : ∃ output, product wrapped matrix dim tensor rows = .ok output ∧
      output.length = rows * dim := by
    refine forRange_ok (fun _ (output : List ℚ) => output.length = rows * dim) (Nat.zero_le rows) ?_
      (by rw [List.length_replicate, hsize])
    intro r output _ hr hlen
    refine forRange_ok (fun _ (output : List ℚ) => output.length = rows * dim)
      (Nat.zero_le dim) ?_ hlen
    intro col output _ hcol hlen
    obtain ⟨sum, hsum, _⟩ : ∃ sum, forRange 0 dim (fun sum k => do
        let x ← read tensor (wrapped (wrapped (r * dim) + k))
        let y ← read matrix (wrapped (wrapped (k * dim) + col))
        return sum + x * y) 0 = .ok sum ∧ True := by
      refine forRange_ok (fun _ _ => True) (Nat.zero_le dim) ?_ trivial
      intro k sum _ hk _
      have hx := lt_of_le_of_lt (wrapped_index_le r dim k) (index_lt hr hk)
      have hy := lt_of_le_of_lt (wrapped_index_le k dim col) (index_lt hk hcol)
      obtain ⟨x, hx⟩ := read_inside (ht ▸ hx)
      obtain ⟨y, hy⟩ := read_inside (hm ▸ hy)
      rw [hx, ok_bind, hy]
      exact ⟨_, rfl, trivial⟩
    have hcell := lt_of_le_of_lt (wrapped_index_le r dim col) (index_lt hr hcol)
    rw [hsum, ok_bind, write, writeAt, if_pos (hlen ▸ hcell)]
    exact ⟨_, rfl, by rw [List.length_set, hlen]⟩
  exact ⟨output, hout⟩

end Loops

section Check

variable {m : ObfuscationMatrix} {matrix tensor : List ℚ} {rows : ℕ} {context : String}

theorem checked_iff (hm : matrix.length = m.dim * m.dim) :
    Checked m tensor rows (shapeChecked wrapped context m.dim tensor rows
      (product wrapped matrix m.dim tensor rows)) ↔ ShapeFits m tensor rows := by
  unfold Checked ShapeFits shapeChecked
  by_cases hlen : tensor.length = wrapped (rows * m.dim)
  · rw [if_neg (not_not.mpr hlen)]
    constructor
    · rintro (⟨message, herr⟩ | ⟨hshape, _⟩)
      · cases product_error herr
      · left
        rw [← hshape, hlen]
        exact Nat.mod_lt _ (by norm_num)
    · rintro (hfits | hne)
      · have hshape : tensor.length = rows * m.dim := hlen.trans (Nat.mod_eq_of_lt hfits)
        exact Or.inr ⟨hshape, product_returns hm hshape hfits⟩
      · exact absurd hlen hne
  · rw [if_pos hlen]
    exact ⟨fun _ => Or.inr hlen, fun _ => Or.inl ⟨_, rfl⟩⟩

theorem generated_lengths (hm : CanGenerate m) :
    m.data.length = m.dim * m.dim ∧ m.inverse.length = m.dim * m.dim := by
  obtain ⟨draws, _, hgen⟩ := hm
  obtain ⟨hd, hinvert⟩ := generated_invert hgen
  obtain ⟨result, hr, hspec⟩ := invert_spec hd
  cases hr.symm.trans hinvert
  exact ⟨hd, (hspec m.inverse rfl).1⟩

end Check

/-- The shape check of either direction means what it says exactly for shapes that fit. -/
theorem shape_check_iff (m : ObfuscationMatrix) (hm : CanGenerate m) (tensor : List ℚ)
    (rows : UInt64) :
    (Checked m tensor rows.toNat (obfuscate wrapped m tensor rows.toNat) ↔
      ShapeFits m tensor rows.toNat) ∧
    (Checked m tensor rows.toNat (restore wrapped m tensor rows.toNat) ↔
      ShapeFits m tensor rows.toNat) := by
  obtain ⟨hd, hi⟩ := generated_lengths hm
  exact ⟨checked_iff hd, checked_iff hi⟩

theorem shape_check_iff_shear : Checked shear [1, 2] 1 (obfuscate wrapped shear [1, 2] 1) :=
  ((shape_check_iff shear shear_generated [1, 2] 1).1).mpr (Or.inl (by decide))

/-- 2^63 rows of two entries pass for none: the first read panics. -/
theorem empty_slice_accepted : CanGenerate shear ∧
    obfuscate wrapped shear [] 0x8000000000000000 = .error outOfBounds ∧
    restore wrapped shear [] 0x8000000000000000 = .error outOfBounds ∧
    ¬ Checked shear [] 0x8000000000000000 (obfuscate wrapped shear [] 0x8000000000000000) ∧
    ¬ Checked shear [] 0x8000000000000000 (restore wrapped shear [] 0x8000000000000000) := by
  have hrun : ∀ matrix : List ℚ,
      product wrapped matrix 2 [] 0x8000000000000000 = .error outOfBounds := by
    intro matrix
    -- row 0, column 0, term 0 already reads an entry that is not there
    have hsum : forRange 0 2 (fun sum k => do
        let x ← read [] (wrapped (wrapped (0 * 2) + k))
        let y ← read matrix (wrapped (wrapped (k * 2) + 0))
        return sum + x * y) 0 = .error Obfuscator.outOfBounds := forRange_fails (by decide) rfl
    refine forRange_fails (by decide) (forRange_fails (by decide) ?_)
    rw [hsum]
    rfl
  have hob : obfuscate wrapped shear [] 0x8000000000000000 = .error outOfBounds := hrun _
  have hre : restore wrapped shear [] 0x8000000000000000 = .error outOfBounds := hrun _
  have hno : ¬ Checked shear [] 0x8000000000000000 (.error outOfBounds) := by
    rintro (⟨message, h⟩ | ⟨h, _⟩)
    · cases h
    · cases h
  refine ⟨shear_generated, hob, hre, ?_, ?_⟩
  · rwa [hob]
  · rwa [hre]

end WrappedShapes
