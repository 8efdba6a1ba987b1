import OmniCompute.FirstAttempt
import Mathlib.LinearAlgebra.Matrix.ToLin

/-! Which layers an untrusted worker can be given. The worker applies its layer to the
obfuscated tensor, and what is restored is the layer's result under every private matrix
exactly if the layer has no bias and only mixes the rows. -/
namespace OffloadedLayers

open RustValues RowMajor Obfuscator ObfuscatorInverse RestoredProducts FirstAttempt

section Commuting

variable {K : Type*} [Field K] {l m n : Type*} [DecidableEq m]
  [Fintype n] [DecidableEq n]

theorem map_single_of_commutes {L : Matrix m n K →ₗ[K] Matrix l n K}
    (h : ∀ (i j : n) X, L (X * Matrix.single i j (1 : K)) = L X * Matrix.single i j (1 : K))
    (c₀ c : n) (r : m) :
    L (Matrix.single r c 1) = L (Matrix.single r c₀ 1) * Matrix.single c₀ c (1 : K) := by
  rw [← h, Matrix.single_mul_single_same, one_mul]

variable [Fintype m]

theorem exists_mul_of_commutes {L : Matrix m n K →ₗ[K] Matrix l n K}
    (h : ∀ (i j : n) X, L (X * Matrix.single i j (1 : K)) = L X * Matrix.single i j (1 : K)) :
    ∃ W : Matrix l m K, ∀ X, L X = W * X := by
  rcases isEmpty_or_nonempty n with hn | ⟨⟨c₀⟩⟩
  · exact ⟨0, fun X => Matrix.ext fun _ j => hn.elim j⟩
  refine ⟨Matrix.of fun s r => L (Matrix.single r c₀ 1) s c₀, fun X => ?_⟩
  conv_lhs => rw [Matrix.matrix_eq_sum_single X]
  ext s c
  simp only [map_sum, Matrix.sum_apply, Matrix.mul_apply, Matrix.of_apply]
  apply Finset.sum_congr rfl
  intro r _
  have hentry : ∀ c', L (Matrix.single r c' (X r c')) s c =
      if c' = c then L (Matrix.single r c₀ 1) s c₀ * X r c else 0 := by
    intro c'
    have hscale : Matrix.single r c' (X r c') = X r c' • Matrix.single r c' (1 : K) := by
      rw [Matrix.smul_single, smul_eq_mul, mul_one]
    rw [hscale, map_smul, map_single_of_commutes h c₀ c' r, Matrix.smul_apply, smul_eq_mul]
    by_cases hc : c' = c
    · subst hc
      rw [if_pos rfl, Matrix.mul_single_apply_same, mul_one, mul_comm]
    · rw [if_neg hc, Matrix.mul_single_apply_of_ne _ _ _ _ _ (Ne.symm hc), mul_zero]
  simp only [hentry, Finset.sum_ite_eq', Finset.mem_univ, if_true]

end Commuting

section Layers

variable {rows outRows dim : ℕ}

structure Layer (rows outRows dim : ℕ) where
  linear : Matrix (Fin rows) (Fin dim) ℚ →ₗ[ℚ] Matrix (Fin outRows) (Fin dim) ℚ
  bias : Matrix (Fin outRows) (Fin dim) ℚ

def Layer.apply (layer : Layer rows outRows dim) (tensor : List ℚ) : List ℚ :=
  ofMatrix (layer.linear (toMatrix tensor rows dim) + layer.bias)

/-- Under every private matrix of its dimension, obfuscating, handing over and restoring gives
what the layer gives. -/
def Survives (layer : Layer rows outRows dim) : Prop :=
  ∀ m, CanGenerate m → m.dim = dim → ∀ tensor, tensor.length = rows * dim →
    (obfuscate id m tensor rows >>= fun obfuscated =>
      restore id m (layer.apply obfuscated) outRows) = .ok (layer.apply tensor)

/-- The layer only mixes rows, by one and the same matrix in every column. -/
def MixesRows (layer : Layer rows outRows dim) : Prop :=
  layer.bias = 0 ∧ ∃ W : Matrix (Fin outRows) (Fin rows) ℚ, ∀ X, layer.linear X = W * X

theorem Layer.apply_length (layer : Layer rows outRows dim) (tensor : List ℚ) :
    (layer.apply tensor).length = outRows * dim := List.length_ofFn

theorem Layer.apply_matrix (layer : Layer rows outRows dim) (tensor : List ℚ) :
    toMatrix (layer.apply tensor) outRows dim =
      layer.linear (toMatrix tensor rows dim) + layer.bias := toMatrix_ofMatrix _

theorem restored_iff {m : ObfuscationMatrix} (hm : CanGenerate m)
    (layer : Layer rows outRows m.dim) {tensor : List ℚ} (ht : tensor.length = rows * m.dim) :
    (obfuscate id m tensor rows >>= fun obfuscated =>
      restore id m (layer.apply obfuscated) outRows) = .ok (layer.apply tensor) ↔
    layer.linear (toMatrix tensor rows m.dim * toMatrix m.data m.dim m.dim) + layer.bias =
      (layer.linear (toMatrix tensor rows m.dim) + layer.bias) *
        toMatrix m.data m.dim m.dim := by
  obtain ⟨draws, _, hgen⟩ := hm
  obtain ⟨hd, hinvert⟩ := generated_invert hgen
  obtain ⟨result, hr, hspec⟩ := invert_spec hd
  cases hr.symm.trans hinvert
  obtain ⟨hi, hleft, hright⟩ := hspec m.inverse rfl
  obtain ⟨obfuscated, hob, _, hom⟩ := obfuscate_spec hd ht
  obtain ⟨restored, hre, hrl, hrm⟩ := restore_spec hi (layer.apply_length obfuscated)
  rw [layer.apply_matrix, hom] at hrm
  rw [hob, ok_bind, hre]
  constructor
  · intro heq
    cases Except.ok.inj heq
    rw [layer.apply_matrix] at hrm
    rw [hrm, Matrix.mul_assoc, hleft, Matrix.mul_one]
  · intro hcomm
    apply congrArg Except.ok
    apply toMatrix_inj hrl (layer.apply_length tensor)
    rw [hrm, hcomm, Matrix.mul_assoc, hright, Matrix.mul_one, layer.apply_matrix]

theorem survives_of_mixesRows {layer : Layer rows outRows dim} (h : MixesRows layer) :
    Survives layer := by
  obtain ⟨hbias, W, hW⟩ := h
  rintro m hm rfl tensor ht
  rw [restored_iff hm layer ht, hbias, hW, hW, add_zero, add_zero, Matrix.mul_assoc]

end Layers

section Keys

variable {rows outRows dim : ℕ}

def entryDraw (i j : ℕ) (entry : ℤ) : Draw := fun r c => if r = i ∧ c = j then entry else 0

theorem entryDraw_inRange (i j : ℕ) {entry : ℤ} (hlow : -5 ≤ entry) (hhigh : entry ≤ 5) :
    (entryDraw i j entry).InRange := by
  intro r c
  unfold entryDraw
  split <;> omega

theorem entryDraw_dominant (dim i j : ℕ) {entry : ℤ} (hlow : -5 ≤ entry) (hhigh : entry ≤ 5) :
    DrawDominant dim (entryDraw i j entry) := by
  intro r _
  have hrest : ∑ c ∈ (Finset.range dim).erase r, |entryDraw i j entry r c| ≤ 5 := by
    calc ∑ c ∈ (Finset.range dim).erase r, |entryDraw i j entry r c|
        ≤ ∑ c ∈ (Finset.range dim).erase r, if c = j then 5 else 0 := by
          apply Finset.sum_le_sum
          intro c _
          unfold entryDraw
          split
          next h => rw [if_pos h.2]; exact abs_le.mpr ⟨hlow, hhigh⟩
          next => split <;> simp
      _ ≤ 5 := by
          rw [Finset.sum_ite_eq']
          split <;> norm_num
  have hdiag := (entryDraw_inRange i j hlow hhigh r r).1
  omega

theorem entry_generated (i j : Fin dim) {entry : ℤ} (hlow : -5 ≤ entry) (hhigh : entry ≤ 5) :
    ∃ m, CanGenerate m ∧ m.dim = dim ∧ toMatrix m.data dim dim =
      (15 : ℚ) • (1 : Matrix (Fin dim) (Fin dim) ℚ) + Matrix.single i j (entry : ℚ) := by
  have range := entryDraw_inRange i j hlow hhigh
  obtain ⟨data, inverse, hs⟩ :=
    settled_of_dominant range (entryDraw_dominant dim i j hlow hhigh)
  obtain ⟨data', hdata, hst⟩ := candidate_stores dim (entryDraw i j entry)
  cases hdata.symm.trans hs.drawn
  refine ⟨⟨dim, data, inverse⟩, ⟨[entryDraw i j entry], ?_, hs.done []⟩, rfl, ?_⟩
  · intro draw hmem
    obtain rfl := List.mem_singleton.mp hmem
    exact range
  · rw [hst.toMatrix]
    ext r c
    simp only [Matrix.of_apply, Matrix.add_apply, Matrix.smul_apply, smul_eq_mul, entryDraw,
      Matrix.single, Fin.val_inj, Matrix.one_apply]
    by_cases hrc : r = c
    · subst hrc
      by_cases hij : r = i ∧ r = j
      · obtain ⟨rfl, rfl⟩ := hij
        simp [add_comm]
      · have hji : ¬(i = r ∧ j = r) := fun h => hij ⟨h.1.symm, h.2.symm⟩
        simp [hij, hji]
    · by_cases hij : r = i ∧ c = j
      · obtain ⟨rfl, rfl⟩ := hij
        simp [hrc]
      · have hji : ¬(i = r ∧ j = c) := fun h => hij ⟨h.1.symm, h.2.symm⟩
        simp [hrc, hij, hji]

/-- A key that scales takes the bias away, and the keys with one entry beside the scaling leave
only what commutes with every matrix unit. -/
theorem mixesRows_of_survives {layer : Layer rows outRows dim} (h : Survives layer) :
    MixesRows layer := by
  have agree : ∀ (i j : Fin dim) (entry : ℤ), -5 ≤ entry → entry ≤ 5 → ∀ X,
      layer.linear (X * ((15 : ℚ) • 1 + Matrix.single i j (entry : ℚ))) + layer.bias =
        (layer.linear X + layer.bias) * ((15 : ℚ) • 1 + Matrix.single i j (entry : ℚ)) := by
    intro i j entry hlow hhigh X
    obtain ⟨m, hm, rfl, hdata⟩ := entry_generated i j hlow hhigh
    have hlength : (ofMatrix X).length = rows * m.dim := List.length_ofFn
    have hrestored := (restored_iff hm layer hlength).mp (h m hm rfl _ hlength)
    rwa [toMatrix_ofMatrix, hdata] at hrestored
  have hbias : layer.bias = 0 := by
    ext s c
    have hscaled := agree c c 0 (by norm_num) (by norm_num) 0
    rw [Int.cast_zero, Matrix.single_zero, add_zero, Matrix.zero_mul, map_zero, zero_add,
      Matrix.mul_smul, Matrix.mul_one] at hscaled
    have hentry := congrFun (congrFun hscaled s) c
    rw [Matrix.smul_apply, smul_eq_mul] at hentry
    rw [Matrix.zero_apply]
    linarith
  refine ⟨hbias, exists_mul_of_commutes fun i j X => ?_⟩
  have hkey := agree i j 1 (by norm_num) (by norm_num) X
  rw [hbias, add_zero, add_zero, Int.cast_one, Matrix.mul_add, Matrix.mul_add, map_add,
    Matrix.mul_smul, Matrix.mul_smul, Matrix.mul_one, Matrix.mul_one, map_smul] at hkey
  exact add_left_cancel hkey

end Keys

/-- A worker's layer survives the obfuscation exactly when it adds no bias and mixes rows only.
A layer that mixes the columns, as a weight matrix on the right does, comes back wrong under
some private matrix. -/
theorem survives_iff {rows outRows dim : ℕ} (layer : Layer rows outRows dim) :
    Survives layer ↔ MixesRows layer :=
  ⟨mixesRows_of_survives, survives_of_mixesRows⟩

end OffloadedLayers
