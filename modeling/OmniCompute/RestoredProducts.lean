import OmniCompute.ObfuscatorInverse

/-! What restoring does to a tensor that a worker has multiplied by a weight matrix.
The obfuscation stands between the tensor and the weights, so the inverse applied behind
the weights takes it away only where the two orders agree. -/
namespace RestoredProducts

open RustValues RowMajor Obfuscator ObfuscatorInverse

section Generated

variable {m : ObfuscationMatrix} {dim : ℕ}

theorem candidate_stores (dim : ℕ) (draw : Draw) :
    ∃ data, candidate dim draw = .ok data ∧
      Stores data dim dim fun r c => if r = c then draw r c + 15 else (draw r c : ℚ) := by
  obtain ⟨data, hdata, hst⟩ : ∃ data, candidate dim draw = .ok data ∧
      Stores data dim dim (partway (fun r _ => r) dim (fun _ _ => 0)
        fun r c => if r = c then draw r c + 15 else (draw r c : ℚ)) := by
    apply (stores_replicate (0 : ℚ) dim dim).sweep (fun r _ => r)
    intro i ys hi hst
    have row : ∃ zs, forRange 0 dim (fun data j => write data (i * dim + j) (draw i j)) ys =
        .ok zs ∧ Stores zs dim dim (filled (partway (fun r _ => r) i (fun _ _ => 0)
          fun r c => if r = c then draw r c + 15 else (draw r c : ℚ)) i dim
            fun c => (draw i c : ℚ)) := by
      apply hst.fillRow outOfBounds _ hi le_rfl
      intro k us _ _
      rfl
    obtain ⟨zs, hzs, hst'⟩ := row
    obtain ⟨us, hus, hst''⟩ := write_cell hst' hi hi ((draw i i : ℚ) + 15)
    refine ⟨us, ?_, hst''.congr fun r c _ hc => ?_⟩
    · rw [hzs, ok_bind, read_cell hst' hi hi, ok_bind]
      simpa [filled, hi] using hus
    · by_cases hr : r = i
      · subst hr
        by_cases hcr : c = r
        · simp [setCell, hcr]
        · simp [setCell, filled, hcr, Ne.symm hcr, hc]
      · simp [setCell, filled, hr]
  exact ⟨data, hdata, hst.congr fun r c hr _ => by simp [partway, hr]⟩

theorem generated_candidate {draws : List Draw} (h : generate dim draws = .ok (some m)) :
    m.dim = dim ∧ ∃ draw ∈ draws, candidate dim draw = .ok m.data ∧
      invert m.data dim = .ok (some m.inverse) := by
  induction draws with
  | nil => cases h
  | cons draw draws ih =>
    obtain ⟨data, hdata, hst⟩ := candidate_stores dim draw
    obtain ⟨result, hr, _⟩ := invert_spec hst.length
    rw [generate, hdata, ok_bind, hr, ok_bind] at h
    cases result with
    | none =>
      obtain ⟨hdim, draw', hmem, hcandidate⟩ := ih h
      exact ⟨hdim, draw', List.mem_cons_of_mem _ hmem, hcandidate⟩
    | some inverse =>
      cases h
      exact ⟨rfl, draw, List.mem_cons_self, hdata, hr⟩

theorem generated_invert {draws : List Draw} (h : generate dim draws = .ok (some m)) :
    m.data.length = dim * dim ∧ invert m.data dim = .ok (some m.inverse) := by
  obtain ⟨_, draw, _, hcandidate, hinvert⟩ := generated_candidate h
  obtain ⟨data, hdata, hst⟩ := candidate_stores dim draw
  cases hdata.symm.trans hcandidate
  exact ⟨hst.length, hinvert⟩

end Generated

/-- A worker's `MatMul` of a tensor with `rows` rows of `dim` entries and a weight matrix. -/
def matMul (rows dim : ℕ) (tensor weights : List ℚ) : List ℚ :=
  ofMatrix (toMatrix tensor rows dim * toMatrix weights dim dim)

/-- Obfuscate, let a worker multiply, restore: the tensor times the weights comes back. -/
def RestoresProduct (m : ObfuscationMatrix) (rows : ℕ) (tensor weights : List ℚ) : Prop :=
  (obfuscate id m tensor rows >>= fun obfuscated =>
    restore id m (matMul rows m.dim obfuscated weights) rows) =
      .ok (matMul rows m.dim tensor weights)

/-- The tensor times the weights does not notice on which side the obfuscation happens. -/
def Commutes (m : ObfuscationMatrix) (rows : ℕ) (tensor weights : List ℚ) : Prop :=
  toMatrix tensor rows m.dim * toMatrix m.data m.dim m.dim * toMatrix weights m.dim m.dim =
    toMatrix tensor rows m.dim * toMatrix weights m.dim m.dim * toMatrix m.data m.dim m.dim

instance (m : ObfuscationMatrix) (rows : ℕ) (tensor weights : List ℚ) :
    Decidable (RestoresProduct m rows tensor weights) := inferInstanceAs (Decidable (_ = _))

instance (m : ObfuscationMatrix) (rows : ℕ) (tensor weights : List ℚ) :
    Decidable (Commutes m rows tensor weights) := inferInstanceAs (Decidable (_ = _))

section Restored

variable {m : ObfuscationMatrix} {rows : ℕ} {tensor weights : List ℚ}

theorem matMul_length (rows dim : ℕ) (tensor weights : List ℚ) :
    (matMul rows dim tensor weights).length = rows * dim := List.length_ofFn

theorem restored_matrix (hd : m.data.length = m.dim * m.dim)
    (hi : m.inverse.length = m.dim * m.dim) (ht : tensor.length = rows * m.dim) :
    ∃ restored, (obfuscate id m tensor rows >>= fun obfuscated =>
        restore id m (matMul rows m.dim obfuscated weights) rows) = .ok restored ∧
      restored.length = rows * m.dim ∧ toMatrix restored rows m.dim =
        toMatrix tensor rows m.dim * toMatrix m.data m.dim m.dim *
          toMatrix weights m.dim m.dim * toMatrix m.inverse m.dim m.dim := by
  obtain ⟨obfuscated, hob, _, hom⟩ := obfuscate_spec hd ht
  obtain ⟨restored, hre, hrl, hrm⟩ :=
    restore_spec hi (matMul_length rows m.dim obfuscated weights)
  refine ⟨restored, ?_, hrl, ?_⟩
  · rw [hob, ok_bind, hre]
  · rw [hrm, matMul, toMatrix_ofMatrix, hom]

end Restored

theorem restoresProduct_iff (m : ObfuscationMatrix) (hm : CanGenerate m) (rows : ℕ)
    (tensor weights : List ℚ) (ht : tensor.length = rows * m.dim) :
    RestoresProduct m rows tensor weights ↔ Commutes m rows tensor weights := by
  obtain ⟨draws, _, hgen⟩ := hm
  obtain ⟨hd, hinvert⟩ := generated_invert hgen
  obtain ⟨result, hr, hspec⟩ := invert_spec hd
  cases hr.symm.trans hinvert
  obtain ⟨hi, hleft, hright⟩ := hspec m.inverse rfl
  obtain ⟨restored, hre, hrl, hrm⟩ := @restored_matrix m rows tensor weights hd hi ht
  have hmul : toMatrix (matMul rows m.dim tensor weights) rows m.dim =
      toMatrix tensor rows m.dim * toMatrix weights m.dim m.dim := toMatrix_ofMatrix _
  rw [RestoresProduct, hre, Commutes]
  constructor
  · intro heq
    have hm := congrArg (fun xs => toMatrix xs rows m.dim) (Except.ok.inj heq)
    simp only [hrm, hmul] at hm
    have hmp := congrArg (· * toMatrix m.data m.dim m.dim) hm
    simpa [Matrix.mul_assoc, hleft] using hmp
  · intro hcomm
    apply congrArg Except.ok
    apply toMatrix_inj hrl (matMul_length _ _ _ _)
    rw [hrm, hmul, hcomm, Matrix.mul_assoc, hright, Matrix.mul_one]

/-- One tensor survives exactly when the two orders agree on it, and every tensor does exactly
when the weights commute with the private matrix. -/
theorem restoresProduct_exactly (m : ObfuscationMatrix) (hm : CanGenerate m) (weights : List ℚ) :
    (∀ rows tensor, tensor.length = rows * m.dim →
      (RestoresProduct m rows tensor weights ↔ Commutes m rows tensor weights)) ∧
    ((∀ rows tensor, tensor.length = rows * m.dim → RestoresProduct m rows tensor weights) ↔
      toMatrix m.data m.dim m.dim * toMatrix weights m.dim m.dim =
        toMatrix weights m.dim m.dim * toMatrix m.data m.dim m.dim) := by
  refine ⟨fun rows tensor => restoresProduct_iff m hm rows tensor weights, ?_, ?_⟩
  · intro h
    let identity : List ℚ := ofMatrix (1 : Matrix (Fin m.dim) (Fin m.dim) ℚ)
    have hlen : identity.length = m.dim * m.dim := List.length_ofFn
    have hc := (restoresProduct_iff m hm m.dim identity weights hlen).mp (h _ _ hlen)
    simpa [Commutes, identity, toMatrix_ofMatrix] using hc
  · intro h rows tensor ht
    apply (restoresProduct_iff m hm rows tensor weights ht).mpr
    rw [Commutes, Matrix.mul_assoc, h, Matrix.mul_assoc]

def shearDraw : Draw := fun i j => if i = 0 ∧ j = 1 then 1 else 0

def shear : ObfuscationMatrix := ⟨2, [15, 1, 0, 15], [1 / 15, -1 / 225, 0, 1 / 15]⟩

theorem shear_generated : CanGenerate shear := by
  refine ⟨[shearDraw], ?_, by decide +kernel⟩
  intro draw hd i j
  obtain rfl := List.mem_singleton.mp hd
  simp only [shearDraw]
  split <;> omega

theorem restoresProduct_exactly_shear : RestoresProduct shear 1 [1, 2] [3, 0, 0, 3] :=
  ((restoresProduct_exactly shear shear_generated [3, 0, 0, 3]).1 1 [1, 2] rfl).mpr
    (by decide +kernel)

theorem shear_not_restored :
    CanGenerate shear ∧ ¬ RestoresProduct shear 1 [1, 0] [0, 0, 1, 0] :=
  ⟨shear_generated, by decide +kernel⟩

end RestoredProducts
