import OmniCompute.OmniDialect
import Mathlib.Algebra.BigOperators.Group.List.Basic
import Mathlib.Algebra.Order.Ring.Int
import Mathlib.Data.List.ReduceOption

/-! The sizes a tensor type reports in the release profile. Both are products reduced modulo
`2^64`, read as a signed count of elements and as an unsigned count of bytes. -/
namespace TensorSizes

open OmniDialect

def extent (t : TensorType) : ℤ := (t.shape.reduceOption.map Int64.toInt).prod

def byteExtent (t : TensorType) : ℤ := extent t * t.elementType.byteWidth.toNat

/-- A size is known if every dimension is static and it is a number of the type below `bound`. -/
def reported (t : TensorType) (bound size : ℤ) : Option ℤ :=
  if none ∉ t.shape ∧ 0 ≤ size ∧ size < bound then some size else none

structure SizesExact (t : TensorType) : Prop where
  elements : t.numElements.map Int64.toInt = reported t (2 ^ 63) (extent t)
  bytes : (t.byteSize.map fun n => (n.toNat : ℤ)) = reported t (2 ^ 64) (byteExtent t)

theorem fold_elements (shape : List (Option Int64)) (start : ℤ) :
    shape.foldlM (fun acc dim => dim.map fun d => acc * d) (Int64.ofInt start) =
      if none ∈ shape then none else
        some (Int64.ofInt (start * (shape.reduceOption.map Int64.toInt).prod)) := by
  induction shape generalizing start with
  | nil => simp
  | cons dim shape ih =>
    cases dim with
    | none => simp
    | some d =>
      have hstep : Int64.ofInt start * d = Int64.ofInt (start * d.toInt) := by simp
      simp only [List.foldlM_cons, Option.map_some, Option.bind_eq_bind, Option.bind_some, hstep,
        ih, List.mem_cons, reduceCtorEq, false_or, List.reduceOption_cons_of_some, List.map_cons,
        List.prod_cons, Int.mul_assoc]

theorem numElements_eq (t : TensorType) :
    t.numElements = if none ∈ t.shape then none else some (Int64.ofInt (extent t)) := by
  have h := fold_elements t.shape 1
  rwa [Int.one_mul] at h

/-- The cast to `usize` and the product with the width are exact modulo `2^64`. -/
theorem toNat_bytes (z : ℤ) (width : UInt64) :
    (((Int64.ofInt z).toUInt64 * width).toNat : ℤ) = z * width.toNat % 2 ^ 64 := by
  have hcast : ((Int64.ofInt z).toUInt64.toNat : ℤ) = z % 2 ^ 64 := by
    have h : (Int64.ofInt z).toUInt64.toNat = (BitVec.ofInt 64 z).toNat := rfl
    rw [h, BitVec.toNat_ofInt]
    omega
  rw [UInt64.toNat_mul, Int.natCast_emod, Int.natCast_mul, hcast, Int.mul_emod,
    Int.natCast_pow, Int.cast_ofNat_Int, Int.emod_emod_of_dvd _ (Int.dvd_refl _), ← Int.mul_emod]

theorem some_eq_reported {t : TensorType} (hstatic : none ∉ t.shape) (bound size value : ℤ) :
    some value = reported t bound size ↔ value = size ∧ 0 ≤ size ∧ size < bound := by
  unfold reported
  split <;> rename_i h <;> simp_all

theorem elements_exact_iff {t : TensorType} (hstatic : none ∉ t.shape) :
    t.numElements.map Int64.toInt = reported t (2 ^ 63) (extent t) ↔
      0 ≤ extent t ∧ extent t < 2 ^ 63 := by
  rw [numElements_eq, if_neg hstatic, Option.map_some, some_eq_reported hstatic]
  constructor
  · rintro ⟨-, hfits⟩
    exact hfits
  · rintro ⟨hpos, hlt⟩
    exact ⟨Int64.toInt_ofInt_of_le (by omega) hlt, hpos, hlt⟩

theorem bytes_exact_iff {t : TensorType} (hstatic : none ∉ t.shape) :
    (t.byteSize.map fun n => (n.toNat : ℤ)) = reported t (2 ^ 64) (byteExtent t) ↔
      0 ≤ byteExtent t ∧ byteExtent t < 2 ^ 64 := by
  rw [TensorType.byteSize, numElements_eq, if_neg hstatic, Option.map_some, Option.map_some,
    some_eq_reported hstatic, toNat_bytes, ← byteExtent]
  constructor
  · rintro ⟨-, hfits⟩
    exact hfits
  · rintro ⟨hpos, hlt⟩
    exact ⟨Int.emod_eq_of_lt hpos hlt, hpos, hlt⟩

/-- Both sizes are right exactly where they are absent, or both fit. A `u8` count from `2^63` on
has its bytes right and its elements wrong. -/
theorem sizes_exact_iff (t : TensorType) :
    SizesExact t ↔ none ∈ t.shape ∨
      (0 ≤ extent t ∧ extent t < 2 ^ 63 ∧ byteExtent t < 2 ^ 64) := by
  by_cases hdynamic : none ∈ t.shape
  · have hnone : t.numElements = none := by rw [numElements_eq, if_pos hdynamic]
    refine iff_of_true ⟨?_, ?_⟩ (Or.inl hdynamic)
    · simp [hnone, reported, hdynamic]
    · simp [TensorType.byteSize, hnone, reported, hdynamic]
  · constructor
    · intro h
      obtain ⟨hpos, hlt⟩ := (elements_exact_iff hdynamic).mp h.elements
      exact Or.inr ⟨hpos, hlt, ((bytes_exact_iff hdynamic).mp h.bytes).2⟩
    · rintro (hnone | ⟨hpos, hlt, hbytes⟩)
      · exact absurd hnone hdynamic
      · have hbytesPos : 0 ≤ byteExtent t := Int.mul_nonneg hpos (Int.natCast_nonneg _)
        exact ⟨(elements_exact_iff hdynamic).mpr ⟨hpos, hlt⟩,
          (bytes_exact_iff hdynamic).mpr ⟨hbytesPos, hbytes⟩⟩

/-- Two dimensions of `2^32` are reported as an empty tensor, and a negative dimension as almost
the whole address space. -/
theorem wrapped_sizes_reported :
    ¬ (∀ t : TensorType, SizesExact t) ∧
    (TensorType.staticTensor [0x100000000, 0x100000000] .f32).numElements = some 0 ∧
    (TensorType.staticTensor [0x100000000, 0x100000000] .f32).byteSize = some 0 ∧
    (TensorType.staticTensor [-1] .f32).byteSize = some 0xFFFFFFFFFFFFFFFC := by
  refine ⟨fun h => ?_, by decide, by decide +kernel, by decide +kernel⟩
  have hbytes := (h (TensorType.staticTensor [0x100000000, 0x100000000] .f32)).bytes
  revert hbytes
  decide +kernel

end TensorSizes
