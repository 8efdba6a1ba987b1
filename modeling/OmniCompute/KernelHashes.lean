import OmniCompute.JitEngine
import OmniCompute.LosslessFolds

/-! The hashes that name kernels. Both multiply by an odd prime and mix in a byte, by exclusive
or for the cache and by addition for opaque kernels; neither step loses anything. -/
namespace KernelHashes

open IrLifter JitEngine LosslessFolds

/-- The prime is odd, so it has an inverse modulo `2^64`. -/
theorem prime_cancel {x y : UInt64} (h : x * 0x00000100000001b3 = y * 0x00000100000001b3) :
    x = y := by
  have hinverse : (0x00000100000001b3 : UInt64) * 0xce965057aff6957b = 1 := by decide
  have hscaled := congrArg (fun z => z * 0xce965057aff6957b) h
  simpa only [UInt64.mul_assoc, hinverse, UInt64.mul_one] using hscaled

theorem ptxStep_lossless :
    Lossless fun (hash : UInt64) (b : UInt8) => hash * 0x00000100000001b3 ^^^ b.toUInt64 := by
  constructor
  · intro b x y h
    exact prime_cancel ((UInt64.xor_left_inj _).mp h)
  · intro hash a b h
    exact UInt8.toUInt64_inj.mp ((UInt64.xor_right_inj _).mp h)

theorem bytesStep_lossless :
    Lossless fun (acc : UInt64) (b : UInt8) => acc * 0x00000100000001b3 + b.toUInt64 := by
  constructor
  · intro b x y h
    exact prime_cancel ((UInt64.add_left_inj _).mp h)
  · intro acc a b h
    exact UInt8.toUInt64_inj.mp ((UInt64.add_right_inj _).mp h)

/-- Two ids of one kernel, and two kernels that differ in one byte, never share a hash. -/
theorem near_misses_separated :
    (∀ ptx i j, hashPtx ptx i = hashPtx ptx j ↔ i = j) ∧
    (∀ front back a b kernelId, hashPtx (front ++ [a] ++ back) kernelId =
      hashPtx (front ++ [b] ++ back) kernelId ↔ a = b) ∧
    ∀ front back a b, hashBytes (front ++ [a] ++ back) = hashBytes (front ++ [b] ++ back) ↔
      a = b := by
  refine ⟨?_, ?_, ?_⟩
  · intro ptx i j
    constructor
    · intro h
      exact (UInt64.xor_right_inj _).mp (ptxStep_lossless.foldl_injective ptx h)
    · intro h
      rw [h]
  · intro front back a b kernelId
    exact ptxStep_lossless.foldl_eq_iff _ front back a b
  · intro front back a b
    exact bytesStep_lossless.foldl_eq_iff _ front back a b

end KernelHashes
