import OmniCompute.EventRuns
import OmniCompute.KeyedTotals
import OmniCompute.RustValues

/-! The DUVAS allocator under 64-bit wrapping arithmetic (the release profile).
Every public method takes the mutex for its whole body, so one method is one atomic step.
A method returns its Rust result next to the state it leaves behind. -/
namespace DuvasAllocator

open RustValues EventRuns KeyedTotals

inductive MemoryDomain where
  | host
  | localDevice
  | remotePeer
  | swap
  deriving DecidableEq, Repr

structure MemoryBlock where
  virtualAddr : UInt64
  sizeBytes : UInt64
  domain : MemoryDomain
  isStatic : Bool
  deriving DecidableEq, Repr

structure AllocatorState where
  allocations : BTreeMap UInt64 MemoryBlock
  allocatedVirtualBytes : UInt64
  allocatedDeviceBytes : UInt64
  nextAddr : UInt64

def baseAddr : UInt64 := 0x1000000000

def AllocatorState.new : AllocatorState := ⟨∅, 0, 0, baseAddr⟩

/-- `(size_bytes + 4095) & !4095`. -/
def alignedSize (sizeBytes : UInt64) : UInt64 := (sizeBytes + 4095) &&& ~~~4095

/-- Placement follows the device budget; the map insert replaces any entry of that address. -/
def alloc (capacity : UInt64) (s : AllocatorState) (sizeBytes : UInt64) (isStatic : Bool) :
    Result UInt64 × AllocatorState :=
  let aligned := alignedSize sizeBytes
  let addr := s.nextAddr
  let fits : Bool := s.allocatedDeviceBytes + aligned ≤ capacity
  let domain := if fits then MemoryDomain.localDevice else .host
  let device := if fits then s.allocatedDeviceBytes + aligned else s.allocatedDeviceBytes
  (.ok addr,
    { allocations := s.allocations.insert addr ⟨addr, aligned, domain, isStatic⟩
      allocatedVirtualBytes := s.allocatedVirtualBytes + aligned
      allocatedDeviceBytes := device
      nextAddr := s.nextAddr + aligned })

/-- The device counter after a block gives up its place: `free` and `migrate` both start so. -/
def releasedDeviceBytes (s : AllocatorState) (block : MemoryBlock) : UInt64 :=
  if block.domain = .localDevice then s.allocatedDeviceBytes - block.sizeBytes
  else s.allocatedDeviceBytes

def free (s : AllocatorState) (virtualAddr : UInt64) : Result Unit × AllocatorState :=
  match s.allocations.lookup virtualAddr with
  | some block =>
    (.ok (),
      { s with
        allocations := s.allocations.erase virtualAddr
        allocatedVirtualBytes := s.allocatedVirtualBytes - block.sizeBytes
        allocatedDeviceBytes := releasedDeviceBytes s block })
  | none =>
    (.error (.error ("DuvasAllocator: invalid free at address 0x" ++ lowerHex virtualAddr)), s)

def migrate (s : AllocatorState) (virtualAddr : UInt64) (target : MemoryDomain) :
    Result Unit × AllocatorState :=
  match s.allocations.lookup virtualAddr with
  | none =>
    (.error (.error
      ("DuvasAllocator: cannot migrate unallocated address 0x" ++ lowerHex virtualAddr)), s)
  | some block =>
    if block.domain = target then (.ok (), s)
    else
      (.ok (),
        { s with
          allocations := s.allocations.insert virtualAddr { block with domain := target }
          allocatedDeviceBytes :=
            if target = .localDevice then releasedDeviceBytes s block + block.sizeBytes
            else releasedDeviceBytes s block })

/-- The test in front of the overcommit `warn!` of `migrate`, which only logs. -/
def overcommits (capacity : UInt64) (s : AllocatorState) (virtualAddr : UInt64)
    (target : MemoryDomain) : Bool :=
  match s.allocations.lookup virtualAddr with
  | none => false
  | some block =>
    block.domain ≠ target && target = .localDevice &&
      releasedDeviceBytes s block + block.sizeBytes > capacity

def getMetrics (capacity : UInt64) (s : AllocatorState) : UInt64 × UInt64 × UInt64 :=
  (s.allocatedDeviceBytes, capacity, s.allocatedVirtualBytes)

def getDomain (s : AllocatorState) (virtualAddr : UInt64) : Option MemoryDomain :=
  (s.allocations.lookup virtualAddr).map MemoryBlock.domain

inductive Call where
  | alloc (sizeBytes : UInt64) (isStatic : Bool)
  | free (virtualAddr : UInt64)
  | migrate (virtualAddr : UInt64) (target : MemoryDomain)
  deriving DecidableEq, Repr

def perform (capacity : UInt64) (s : AllocatorState) :
    Call → Result (Option UInt64) × AllocatorState
  | .alloc size isStatic =>
    ((alloc capacity s size isStatic).1.map some, (alloc capacity s size isStatic).2)
  | .free addr => ((free s addr).1.map fun _ => none, (free s addr).2)
  | .migrate addr target => ((migrate s addr target).1.map fun _ => none, (migrate s addr target).2)

def clients (capacity : UInt64) : Machine AllocatorState Call (Result (Option UInt64)) :=
  ⟨.new, perform capacity⟩

section Rounding

theorem mask_low (x : BitVec 64) : x &&& ~~~4095#64 = (x >>> 12) <<< 12 := by
  have hm : ∀ i < 64, (4095#64).getLsbD i = decide (i < 12) := by decide
  ext i hi
  simp only [BitVec.getElem_and, BitVec.getElem_not, BitVec.getElem_shiftLeft]
  rw [← BitVec.getLsbD_eq_getElem, ← BitVec.getLsbD_eq_getElem, hm i hi]
  by_cases hlt : i < 12
  · simp [hlt]
  · have he : 12 + (i - 12) = i := by omega
    simp [hlt, he]

theorem alignedSize_toNat (size : UInt64) :
    (alignedSize size).toNat = (size.toNat + 4095) % 2 ^ 64 / 4096 * 4096 := by
  have h : (alignedSize size).toBitVec = ((size.toBitVec + 4095#64) >>> 12) <<< 12 := mask_low _
  rw [← UInt64.toNat_toBitVec, h]
  simp only [BitVec.toNat_shiftLeft, BitVec.toNat_ushiftRight, BitVec.toNat_add,
    UInt64.toNat_toBitVec, Nat.shiftLeft_eq, Nat.shiftRight_eq_div_pow, BitVec.toNat_ofNat]
  omega

theorem alignedSize_page (size : UInt64) : (alignedSize size).toNat % 4096 = 0 := by
  rw [alignedSize_toNat]
  omega

/-- Rounding yields an empty block for a zero request, and by wrap-around for the last page. -/
theorem alignedSize_pos_iff (size : UInt64) :
    0 < (alignedSize size).toNat ↔ 0 < size.toNat ∧ size.toNat ≤ 2 ^ 64 - 4096 := by
  have h := size.toNat_lt
  rw [alignedSize_toNat]
  omega

def roundedBytes (size : ℕ) : ℕ := (size + 4095) / 4096 * 4096

theorem alignedSize_exact {size : UInt64} (h : roundedBytes size.toNat < 2 ^ 64) :
    (alignedSize size).toNat = roundedBytes size.toNat := by
  rw [alignedSize_toNat]
  simp only [roundedBytes] at *
  omega

end Rounding

section Weights

def virtualWeight (block : MemoryBlock) : ℕ := block.sizeBytes.toNat

def deviceWeight (block : MemoryBlock) : ℕ :=
  if block.domain = .localDevice then block.sizeBytes.toNat else 0

theorem deviceWeight_le (block : MemoryBlock) : deviceWeight block ≤ virtualWeight block := by
  simp only [deviceWeight, virtualWeight]
  split <;> omega

def virtualTotal (s : AllocatorState) : ℕ := total virtualWeight s.allocations

def deviceTotal (s : AllocatorState) : ℕ := total deviceWeight s.allocations

theorem deviceTotal_le (s : AllocatorState) : deviceTotal s ≤ virtualTotal s :=
  total_mono _ deviceWeight_le

end Weights

end DuvasAllocator
