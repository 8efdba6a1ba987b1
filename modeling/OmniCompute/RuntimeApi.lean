import OmniCompute.DeviceMemory
import OmniCompute.StreamTable

/-! The Runtime API as one thread calls it, each call run to its end. The copied bytes are
left out, since no return code depends on them; so are the device fields that only a log line
reads. A pointer or a heap answer is an address, and null is zero. -/
namespace RuntimeApi

open RustValues EventRuns CudaShim StreamTable DeviceMemory

inductive CudaMemcpyKind where
  | cudaMemcpyHostToHost
  | cudaMemcpyHostToDevice
  | cudaMemcpyDeviceToHost
  | cudaMemcpyDeviceToDevice
  | cudaMemcpyDefault
  deriving DecidableEq

structure VirtualDevice where
  name : String
  totalMemory : UInt64
  computeCapabilityMajor : Int32
  computeCapabilityMinor : Int32
  warpSize : Int32
  multiprocessorCount : Int32
  maxThreadsPerBlock : Int32
  l2CacheSize : Int32
  deriving DecidableEq

/-- The fields that `cudaGetDeviceProperties` fills in; all the others are zero. -/
structure CudaDeviceProp where
  name : List UInt8
  totalGlobalMem : UInt64
  major : Int32
  minor : Int32
  warpSize : Int32
  multiProcessorCount : Int32
  maxThreadsPerBlock : Int32
  maxThreadsDim : List Int32
  maxGridSize : List Int32
  l2CacheSize : Int32
  sharedMemPerBlock : UInt64
  regsPerBlock : Int32
  clockRate : Int32
  memoryClockRate : Int32
  memoryBusWidth : Int32
  unifiedAddressing : Int32
  managedMemory : Int32
  concurrentKernels : Int32
  cooperativeLaunch : Int32
  asyncEngineCount : Int32
  maxBlocksPerMultiProcessor : Int32
  sharedMemPerMultiprocessor : UInt64
  deriving DecidableEq

/-- `lastError` is the thread's own; the rest is shared by the process. -/
structure RuntimeState where
  virtualDevices : List VirtualDevice
  allocTable : HashMap UInt64 AllocEntry
  streamTable : StreamState
  lastError : CudaError

def detectVirtualDevices : List VirtualDevice :=
  [⟨"OmniCompute Virtual GPU 0 (Heterogeneous Backend)", 24 * 1024 * 1024 * 1024, 8, 0, 32, 108,
    1024, 40 * 1024 * 1024⟩]

def RuntimeState.new : RuntimeState := ⟨detectVirtualDevices, ∅, .new, .cudaSuccess⟩

inductive Output where
  | nothing
  | int (value : Int32)
  | pointer (value : UInt64)
  | properties (value : CudaDeviceProp)
  deriving DecidableEq

inductive Reply where
  | code (code : CudaError) (output : Output)
  | text (message : String)
  | panicked (message : String)
  deriving DecidableEq

def Reply.fail (code : CudaError) : Reply := .code code .nothing

def Reply.succeed : Reply := .code .cudaSuccess .nothing

/-- `device as usize` of a C `int`. -/
def asUsize (device : Int32) : ℕ := device.toInt64.toUInt64.toNat

section Devices

def cudaGetDeviceCount (s : RuntimeState) (countNull : Bool) : Reply × RuntimeState :=
  if countNull then (.fail .cudaErrorInvalidValue, s)
  else (.code .cudaSuccess (.int (Int32.ofNat s.virtualDevices.length)), s)

def deviceProp (vdev : VirtualDevice) : CudaDeviceProp where
  name := vdev.name.toUTF8.toList.take 255
  totalGlobalMem := vdev.totalMemory
  major := vdev.computeCapabilityMajor
  minor := vdev.computeCapabilityMinor
  warpSize := vdev.warpSize
  multiProcessorCount := vdev.multiprocessorCount
  maxThreadsPerBlock := vdev.maxThreadsPerBlock
  maxThreadsDim := [1024, 1024, 64]
  maxGridSize := [2147483647, 65535, 65535]
  l2CacheSize := vdev.l2CacheSize
  sharedMemPerBlock := 49152
  regsPerBlock := 65536
  clockRate := 1800000
  memoryClockRate := 9001000
  memoryBusWidth := 5120
  unifiedAddressing := 1
  managedMemory := 1
  concurrentKernels := 1
  cooperativeLaunch := 1
  asyncEngineCount := 3
  maxBlocksPerMultiProcessor := 32
  sharedMemPerMultiprocessor := 102400

def cudaGetDeviceProperties (s : RuntimeState) (propNull : Bool) (device : Int32) :
    Reply × RuntimeState :=
  if propNull then (.fail .cudaErrorInvalidValue, s)
  else
    match s.virtualDevices[asUsize device]? with
    | none => (.fail .cudaErrorInvalidDevice, s)
    | some vdev => (.code .cudaSuccess (.properties (deviceProp vdev)), s)

def cudaSetDevice (s : RuntimeState) (device : Int32) : Reply × RuntimeState :=
  if device < 0 ∨ asUsize device ≥ s.virtualDevices.length then (.fail .cudaErrorInvalidDevice, s)
  else (.succeed, s)

/-- Always device 0. -/
def cudaGetDevice (s : RuntimeState) (deviceNull : Bool) : Reply × RuntimeState :=
  if deviceNull then (.fail .cudaErrorInvalidValue, s) else (.code .cudaSuccess (.int 0), s)

end Devices

section Memory

/-- `answer` is the pointer that `std::alloc::alloc` returns if it is asked. -/
def cudaMalloc (s : RuntimeState) (devPtrNull : Bool) (size answer : UInt64) :
    Reply × RuntimeState :=
  if devPtrNull ∨ size = 0 then (.fail .cudaErrorInvalidValue, s)
  else
    match fromSizeAlign size 256 with
    | none => (.fail .cudaErrorMemoryAllocation, s)
    | some _ =>
      if answer = 0 then (.fail .cudaErrorMemoryAllocation, s)
      else
        (.code .cudaSuccess (.pointer answer),
          { s with allocTable := s.allocTable.insert answer ⟨answer, size, 0, false⟩ })

def cudaFree (s : RuntimeState) (devPtr : UInt64) : Reply × RuntimeState :=
  if devPtr = 0 then (.succeed, s)
  else
    match s.allocTable.lookup devPtr with
    | some entry =>
      match fromSizeAlign entry.size 256 with
      | some _ => (.succeed, { s with allocTable := s.allocTable.erase devPtr })
      | none =>
        (.panicked "Allocation layout must be valid",
          { s with allocTable := s.allocTable.erase devPtr })
    | none => (.fail .cudaErrorInvalidValue, s)

def cudaMemcpy (s : RuntimeState) (dst src _count : UInt64) (_kind : CudaMemcpyKind) :
    Reply × RuntimeState :=
  if dst = 0 ∨ src = 0 then (.fail .cudaErrorInvalidValue, s) else (.succeed, s)

def cudaMemcpyAsync (s : RuntimeState) (dst src count : UInt64) (kind : CudaMemcpyKind)
    (_stream : UInt64) : Reply × RuntimeState :=
  cudaMemcpy s dst src count kind

def cudaMemset (s : RuntimeState) (devPtr : UInt64) (_value : Int32) (_count : UInt64) :
    Reply × RuntimeState :=
  if devPtr = 0 then (.fail .cudaErrorInvalidValue, s) else (.succeed, s)

end Memory

section Streams

/-- The two accesses of a creation, without another call between them. -/
def cudaStreamCreate (s : RuntimeState) (pStreamNull : Bool) : Reply × RuntimeState :=
  if pStreamNull then (.fail .cudaErrorInvalidValue, s)
  else
    let handle := s.streamTable.counter
    let taken := (StreamTable.cudaStreamCreate s.streamTable false).2
    (.code .cudaSuccess (.pointer handle), { s with streamTable := (insertStream taken handle).2 })

def cudaStreamDestroy (s : RuntimeState) (stream : UInt64) : Reply × RuntimeState :=
  (.succeed, { s with streamTable := (StreamTable.cudaStreamDestroy s.streamTable stream).2 })

def cudaStreamSynchronize (s : RuntimeState) (stream : UInt64) : Reply × RuntimeState :=
  (.succeed, { s with streamTable := (StreamTable.cudaStreamSynchronize s.streamTable stream).2 })

def cudaLaunchKernel (s : RuntimeState) (func : UInt64) (gridDim blockDim : Dim3)
    (sharedMem stream : UInt64) : Reply × RuntimeState :=
  (.succeed, { s with streamTable :=
    (StreamTable.cudaLaunchKernel s.streamTable func gridDim blockDim sharedMem stream).2 })

end Streams

section Errors

/-- `LAST_ERROR.replace(cudaSuccess)` -/
def cudaGetLastError (s : RuntimeState) : Reply × RuntimeState :=
  (.fail s.lastError, { s with lastError := .cudaSuccess })

def cudaGetErrorString : CudaError → String
  | .cudaSuccess => "cudaSuccess"
  | .cudaErrorInvalidValue => "invalid argument"
  | .cudaErrorMemoryAllocation => "device-side assert triggered / out of memory"
  | .cudaErrorInvalidDevice => "invalid device ordinal"
  | _ => "unknown error"

def cudaGetErrorName : CudaError → String
  | .cudaSuccess => "cudaSuccess"
  | .cudaErrorInvalidValue => "cudaErrorInvalidValue"
  | .cudaErrorMemoryAllocation => "cudaErrorMemoryAllocation"
  | _ => "cudaErrorUnknown"

def cudaRuntimeGetVersion (s : RuntimeState) (versionNull : Bool) : Reply × RuntimeState :=
  if versionNull then (.fail .cudaErrorInvalidValue, s)
  else (.code .cudaSuccess (.int 12040), s)

end Errors

inductive RuntimeCall where
  | getDeviceCount (countNull : Bool)
  | getDeviceProperties (propNull : Bool) (device : Int32)
  | setDevice (device : Int32)
  | getDevice (deviceNull : Bool)
  | malloc (devPtrNull : Bool) (size answer : UInt64)
  | free (devPtr : UInt64)
  | memcpy (dst src count : UInt64) (kind : CudaMemcpyKind)
  | memcpyAsync (dst src count : UInt64) (kind : CudaMemcpyKind) (stream : UInt64)
  | memset (devPtr : UInt64) (value : Int32) (count : UInt64)
  | streamCreate (pStreamNull : Bool)
  | streamDestroy (stream : UInt64)
  | streamSynchronize (stream : UInt64)
  | launchKernel (func : UInt64) (gridDim blockDim : Dim3) (sharedMem stream : UInt64)
  | getLastError
  | getErrorString (error : CudaError)
  | getErrorName (error : CudaError)
  | deviceSynchronize
  | runtimeGetVersion (versionNull : Bool)
  deriving DecidableEq

def runtimeStep (s : RuntimeState) : RuntimeCall → Reply × RuntimeState
  | .getDeviceCount null => cudaGetDeviceCount s null
  | .getDeviceProperties null device => cudaGetDeviceProperties s null device
  | .setDevice device => cudaSetDevice s device
  | .getDevice null => cudaGetDevice s null
  | .malloc null size answer => cudaMalloc s null size answer
  | .free devPtr => cudaFree s devPtr
  | .memcpy dst src count kind => cudaMemcpy s dst src count kind
  | .memcpyAsync dst src count kind stream => cudaMemcpyAsync s dst src count kind stream
  | .memset devPtr value count => cudaMemset s devPtr value count
  | .streamCreate null => cudaStreamCreate s null
  | .streamDestroy stream => cudaStreamDestroy s stream
  | .streamSynchronize stream => cudaStreamSynchronize s stream
  | .launchKernel f g b m stream => cudaLaunchKernel s f g b m stream
  | .getLastError => cudaGetLastError s
  | .getErrorString error => (.text (cudaGetErrorString error), s)
  | .getErrorName error => (.text (cudaGetErrorName error), s)
  | .deviceSynchronize => (.succeed, s)
  | .runtimeGetVersion null => cudaRuntimeGetVersion s null

def runtime : Machine RuntimeState RuntimeCall Reply := ⟨.new, runtimeStep⟩

/-- The arguments, and what the tables and the heap say to them, that make a call fail. -/
def Faulty (s : RuntimeState) : RuntimeCall → Prop
  | .getDeviceCount null => null
  | .getDeviceProperties null device => null ∨ asUsize device ≥ s.virtualDevices.length
  | .setDevice device => device < 0 ∨ asUsize device ≥ s.virtualDevices.length
  | .getDevice null => null
  | .malloc null size answer => null ∨ size = 0 ∨ fromSizeAlign size 256 = none ∨ answer = 0
  | .free devPtr => devPtr ≠ 0 ∧ s.allocTable.lookup devPtr = none
  | .memcpy dst src _ _ => dst = 0 ∨ src = 0
  | .memcpyAsync dst src _ _ _ => dst = 0 ∨ src = 0
  | .memset devPtr _ _ => devPtr = 0
  | .streamCreate null => null
  | .runtimeGetVersion null => null
  | .streamDestroy _ | .streamSynchronize _ | .launchKernel _ _ _ _ _ | .getLastError
  | .getErrorString _ | .getErrorName _ | .deviceSynchronize => False

def returnedError : Reply → Option CudaError
  | .code code _ => if code = .cudaSuccess then none else some code
  | .text _ => none
  | .panicked _ => none

section Failures

variable {s : RuntimeState} {c : RuntimeCall}

/-- Every error exit of every entry point, and nothing else, is a fault of the call. -/
theorem returnedError_iff (hc : c ≠ .getLastError) :
    (returnedError (runtimeStep s c).1).isSome ↔ Faulty s c := by
  cases c with
  | getDeviceCount null =>
    cases null <;> simp [runtimeStep, cudaGetDeviceCount, Faulty, returnedError, Reply.fail]
  | getDeviceProperties null device =>
    cases null with
    | true => simp [runtimeStep, cudaGetDeviceProperties, Faulty, returnedError, Reply.fail]
    | false =>
      simp only [runtimeStep, cudaGetDeviceProperties, Faulty]
      by_cases hd : asUsize device < s.virtualDevices.length
      · simp [returnedError, hd]
      · rw [List.getElem?_eq_none (by omega)]
        simp [returnedError, Reply.fail, not_lt.mp hd]
  | setDevice device =>
    simp only [runtimeStep, cudaSetDevice, Faulty]
    split
    · rename_i hbad
      simp [returnedError, Reply.fail, hbad]
    · rename_i hgood
      simp [returnedError, Reply.succeed, hgood]
  | getDevice null =>
    cases null <;> simp [runtimeStep, cudaGetDevice, Faulty, returnedError, Reply.fail]
  | malloc null size answer =>
    simp only [runtimeStep, cudaMalloc, Faulty]
    by_cases harg : null = true ∨ size = 0
    · rw [if_pos harg]
      have hbad : null = true ∨ size = 0 ∨ fromSizeAlign size 256 = none ∨ answer = 0 := by
        rcases harg with hn | hz
        · exact Or.inl hn
        · exact Or.inr (Or.inl hz)
      simp [returnedError, Reply.fail, hbad]
    · rw [if_neg harg]
      obtain ⟨hn, hz⟩ := not_or.mp harg
      cases hl : fromSizeAlign size 256 with
      | none => simp [returnedError, Reply.fail]
      | some layout => by_cases ha : answer = 0 <;> simp [returnedError, Reply.fail, ha, hn, hz]
  | free devPtr =>
    simp only [runtimeStep, cudaFree, Faulty]
    by_cases h0 : devPtr = 0
    · simp [h0, returnedError, Reply.succeed]
    · cases hl : s.allocTable.lookup devPtr with
      | none => simp [h0, returnedError, Reply.fail]
      | some entry =>
        cases hv : fromSizeAlign entry.size 256 <;> simp [h0, hv, returnedError, Reply.succeed]
  | memcpy dst src count kind =>
    by_cases hz : dst = 0 ∨ src = 0 <;>
      simp [runtimeStep, cudaMemcpy, Faulty, returnedError, Reply.fail, Reply.succeed, hz]
  | memcpyAsync dst src count kind stream =>
    by_cases hz : dst = 0 ∨ src = 0 <;>
      simp [runtimeStep, cudaMemcpyAsync, cudaMemcpy, Faulty, returnedError, Reply.fail,
        Reply.succeed, hz]
  | memset devPtr value count =>
    by_cases hz : devPtr = 0 <;>
      simp [runtimeStep, cudaMemset, Faulty, returnedError, Reply.fail, Reply.succeed, hz]
  | streamCreate null =>
    cases null <;> simp [runtimeStep, cudaStreamCreate, Faulty, returnedError, Reply.fail]
  | streamDestroy stream =>
    simp [runtimeStep, cudaStreamDestroy, Faulty, returnedError, Reply.succeed]
  | streamSynchronize stream =>
    simp [runtimeStep, cudaStreamSynchronize, Faulty, returnedError, Reply.succeed]
  | launchKernel f g b m stream =>
    simp [runtimeStep, cudaLaunchKernel, Faulty, returnedError, Reply.succeed]
  | getLastError => exact absurd rfl hc
  | getErrorString error => simp [runtimeStep, Faulty, returnedError]
  | getErrorName error => simp [runtimeStep, Faulty, returnedError]
  | deviceSynchronize => simp [runtimeStep, Faulty, returnedError, Reply.succeed]
  | runtimeGetVersion null =>
    cases null <;> simp [runtimeStep, cudaRuntimeGetVersion, Faulty, returnedError, Reply.fail]

theorem lastError_untouched (s : RuntimeState) (hc : c ≠ .getLastError) :
    (runtimeStep s c).2.lastError = s.lastError := by
  cases c with
  | getDeviceCount null => cases null <;> rfl
  | getDeviceProperties null device =>
    simp only [runtimeStep, cudaGetDeviceProperties]
    split
    · rfl
    · split <;> rfl
  | setDevice device =>
    simp only [runtimeStep, cudaSetDevice]
    split <;> rfl
  | getDevice null => cases null <;> rfl
  | malloc null size answer =>
    simp only [runtimeStep, cudaMalloc]
    split
    · rfl
    · split
      · rfl
      · split <;> rfl
  | free devPtr =>
    simp only [runtimeStep, cudaFree]
    split
    · rfl
    · split
      · split <;> rfl
      · rfl
  | memcpy dst src count kind =>
    simp only [runtimeStep, cudaMemcpy]
    split <;> rfl
  | memcpyAsync dst src count kind stream =>
    simp only [runtimeStep, cudaMemcpyAsync, cudaMemcpy]
    split <;> rfl
  | memset devPtr value count =>
    simp only [runtimeStep, cudaMemset]
    split <;> rfl
  | streamCreate null => cases null <;> rfl
  | streamDestroy stream => rfl
  | streamSynchronize stream => rfl
  | launchKernel f g b m stream => rfl
  | getLastError => exact absurd rfl hc
  | getErrorString error => rfl
  | getErrorName error => rfl
  | deviceSynchronize => rfl
  | runtimeGetVersion null => cases null <;> rfl

end Failures

section Uninterrupted

/-- A memory call of thread `t` whose accesses no other thread's come between. -/
def wholeCall (m : DeviceState) (t : ℕ) (call : Call) (answer : UInt64) :
    DeviceMemory.Reply × DeviceState :=
  let entered := callStep m t call
  if entered.1 = .running then
    let first := threadStep entered.2 t answer
    if first.1 = .running then threadStep first.2 t answer else first
  else entered

def memoryCode : DeviceMemory.Reply → Option CudaError
  | .returned (.runtime code) => some code
  | .allocated (.runtime code) _ _ => some code
  | .deallocated (.runtime code) _ _ => some code
  | _ => none

def Reply.returned : Reply → Option CudaError
  | .code error _ => some error
  | _ => none

variable {s : RuntimeState} {m : DeviceState} {t : ℕ}

theorem threadStep_invalid {api : Api} {addr answer : UInt64} {entry : AllocEntry}
    (hp : m.phase t = .releasing api addr entry) (hv : fromSizeAlign entry.size 256 = none) :
    threadStep m t answer = (.panicked "Allocation layout must be valid", m.park t .idle) := by
  simp only [threadStep, hp, hv]

/-- Run without interruption, the steps of an allocation are the call as a whole. -/
theorem cudaMalloc_whole (idle : m.phase t = .idle) (same : s.allocTable = m.table)
    (null : Bool) (size answer : UInt64) :
    memoryCode (wholeCall m t (.malloc .runtime null size) answer).1 =
      (cudaMalloc s null size answer).1.returned ∧
    (wholeCall m t (.malloc .runtime null size) answer).2.table =
      (cudaMalloc s null size answer).2.allocTable := by
  simp only [wholeCall, callStep_idle _ idle, enter, DeviceMemory.cudaMalloc, cudaMalloc]
  by_cases harg : null = true ∨ size = 0
  · simp [harg, memoryCode, mallocCode, Reply.fail, Reply.returned, same]
  · cases hl : fromSizeAlign size 256 with
    | none => simp [harg, memoryCode, mallocCode, Reply.fail, Reply.returned, same]
    | some layout =>
      have hp := park_self (s := m) (t := t) (.allocating .runtime size layout)
      by_cases ha : answer = 0
      · subst ha
        have hfirst := threadStep_refused hp rfl
        simp [harg, hfirst, memoryCode, mallocCode, Reply.fail, Reply.returned, same]
      · have hfirst := threadStep_granted hp ha
        simp [harg, hfirst, threadStep_registered (park_self _), memoryCode, mallocCode, ha,
          Reply.returned, same]

theorem cudaFree_whole (idle : m.phase t = .idle) (same : s.allocTable = m.table)
    (devPtr answer : UInt64) :
    memoryCode (wholeCall m t (.free .runtime devPtr) answer).1 =
      (cudaFree s devPtr).1.returned ∧
    (wholeCall m t (.free .runtime devPtr) answer).2.table = (cudaFree s devPtr).2.allocTable := by
  simp only [wholeCall, callStep_idle _ idle, enter, DeviceMemory.cudaFree, cudaFree]
  by_cases h0 : devPtr = 0
  · simp [h0, memoryCode, freeCode, Reply.succeed, Reply.returned, same]
  · have hp := park_self (s := m) (t := t) (.removing .runtime devPtr)
    cases hl : m.table.lookup devPtr with
    | none =>
      simp [h0, threadStep_unknown hp hl, hl, memoryCode, freeCode, Reply.fail, Reply.returned,
        same]
    | some entry =>
      have hfirst : threadStep _ t answer = _ := threadStep_removed hp hl
      cases hv : fromSizeAlign entry.size 256 with
      | none =>
        simp [h0, hfirst, threadStep_invalid (park_self _) hv, hl, hv, memoryCode, Reply.returned,
          same]
      | some layout =>
        simp [h0, hfirst, threadStep_released (park_self _) hv, hl, hv, memoryCode, freeCode,
          Reply.succeed, Reply.returned, same]

end Uninterrupted

end RuntimeApi
