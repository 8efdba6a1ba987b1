import OmniCompute.RustValues

/-! What the runtime and the driver interface of the shim share: their return codes and the
records of its two global tables. -/
namespace CudaShim

inductive CudaError where
  | cudaSuccess
  | cudaErrorInvalidValue
  | cudaErrorMemoryAllocation
  | cudaErrorInitializationError
  | cudaErrorInvalidDevice
  | cudaErrorInvalidMemcpyDirection
  | cudaErrorNoDevice
  | cudaErrorNotReady
  | cudaErrorUnknown
  deriving DecidableEq, Repr

inductive CuResult where
  | cudaSuccess
  | cudaErrorInvalidValue
  | cudaErrorOutOfMemory
  | cudaErrorNotInitialized
  | cudaErrorInvalidContext
  | cudaErrorInvalidModule
  | cudaErrorInvalidImage
  | cudaErrorNotFound
  | cudaErrorInvalidHandle
  | cudaErrorNoDevice
  | cudaErrorUnknown
  deriving DecidableEq, Repr

abbrev Dim3 := UInt32 × UInt32 × UInt32

structure KernelLaunch where
  kernelId : UInt64
  gridDim : Dim3
  blockDim : Dim3
  sharedMemBytes : UInt32
  args : List UInt8
  deriving DecidableEq

structure StreamContext where
  handle : UInt64
  deviceIndex : Int32
  synchronized : Bool
  pendingKernels : List KernelLaunch
  deriving DecidableEq

structure AllocEntry where
  virtualPtr : UInt64
  size : UInt64
  deviceIndex : Int32
  pinned : Bool
  deriving DecidableEq

end CudaShim
