import OmniCompute.OmniDialect
import OmniCompute.DuvasAllocator
import OmniCompute.AllocatorSoundness
import OmniCompute.AllocatorAddresses
import OmniCompute.SlidingPager
import OmniCompute.PagerAccounting
import OmniCompute.EvictionOrder
import OmniCompute.ModuleMeaning
import OmniCompute.PassStructure
import OmniCompute.FusedPair
import OmniCompute.ResultPreservation
import OmniCompute.BarrierGroups
import OmniCompute.TiledKernel
import OmniCompute.TiledProduct
import OmniCompute.AmdGpuCodegen
import OmniCompute.MetalCodegen
import OmniCompute.SpirvCodegen
import OmniCompute.MatMulLowering
import OmniCompute.BackEnds
import OmniCompute.FusedLowering
import OmniCompute.IrLifter
import OmniCompute.JitEngine
import OmniCompute.DigestMemo
import OmniCompute.KernelCache
import OmniCompute.EvictionRaces
import OmniCompute.GaussJordan
import OmniCompute.Obfuscator
import OmniCompute.ObfuscatorInverse
import OmniCompute.RestoredProducts
import OmniCompute.TaskRouter
import OmniCompute.Bincode
import OmniCompute.Protocol
import OmniCompute.CudaShim
import OmniCompute.StreamTable
import OmniCompute.DeviceMemory
import OmniCompute.DeviceCustody
import OmniCompute.OmniNode
import OmniCompute.ModuleInvariants
import OmniCompute.Expressions
import OmniCompute.FusionMeaning
import OmniCompute.FusionReadings
import OmniCompute.FusionSums
import OmniCompute.BackwardSweep
import OmniCompute.DeadCode
import OmniCompute.DerivedConstants
import OmniCompute.DeadProducers
import OmniCompute.SharedBounds
import OmniCompute.BatchedLowering
import OmniCompute.LaunchShapes
import OmniCompute.KeywordScan
import OmniCompute.EntryPoints
import OmniCompute.QueuedCommands
import OmniCompute.RequestSafety
import OmniCompute.DominantPivots
import OmniCompute.FirstAttempt
import OmniCompute.WrappedShapes
import OmniCompute.RunningMaximum
import OmniCompute.WorkerChoice
import OmniCompute.LaunchDelivery
import OmniCompute.RuntimeApi
import OmniCompute.LastError
import OmniCompute.ModuleRegistry
import OmniCompute.ControlFlowObfuscator
import OmniCompute.ObfuscatedKernels
import OmniCompute.LosslessFolds
import OmniCompute.KernelHashes
import OmniCompute.TensorSizes
import OmniCompute.FixedTensors
import OmniCompute.LatencyVerdicts
import OmniCompute.ByteRanges
import OmniCompute.ConcurrentKernels
import OmniCompute.DeviceSelection
import OmniCompute.DeviceTransfers
import OmniCompute.DriverInterface
import OmniCompute.FlatKernels
import OmniCompute.MessageForms
import OmniCompute.NodeChannel
import OmniCompute.PassOrder
import OmniCompute.SealedData
import OmniCompute.Compilation
import OmniCompute.CompiledKernels
import OmniCompute.LiftedNames
import OmniCompute.Linearization
import OmniCompute.MemoryCalls
import OmniCompute.OffloadedLayers
import OmniCompute.OmniRuntime
import OmniCompute.SettledModules
import OmniCompute.ErasedDetails
import OmniCompute.KeyRecovery
import OmniCompute.StreamCalls
