import OmniCompute.CompiledKernels
import OmniCompute.SlidingPager

/-! The runtime as it starts: the probe of the host, in its order of priority, and the engine,
the allocator and the pager that are set up for what it finds. -/
namespace OmniRuntime

open RustValues PassManager Codegen JitEngine IrLifter CompiledKernels SlidingPager

inductive TargetOs where
  | linux
  | macos
  | windows
  | other
  deriving DecidableEq

inductive OperatingSystem where
  | linux
  | macOs
  | windows
  deriving DecidableEq

def OperatingSystem.current : TargetOs → OperatingSystem
  | .linux => .linux
  | .macos => .macOs
  | .windows => .windows
  | .other => .linux

/-- What the probe reads: the target it was built for, one path, one variable, and the number of
hardware threads where the system tells it. -/
structure Host where
  os : TargetOs
  aarch64 : Bool
  avx2 : Bool
  avx512f : Bool
  kfdExists : Bool
  forceBackend : Option String
  parallelism : Option ℕ

/-- The rates and feature flags are left out: no other part of the runtime reads them. -/
structure DetectedProfile extends HardwareProfile where
  vramBytes : UInt64
  l2CacheBytes : UInt64
  os : OperatingSystem

section Probe

variable (host : Host)

def tryDetectAmd : Option DetectedProfile :=
  if host.forceBackend = some "amd" then
    some ⟨⟨.amdRocm "gfx1100" 32 96⟩, 24 * 1024 * 1024 * 1024, 6 * 1024 * 1024, .current host.os⟩
  else if host.os = .linux ∧ host.kfdExists then
    some ⟨⟨.amdRocm "gfx906" 64 60⟩, 16 * 1024 * 1024 * 1024, 4 * 1024 * 1024, .linux⟩
  else none

def tryDetectAppleMetal : Option DetectedProfile :=
  if host.os = .macos ∧ host.aarch64 then
    some ⟨⟨.appleMetal "Apple Silicon" (24 * 1024 * 1024 * 1024) 30⟩, 24 * 1024 * 1024 * 1024,
      24 * 1024 * 1024, .macOs⟩
  else if host.forceBackend = some "metal" then
    some ⟨⟨.appleMetal "Apple M3 Max (simulated)" (96 * 1024 * 1024 * 1024) 40⟩,
      96 * 1024 * 1024 * 1024, 48 * 1024 * 1024, .current host.os⟩
  else none

def tryDetectVulkan : Option DetectedProfile :=
  if host.forceBackend = some "vulkan" then
    some ⟨⟨.vulkanGeneric "Vulkan Device (simulated)" 1024⟩, 8 * 1024 * 1024 * 1024,
      2 * 1024 * 1024, .current host.os⟩
  else none

/-- Of the bindings that the target's features leave in, the last one counts. -/
def simdWidth : UInt32 :=
  if host.aarch64 ∧ ¬ host.avx2 then 128
  else if host.avx2 ∧ ¬ host.avx512f then 256
  else if host.avx512f then 512
  else 128

def cpuFallback : DetectedProfile :=
  ⟨⟨.cpuVectorized ((host.parallelism.map UInt32.ofNat).getD 4) (simdWidth host)⟩,
    8 * 1024 * 1024 * 1024, 1024 * 1024, .current host.os⟩

def probe : DetectedProfile :=
  (((tryDetectAmd host).or (tryDetectAppleMetal host)).or (tryDetectVulkan host)).getD
    (cpuFallback host)

end Probe

/-- The allocator's capacity is that of the device; the worker of the pager shares it. -/
structure Runtime where
  jit : Engine
  capacityBytes : UInt64
  pager : PagerState
  hardware : DetectedProfile

def init (host : Host) : Runtime :=
  let hardware := probe host
  ⟨.new hardware.toHardwareProfile, hardware.vramBytes, .new, hardware⟩

/-- The source of a kernel that the fresh runtime compiles is that of a correct product. -/
def CompilesProducts (runtime : Runtime) : Prop :=
  ∀ ptx kernelId kernel, mentionsProduct ptx = true →
    (runtime.jit.compilePtx ptx kernelId).1 = .ok kernel →
    ∃ k, kernelSource (backEnd runtime.jit.hardware.targetBackend).dialect
        runtime.jit.hardware ptx = .matMul k ∧
      kernel = (backEnd runtime.jit.hardware.targetBackend).dialect.single 0 (.matMul k) ∧
      Multiplies (backEnd runtime.jit.hardware.targetBackend) k

section Choice

variable {host : Host}

/-- A device that the probe finds by itself, and prefers to what it is told. -/
def Shadowed (host : Host) : Prop :=
  host.os = .linux ∧ host.kfdExists ∨ host.os = .macos ∧ host.aarch64

theorem probe_vulkan_iff : IsVulkan (probe host).toHardwareProfile ↔
    host.forceBackend = some "vulkan" ∧ ¬ Shadowed host := by
  simp only [IsVulkan, probe, Shadowed]
  constructor
  · rintro ⟨name, invocations, h⟩
    simp only [tryDetectAmd, tryDetectAppleMetal, tryDetectVulkan, cpuFallback] at h
    split_ifs at h <;> simp_all
  · rintro ⟨hforced, hfree⟩
    obtain ⟨hlinux, hmac⟩ := not_or.1 hfree
    refine ⟨"Vulkan Device (simulated)", 1024, ?_⟩
    rw [tryDetectAmd, tryDetectAppleMetal, tryDetectVulkan, hforced, if_neg (by decide),
      if_neg hlinux, if_neg hmac, if_neg (by decide), if_pos rfl]
    rfl

theorem kernelSource_product {ptx : List UInt8} (h : mentionsProduct ptx = true)
    (hardware : HardwareProfile) :
    kernelSource (backEnd hardware.targetBackend).dialect hardware ptx =
      .matMul (template hardware) :=
  if_pos h

/-- The text that the benchmark command compiles. -/
def fakePtx : List UInt8 :=
  ".version 8.0\n.target sm_90\n mma.sync.aligned.m16n8k16 ".toUTF8.toList

theorem pipeline_product {ptx : List UInt8} (h : mentionsProduct ptx = true)
    (hardware : HardwareProfile) (kernelId : UInt64) : pipeline hardware ptx kernelId =
      .ok ((backEnd hardware.targetBackend).dialect.single 0 (.matMul (template hardware))) := by
  have hcompilable : compilable ptx = true := by rw [compilable, h, Bool.true_or]
  rw [pipeline_eq, if_pos hcompilable, kernelSource_product h]

end Choice

/-- From the environment to the product: on no other host do compiled products come out right. -/
theorem compiles_products_iff (host : Host) : CompilesProducts (init host) ↔
    host.forceBackend = some "vulkan" ∧ ¬ Shadowed host := by
  rw [← probe_vulkan_iff, ← multiplies_iff]
  constructor
  · intro h
    have hfake : mentionsProduct fakePtx = true := by decide +kernel
    obtain ⟨k, hk, -, hmultiplies⟩ := h fakePtx 0xAAFF _ hfake
      ((compilePtx_new _ _ _).trans (pipeline_product hfake _ _))
    have hsame : KernelSource.matMul (template (probe host).toHardwareProfile) = .matMul k :=
      (kernelSource_product hfake _).symm.trans hk
    rwa [KernelSource.matMul.inj hsame]
  · intro h ptx kernelId kernel hproduct hcompile
    have hkernel := (compilePtx_new _ _ _).symm.trans hcompile
    rw [pipeline_product hproduct, Except.ok.injEq] at hkernel
    exact ⟨_, kernelSource_product hproduct _, hkernel.symm, h⟩

end OmniRuntime
