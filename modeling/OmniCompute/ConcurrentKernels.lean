import OmniCompute.KernelCache
import OmniCompute.SharedMemo

/-! One engine under calls of many threads. `compile_ptx` takes no lock on the cache while it
compiles, so that other calls look up, store and clear in between; `DashMap::clear` goes over
the shards one after the other. -/
namespace ConcurrentKernels

open RustValues PassManager Codegen IrLifter JitEngine EventRuns DigestMemo KernelCache SharedMemo

abbrev EngineState := Shared (List UInt8 × UInt64) UInt64 GeneratedKernel

abbrev EngineEvent := SharedMemo.Event (List UInt8 × UInt64)

/-- `ask` is `compile_ptx`, `clear` is `clear_cache`, `work` is the next access of a thread. -/
def sharedEngine (hardware : HardwareProfile) (shards : Sharding UInt64) :
    Machine EngineState EngineEvent (Reply (List UInt8 × UInt64) GeneratedKernel Failure) :=
  shared (kernels hardware) shards

def freshAnswer (hardware : HardwareProfile) (request : List UInt8 × UInt64) :
    Result GeneratedKernel :=
  ((Engine.new hardware).compilePtx request.1 request.2).1

variable (hardware : HardwareProfile) (shards : Sharding UInt64)

def Calls (events : List EngineEvent) (i t : ℕ) (request : List UInt8 × UInt64) : Prop :=
  events[i]? = some (.ask t request) ∧
    ((sharedEngine hardware shards).stateAt events i).phase t = .idle

def Returns (events : List EngineEvent) (j t : ℕ) (request : List UInt8 × UInt64)
    (result : Result GeneratedKernel) : Prop :=
  ∃ e, events[j]? = some e ∧ e.thread = t ∧
    (sharedEngine hardware shards).outputAt events j = some (.answered request result)

/-- The accesses of one call in a row return what `compile_ptx` does on the same cache, and
leave the cache that it leaves. -/
def WholeCall (s : EngineState) (t : ℕ) (ptx : List UInt8) (kernelId : UInt64) : Prop :=
  .answered (ptx, kernelId) (Engine.compilePtx ⟨hardware, s.table⟩ ptx kernelId).1 ∈
    (wholeAsk (kernels hardware) shards s t (ptx, kernelId)).1 ∧
  (wholeAsk (kernels hardware) shards s t (ptx, kernelId)).2.table =
    (Engine.compilePtx ⟨hardware, s.table⟩ ptx kernelId).2.kernelCache

/-- Every return ends the one call its thread is in. What it returns was compiled for that
call, or successfully for one with the same hash that had been made before; and a call that no
other thread's access comes between is `compile_ptx` on the cache it finds. -/
structure CallsServed (events : List EngineEvent) : Prop where
  callers : ∀ j t request result, Returns hardware shards events j t request result →
    ∃ i ≤ j, Calls hardware shards events i t request ∧
      ∀ m e, i ≤ m → m < j → events[m]? = some e → e.thread = t →
        (sharedEngine hardware shards).outputAt events m = some .running
  sources : ∀ j t request result, Returns hardware shards events j t request result →
    result = freshAnswer hardware request ∨
    ∃ i < j, ∃ u other kernel, Calls hardware shards events i u other ∧
      hashPtx other.1 other.2 = hashPtx request.1 request.2 ∧
      freshAnswer hardware other = .ok kernel ∧ result = .ok kernel
  whole : ∀ i t ptx kernelId, ((sharedEngine hardware shards).stateAt events i).phase t = .idle →
    WholeCall hardware shards ((sharedEngine hardware shards).stateAt events i) t ptx kernelId

def TransparentSchedules (requests : Set (List UInt8 × UInt64)) : Prop :=
  ∀ events, (∀ t request, .ask t request ∈ events → request ∈ requests) →
    ∀ j t request result, Returns hardware shards events j t request result →
      result = freshAnswer hardware request

def CompileAlike (requests : Set (List UInt8 × UInt64)) : Prop :=
  ∀ request ∈ requests, ∀ other ∈ requests,
    hashPtx request.1 request.2 = hashPtx other.1 other.2 → compilable request.1 = true →
      freshAnswer hardware other = freshAnswer hardware request

theorem freshAnswer_eq (request : List UInt8 × UInt64) :
    freshAnswer hardware request = (kernels hardware).compute request :=
  compilePtx_new hardware request.1 request.2

theorem whole_call (s : EngineState) {t : ℕ} (idle : s.phase t = .idle) (ptx : List UInt8)
    (kernelId : UInt64) : WholeCall hardware shards s t ptx kernelId := by
  have hstep := @perform_step hardware s.table (.ask (ptx, kernelId))
  obtain ⟨hreply, hengine⟩ := Prod.mk.inj hstep
  obtain ⟨hanswer, hstate⟩ := wholeAsk_eq (kernels hardware) shards s (ptx, kernelId) idle
  constructor
  · rw [Option.some.inj hreply]
    exact hanswer
  · rw [hstate]
    exact (congrArg Engine.kernelCache hengine).symm

theorem calls_served (events : List EngineEvent) : CallsServed hardware shards events := by
  obtain ⟨hcallers, horigins⟩ := served (kernels hardware) shards events
  constructor
  · exact hcallers
  · intro j t request result h
    rcases horigins j t request result h with hown | ⟨i, hij, u, other, kernel, hc, hd, hk, hr⟩
    · exact .inl (hown.symm.trans (freshAnswer_eq hardware request).symm)
    · exact .inr ⟨i, hij, u, other, kernel, hc, hd, (freshAnswer_eq hardware other).trans hk, hr⟩
  · intro i t ptx kernelId hidle
    exact whole_call hardware shards _ hidle ptx kernelId

/-- The cache can be shared by threads exactly for requests whose hashes tell their kernels
apart. -/
theorem schedules_transparent_iff (requests : Set (List UInt8 × UInt64)) :
    TransparentSchedules hardware shards requests ↔ CompileAlike hardware requests := by
  have hown : TransparentSchedules hardware shards requests ↔
      AnswersOwn (kernels hardware) shards requests := by
    simp only [TransparentSchedules, AnswersOwn, freshAnswer_eq]
    exact Iff.rfl
  rw [hown, answersOwn_iff]
  constructor
  · intro h request hr other ho hhash hc
    obtain ⟨kernel, hk⟩ := (@pipeline_ok_iff hardware request.1 request.2).mpr hc
    rw [freshAnswer_eq, freshAnswer_eq, h request hr other ho hhash kernel hk]
    exact hk.symm
  · intro h request hr other ho hhash kernel hk
    have hc := (@pipeline_ok_iff hardware request.1 request.2).mp ⟨kernel, hk⟩
    rw [← freshAnswer_eq, h request hr other ho hhash hc, freshAnswer_eq, hk]

end ConcurrentKernels
