import OmniCompute.DigestMemo
import OmniCompute.JitEngine

/-! The kernel cache over whole histories of one engine. An entry is kept under a 64-bit hash
of bytes and id, and neither is kept with it. -/
namespace KernelCache

open RustValues PassManager Codegen IrLifter JitEngine EventRuns DigestMemo

/-- `ask (ptx, kernelId)` is `compile_ptx`, `clear` is `clear_cache`. -/
abbrev Call := Request (List UInt8 × UInt64)

def perform (engine : Engine) : Call → Option (Result GeneratedKernel) × Engine
  | .ask (ptx, kernelId) =>
    (some (engine.compilePtx ptx kernelId).1, (engine.compilePtx ptx kernelId).2)
  | .clear => (none, engine.clearCache)

def history (hardware : HardwareProfile) :
    Machine Engine Call (Option (Result GeneratedKernel)) :=
  ⟨.new hardware, perform⟩

def kernels (hardware : HardwareProfile) :
    Memo (List UInt8 × UInt64) UInt64 GeneratedKernel Failure :=
  ⟨fun arg => hashPtx arg.1 arg.2, fun arg => pipeline hardware arg.1 arg.2⟩

def compiledFrom (hardware : HardwareProfile) (calls : List Call) (i : ℕ) :
    UInt64 → Option (List UInt8 × UInt64) :=
  (kernels hardware).owners.stateAt calls i

/-- Every call returns what a fresh engine returns, and a hit returns a kernel that was compiled
from the bytes it is asked for. -/
structure CacheTransparent (hardware : HardwareProfile) (calls : List Call) : Prop where
  fresh : ∀ j ptx kernelId, calls[j]? = some (.ask (ptx, kernelId)) →
    (history hardware).outputAt calls j =
      some (some ((Engine.new hardware).compilePtx ptx kernelId).1)
  hits : ∀ j ptx kernelId origin, calls[j]? = some (.ask (ptx, kernelId)) →
    compiledFrom hardware calls j (hashPtx ptx kernelId) = some origin → origin.1 = ptx

/-- Two calls with one hash and no `clear_cache` between them have the same bytes, where the
first one leaves a kernel behind. -/
def NoCollision (calls : List Call) : Prop :=
  ∀ (i j : ℕ) (ptx ptx' : List UInt8) (kernelId kernelId' : UInt64), i < j →
    calls[i]? = some (.ask (ptx, kernelId)) → calls[j]? = some (.ask (ptx', kernelId')) →
    (∀ k, i < k → k < j → calls[k]? ≠ some .clear) →
    hashPtx ptx kernelId = hashPtx ptx' kernelId' → compilable ptx = true → ptx = ptx'

section Simulation

variable {hardware : HardwareProfile}

theorem perform_step (table : Table UInt64 GeneratedKernel) (call : Call) :
    perform ⟨hardware, table⟩ call =
      (((kernels hardware).step table call).1,
        ⟨hardware, ((kernels hardware).step table call).2⟩) := by
  cases call with
  | clear => rfl
  | ask arg =>
    obtain ⟨ptx, kernelId⟩ := arg
    simp only [perform, Memo.step, Memo.ask, Engine.compilePtx, kernels]
    cases table.lookup (hashPtx ptx kernelId) with
    | some cached => rfl
    | none => cases pipeline hardware ptx kernelId <;> rfl

variable (calls : List Call)

theorem history_at (i : ℕ) :
    (history hardware).stateAt calls i =
      ⟨hardware, (kernels hardware).machine.stateAt calls i⟩ := by
  refine stateAt_related (history hardware) (kernels hardware).machine calls
    (R := fun engine table => engine = ⟨hardware, table⟩) rfl ?_ i
  intro engine table call h
  subst h
  exact congrArg Prod.snd (perform_step table call)

theorem history_output (i : ℕ) :
    (history hardware).outputAt calls i = (kernels hardware).machine.outputAt calls i := by
  rw [Machine.outputAt, Machine.outputAt, history_at]
  congr 1
  funext call
  exact congrArg Prod.fst (perform_step _ call)

end Simulation

section Collisions

variable {hardware : HardwareProfile} {calls : List Call}

theorem pipeline_ok_iff (ptx : List UInt8) (kernelId : UInt64) :
    (∃ kernel, pipeline hardware ptx kernelId = .ok kernel) ↔ compilable ptx = true := by
  rw [pipeline_eq]
  cases compilable ptx <;> simp

theorem pipeline_id (ptx : List UInt8) (kernelId kernelId' : UInt64) :
    pipeline hardware ptx kernelId = pipeline hardware ptx kernelId' := by
  rw [pipeline_eq, pipeline_eq]

theorem noClash_iff : NoClash (kernels hardware) Prod.fst calls ↔ NoCollision calls := by
  constructor
  · intro h i j ptx ptx' kernelId kernelId' hij hi hj huncleared hhash hc
    exact h i j (ptx, kernelId) (ptx', kernelId') hij hi hj huncleared hhash
      ((pipeline_ok_iff ptx kernelId).mpr hc)
  · intro h i j arg other hij hi hj huncleared hhash hc
    exact h i j arg.1 other.1 arg.2 other.2 hij hi hj huncleared hhash
      ((pipeline_ok_iff arg.1 arg.2).mp hc)

theorem transparent_iff :
    CacheTransparent hardware calls ↔ Transparent (kernels hardware) Prod.fst calls := by
  constructor
  · intro h
    refine ⟨?_, ?_⟩
    · intro j arg hj
      rw [← history_output, h.fresh j arg.1 arg.2 hj, compilePtx_new]
      rfl
    · intro j arg origin hj horigin
      exact h.hits j arg.1 arg.2 origin hj horigin
  · intro h
    refine ⟨?_, ?_⟩
    · intro j ptx kernelId hj
      rw [history_output, h.answers j _ hj, compilePtx_new]
      rfl
    · intro j ptx kernelId origin hj horigin
      exact h.sources j (ptx, kernelId) origin hj horigin

theorem noCollision_of_transparent (h : CacheTransparent hardware calls) : NoCollision calls :=
  noClash_iff.mp (transparent_iff.mp h).noClash

end Collisions

/-- The cache is transparent exactly in the histories without a collision. -/
theorem cache_transparent_iff (hardware : HardwareProfile) (calls : List Call) :
    CacheTransparent hardware calls ↔ NoCollision calls := by
  constructor
  · exact noCollision_of_transparent
  · intro h
    apply transparent_iff.mpr
    apply (noClash_iff.mpr h).transparent
    rintro ⟨ptx, kernelId⟩ ⟨ptx', kernelId'⟩ rfl
    exact pipeline_id ptx kernelId kernelId'

section Forgery

/-- A product, and an empty text under the id that makes up for the missing bytes. -/
def forged : List Call :=
  [.ask (ascii "wmma", 0),
    .ask ([], hashPtx (ascii "wmma") 0 ^^^ 0xcbf29ce484222325 * 0x00000100000001b3)]

theorem forged_hit : ¬ CacheTransparent ⟨.vulkanGeneric "gpu" 1024⟩ forged := by
  intro h
  have hsame := noCollision_of_transparent h 0 1 (ascii "wmma") [] 0 _ (by decide) rfl rfl
    (fun k hk hk' => absurd hk' (by omega)) (by decide) (by decide)
  exact absurd hsame (by decide)

end Forgery

end KernelCache
