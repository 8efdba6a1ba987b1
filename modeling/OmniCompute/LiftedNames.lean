import OmniCompute.Compilation
import OmniCompute.RunLogs
import Mathlib.Tactic.Tauto

/-! One lifter for many kernels. Its counter of value names is all it remembers. -/
namespace LiftedNames

open RustValues EventRuns RunLogs OmniDialect PassManager IrLifter JitEngine Compilation

def session : Machine LifterState (List UInt8 × UInt64) (Result (OmniModule ℚ)) :=
  ⟨.new, fun s kernel => liftPtx s kernel.1 kernel.2⟩

def valuesOf : Result (OmniModule ℚ) → List String
  | .ok m => m.ops.flatMap fun op => op.inputs ++ [op.output]
  | .error _ => []

def namesAt (kernels : List (List UInt8 × UInt64)) (i : ℕ) : List String :=
  gathered session (fun s kernel => valuesOf (liftPtx s kernel.1 kernel.2).1) kernels i

section Names

variable {m n : UInt64} {kernels : List (List UInt8 × UInt64)}

def valueName (n : UInt64) : String := "v" ++ toString n

theorem valueName_injective : Function.Injective valueName := by
  intro m n h
  have hdigits : Nat.repr m.toNat = Nat.repr n.toNat := (String.append_right_inj _).1 h
  have hlists := congrArg String.toList hdigits
  simp only [Nat.repr, String.toList_ofList] at hlists
  have hnat := congrArg (fun ds => Nat.ofDigitChars 10 ds 0) hlists
  simp only [Nat.ofDigitChars_toDigits (by decide : 1 < 10) (by decide : 10 ≤ 10)] at hnat
  exact UInt64.toNat_inj.mp hnat

def liftedAt (s : LifterState) (ptx : List UInt8) : OmniOp ℚ :=
  ⟨0, opKind ptx, [valueName s.valueCounter, valueName (s.valueCounter + 1)],
    valueName (s.valueCounter + 1 + 1), ∅, .dynamic 2 .f16⟩

theorem liftPtx_at (s : LifterState) (ptx : List UInt8) (kernelId : UInt64) :
    ∃ m : OmniModule ℚ, liftPtx s ptx kernelId = (.ok m, ⟨s.valueCounter + 1 + 1 + 1⟩) ∧
      m.ops = [liftedAt s ptx] :=
  ⟨_, rfl, rfl⟩

theorem session_at {i : ℕ} (hi : i ≤ kernels.length) :
    session.stateAt kernels i = ⟨UInt64.ofNat (3 * i)⟩ ∧
    namesAt kernels i = (List.range (3 * i)).map fun n => valueName (UInt64.ofNat n) := by
  induction i with
  | zero => exact ⟨rfl, rfl⟩
  | succ i ih =>
    obtain ⟨hstate, hnames⟩ := ih (Nat.le_of_succ_le hi)
    have he : kernels[i]? = some kernels[i] := List.getElem?_eq_getElem hi
    obtain ⟨m, hlift, hops⟩ := liftPtx_at (session.stateAt kernels i) kernels[i].1 kernels[i].2
    have hcount : ∀ k : ℕ, UInt64.ofNat k + 1 = UInt64.ofNat (k + 1) := fun k => by
      rw [UInt64.ofNat_add]
      rfl
    constructor
    · rw [stateAt_succ _ he]
      change (liftPtx (session.stateAt kernels i) kernels[i].1 kernels[i].2 :
        Result (OmniModule ℚ) × _).2 = _
      rw [hlift, hstate, hcount, hcount, hcount]
      rfl
    · rw [namesAt, gathered_succ he, ← namesAt, hnames, hlift, valuesOf, hops, liftedAt, hstate,
        hcount, hcount, show 3 * (i + 1) = 3 * i + 1 + 1 + 1 from rfl, List.range_succ,
        List.range_succ, List.range_succ]
      simp only [List.flatMap_cons, List.flatMap_nil, List.map_append, List.map_cons, List.map_nil,
        List.append_assoc, List.append_nil, List.cons_append, List.nil_append]

theorem names_nodup_iff : (namesAt kernels kernels.length).Nodup ↔
    3 * kernels.length ≤ 2 ^ 64 := by
  rw [(session_at le_rfl).2, List.nodup_map_iff_inj_on List.nodup_range]
  constructor
  · intro h
    by_contra hlong
    have hzero : UInt64.ofNat 0 = UInt64.ofNat (2 ^ 64) := by decide +kernel
    have hwrap := h 0 (List.mem_range.2 (by omega)) (2 ^ 64) (List.mem_range.2 (by omega))
      (congrArg valueName hzero)
    omega
  · intro hshort a ha b hb hab
    have ha' := List.mem_range.1 ha
    have hb' := List.mem_range.1 hb
    have hnat := congrArg UInt64.toNat (valueName_injective hab)
    rwa [UInt64.toNat_ofNat_of_lt' (ha'.trans_le hshort),
      UInt64.toNat_ofNat_of_lt' (hb'.trans_le hshort)] at hnat

end Names

section Kernels

def freshNames (s : LifterState) (x : String) : String :=
  if x = "v0" then valueName s.valueCounter
  else if x = "v1" then valueName (s.valueCounter + 1)
  else valueName (s.valueCounter + 1 + 1)

theorem liftedAt_rename (s : LifterState) (ptx : List UInt8) :
    liftedAt s ptx = rename (freshNames s) (lifted ptx) := by
  simp [liftedAt, lifted, rename, freshNames]

/-- Three names in a row differ even where the counter wraps around. -/
theorem freshNames_injOn (s : LifterState) (ptx : List UInt8) :
    Set.InjOn (freshNames s) (names [(lifted ptx : OmniOp ℚ)]) := by
  have hnames : ∀ x ∈ names [(lifted ptx : OmniOp ℚ)], x = "v0" ∨ x = "v1" ∨ x = "v2" := by
    rintro x ⟨op, hop, hx⟩
    obtain rfl := List.mem_singleton.1 hop
    simp only [lifted, List.mem_cons, List.not_mem_nil, or_false] at hx
    tauto
  have hnext : ∀ c : UInt64, c ≠ c + 1 := by simp
  have hafter : ∀ c : UInt64, c ≠ c + 1 + 1 := by simp [UInt64.add_assoc]
  intro x hx y hy hxy
  rcases hnames x hx with rfl | rfl | rfl <;> rcases hnames y hy with rfl | rfl | rfl <;>
    simp only [freshNames, String.reduceEq, if_true, if_false, valueName_injective.eq_iff] at hxy ⊢
  · exact hnext _ hxy
  · exact hafter _ hxy
  · exact hnext _ hxy.symm
  · exact hnext _ hxy
  · exact hafter _ hxy.symm
  · exact hnext _ hxy.symm

theorem lift_compile (hardware : HardwareProfile) (s : LifterState) (ptx : List UInt8)
    (kernelId : UInt64) :
    ((liftPtx s ptx kernelId).1 : Result (OmniModule ℚ)) >>= compile hardware =
      pipeline hardware ptx kernelId := by
  obtain ⟨m, hlift, hops⟩ := liftPtx_at s ptx kernelId
  obtain ⟨fresh, hfresh, hfreshOps⟩ := @liftPtx_new ℚ ptx kernelId
  rw [pipeline_compile, hlift, hfresh]
  refine compile_rename hardware (σ := freshNames s) ?_ ?_
  · rw [hops, hfreshOps, liftedAt_rename]
    rfl
  · rw [hfreshOps]
    exact freshNames_injOn s ptx

end Kernels

/-- Names of one lifter's values differ until the counter wraps around; but the kernels it leads to
are the same all along, whatever has been lifted before. -/
theorem lifter_reusable (kernels : List (List UInt8 × UInt64)) :
    ((namesAt kernels kernels.length).Nodup ↔ 3 * kernels.length ≤ 2 ^ 64) ∧
    ∀ (hardware : HardwareProfile) (ptx : List UInt8) (kernelId : UInt64),
      ((liftPtx (session.after kernels) ptx kernelId).1 : Result (OmniModule ℚ)) >>=
        compile hardware = pipeline hardware ptx kernelId :=
  ⟨names_nodup_iff, fun hardware => lift_compile hardware _⟩

end LiftedNames
