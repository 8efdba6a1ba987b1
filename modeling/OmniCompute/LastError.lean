import OmniCompute.RuntimeApi

/-! What `cudaGetLastError` reports. The thread's error register is read and reset by it and
written by nothing else, so it can only ever answer success. -/
namespace LastError

open RustValues EventRuns CudaShim RuntimeApi

/-- The error of the most recent failed call since the last `cudaGetLastError`. -/
def lastFailure (calls : List RuntimeCall) : ℕ → CudaError
  | 0 => .cudaSuccess
  | i + 1 =>
    match calls[i]? with
    | none => lastFailure calls i
    | some .getLastError => .cudaSuccess
    | some c =>
      (returnedError (runtimeStep (runtime.stateAt calls i) c).1).getD (lastFailure calls i)

/-- Every `cudaGetLastError` of the run returns that error, and resets the register. -/
def ReportsLastError (calls : List RuntimeCall) : Prop :=
  ∀ i, calls[i]? = some .getLastError →
    runtime.outputAt calls i = some (.code (lastFailure calls i) .nothing) ∧
    (runtime.stateAt calls (i + 1)).lastError = .cudaSuccess

def NeverAskedAfterFault (calls : List RuntimeCall) : Prop :=
  ∀ k i c, k < i → calls[k]? = some c → Faulty (runtime.stateAt calls k) c →
    calls[i]? ≠ some .getLastError

section Runs

variable {calls : List RuntimeCall} {i k : ℕ} {c : RuntimeCall}

theorem lastFailure_reset (h : calls[i]? = some .getLastError) :
    lastFailure calls (i + 1) = .cudaSuccess := by
  simp only [lastFailure, h]

theorem lastFailure_call (h : calls[i]? = some c) (hc : c ≠ .getLastError) :
    lastFailure calls (i + 1) =
      (returnedError (runtimeStep (runtime.stateAt calls i) c).1).getD (lastFailure calls i) := by
  simp only [lastFailure, h]

theorem returnedError_ne {r : Reply} {e : CudaError} (h : returnedError r = some e) :
    e ≠ .cudaSuccess := by
  cases r with
  | code code output =>
    simp only [returnedError] at h
    split at h
    · cases h
    · rename_i hne
      cases h
      exact hne
  | text message => cases h
  | panicked message => cases h

/-- The register starts at success, and only a reset to success ever writes it. -/
theorem register_success (calls : List RuntimeCall) (i : ℕ) :
    (runtime.stateAt calls i).lastError = .cudaSuccess := by
  apply stable_between runtime calls (fun s => s.lastError = .cudaSuccess) (Nat.zero_le i)
  · rfl
  · intro k c _ _ _ h
    by_cases hc : c = .getLastError
    · subst hc
      rfl
    · exact (lastError_untouched _ hc).trans h

theorem answer_success (h : calls[i]? = some .getLastError) :
    runtime.outputAt calls i = some (.code .cudaSuccess .nothing) := by
  rw [outputAt_eq runtime h]
  change some (Reply.fail (runtime.stateAt calls i).lastError) = _
  rw [register_success]
  rfl

theorem not_faulty_getLastError (s : RuntimeState) : ¬ Faulty s .getLastError := fun h => h

theorem lastFailure_quiet
    (h : ∀ k c, k < i → calls[k]? = some c → ¬ Faulty (runtime.stateAt calls k) c) :
    lastFailure calls i = .cudaSuccess := by
  induction i with
  | zero => rfl
  | succ i ih =>
    have hbefore := ih fun k c hk => h k c (Nat.lt_succ_of_lt hk)
    cases hi : calls[i]? with
    | none => simpa only [lastFailure, hi] using hbefore
    | some c =>
      by_cases hc : c = .getLastError
      · subst hc
        exact lastFailure_reset hi
      · have hnone : returnedError (runtimeStep (runtime.stateAt calls i) c).1 = none := by
          rw [← Option.not_isSome_iff_eq_none, returnedError_iff hc]
          exact h i c (Nat.lt_succ_self i) hi
        rw [lastFailure_call hi hc, hnone, hbefore]
        rfl

theorem lastFailure_kept (hk : calls[k]? = some c) (hf : Faulty (runtime.stateAt calls k) c)
    (hki : k < i) (hquiet : ∀ m, k < m → m < i → calls[m]? ≠ some .getLastError) :
    lastFailure calls i ≠ .cudaSuccess := by
  induction i, hki using Nat.le_induction with
  | base =>
    have hc : c ≠ .getLastError := by
      rintro rfl
      exact not_faulty_getLastError _ hf
    obtain ⟨e, he⟩ := Option.isSome_iff_exists.mp ((returnedError_iff hc).mpr hf)
    rw [lastFailure_call hk hc, he]
    exact returnedError_ne he
  | succ i hi ih =>
    have hbefore := ih fun m hkm hm => hquiet m hkm (Nat.lt_succ_of_lt hm)
    cases hci : calls[i]? with
    | none => simpa only [lastFailure, hci] using hbefore
    | some d =>
      have hd : d ≠ .getLastError := by
        rintro rfl
        exact hquiet i hi (Nat.lt_succ_self i) hci
      rw [lastFailure_call hci hd]
      cases hfail : returnedError (runtimeStep (runtime.stateAt calls i) d).1 with
      | none => exact hbefore
      | some e => exact returnedError_ne hfail

end Runs

/-- The last error is reported exactly in runs that never ask for it after a fault. -/
theorem reports_last_error_iff (calls : List RuntimeCall) :
    ReportsLastError calls ↔ NeverAskedAfterFault calls := by
  constructor
  · intro hall k i c hki hk hf hi
    obtain ⟨j, d, hkj, _, hj, rfl, hmin⟩ :=
      first_from calls (fun d => d = .getLastError) (show k + 1 ≤ i from hki) hi rfl
    have hkept := lastFailure_kept (i := j) hk hf hkj fun m hkm hm hcm =>
      hmin m _ hkm hm hcm rfl
    have hout := (hall j hj).1
    rw [answer_success hj] at hout
    have hcode := Option.some.inj hout
    injection hcode with hcode _
    exact hkept hcode.symm
  · intro hall i hi
    have hquiet : lastFailure calls i = .cudaSuccess :=
      lastFailure_quiet fun k c hk hc hf => hall k i c hk hc hf hi
    exact ⟨by rw [answer_success hi, hquiet], register_success calls (i + 1)⟩

theorem failed_free_forgotten : runtime.outputAt [.free 4096, .getLastError] 0 =
      some (.code .cudaErrorInvalidValue .nothing) ∧
    ¬ ReportsLastError [.free 4096, .getLastError] := by
  refine ⟨by decide +kernel, ?_⟩
  intro hall
  obtain ⟨hout, _⟩ := hall 1 rfl
  revert hout
  decide +kernel

end LastError
