import OmniCompute.RunLogs
import OmniCompute.RuntimeApi

/-! The active device of each thread, over all interleavings of the threads of a process. Every
call runs to its end. `cudaSetDevice` leaves a note that the selection is tracked in the
interceptor, whose cell it does not write. -/
namespace DeviceSelection

open RustValues EventRuns RunLogs CudaShim RuntimeApi

/-- `lastError` and `currentDevice` are thread-local. -/
structure ProcessState where
  shared : RuntimeState
  lastError : ℕ → CudaError
  currentDevice : ℕ → Int32

def ProcessState.new (devices : List VirtualDevice) : ProcessState :=
  ⟨{ RuntimeState.new with virtualDevices := devices }, fun _ => .cudaSuccess, fun _ => 0⟩

inductive Action where
  | call (call : RuntimeCall)
  | setCurrentDevice (index : Int32)
  | currentDevice

structure Event where
  thread : ℕ
  action : Action

inductive Answer where
  | reply (reply : Reply)
  | device (index : Int32)
  | done

def ProcessState.view (s : ProcessState) (t : ℕ) : RuntimeState :=
  { s.shared with lastError := s.lastError t }

def processStep (s : ProcessState) (e : Event) : Answer × ProcessState :=
  match e.action with
  | .call call =>
    let after := runtimeStep (s.view e.thread) call
    (.reply after.1, { s with
      shared := after.2
      lastError := Function.update s.lastError e.thread after.2.lastError })
  | .setCurrentDevice index =>
    (.done, { s with currentDevice := Function.update s.currentDevice e.thread index })
  | .currentDevice => (.device (s.currentDevice e.thread), s)

def process (devices : List VirtualDevice) : Machine ProcessState Event Answer :=
  ⟨.new devices, processStep⟩

def Valid (devices : List VirtualDevice) (device : Int32) : Prop :=
  0 ≤ device.toInt ∧ device.toInt < devices.length

instance (devices : List VirtualDevice) (device : Int32) : Decidable (Valid devices device) :=
  inferInstanceAs (Decidable (_ ∧ _))

def selects (devices : List VirtualDevice) (_s : ProcessState) (e : Event) :
    Option (ℕ × Int32) :=
  match e.action with
  | .call (.setDevice device) => if Valid devices device then some (e.thread, device) else none
  | _ => none

def selected (devices : List VirtualDevice) (events : List Event) (i : ℕ) (t : ℕ) : Int32 :=
  (lastWritten (process devices) (selects devices) events i t).getD 0

def written (_s : ProcessState) (e : Event) : Option (ℕ × Int32) :=
  match e.action with
  | .setCurrentDevice index => some (e.thread, index)
  | _ => none

/-- The devices are selected thread by thread, as CUDA has it. -/
structure SelectsPerThread (devices : List VirtualDevice) : Prop where
  sets : ∀ events i t device, events[i]? = some ⟨t, .call (.setDevice device)⟩ →
    (process devices).outputAt events i =
      some (.reply (if Valid devices device then .succeed else .fail .cudaErrorInvalidDevice))
  gets : ∀ events i t, events[i]? = some ⟨t, .call (.getDevice false)⟩ →
    (process devices).outputAt events i =
      some (.reply (.code .cudaSuccess (.int (selected devices events i t))))

section Steps

variable {s : ProcessState} {e : Event} {devices : List VirtualDevice}

theorem runtimeStep_devices (s : RuntimeState) (c : RuntimeCall) :
    (runtimeStep s c).2.virtualDevices = s.virtualDevices := by
  cases c with
  | getDeviceCount null => cases null <;> rfl
  | getDeviceProperties null device =>
    simp only [runtimeStep, cudaGetDeviceProperties]
    split
    · rfl
    · split <;> rfl
  | setDevice device =>
    simp only [runtimeStep, cudaSetDevice]
    split <;> rfl
  | getDevice null => cases null <;> rfl
  | malloc null size answer =>
    simp only [runtimeStep, cudaMalloc]
    split
    · rfl
    · split
      · rfl
      · split <;> rfl
  | free devPtr =>
    simp only [runtimeStep, cudaFree]
    split
    · rfl
    · split
      · split <;> rfl
      · rfl
  | memcpy dst src count kind | memcpyAsync dst src count kind stream =>
    simp only [runtimeStep, cudaMemcpyAsync, cudaMemcpy]
    split <;> rfl
  | memset devPtr value count =>
    simp only [runtimeStep, cudaMemset]
    split <;> rfl
  | streamCreate null => cases null <;> rfl
  | runtimeGetVersion null => cases null <;> rfl
  | _ => rfl

theorem toNat_toUInt64 (x : Int64) (h : 0 ≤ x.toInt) : (x.toUInt64.toNat : ℤ) = x.toInt := by
  have hbits : x.toInt = if 2 * x.toUInt64.toNat < 2 ^ 64 then (x.toUInt64.toNat : ℤ)
      else x.toUInt64.toNat - (2 ^ 64 : ℕ) := BitVec.toInt_eq_toNat_cond _
  have hlt := x.toUInt64.toNat_lt
  split at hbits <;> omega

theorem setDevice_reply (s : RuntimeState) (device : Int32) :
    (runtimeStep s (.setDevice device)).1 =
      if Valid s.virtualDevices device then .succeed else .fail .cudaErrorInvalidDevice := by
  simp only [runtimeStep, cudaSetDevice]
  by_cases hneg : device < 0
  · have hinvalid : ¬ Valid s.virtualDevices device := fun h => by
      have := Int32.lt_iff_toInt_lt.1 hneg
      exact absurd h.1 (not_le.2 this)
    rw [if_pos (.inl hneg), if_neg hinvalid]
  · have hpos : 0 ≤ device.toInt := not_lt.1 fun h => hneg (Int32.lt_iff_toInt_lt.2 h)
    have hindex : (asUsize device : ℤ) = device.toInt := by
      rw [asUsize, toNat_toUInt64 _ (by rwa [Int32.toInt_toInt64]), Int32.toInt_toInt64]
    have hvalid : Valid s.virtualDevices device ↔
        ¬ (device < 0 ∨ asUsize device ≥ s.virtualDevices.length) := by
      simp only [Valid, hpos, hneg, true_and, false_or, ge_iff_le, not_le]
      omega
    by_cases hv : Valid s.virtualDevices device
    · rw [if_pos hv, if_neg (hvalid.1 hv)]
    · rw [if_neg hv, if_pos (not_not.1 fun h => hv (hvalid.2 h))]

end Steps

section Runs

variable {devices : List VirtualDevice} {events : List Event}

theorem devices_at (i : ℕ) :
    ((process devices).stateAt events i).shared.virtualDevices = devices := by
  refine stable_between (process devices) events (fun s => s.shared.virtualDevices = devices)
    (Nat.zero_le i) rfl fun k e _ _ _ h => ?_
  obtain ⟨t, call | index | _⟩ := e
  · exact (runtimeStep_devices _ call).trans h
  · exact h
  · exact h

theorem sets_valid {i t : ℕ} {device : Int32}
    (he : events[i]? = some ⟨t, .call (.setDevice device)⟩) :
    (process devices).outputAt events i =
      some (.reply (if Valid devices device then .succeed else .fail .cudaErrorInvalidDevice)) := by
  rw [outputAt_eq _ he]
  change some (Answer.reply (runtimeStep _ (.setDevice device)).1) = _
  rw [setDevice_reply]
  change some (Answer.reply (if Valid (ProcessState.shared _).virtualDevices device then _
    else _)) = _
  rw [devices_at]

theorem selects_zero (h : devices.length ≤ 1) {s : ProcessState} {e : Event} {t : ℕ} {d : Int32}
    (hs : selects devices s e = some (t, d)) : d = 0 := by
  obtain ⟨u, ⟨call⟩ | _ | _⟩ := e
  · cases call with
    | setDevice device =>
      simp only [selects, Option.ite_none_right_eq_some, Option.some.injEq, Prod.mk.injEq] at hs
      obtain ⟨⟨hlow, hhigh⟩, -, rfl⟩ := hs
      apply Int32.toInt_inj.1
      change device.toInt = 0
      omega
    | _ => cases hs
  all_goals cases hs

theorem selected_zero (h : devices.length ≤ 1) (i t : ℕ) : selected devices events i t = 0 := by
  rw [selected]
  cases hl : lastWritten (process devices) (selects devices) events i t with
  | none => rfl
  | some d =>
    obtain ⟨_, _, _, _, hs⟩ := lastWritten_origin _ hl
    exact selects_zero h hs

theorem currentDevice_at (i t : ℕ) : ((process devices).stateAt events i).currentDevice t =
    (lastWritten (process devices) written events i t).getD 0 := by
  induction i with
  | zero => rfl
  | succ i ih =>
    cases he : events[i]? with
    | none =>
      rw [stateAt_end _ he, ih]
      simp only [lastWritten, he, Option.bind_none]
    | some e =>
      rw [stateAt_succ _ he]
      obtain ⟨u, call | index | _⟩ := e
      · simp only [lastWritten, he, Option.bind_some, written]
        exact ih
      · simp only [lastWritten, he, Option.bind_some, written]
        change Function.update ((process devices).stateAt events i).currentDevice u index t = _
        by_cases ht : t = u
        · subst ht
          simp
        · simp [ht, ih]
      · simp only [lastWritten, he, Option.bind_some, written]
        exact ih

end Runs

/-- The Runtime API selects devices as CUDA does as long as there is no second one to select;
and none of its calls ever reaches the interceptor's cell. -/
theorem selection_iff (devices : List VirtualDevice) :
    (SelectsPerThread devices ↔ devices.length ≤ 1) ∧
    ∀ events i t, ((process devices).stateAt events i).currentDevice t =
      (lastWritten (process devices) written events i t).getD 0 := by
  refine ⟨⟨fun h => ?_, fun h => ?_⟩, fun events => currentDevice_at⟩
  · by_contra hmany
    have hget := h.gets [⟨0, .call (.setDevice 1)⟩, ⟨0, .call (.getDevice false)⟩] 1 0 rfl
    have hvalid : Valid devices 1 := ⟨by decide, by change (1 : ℤ) < _; omega⟩
    have hselected : selected devices
        [⟨0, .call (.setDevice 1)⟩, ⟨0, .call (.getDevice false)⟩] 1 0 = 1 := by
      simp [selected, lastWritten, selects, hvalid]
    rw [hselected] at hget
    cases hget
  · refine ⟨fun events i t device he => sets_valid he, fun events i t he => ?_⟩
    rw [outputAt_eq _ he, selected_zero h]
    rfl

end DeviceSelection
