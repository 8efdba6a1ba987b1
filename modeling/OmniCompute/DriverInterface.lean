import OmniCompute.DeviceTransfers

/-! The memory calls of the Driver API next to those of the Runtime API. `cuMemAlloc` and
`cuMemFree` wrap their counterparts; the two copies are written out again, with the check of
the device pointer left out. -/
namespace DriverInterface

open RustValues EventRuns CudaShim ByteRanges DeviceTransfers
open RuntimeApi (CudaMemcpyKind)
open DeviceMemory (Api Call Code DeviceState Phase callStep deviceStep enter fromSizeAlign
  threadStep threadStep_idle threadStep_refused threadStep_granted threadStep_registered
  threadStep_removed threadStep_unknown threadStep_released)

/-- The driver's word for an error of the runtime. -/
def translate : CudaError → CuResult
  | .cudaSuccess => .cudaSuccess
  | .cudaErrorInvalidValue => .cudaErrorInvalidValue
  | .cudaErrorMemoryAllocation => .cudaErrorOutOfMemory
  | .cudaErrorInitializationError => .cudaErrorNotInitialized
  | .cudaErrorInvalidDevice | .cudaErrorNoDevice => .cudaErrorNoDevice
  | .cudaErrorInvalidMemcpyDirection | .cudaErrorNotReady | .cudaErrorUnknown => .cudaErrorUnknown

def driverCode : Code → Code
  | .runtime err => .driver (translate err)
  | .driver code => .driver code

def driverPhase : Phase → Phase
  | .idle => .idle
  | .allocating _ size layout => .allocating .driver size layout
  | .registering _ addr size => .registering .driver addr size
  | .removing _ addr => .removing .driver addr
  | .releasing _ addr entry => .releasing .driver addr entry

def driverDeviceReply : DeviceMemory.Reply → DeviceMemory.Reply
  | .running => .running
  | .returned code => .returned (driverCode code)
  | .allocated code addr size => .allocated (driverCode code) addr size
  | .deallocated code addr layout => .deallocated (driverCode code) addr layout
  | .panicked message => .panicked message

def driverReply : DeviceTransfers.Reply → DeviceTransfers.Reply
  | .device reply => .device (driverDeviceReply reply)
  | .code code => .code (driverCode code)
  | .undefined => .undefined

def driverState (s : DeviceState) : DeviceState :=
  { s with phase := fun t => driverPhase (s.phase t) }

def driverTransfers (s : TransferState) : TransferState := { s with device := driverState s.device }

def driverCall : Call → Call
  | .malloc _ null size => .malloc .driver null size
  | .free _ ptr => .free .driver ptr

def driverDeviceEvent : DeviceMemory.Event → DeviceMemory.Event
  | .call thread call => .call thread (driverCall call)
  | .step thread answer => .step thread answer

def driverCopy (dst src count : UInt64) (otherwise : Action) : CudaMemcpyKind → Action
  | .cudaMemcpyHostToDevice => .memcpyHtoD dst src count
  | .cudaMemcpyDeviceToHost => .memcpyDtoH dst src count
  | _ => otherwise

def driverAction : Action → Action
  | .device event => .device (driverDeviceEvent event)
  | .memcpy dst src count kind => driverCopy dst src count (.memcpy dst src count kind) kind
  | .memcpyAsync dst src count kind stream =>
    driverCopy dst src count (.memcpyAsync dst src count kind stream) kind
  | action => action

def driverEvent (e : Event) : Event := { e with action := driverAction e.action }

structure DriverAgrees (events : List Event) : Prop where
  states : ∀ i, transfers.stateAt (events.map driverEvent) i =
    driverTransfers (transfers.stateAt events i)
  replies : ∀ i, (transfers.outputAt (events.map driverEvent) i).map driverReply =
    (transfers.outputAt events i).map driverReply

/-- A copy that passes null for the device names no host address either. -/
def DeviceNamed : Action → Prop
  | .memcpy dst src _ kind | .memcpyAsync dst src _ kind _ =>
    (kind = .cudaMemcpyHostToDevice → dst = 0 → src = 0) ∧
      (kind = .cudaMemcpyDeviceToHost → src = 0 → dst = 0)
  | _ => True

section Calls

theorem driver_enter (call : Call) : enter (driverCall call) =
    (driverDeviceReply (enter call).1, driverPhase (enter call).2) := by
  rcases call with ⟨api, null, size⟩ | ⟨api, ptr⟩
  · by_cases hnone : null ∨ size = 0
    · cases api <;> simp [driverCall, enter, DeviceMemory.cuMemAlloc, DeviceMemory.cudaMalloc,
        hnone, driverDeviceReply, driverCode, driverPhase, DeviceMemory.mallocCode, translate]
    · obtain ⟨hnull, hsize⟩ := not_or.1 hnone
      cases hlayout : fromSizeAlign size 256 <;> cases api <;>
        simp [driverCall, enter, DeviceMemory.cuMemAlloc, DeviceMemory.cudaMalloc, hnull, hsize,
          hlayout, driverDeviceReply, driverCode, driverPhase, DeviceMemory.mallocCode, translate]
  · cases api <;> by_cases hptr : ptr = 0 <;>
      simp [driverCall, enter, DeviceMemory.cuMemFree, DeviceMemory.cudaFree, hptr,
        driverDeviceReply, driverCode, driverPhase, DeviceMemory.freeCode, translate]

theorem driverPhase_idle {phase : Phase} : driverPhase phase = .idle ↔ phase = .idle := by
  cases phase <;> simp [driverPhase]

theorem driver_park (s : DeviceState) (t : ℕ) (phase : Phase) :
    (driverState s).park t (driverPhase phase) = driverState (s.park t phase) := by
  simp only [driverState, DeviceState.park, DeviceState.mk.injEq, true_and]
  funext u
  by_cases hu : u = t
  · subst hu
    simp
  · simp [hu]

theorem driver_park_idle (s : DeviceState) (t : ℕ) :
    (driverState s).park t .idle = driverState (s.park t .idle) :=
  driver_park s t .idle

theorem driver_phase {s : DeviceState} {t : ℕ} {phase : Phase} (h : s.phase t = phase) :
    (driverState s).phase t = driverPhase phase :=
  congrArg driverPhase h

theorem driver_step (s : DeviceState) (e : DeviceMemory.Event) :
    deviceStep (driverState s) (driverDeviceEvent e) =
      (driverDeviceReply (deviceStep s e).1, driverState (deviceStep s e).2) := by
  rcases e with ⟨t, call⟩ | ⟨t, answer⟩
  · by_cases hidle : s.phase t = .idle
    · have hidle' : (driverState s).phase t = .idle := driverPhase_idle.2 hidle
      simp only [deviceStep, driverDeviceEvent, callStep, hidle, hidle', if_true, driver_enter,
        driver_park]
    · have hbusy : (driverState s).phase t ≠ .idle := fun h => hidle (driverPhase_idle.1 h)
      simp only [deviceStep, driverDeviceEvent, callStep, hidle, hbusy, if_false]
      rfl
  · simp only [deviceStep, driverDeviceEvent]
    cases hp : s.phase t with
    | idle =>
      rw [threadStep_idle hp, threadStep_idle (driver_phase hp)]
      rfl
    | allocating api size layout =>
      by_cases h0 : answer = 0
      · rw [threadStep_refused hp h0, threadStep_refused (driver_phase hp) h0, driver_park_idle]
        cases api <;> rfl
      · rw [threadStep_granted hp h0, threadStep_granted (driver_phase hp) h0, ← driver_park]
        rfl
    | registering api addr size =>
      rw [threadStep_registered hp, threadStep_registered (driver_phase hp), ← driver_park]
      cases api <;> rfl
    | removing api addr =>
      cases hl : s.table.lookup addr with
      | some entry =>
        rw [threadStep_removed hp hl, threadStep_removed (driver_phase hp) hl, ← driver_park]
        rfl
      | none =>
        rw [threadStep_unknown hp hl, threadStep_unknown (driver_phase hp) hl, ← driver_park]
        cases api <;> rfl
    | releasing api addr entry =>
      cases hv : fromSizeAlign entry.size 256 with
      | some layout =>
        rw [threadStep_released hp hv, threadStep_released (driver_phase hp) hv, ← driver_park]
        cases api <;> rfl
      | none =>
        have hstuck := driver_park_idle s t
        simp only [threadStep, hp, driver_phase hp, driverPhase, hv, hstuck]
        rfl

end Calls

section Transfers

variable {s : TransferState} {e : Event}

theorem driver_checked (m : Memory UInt8) (null : Bool) (access : Option (Memory UInt8)) :
    checked m .driver null access =
      (driverReply (checked m .runtime null access).1, (checked m .runtime null access).2) := by
  cases null with
  | true => rfl
  | false => cases access <;> rfl

theorem driverReply_driver (reply : Reply) :
    driverReply (driverReply reply) = driverReply reply := by
  rcases reply with (_ | (_ | _) | (_ | _) | (_ | _) | _) | (_ | _) | _ <;> rfl

theorem driverReply_undefined {reply : Reply} : driverReply reply = .undefined ↔
    reply = .undefined := by
  cases reply <;> simp [driverReply]

theorem target_driver (action : Action) : target (driverAction action) = target action := by
  rcases action with _ | ⟨_, _, _, kind⟩ | ⟨_, _, _, kind, _⟩ | _ | _ | _
  case memcpy | memcpyAsync => cases kind <;> rfl
  all_goals rfl

theorem driver_transfer (m : Memory UInt8) {action : Action} (named : DeviceNamed action) :
    driverReply (transfer m (driverAction action)).1 = driverReply (transfer m action).1 ∧
      (transfer m (driverAction action)).2 = (transfer m action).2 := by
  have hcopy : ∀ dst src count kind other, transfer m other = cudaMemcpy m dst src count kind →
      DeviceNamed (.memcpy dst src count kind) →
      driverReply (transfer m (driverCopy dst src count other kind)).1 =
          driverReply (transfer m other).1 ∧
        (transfer m (driverCopy dst src count other kind)).2 = (transfer m other).2 := by
    intro dst src count kind other hother hnamed
    rw [hother]
    cases kind with
    | cudaMemcpyHostToDevice =>
      have hnull : (dst = 0 ∨ src = 0) = (src = 0) :=
        propext ⟨fun h => h.elim (hnamed.1 rfl) id, .inr⟩
      simp only [driverCopy, transfer, cudaMemcpy, cuMemcpyHtoD, hnull, driver_checked,
        driverReply_driver, and_self]
    | cudaMemcpyDeviceToHost =>
      have hnull : (dst = 0 ∨ src = 0) = (dst = 0) :=
        propext ⟨fun h => h.elim id (hnamed.2 rfl), .inl⟩
      simp only [driverCopy, transfer, cudaMemcpy, cuMemcpyDtoH, hnull, driver_checked,
        driverReply_driver, and_self]
    | _ => exact ⟨congrArg (driverReply ·.1) hother, congrArg (·.2) hother⟩
  cases action with
  | memcpy dst src count kind => exact hcopy dst src count kind _ rfl named
  | memcpyAsync dst src count kind stream => exact hcopy dst src count kind _ rfl named
  | _ => exact ⟨rfl, rfl⟩

theorem transferStep_access {w : Range} (h : target e.action = some w) :
    (transferStep s e).2 = ⟨s.device,
      if (transfer (s.settle e.outside) e.action).1 = .undefined then e.outside
      else (transfer (s.settle e.outside) e.action).2⟩ := by
  rcases e with ⟨_ | _ | _ | _ | _ | _, outside⟩
  · cases h
  all_goals rfl

theorem driver_transferStep (named : DeviceNamed e.action) :
    driverReply (transferStep (driverTransfers s) (driverEvent e)).1 =
        driverReply (transferStep s e).1 ∧
      (transferStep (driverTransfers s) (driverEvent e)).2 =
        driverTransfers (transferStep s e).2 := by
  cases hw : target e.action with
  | none =>
    obtain ⟨action, outside⟩ := e
    cases action with
    | device event =>
      have hstep := driver_step s.device event
      constructor
      · change driverReply (.device (deviceStep (driverState s.device) _).1) = _
        rw [hstep]
        exact driverReply_driver (.device _)
      · change TransferState.mk (deviceStep (driverState s.device) _).2 _ = _
        rw [hstep]
        rfl
    | _ => cases hw
  | some w =>
    have hw' : target (driverEvent e).action = some w := (target_driver e.action).trans hw
    have hsame := driver_transfer (s.settle e.outside) named
    constructor
    · rw [transferStep_reply hw', transferStep_reply hw]
      exact hsame.1
    · rw [transferStep_access hw', transferStep_access hw]
      have hundefined : (transfer (s.settle e.outside) (driverEvent e).action).1 = .undefined ↔
          (transfer (s.settle e.outside) e.action).1 = .undefined := by
        rw [← driverReply_undefined, driverEvent, hsame.1, driverReply_undefined]
      change TransferState.mk _ (if (transfer (s.settle e.outside) _).1 = _ then _ else _) = _
      simp only [hundefined]
      change TransferState.mk _ (if _ then _ else (transfer (s.settle e.outside) _).2) = _
      rw [driverEvent, hsame.2]
      rfl

theorem unnamed_copy {dst src : UInt64} (count : UInt64) {kind : CudaMemcpyKind} (other : Action)
    (h : ¬ DeviceNamed (.memcpy dst src count kind)) (m m' : Memory UInt8) :
    transfer m' (driverCopy dst src count other kind) = (.undefined, m') ∧
      (cudaMemcpy m dst src count kind).1 = .code (.runtime .cudaErrorInvalidValue) := by
  rcases not_and_or.1 h with h | h <;> push Not at h <;> obtain ⟨rfl, rfl, hhost⟩ := h
  · have hrefused : copyNonoverlapping m' 0 src count = none := if_neg fun h => h.1.1 rfl
    simp [driverCopy, transfer, cuMemcpyHtoD, cudaMemcpy, checked, hhost, hrefused, invalidValue]
  · have hrefused : copyNonoverlapping m' dst 0 count = none := if_neg fun h => h.2.1.1 rfl
    simp [driverCopy, transfer, cuMemcpyDtoH, cudaMemcpy, checked, hhost, hrefused, invalidValue]

theorem unnamed_reply (t : TransferState) (h : ¬ DeviceNamed e.action) :
    driverReply (transferStep t (driverEvent e)).1 ≠ driverReply (transferStep s e).1 := by
  obtain ⟨action, outside⟩ := e
  have hreplies : ∀ w, target action = some w →
      (transfer (t.settle outside) (driverAction action)).1 = .undefined →
      (transfer (s.settle outside) action).1 = .code (.runtime .cudaErrorInvalidValue) →
      driverReply (transferStep t (driverEvent ⟨action, outside⟩)).1 ≠
        driverReply (transferStep s ⟨action, outside⟩).1 := by
    intro w hw hdriver hruntime
    have hw' : target (driverEvent ⟨action, outside⟩).action = some w :=
      (target_driver action).trans hw
    rw [transferStep_reply hw', transferStep_reply (e := ⟨action, outside⟩) hw, hruntime]
    change driverReply (transfer (t.settle outside) (driverAction action)).1 ≠ _
    rw [hdriver]
    simp [driverReply]
  cases action with
  | memcpy dst src count kind =>
    have hcopy := unnamed_copy count (.memcpy dst src count kind) h (s.settle outside)
      (t.settle outside)
    exact hreplies _ rfl (congrArg Prod.fst hcopy.1) hcopy.2
  | memcpyAsync dst src count kind stream =>
    have hcopy := unnamed_copy count (.memcpyAsync dst src count kind stream) h (s.settle outside)
      (t.settle outside)
    exact hreplies _ rfl (congrArg Prod.fst hcopy.1) hcopy.2
  | _ => exact absurd trivial h

end Transfers

/-- The driver interface is the runtime interface under other names, as long as no copy passes
null for the device alone. -/
theorem driver_agrees_iff (events : List Event) :
    DriverAgrees events ↔ ∀ e ∈ events, DeviceNamed e.action := by
  constructor
  · intro h e he
    obtain ⟨i, hi⟩ := List.mem_iff_getElem?.1 he
    by_contra hnamed
    have hreply := h.replies i
    have hi' : (events.map driverEvent)[i]? = some (driverEvent e) := by simp [hi]
    rw [outputAt_eq _ hi, outputAt_eq _ hi'] at hreply
    exact unnamed_reply _ hnamed (Option.some.inj hreply)
  · intro named
    have states := stateAt_map transfers transfers (f := driverTransfers) (g := driverEvent) rfl
      fun s e he => (driver_transferStep (named e he)).2
    refine ⟨states, fun i => ?_⟩
    cases he : events[i]? with
    | none => simp [Machine.outputAt, he]
    | some e =>
      have hi' : (events.map driverEvent)[i]? = some (driverEvent e) := by simp [he]
      rw [outputAt_eq _ he, outputAt_eq _ hi', states]
      exact congrArg some (driver_transferStep (named e (List.mem_of_getElem? he))).1

end DriverInterface
