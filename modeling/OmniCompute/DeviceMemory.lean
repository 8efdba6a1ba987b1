import OmniCompute.CudaShim
import OmniCompute.EventRuns
import OmniCompute.KeyedTotals
import Mathlib.Logic.Function.Basic

/-! Device memory under concurrent calls of both interfaces. A thread enters a call, and then
every access to the heap or to the allocation table is one step of it. An allocation takes
its address from the heap before it enters the table, a free leaves the table first. -/
namespace DeviceMemory

open RustValues EventRuns KeyedTotals CudaShim

structure Layout where
  size : UInt64
  align : UInt64
  deriving DecidableEq

/-- `Layout::from_size_align`: the size rounded up to the alignment must fit an `isize`. -/
def fromSizeAlign (size align : UInt64) : Option Layout :=
  if align ≠ 0 ∧ align &&& (align - 1) = 0 ∧ size ≤ 0x8000000000000000 - align then
    some ⟨size, align⟩
  else none

inductive Api where
  | runtime
  | driver
  deriving DecidableEq

inductive Code where
  | runtime (code : CudaError)
  | driver (code : CuResult)
  deriving DecidableEq

/-- `cuMemAlloc` reports every failure of `cudaMalloc` as out of memory. -/
def mallocCode : Api → CudaError → Code
  | .runtime, err => .runtime err
  | .driver, err => .driver (if err ≠ .cudaSuccess then .cudaErrorOutOfMemory else .cudaSuccess)

/-- `cuMemFree` reports every failure of `cudaFree` as an invalid value. -/
def freeCode : Api → CudaError → Code
  | .runtime, err => .runtime err
  | .driver, err => .driver (if err ≠ .cudaSuccess then .cudaErrorInvalidValue else .cudaSuccess)

inductive Phase where
  | idle
  | allocating (api : Api) (size : UInt64) (layout : Layout)
  | registering (api : Api) (addr size : UInt64)
  | removing (api : Api) (addr : UInt64)
  | releasing (api : Api) (addr : UInt64) (entry : AllocEntry)
  deriving DecidableEq

inductive Reply where
  | running
  | returned (code : Code)
  | allocated (code : Code) (addr size : UInt64)
  | deallocated (code : Code) (addr : UInt64) (layout : Layout)
  | panicked (message : String)
  deriving DecidableEq

inductive Call where
  | malloc (api : Api) (nullPointer : Bool) (size : UInt64)
  | free (api : Api) (ptr : UInt64)
  deriving DecidableEq

def cudaMalloc (api : Api) (devPtrNull : Bool) (size : UInt64) : Reply × Phase :=
  if devPtrNull ∨ size = 0 then (.returned (mallocCode api .cudaErrorInvalidValue), .idle)
  else
    match fromSizeAlign size 256 with
    | some layout => (.running, .allocating api size layout)
    | none => (.returned (mallocCode api .cudaErrorMemoryAllocation), .idle)

def cudaFree (api : Api) (devPtr : UInt64) : Reply × Phase :=
  if devPtr = 0 then (.returned (freeCode api .cudaSuccess), .idle)
  else (.running, .removing api devPtr)

def cuMemAlloc (dptrNull : Bool) (bytesize : UInt64) : Reply × Phase :=
  if dptrNull ∨ bytesize = 0 then (.returned (.driver .cudaErrorInvalidValue), .idle)
  else cudaMalloc .driver false bytesize

def cuMemFree (dptr : UInt64) : Reply × Phase := cudaFree .driver dptr

def enter : Call → Reply × Phase
  | .malloc .runtime nullPointer size => cudaMalloc .runtime nullPointer size
  | .malloc .driver nullPointer size => cuMemAlloc nullPointer size
  | .free .runtime ptr => cudaFree .runtime ptr
  | .free .driver ptr => cuMemFree ptr

/-- `heap` holds the blocks the shim has from the system heap, with their layouts. -/
structure DeviceState where
  table : HashMap UInt64 AllocEntry
  heap : HashMap UInt64 Layout
  phase : ℕ → Phase

def DeviceState.new : DeviceState := ⟨∅, ∅, fun _ => .idle⟩

def DeviceState.park (s : DeviceState) (thread : ℕ) (phase : Phase) : DeviceState :=
  { s with phase := Function.update s.phase thread phase }

def callStep (s : DeviceState) (thread : ℕ) (call : Call) : Reply × DeviceState :=
  if s.phase thread = .idle then ((enter call).1, s.park thread (enter call).2)
  else (.running, s)

/-- One access of a thread. `answer` is the pointer `std::alloc::alloc` returns if it is asked. -/
def threadStep (s : DeviceState) (thread : ℕ) (answer : UInt64) : Reply × DeviceState :=
  match s.phase thread with
  | .idle => (.running, s)
  | .allocating api size layout =>
    if answer = 0 then
      (.returned (mallocCode api .cudaErrorMemoryAllocation), s.park thread .idle)
    else
      (.running,
        { s with heap := s.heap.insert answer layout }.park thread (.registering api answer size))
  | .registering api addr size =>
    (.allocated (mallocCode api .cudaSuccess) addr size,
      { s with table := s.table.insert addr ⟨addr, size, 0, false⟩ }.park thread .idle)
  | .removing api addr =>
    match s.table.lookup addr with
    | some entry =>
      (.running, { s with table := s.table.erase addr }.park thread (.releasing api addr entry))
    | none => (.returned (freeCode api .cudaErrorInvalidValue), s.park thread .idle)
  | .releasing api addr entry =>
    match fromSizeAlign entry.size 256 with
    | some layout =>
      (.deallocated (freeCode api .cudaSuccess) addr layout,
        { s with heap := s.heap.erase addr }.park thread .idle)
    | none => (.panicked "Allocation layout must be valid", s.park thread .idle)

inductive Event where
  | call (thread : ℕ) (call : Call)
  | step (thread : ℕ) (answer : UInt64)
  deriving DecidableEq

def Event.thread : Event → ℕ
  | .call thread _ => thread
  | .step thread _ => thread

def deviceStep (s : DeviceState) : Event → Reply × DeviceState
  | .call thread call => callStep s thread call
  | .step thread answer => threadStep s thread answer

def devices : Machine DeviceState Event Reply := ⟨.new, deviceStep⟩

def awaitsHeap : Phase → Bool
  | .allocating _ _ _ => true
  | _ => false

/-- The heap never hands out an address that is allocated. -/
def Granted (s : DeviceState) : Event → Prop
  | .call _ _ => True
  | .step thread answer =>
    awaitsHeap (s.phase thread) → answer ≠ 0 → s.heap.lookup answer = none

instance (s : DeviceState) : (e : Event) → Decidable (Granted s e)
  | .call _ _ => .isTrue trivial
  | .step thread answer => inferInstanceAs
      (Decidable (awaitsHeap (s.phase thread) → answer ≠ 0 → s.heap.lookup answer = none))

def HeapFresh (events : List Event) : Prop :=
  ∀ i (hi : i < events.length), Granted (devices.stateAt events i) events[i]

/-- The addresses allocated and not yet freed, with the sizes asked for. -/
def account (held : UInt64 → Option UInt64) : Reply → UInt64 → Option UInt64
  | .allocated _ addr size => Function.update held addr (some size)
  | .deallocated _ addr _ => Function.update held addr none
  | _ => held

def heldAt (events : List Event) : ℕ → UInt64 → Option UInt64
  | 0 => fun _ => none
  | i + 1 =>
    match devices.outputAt events i with
    | some reply => account (heldAt events i) reply
    | none => heldAt events i

/-- The call that `t` entered at `k` is the one it is still in at `i`. -/
def InCall (events : List Event) (t k i : ℕ) (call : Call) : Prop :=
  k < i ∧ events[k]? = some (.call t call) ∧ (devices.stateAt events k).phase t = .idle ∧
  ∀ m answer, k < m → m < i → events[m]? = some (.step t answer) →
    devices.outputAt events m = some .running

def RejectedAt (events : List Event) (i : ℕ) (api : Api) : Prop :=
  devices.outputAt events i = some (.returned (freeCode api .cudaErrorInvalidValue)) ∧
  (devices.stateAt events (i + 1)).table = (devices.stateAt events i).table ∧
  (devices.stateAt events (i + 1)).heap = (devices.stateAt events i).heap

/-- A free takes the key `a` out of the table, and has yet to reach the heap. -/
def RemovesAt (events : List Event) (i : ℕ) (a : UInt64) : Prop :=
  devices.outputAt events i = some .running ∧
  (devices.stateAt events (i + 1)).table = (devices.stateAt events i).table.erase a ∧
  (devices.stateAt events (i + 1)).heap = (devices.stateAt events i).heap

/-- The next step `t` makes after position `i` gives `a` back to the heap and returns. -/
def ReleasedAfter (events : List Event) (i t : ℕ) (api : Api) (a : UInt64) : Prop :=
  ∀ j answer, i < j → events[j]? = some (.step t answer) →
    (∀ k other, i < k → k < j → events[k]? ≠ some (.step t other)) →
    ∃ layout, devices.outputAt events j = some (.deallocated (freeCode api .cudaSuccess) a layout)

def Registers (a : UInt64) (s : DeviceState) (e : Event) : Prop :=
  ∃ code size, (deviceStep s e).1 = .allocated code a size

def Frees (a : UInt64) (s : DeviceState) (e : Event) : Prop :=
  ∃ t answer api, e = .step t answer ∧ s.phase t = .removing api a

/-- Between the two positions `a` was registered, and no free of it reached the table after that. -/
def RegisteredAgain (events : List Event) (i j : ℕ) (a : UInt64) : Prop :=
  ∃ k e, i < k ∧ k < j ∧ events[k]? = some e ∧ Registers a (devices.stateAt events k) e ∧
    ∀ m d, k < m → m < j → events[m]? = some d → ¬ Frees a (devices.stateAt events m) d

section Steps

variable {s : DeviceState} {t : ℕ}

theorem fromSizeAlign_some {size align : UInt64} {layout : Layout}
    (h : fromSizeAlign size align = some layout) : layout = ⟨size, align⟩ := by
  simp only [fromSizeAlign] at h
  split at h
  · exact (Option.some.inj h).symm
  · cases h

theorem park_phase (phase : Phase) (u : ℕ) :
    (s.park t phase).phase u = if u = t then phase else s.phase u := by
  simp [DeviceState.park, Function.update_apply]

theorem park_other (phase : Phase) {u : ℕ} (h : u ≠ t) :
    (s.park t phase).phase u = s.phase u := by
  rw [park_phase, if_neg h]

theorem park_self (phase : Phase) : (s.park t phase).phase t = phase := by
  rw [park_phase, if_pos rfl]

@[simp] theorem park_table (phase : Phase) : (s.park t phase).table = s.table := rfl
@[simp] theorem park_heap (phase : Phase) : (s.park t phase).heap = s.heap := rfl

theorem callStep_idle (call : Call) (hp : s.phase t = .idle) :
    callStep s t call = ((enter call).1, s.park t (enter call).2) :=
  if_pos hp

theorem callStep_busy (call : Call) (hp : s.phase t ≠ .idle) :
    callStep s t call = (.running, s) :=
  if_neg hp

variable {api : Api} {addr size answer : UInt64} {layout : Layout} {entry : AllocEntry}

theorem threadStep_idle (hp : s.phase t = .idle) : threadStep s t answer = (.running, s) := by
  simp only [threadStep, hp]

theorem threadStep_refused (hp : s.phase t = .allocating api size layout) (h0 : answer = 0) :
    threadStep s t answer =
      (.returned (mallocCode api .cudaErrorMemoryAllocation), s.park t .idle) := by
  simp only [threadStep, hp, if_pos h0]

theorem threadStep_granted (hp : s.phase t = .allocating api size layout) (h0 : answer ≠ 0) :
    threadStep s t answer =
      (.running,
        { s with heap := s.heap.insert answer layout }.park t (.registering api answer size)) := by
  simp only [threadStep, hp, if_neg h0]

theorem threadStep_registered (hp : s.phase t = .registering api addr size) :
    threadStep s t answer =
      (.allocated (mallocCode api .cudaSuccess) addr size,
        { s with table := s.table.insert addr ⟨addr, size, 0, false⟩ }.park t .idle) := by
  simp only [threadStep, hp]

theorem threadStep_removed (hp : s.phase t = .removing api addr)
    (hl : s.table.lookup addr = some entry) :
    threadStep s t answer =
      (.running,
        { s with table := s.table.erase addr }.park t (.releasing api addr entry)) := by
  simp only [threadStep, hp, hl]

theorem threadStep_unknown (hp : s.phase t = .removing api addr)
    (hl : s.table.lookup addr = none) :
    threadStep s t answer =
      (.returned (freeCode api .cudaErrorInvalidValue), s.park t .idle) := by
  simp only [threadStep, hp, hl]

theorem threadStep_released (hp : s.phase t = .releasing api addr entry)
    (hv : fromSizeAlign entry.size 256 = some layout) :
    threadStep s t answer =
      (.deallocated (freeCode api .cudaSuccess) addr layout,
        { s with heap := s.heap.erase addr }.park t .idle) := by
  simp only [threadStep, hp, hv]

theorem entered_sized (call : Call) {api : Api} {size : UInt64} {layout : Layout}
    (h : (enter call).2 = .allocating api size layout) :
    fromSizeAlign size 256 = some layout := by
  rcases call with ⟨_ | _, nullPointer, size⟩ | ⟨_ | _, ptr⟩ <;>
    simp only [enter, cudaMalloc, cuMemAlloc, cudaFree, cuMemFree] at h <;> grind

theorem entered_account (held : UInt64 → Option UInt64) (call : Call) :
    account held (enter call).1 = held := by
  rcases call with ⟨_ | _, nullPointer, size⟩ | ⟨_ | _, ptr⟩ <;>
    simp only [enter, cudaMalloc, cuMemAlloc, cudaFree, cuMemFree] <;> grind [account]

theorem entered_table {e : Event} (hl : (deviceStep s e).2.table.lookup addr = some entry) :
    s.table.lookup addr = some entry ∨
    ∃ code size, (deviceStep s e).1 = .allocated code addr size ∧
      entry = ⟨addr, size, 0, false⟩ := by
  cases e with
  | call t call =>
    left
    simp only [deviceStep, callStep] at hl
    split at hl <;> exact hl
  | step t answer =>
    simp only [deviceStep] at hl ⊢
    cases hp : s.phase t with
    | idle =>
      rw [threadStep_idle hp] at hl
      exact .inl hl
    | allocating api size layout =>
      by_cases h0 : answer = 0
      · rw [threadStep_refused hp h0] at hl
        exact .inl hl
      · rw [threadStep_granted hp h0] at hl
        exact .inl hl
    | registering api b size =>
      rw [threadStep_registered hp] at hl ⊢
      rcases lookup_insert_some hl with ⟨rfl, rfl⟩ | ⟨_, hl⟩
      · exact .inr ⟨_, size, rfl, rfl⟩
      · exact .inl hl
    | removing api b =>
      cases hb : s.table.lookup b with
      | some old =>
        rw [threadStep_removed hp hb] at hl
        exact .inl (lookup_erase_some hl).2
      | none =>
        rw [threadStep_unknown hp hb] at hl
        exact .inl hl
    | releasing api b old =>
      left
      simp only [threadStep, hp] at hl
      split at hl <;> exact hl

theorem phase_other {e : Event} (h : t ≠ e.thread) :
    (deviceStep s e).2.phase t = s.phase t := by
  cases e with
  | call u call =>
    simp only [deviceStep, callStep]
    split
    · exact park_other _ h
    · rfl
  | step u answer =>
    simp only [deviceStep, threadStep]
    split
    · rfl
    · split <;> exact park_other _ h
    · exact park_other _ h
    · split <;> exact park_other _ h
    · split <;> exact park_other _ h

def callOf : Phase → Option Call
  | .idle => none
  | .allocating api size _ => some (.malloc api false size)
  | .registering api _ size => some (.malloc api false size)
  | .removing api addr => some (.free api addr)
  | .releasing api addr _ => some (.free api addr)

theorem callOf_entered {call op : Call} (h : callOf (enter call).2 = some op) : call = op := by
  rcases call with ⟨_ | _, _ | _, size⟩ | ⟨_ | _, ptr⟩ <;>
    simp only [enter, cudaMalloc, cuMemAlloc, cudaFree, cuMemFree] at h <;> grind [callOf]

theorem callOf_step {e : Event} {op : Call} (h : callOf ((deviceStep s e).2.phase t) = some op) :
    (e = .call t op ∧ s.phase t = .idle) ∨
    (callOf (s.phase t) = some op ∧ ∀ answer, e = .step t answer →
      (deviceStep s e).1 = .running) := by
  by_cases ht : t = e.thread
  · subst ht
    cases e with
    | call t call =>
      simp only [deviceStep, Event.thread] at h ⊢
      by_cases hp : s.phase t = .idle
      · rw [callStep_idle call hp, park_self] at h
        exact .inl ⟨congrArg _ (callOf_entered h), hp⟩
      · rw [callStep_busy call hp] at h
        refine .inr ⟨h, ?_⟩
        intro answer ha
        cases ha
    | step t answer =>
      right
      simp only [deviceStep, Event.thread] at h ⊢
      cases hp : s.phase t with
      | idle =>
        rw [threadStep_idle hp, hp] at h
        cases h
      | allocating api size layout =>
        by_cases h0 : answer = 0
        · rw [threadStep_refused hp h0, park_self] at h
          cases h
        · rw [threadStep_granted hp h0, park_self] at h
          rw [threadStep_granted hp h0]
          exact ⟨h, fun _ _ => rfl⟩
      | registering api b size =>
        rw [threadStep_registered hp, park_self] at h
        cases h
      | removing api b =>
        cases hb : s.table.lookup b with
        | some old =>
          rw [threadStep_removed hp hb, park_self] at h
          rw [threadStep_removed hp hb]
          exact ⟨h, fun _ _ => rfl⟩
        | none =>
          rw [threadStep_unknown hp hb, park_self] at h
          cases h
      | releasing api b old =>
        simp only [threadStep, hp] at h
        split at h <;> rw [park_self] at h <;> cases h
  · rw [phase_other ht] at h
    refine .inr ⟨h, ?_⟩
    rintro answer rfl
    exact absurd rfl ht

theorem entered_reply (call : Call) :
    (enter call).1 = .running ∨ ∃ code, (enter call).1 = .returned code := by
  rcases call with ⟨_ | _, nullPointer, size⟩ | ⟨_ | _, ptr⟩ <;>
    simp only [enter, cudaMalloc, cuMemAlloc, cudaFree, cuMemFree] <;> grind

theorem called_reply (call : Call) :
    (callStep s t call).1 = .running ∨ ∃ code, (callStep s t call).1 = .returned code := by
  by_cases hp : s.phase t = .idle
  · rw [callStep_idle call hp]
    exact entered_reply call
  · rw [callStep_busy call hp]
    exact .inl rfl

theorem allocated_phase {code : Code}
    (h : (threadStep s t answer).1 = .allocated code addr size) :
    ∃ api, s.phase t = .registering api addr size := by
  cases hp : s.phase t <;> simp only [threadStep, hp] at h <;> grind

theorem deallocated_phase {code : Code}
    (h : (threadStep s t answer).1 = .deallocated code addr layout) :
    ∃ api entry, s.phase t = .releasing api addr entry ∧
      fromSizeAlign entry.size 256 = some layout := by
  cases hp : s.phase t <;> simp only [threadStep, hp] at h <;> grind

theorem panicked_phase {message : String} (h : (threadStep s t answer).1 = .panicked message) :
    ∃ api a entry, s.phase t = .releasing api a entry ∧ fromSizeAlign entry.size 256 = none := by
  cases hp : s.phase t <;> simp only [threadStep, hp] at h <;> grind

theorem registers_step (s : DeviceState) (t : ℕ) (answer a : UInt64) :
    Registers a s (.step t answer) ↔ ∃ api size, s.phase t = .registering api a size := by
  constructor
  · rintro ⟨code, size, h⟩
    obtain ⟨api, hp⟩ := allocated_phase h
    exact ⟨api, size, hp⟩
  · rintro ⟨api, size, hp⟩
    exact ⟨_, size, congrArg Prod.fst (threadStep_registered hp)⟩

theorem frees_step (s : DeviceState) (t : ℕ) (answer a : UInt64) :
    Frees a s (.step t answer) ↔ ∃ api, s.phase t = .removing api a := by
  constructor
  · rintro ⟨_, _, api, he, hp⟩
    cases he
    exact ⟨api, hp⟩
  · rintro ⟨api, hp⟩
    exact ⟨t, answer, api, rfl, hp⟩

/-- Only registrations enter the table, and only frees leave it. -/
theorem key_step (s : DeviceState) (e : Event) (a : UInt64) :
    ((deviceStep s e).2.table.lookup a).isSome ↔
      Registers a s e ∨ ((s.table.lookup a).isSome ∧ ¬ Frees a s e) := by
  cases e with
  | call t call =>
    have hregisters : ¬ Registers a s (.call t call) := by
      rintro ⟨code, size, h⟩
      rcases called_reply (s := s) (t := t) call with hr | ⟨code', hr⟩ <;> cases hr.symm.trans h
    have hfrees : ¬ Frees a s (.call t call) := by
      rintro ⟨_, _, _, h, _⟩
      cases h
    have htable : (deviceStep s (.call t call)).2.table = s.table := by
      simp only [deviceStep, callStep]
      split <;> rfl
    simp only [htable, hregisters, hfrees, false_or, not_false_eq_true, and_true]
  | step t answer =>
    rw [registers_step, frees_step, deviceStep]
    cases hp : s.phase t with
    | idle => simp [threadStep_idle hp]
    | allocating api size layout =>
      by_cases h0 : answer = 0
      · simp [threadStep_refused hp h0]
      · simp [threadStep_granted hp h0]
    | registering api b size =>
      by_cases hb : a = b
      · subst hb
        simp [threadStep_registered hp]
      · simp [threadStep_registered hp, AList.lookup_insert_ne hb, Ne.symm hb]
    | removing api b =>
      cases hl : s.table.lookup b with
      | none =>
        by_cases hb : a = b
        · subst hb
          simp [threadStep_unknown hp hl, hl]
        · simp [threadStep_unknown hp hl, Ne.symm hb]
      | some entry =>
        by_cases hb : a = b
        · subst hb
          simp [threadStep_removed hp hl]
        · simp [threadStep_removed hp hl, AList.lookup_erase_ne hb, Ne.symm hb]
    | releasing api b entry =>
      have htable : (threadStep s t answer).2.table = s.table := by
        simp only [threadStep, hp]
        split <;> rfl
      simp [htable]

theorem park_idle (hp : s.phase t = .idle) : s.park t .idle = s := by
  rw [DeviceState.park, ← hp, Function.update_eq_self]

theorem enter_null (api : Api) :
    enter (.free api 0) = (.returned (freeCode api .cudaSuccess), .idle) := by
  cases api <;> simp [enter, cudaFree, cuMemFree]

end Steps

end DeviceMemory
