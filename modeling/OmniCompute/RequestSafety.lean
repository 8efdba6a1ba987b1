import OmniCompute.PagerAccounting
import Mathlib.Order.Bounds.Basic

/-! When the arithmetic of `alloc` is safe. Rounding, the address counter and both byte
counters wrap silently, and no request is ever refused; over a whole session all four stay
exact together, namely as long as the page-rounded requests fit above the address base. -/
namespace RequestSafety

open RustValues EventRuns KeyedTotals DuvasAllocator AllocatorSoundness SlidingPager
open PagerAccounting

/-- What `alloc` promises when it returns an address: the block it records is the request
rounded up to whole pages, it ends inside the address space, and no counter wraps. -/
structure RecordedExactly (s s' : AllocatorState) (size addr : UInt64) (block : MemoryBlock) :
    Prop where
  recorded : s'.allocations.lookup addr = some block
  keyed : block.virtualAddr = addr
  rounded : IsLeast {n : ℕ | size.toNat ≤ n ∧ 4096 ∣ n} block.sizeBytes.toNat
  inside : addr.toNat + block.sizeBytes.toNat ≤ 2 ^ 64
  counter : s'.nextAddr.toNat = s.nextAddr.toNat + block.sizeBytes.toNat
  virtualBytes :
    s'.allocatedVirtualBytes.toNat = s.allocatedVirtualBytes.toNat + block.sizeBytes.toNat
  deviceBytes :
    s'.allocatedDeviceBytes.toNat = s.allocatedDeviceBytes.toNat + deviceWeight block

def AllocSafe (capacity : UInt64) (s : AllocatorState) (size : UInt64) (isStatic : Bool) : Prop :=
  match alloc capacity s size isStatic with
  | (.error _, s') => s' = s
  | (.ok addr, s') => ∃ block, RecordedExactly s s' size addr block

def AllocsSafe (capacity : UInt64) (events : List Event) : Prop :=
  ∀ (i : ℕ) (size : UInt64) (isStatic : Bool),
    events[i]? = some (.client (.alloc size isStatic)) →
      AllocSafe capacity ((pager capacity).stateAt events i).allocator size isStatic

theorem isLeast_roundedBytes (size : ℕ) :
    IsLeast {n : ℕ | size ≤ n ∧ 4096 ∣ n} (roundedBytes size) := by
  simp only [roundedBytes]
  refine ⟨⟨by omega, by omega⟩, ?_⟩
  rintro n ⟨hle, hdvd⟩
  omega

section OneRequest

variable {capacity : UInt64} {s : AllocatorState} {size : UInt64} {isStatic : Bool}

theorem allocSafe_of_room (h : Accounted s)
    (room : s.nextAddr.toNat + roundedBytes size.toNat < 2 ^ 64) :
    AllocSafe capacity s size isStatic := by
  have hexact := @alignedSize_exact size (by omega)
  have hroom := h.room
  have hv := h.virtualBytes
  have hd := h.deviceBytes
  have hle := deviceTotal_le s
  refine ⟨_, AList.lookup_insert _, rfl, ?_, ?_, ?_, ?_, ?_⟩
  · simp only [hexact]
    exact isLeast_roundedBytes size.toNat
  · simp only
    omega
  · simp only [UInt64.toNat_add]
    omega
  · simp only [UInt64.toNat_add]
    omega
  · by_cases hfit : s.allocatedDeviceBytes + alignedSize size ≤ capacity
    · simp only [hfit, decide_true, if_true, deviceWeight, UInt64.toNat_add]
      omega
    · simp only [hfit, decide_false, Bool.false_eq_true, if_false, deviceWeight, reduceCtorEq]
      omega

theorem room_of_allocSafe (h : AllocSafe capacity s size isStatic) :
    s.nextAddr.toNat + roundedBytes size.toNat < 2 ^ 64 := by
  obtain ⟨block, hb⟩ := h
  have hsize := hb.rounded.unique (isLeast_roundedBytes size.toNat)
  have hcounter := hb.counter
  have hlt := (alloc capacity s size isStatic).2.nextAddr.toNat_lt
  rw [← hsize, ← hcounter]
  exact hlt

end OneRequest

section Sessions

variable {capacity : UInt64} {events : List Event}

theorem allocsSafe_init {e : Event} (h : AllocsSafe capacity (events ++ [e])) :
    AllocsSafe capacity events := by
  intro i size isStatic hi
  have hlt : i < events.length := (List.getElem?_eq_some_iff.mp hi).1
  have hsafe := h i size isStatic (by rw [List.getElem?_append_left hlt, hi])
  have htake : (events ++ [e]).take i = events.take i :=
    List.take_append_of_le_length (Nat.le_of_lt hlt)
  simpa only [Machine.stateAt, htake] using hsafe

theorem allocsSafe_last {size : UInt64} {isStatic : Bool}
    (h : AllocsSafe capacity (events ++ [.client (.alloc size isStatic)])) :
    AllocSafe capacity ((pager capacity).after events).allocator size isStatic := by
  have hsafe := h events.length size isStatic (by simp)
  simpa only [Machine.stateAt, List.take_left] using hsafe

/-- Induction on the session: as long as its requests were safe, the counter records them. -/
theorem budget_of_allocsSafe (h : AllocsSafe capacity events) : AddressBudget events := by
  induction events using List.reverseRecOn with
  | nil => decide
  | append_singleton events e ih =>
    have hb := ih (allocsSafe_init h)
    have hcount := (charged_run capacity events hb).counter
    simp only [AddressBudget, requestedBytes_snoc] at *
    cases e with
    | client call =>
      cases call with
      | alloc size isStatic =>
        have hroom := room_of_allocSafe (allocsSafe_last h)
        simp only [requested]
        omega
      | free addr => simpa [requested] using hb
      | migrate addr target => simpa [requested] using hb
    | send command => simpa [requested] using hb
    | worker durationMs => simpa [requested] using hb

theorem allocsSafe_of_budget (budget : AddressBudget events) : AllocsSafe capacity events := by
  intro i size isStatic hi
  have htake : AddressBudget (events.take i ++ [.client (.alloc size isStatic)]) := by
    have := budget_take budget (i + 1)
    rwa [List.take_add_one, hi] at this
  have hcharged := charged_run capacity (events.take i) (budget_init htake)
  have hcount := hcharged.counter
  apply allocSafe_of_room hcharged.accounted
  simp only [AddressBudget, requestedBytes_snoc, requested] at htake
  omega

end Sessions

/-- A session's requests are all safe exactly when their rounded sizes fit above the base. -/
theorem allocs_safe_iff (capacity : UInt64) (events : List Event) :
    AllocsSafe capacity events ↔ AddressBudget events :=
  ⟨budget_of_allocsSafe, allocsSafe_of_budget⟩

/-- The largest request is recorded as an empty block on the device. -/
theorem largest_request_unsafe :
    ¬ AllocsSafe 4096 [.client (.alloc 0xFFFFFFFFFFFFFFFF false)] := by
  intro h
  have hsafe := h 0 _ _ rfl
  have hroom := room_of_allocSafe hsafe
  revert hroom
  decide

end RequestSafety
