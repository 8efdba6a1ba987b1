import OmniCompute.SlidingPager

/-! Accounting over every interleaving of clients and the paging worker, and what becomes
of the capacity bound. The budget is the assumption under which the address counter, and
with it every byte counter, stays clear of wrap-around. -/
namespace PagerAccounting

open RustValues EventRuns KeyedTotals DuvasAllocator AllocatorSoundness SlidingPager

def requested : Event → ℕ
  | .client (.alloc size _) => roundedBytes size.toNat
  | _ => 0

def requestedBytes (events : List Event) : ℕ := (events.map requested).sum

/-- The address base and all rounded requests of the run stay below 2^64. -/
def AddressBudget (events : List Event) : Prop :=
  baseAddr.toNat + requestedBytes events < 2 ^ 64

instance (events : List Event) : Decidable (AddressBudget events) :=
  inferInstanceAs (Decidable (_ < _))

/-- While the budget lasts, the address counter records exactly what was requested. -/
structure Charged (events : List Event) (s : AllocatorState) : Prop where
  counter : s.nextAddr.toNat = baseAddr.toNat + requestedBytes events
  laid : Laid s
  accounted : Accounted s

theorem requestedBytes_snoc (events : List Event) (e : Event) :
    requestedBytes (events ++ [e]) = requestedBytes events + requested e := by
  simp [requestedBytes]

theorem budget_init {events : List Event} {e : Event} (h : AddressBudget (events ++ [e])) :
    AddressBudget events := by
  simp only [AddressBudget] at *
  rw [requestedBytes_snoc] at h
  omega

theorem budget_take {events : List Event} (h : AddressBudget events) (n : ℕ) :
    AddressBudget (events.take n) := by
  have hle : requestedBytes (events.take n) ≤ requestedBytes events :=
    ((List.take_sublist n events).map requested).sum_le_sum (by simp)
  simp only [AddressBudget] at *
  omega

theorem requested_call {p : PagerState} {e : Event} {size : UInt64} {isStatic : Bool}
    (h : allocatorCall p e = some (.alloc size isStatic)) :
    requested e = roundedBytes size.toNat := by
  rw [allocatorCall_alloc h]
  rfl

theorem requested_other {p : PagerState} {e : Event}
    (h : ∀ size isStatic, allocatorCall p e ≠ some (.alloc size isStatic)) : requested e = 0 := by
  cases e with
  | client call =>
    cases call with
    | alloc size isStatic => exact absurd rfl (h size isStatic)
    | free addr => rfl
    | migrate addr target => rfl
  | send command => rfl
  | worker durationMs => rfl

theorem charged_new : Charged [] .new :=
  ⟨by simp [AllocatorState.new, requestedBytes], laid_new, accounted_new⟩

theorem charged_step {capacity : UInt64} {events : List Event} {p : PagerState} {e : Event}
    (h : Charged events p.allocator) (budget : AddressBudget (events ++ [e])) :
    Charged (events ++ [e]) (pagerStep capacity p e).2.allocator := by
  have hb : baseAddr.toNat + requestedBytes events + requested e < 2 ^ 64 := by
    simp only [AddressBudget] at budget
    rw [requestedBytes_snoc] at budget
    omega
  have hcount := h.counter
  rw [allocator_step]
  cases hc : allocatorCall p e with
  | none =>
    have hz := requested_other (p := p) (e := e) (by simp [hc])
    refine ⟨?_, h.laid, h.accounted⟩
    rw [requestedBytes_snoc]
    simp only
    omega
  | some call =>
    have fits : CallFits p.allocator call ∧
        (perform capacity p.allocator call).2.nextAddr.toNat =
          p.allocator.nextAddr.toNat + requested e := by
      cases call with
      | alloc size isStatic =>
        have hr := requested_call hc
        have hex := @alignedSize_exact size (by omega)
        have hfit : CounterFits p.allocator size := by
          simp only [CounterFits]
          omega
        refine ⟨hfit, ?_⟩
        rw [hr, ← hex]
        exact alloc_nextAddr hfit
      | free addr | migrate addr target =>
        rw [@requested_other p e (by simp [hc]), perform_nextAddr_other _ (by simp)]
        exact ⟨trivial, rfl⟩
    refine ⟨?_, laid_perform h.laid call fits.1, accounted_perform h.laid h.accounted call fits.1⟩
    rw [requestedBytes_snoc]
    simp only
    omega

theorem charged_run (capacity : UInt64) (events : List Event) (budget : AddressBudget events) :
    Charged events ((pager capacity).after events).allocator := by
  have h := invariant_after (pager capacity)
    (fun events p => AddressBudget events → Charged events p.allocator)
    (fun _ => charged_new)
    (fun events e ih budget => charged_step (ih (budget_init budget)) budget) events
  exact h budget

section Exact

/-- The counters are sums over the live blocks, subtractions are covered, failures are inert. -/
structure ExactAccounting (p : PagerState) : Prop where
  virtualBytes : p.allocator.allocatedVirtualBytes.toNat = virtualTotal p.allocator
  deviceBytes : p.allocator.allocatedDeviceBytes.toNat = deviceTotal p.allocator
  covered : ∀ a b, p.allocator.allocations.lookup a = some b →
    b.sizeBytes ≤ p.allocator.allocatedVirtualBytes ∧
    (b.domain = .localDevice → b.sizeBytes ≤ p.allocator.allocatedDeviceBytes)
  freeFails : ∀ a e, (free p.allocator a).1 = .error e → (free p.allocator a).2 = p.allocator
  migrateFails : ∀ a target e, (migrate p.allocator a target).1 = .error e →
    (migrate p.allocator a target).2 = p.allocator
  workerFails : ∀ durationMs e, (workerStep p durationMs).1 = .migrated (.error e) →
    (workerStep p durationMs).2.allocator = p.allocator

theorem free_error {s : AllocatorState} {a : UInt64} {e : Failure}
    (h : (free s a).1 = .error e) : (free s a).2 = s := by
  cases hb : s.allocations.lookup a with
  | none => exact (free_unknown hb).1
  | some block =>
    rw [free_live hb] at h
    cases h

theorem migrate_error {s : AllocatorState} {a : UInt64} {target : MemoryDomain} {e : Failure}
    (h : (migrate s a target).1 = .error e) : (migrate s a target).2 = s := by
  cases hb : s.allocations.lookup a with
  | none => exact (migrate_unknown hb).1
  | some block =>
    by_cases hne : block.domain = target
    · subst target
      rw [migrate_same hb]
    · rw [migrate_move hb hne] at h
      cases h

theorem worker_error {p : PagerState} {durationMs : ℚ} {e : Failure}
    (h : (workerStep p durationMs).1 = .migrated (.error e)) :
    (workerStep p durationMs).2.allocator = p.allocator := by
  simp only [workerStep] at *
  cases hp : p.phase with
  | receiving =>
    rw [hp] at h
    simp only at h
    split at h <;> cases h
  | prefetchLookup a ms | evictLookup a =>
    simp only
    split <;> rfl
  | prefetchMetrics a ms => rfl
  | prefetchMigrate a | evictMigrate a =>
    rw [hp] at h
    exact migrate_error (Report.migrated.inj h)
  | stopped => rfl

theorem accounting_exact (capacity : UInt64) (events : List Event)
    (budget : AddressBudget events) : ExactAccounting ((pager capacity).after events) := by
  have h := (charged_run capacity events budget).accounted
  constructor
  · exact h.virtualBytes
  · exact h.deviceBytes
  · intro a b hb; exact block_counted h hb
  · intro a e he; exact free_error he
  · intro a target e he; exact migrate_error he
  · intro durationMs e he; exact worker_error he

theorem accounting_exact_race : ExactAccounting ((pager 4096).after
    [.client (.alloc 4096 true), .client (.alloc 0 false), .client (.alloc 100 false),
      .send (.prefetch 0x1000001000 9), .worker 0, .worker 0, .worker 0,
      .client (.free 0x1000001000), .worker 1]) :=
  accounting_exact 4096 _ (by decide)

end Exact

section Capacity

/-- The bytes a call moves onto the device past the overcommit warning of `migrate`. -/
def overcommitted (capacity : UInt64) (s : AllocatorState) : Call → ℕ
  | .migrate a target =>
    if overcommits capacity s a target then ((s.allocations.lookup a).map virtualWeight).getD 0
    else 0
  | _ => 0

def overcommittedAt (capacity : UInt64) (p : PagerState) (e : Event) : ℕ :=
  ((allocatorCall p e).map (overcommitted capacity p.allocator)).getD 0

def overcommittedBytes (capacity : UInt64) (events : List Event) : ℕ :=
  (pager capacity).tally (overcommittedAt capacity) events

theorem overcommits_move {capacity : UInt64} {s : AllocatorState} {a : UInt64}
    {block : MemoryBlock} (hb : s.allocations.lookup a = some block)
    (hne : block.domain ≠ .localDevice) : overcommits capacity s a .localDevice =
      decide (capacity < releasedDeviceBytes s block + block.sizeBytes) := by
  simp [overcommits, hb, hne]

section DeviceCounter

variable {capacity : UInt64} {s : AllocatorState}

theorem device_alloc (size : UInt64) (isStatic : Bool) :
    (alloc capacity s size isStatic).2.allocatedDeviceBytes.toNat ≤
      max s.allocatedDeviceBytes.toNat capacity.toNat := by
  by_cases hfit : s.allocatedDeviceBytes + alignedSize size ≤ capacity
  · rw [UInt64.le_iff_toNat_le] at hfit
    simp only [alloc, UInt64.le_iff_toNat_le, hfit, decide_true, if_true]
    exact hfit.trans (le_max_right _ _)
  · simp only [alloc, hfit, decide_false, Bool.false_eq_true, if_false]
    exact le_max_left _ _

theorem device_free (h : Accounted s) (a : UInt64) :
    (free s a).2.allocatedDeviceBytes.toNat ≤ s.allocatedDeviceBytes.toNat := by
  cases hb : s.allocations.lookup a with
  | none => rw [(free_unknown hb).1]
  | some block =>
    have hr := released_toNat h hb
    have hd := h.deviceBytes
    rw [free_live hb]
    simp only
    omega

theorem device_migrate (h : Accounted s) (a : UInt64) (target : MemoryDomain) :
    (migrate s a target).2.allocatedDeviceBytes.toNat ≤
      max s.allocatedDeviceBytes.toNat capacity.toNat +
        overcommitted capacity s (.migrate a target) := by
  cases hb : s.allocations.lookup a with
  | none =>
    rw [(migrate_unknown hb).1]
    omega
  | some block =>
    have hr := released_toNat h hb
    have hd := h.deviceBytes
    by_cases hne : block.domain = target
    · subst target
      rw [migrate_same hb]
      simp only
      omega
    · rw [migrate_move hb hne]
      by_cases ht : target = .localDevice
      · subst target
        have hw : deviceWeight block = 0 := by simp [deviceWeight, hne]
        simp only [overcommitted, overcommits_move hb hne, hb, Option.map_some, Option.getD_some,
          virtualWeight, if_true]
        by_cases hover : capacity < releasedDeviceBytes s block + block.sizeBytes
        · have := UInt64.toNat_add (releasedDeviceBytes s block) block.sizeBytes
          have := Nat.mod_le ((releasedDeviceBytes s block).toNat + block.sizeBytes.toNat)
            (2 ^ 64)
          simp only [hover, decide_true, if_true]
          omega
        · rw [UInt64.lt_iff_toNat_lt, not_lt] at hover
          omega
      · simp only [ht, if_false]
        omega

theorem device_call (h : Accounted s) (call : Call) :
    (perform capacity s call).2.allocatedDeviceBytes.toNat ≤
      max s.allocatedDeviceBytes.toNat capacity.toNat + overcommitted capacity s call := by
  cases call with
  | alloc size isStatic => exact (device_alloc size isStatic).trans (Nat.le_add_right _ _)
  | free a =>
    have hfree := device_free h a
    exact hfree.trans ((le_max_left _ _).trans (Nat.le_add_right _ _))
  | migrate a target => exact device_migrate h a target

end DeviceCounter

theorem device_step {capacity : UInt64} {p : PagerState} (h : Accounted p.allocator) (e : Event) :
    (pagerStep capacity p e).2.allocator.allocatedDeviceBytes.toNat ≤
      max p.allocator.allocatedDeviceBytes.toNat capacity.toNat + overcommittedAt capacity p e := by
  rw [allocator_step]
  cases hc : allocatorCall p e with
  | none => simp [overcommittedAt, hc]
  | some call => simpa [overcommittedAt, hc] using device_call h call

def Overcommits (capacity : UInt64) (p : PagerState) (e : Event) : Prop :=
  ∃ a target, allocatorCall p e = some (.migrate a target) ∧
    overcommits capacity p.allocator a target = true

theorem overcommittedAt_pos {capacity : UInt64} {p : PagerState} {e : Event}
    (h : 0 < overcommittedAt capacity p e) : Overcommits capacity p e := by
  simp only [overcommittedAt] at h
  cases hc : allocatorCall p e with
  | none => simp [hc] at h
  | some call =>
    cases call with
    | alloc size isStatic => simp [hc, overcommitted] at h
    | free a => simp [hc, overcommitted] at h
    | migrate a target =>
      refine ⟨a, target, hc, ?_⟩
      by_contra hno
      simp [hc, overcommitted, hno] at h

def deviceAt (capacity : UInt64) (events : List Event) (i : ℕ) : ℕ :=
  ((pager capacity).stateAt events i).allocator.allocatedDeviceBytes.toNat

/-- The bytes above the capacity came past the warning, and an excess that stands now was
opened by such a migration and has only shrunk since. -/
structure ResidencyBound (capacity : UInt64) (events : List Event) : Prop where
  bounded : ((pager capacity).after events).allocator.allocatedDeviceBytes.toNat ≤
    capacity.toNat + overcommittedBytes capacity events
  opened : capacity < ((pager capacity).after events).allocator.allocatedDeviceBytes →
    ∃ i e, events[i]? = some e ∧ Overcommits capacity ((pager capacity).stateAt events i) e ∧
      ∀ j, i < j → j ≤ events.length → capacity.toNat < deviceAt capacity events j ∧
        deviceAt capacity events events.length ≤ deviceAt capacity events j

theorem residency_tally (capacity : UInt64) (events : List Event)
    (budget : AddressBudget events) :
    ((pager capacity).after events).allocator.allocatedDeviceBytes.toNat ≤
      capacity.toNat + overcommittedBytes capacity events := by
  have h := invariant_after (pager capacity)
    (fun events p => AddressBudget events → p.allocator.allocatedDeviceBytes.toNat ≤
      capacity.toNat + overcommittedBytes capacity events)
    (fun _ => by simp [pager, PagerState.new, AllocatorState.new])
    (by
      intro events e ih budget
      have hp := budget_init budget
      have hle := ih hp
      have hstep := @device_step capacity _ (charged_run capacity events hp).accounted e
      change (pagerStep capacity _ e).2.allocator.allocatedDeviceBytes.toNat ≤ _
      rw [overcommittedBytes, tally_snoc]
      simp only [overcommittedBytes] at hle
      omega) events
  exact h budget

/-- The induction is on the position in the run; the excess is passed on by every event
that does not open it anew. -/
theorem excess_opened {capacity : UInt64} {events : List Event} (budget : AddressBudget events)
    (n : ℕ) (hn : n ≤ events.length) (hover : capacity.toNat < deviceAt capacity events n) :
    ∃ i e, events[i]? = some e ∧ Overcommits capacity ((pager capacity).stateAt events i) e ∧
      ∀ j, i < j → j ≤ n → capacity.toNat < deviceAt capacity events j ∧
        deviceAt capacity events n ≤ deviceAt capacity events j := by
  induction n with
  | zero =>
    have h0 : deviceAt capacity events 0 = 0 := by
      simp [deviceAt, pager, PagerState.new, AllocatorState.new]
    omega
  | succ n ih =>
    have he : events[n]? = some events[n] := List.getElem?_eq_getElem hn
    have hacc := (charged_run capacity (events.take n) (budget_take budget n)).accounted
    have hstep := @device_step capacity _ hacc events[n]
    have hsucc : deviceAt capacity events (n + 1) = (pagerStep capacity
        ((pager capacity).stateAt events n) events[n]).2.allocator.allocatedDeviceBytes.toNat := by
      rw [deviceAt, stateAt_succ _ he]
      rfl
    by_cases hopen : 0 < overcommittedAt capacity ((pager capacity).stateAt events n) events[n]
    · refine ⟨n, events[n], he, overcommittedAt_pos hopen, ?_⟩
      intro j hlt hle
      have hj : j = n + 1 := by omega
      subst j
      exact ⟨hover, le_rfl⟩
    · have hle : deviceAt capacity events (n + 1) ≤
          max (deviceAt capacity events n) capacity.toNat := by
        rw [hsucc]
        refine hstep.trans ?_
        simp only [deviceAt, Machine.stateAt] at *
        omega
      obtain ⟨i, e, hi, ho, hall⟩ := ih (by omega) (by omega)
      refine ⟨i, e, hi, ho, ?_⟩
      intro j hij hj
      by_cases hjn : j = n + 1
      · subst j
        exact ⟨hover, le_rfl⟩
      · have := hall j hij (by omega)
        omega

theorem residency_bound (capacity : UInt64) (events : List Event)
    (budget : AddressBudget events) : ResidencyBound capacity events := by
  constructor
  · exact residency_tally capacity events budget
  · intro hover
    apply excess_opened budget events.length le_rfl
    rw [deviceAt, stateAt_length]
    exact UInt64.lt_iff_toNat_lt.mp hover

theorem residency_bound_prefetch : ResidencyBound 4096
    [.client (.alloc 4096 true), .client (.alloc 4096 false), .send (.prefetch 0x1000001000 9),
      .worker 0, .worker 0, .worker 0, .worker 1] :=
  residency_bound 4096 _ (by decide)

/-- A migration past the warning, and a wrapped sum that passes for a fitting one. -/
theorem residency_exceeded :
    4096 < ((pager 4096).after [.client (.alloc 4096 true), .client (.alloc 4096 false),
      .client (.migrate 0x1000001000 .localDevice)]).allocator.allocatedDeviceBytes ∧
    4096 < ((pager 4096).after [.client (.alloc 4096 true),
      .client (.alloc 0xFFFFFFFFFFFFF000 false),
      .client (.free 0x1000000000)]).allocator.allocatedDeviceBytes := by
  constructor <;> decide

end Capacity

end PagerAccounting
