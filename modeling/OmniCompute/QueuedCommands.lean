import OmniCompute.EvictionOrder
import Mathlib.Data.List.Induction

/-! A pager from its first window to its end. One thread sends the commands of its calls and at
last `Shutdown`, while the worker takes its steps; the last command about a block decides. -/
namespace QueuedCommands

open DuvasAllocator AllocatorSoundness SlidingPager EvictionOrder

structure Window where
  active : List UInt64
  prefetch : List UInt64
  evict : List UInt64
  accumulatedKernelMs : ℚ

/-- What the call sends. -/
def Window.sends (w : Window) : List PageCommand :=
  slideWindow w.active w.prefetch w.evict w.accumulatedKernelMs

/-- All its evictions, and then its prefetches. -/
def Window.commands (w : Window) : List PageCommand :=
  w.evict.map .evict ++ w.prefetch.map fun a => .prefetch a w.accumulatedKernelMs

def target : PageCommand → Option UInt64
  | .prefetch a _ => some a
  | .evict a => some a
  | .shutdown => none

def lastNaming (a : UInt64) (commands : List PageCommand) : Option PageCommand :=
  (commands.filter (target · = some a)).getLast?

/-- Everything about a block but where it is. -/
def placeless (block : MemoryBlock) : MemoryBlock := { block with domain := .host }

structure AppliedInOrder (s t : AllocatorState) (commands : List PageCommand) : Prop where
  prefetched : ∀ a ms, s.allocations.lookup a ≠ none →
    lastNaming a commands = some (.prefetch a ms) → Resident t a
  evicted : ∀ a, lastNaming a commands = some (.evict a) → ¬ Resident t a
  others : ∀ a, lastNaming a commands = none → t.allocations.lookup a = s.allocations.lookup a
  onlyPlaces : ∀ a,
    (t.allocations.lookup a).map placeless = (s.allocations.lookup a).map placeless

section Effects

def applied (s : AllocatorState) : PageCommand → AllocatorState
  | .evict a => evicted s a
  | .prefetch a _ => prefetched s a
  | .shutdown => s

variable {s : AllocatorState} {a b : UInt64} {c : PageCommand} {commands : List PageCommand}

theorem executed_append (h : PageCommand.shutdown ∉ commands) (more : List PageCommand) :
    executed s (commands ++ more) = executed (commands.foldl applied s) more := by
  induction commands generalizing s with
  | nil => rfl
  | cons c rest ih =>
    rw [List.mem_cons, not_or] at h
    cases c with
    | evict a => exact ih h.2
    | prefetch a ms => exact ih h.2
    | shutdown => exact absurd rfl h.1

theorem applied_cases (s : AllocatorState) (c : PageCommand) : applied s c = s ∨
    ∃ a domain, target c = some a ∧ applied s c = (migrate s a domain).2 := by
  cases c with
  | evict a =>
    simp only [applied, evicted]
    split
    · exact .inr ⟨a, .host, rfl, rfl⟩
    · exact .inl rfl
  | prefetch a ms =>
    simp only [applied, prefetched]
    split
    · exact .inl rfl
    · exact .inr ⟨a, .localDevice, rfl, rfl⟩
  | shutdown => exact .inl rfl

theorem applied_other (h : target c ≠ some b) :
    (applied s c).allocations.lookup b = s.allocations.lookup b := by
  rcases applied_cases s c with heq | ⟨a, domain, ha, heq⟩
  · rw [heq]
  · rw [heq, migrate_lookup, if_neg]
    rintro rfl
    exact h ha

theorem applied_placeless (s : AllocatorState) (c : PageCommand) (b : UInt64) :
    ((applied s c).allocations.lookup b).map placeless =
      (s.allocations.lookup b).map placeless := by
  rcases applied_cases s c with heq | ⟨a, domain, _, heq⟩
  · rw [heq]
  · rw [heq, migrate_lookup]
    split
    · rw [Option.map_map]
      rfl
    · rfl

theorem applied_unallocated (ha : target c = some a) (hs : s.allocations.lookup a = none) :
    applied s c = s := by
  have hr : ¬ Resident s a := by simp [Resident, getDomain, hs]
  cases c with
  | evict b =>
    obtain rfl := Option.some.inj ha
    exact if_neg hr
  | prefetch b ms =>
    obtain rfl := Option.some.inj ha
    rw [applied, prefetched, if_neg hr, (migrate_unknown hs).1]
  | shutdown => cases ha

end Effects

section Order

variable {s t : AllocatorState} {a : UInt64} {c : PageCommand} {commands : List PageCommand}

theorem lastNaming_snoc : lastNaming a (commands ++ [c]) =
    if target c = some a then some c else lastNaming a commands := by
  rw [lastNaming, List.filter_append]
  by_cases h : target c = some a <;> simp [h, lastNaming]

theorem resident_congr (h : t.allocations.lookup a = s.allocations.lookup a) :
    Resident t a ↔ Resident s a := by
  rw [Resident, Resident, getDomain, getDomain, h]

theorem AppliedInOrder.live (h : AppliedInOrder s t commands) (a : UInt64) :
    t.allocations.lookup a = none ↔ s.allocations.lookup a = none := by
  have hplaces := congrArg Option.isNone (h.onlyPlaces a)
  simpa using Bool.eq_iff_iff.mp hplaces

/-- One more command decides about its own block and leaves the others as they are. -/
theorem AppliedInOrder.step (h : AppliedInOrder s t commands) (c : PageCommand) :
    AppliedInOrder s (applied t c) (commands ++ [c]) := by
  refine ⟨?_, ?_, ?_, ?_⟩
  · intro a ms hlive hlast
    rw [lastNaming_snoc] at hlast
    split at hlast
    · obtain rfl := Option.some.inj hlast
      have hsome : (getDomain t a).isSome := by
        have hlive' := (h.live a).not.mpr hlive
        simpa [getDomain, Option.isSome_iff_ne_none] using hlive'
      rw [applied, Resident, prefetched_domain, if_pos ⟨rfl, hsome⟩]
    · rename_i hc
      exact (resident_congr (applied_other hc)).mpr (h.prefetched a ms hlive hlast)
  · intro a hlast
    rw [lastNaming_snoc] at hlast
    split at hlast
    · obtain rfl := Option.some.inj hlast
      rw [applied, Resident, evicted_domain]
      by_cases hr : Resident t a
      · simp [hr]
      · rwa [if_neg (by simp [hr])]
    · rename_i hc
      exact (resident_congr (applied_other hc)).not.mpr (h.evicted a hlast)
  · intro a hlast
    rw [lastNaming_snoc] at hlast
    split at hlast
    · cases hlast
    · rename_i hc
      exact (applied_other hc).trans (h.others a hlast)
  · intro a
    exact (applied_placeless t c a).trans (h.onlyPlaces a)

theorem applied_in_order (s : AllocatorState) (commands : List PageCommand) :
    AppliedInOrder s (commands.foldl applied s) commands := by
  induction commands using List.reverseRecOn with
  | nil =>
    refine ⟨?_, ?_, fun _ _ => rfl, fun _ => rfl⟩
    · intro a ms _ hlast
      cases hlast
    · intro a hlast
      cases hlast
  | append_singleton commands c ih =>
    rw [List.foldl_append]
    exact ih.step c

def aboutLive (s : AllocatorState) (c : PageCommand) : Bool :=
  match target c with
  | some a => (s.allocations.lookup a).isSome
  | none => true

theorem foldl_live (s : AllocatorState) (commands : List PageCommand) :
    (commands.filter (aboutLive s)).foldl applied s = commands.foldl applied s := by
  induction commands using List.reverseRecOn with
  | nil => rfl
  | append_singleton commands c ih =>
    rw [List.filter_append, List.foldl_append, List.foldl_append, ih]
    cases hc : aboutLive s c with
    | true => rw [List.filter_cons_of_pos hc]; rfl
    | false =>
      rw [List.filter_cons_of_neg (by simp [hc])]
      obtain ⟨a, ha, hnone⟩ : ∃ a, target c = some a ∧ s.allocations.lookup a = none := by
        cases ha : target c with
        | none => simp [aboutLive, ha] at hc
        | some a => exact ⟨a, rfl, by simpa [aboutLive, ha] using hc⟩
      have hlive := (applied_in_order s commands).live a
      exact (applied_unallocated ha (hlive.mpr hnone)).symm

end Order

section Runs

def opened (s : AllocatorState) : PagerState := ⟨s, [], .receiving, initialBandwidth⟩

def run (capacity : UInt64) (p : PagerState) (events : List Event) : PagerState :=
  events.foldl (fun p e => (pagerStep capacity p e).2) p

def sent (events : List Event) : List PageCommand :=
  events.filterMap fun e =>
    match e with
    | .send command => some command
    | _ => none

/-- Nobody else calls, and the thread has made its calls and dropped the pager. -/
structure Dropped (calls : List Window) (events : List Event) : Prop where
  alone : ∀ call, Event.client call ∉ events
  sends : sent events = calls.flatMap Window.sends ++ [.shutdown]

/-- `Drop` waits for the worker. -/
def Joined (capacity : UInt64) (s : AllocatorState) (events : List Event) : Prop :=
  (run capacity (opened s) events).phase = .stopped

instance (capacity : UInt64) (s : AllocatorState) (events : List Event) :
    Decidable (Joined capacity s events) :=
  inferInstanceAs (Decidable (_ = _))

/-- What the worker makes of its queue and of the commands still to be sent. -/
def outcome (p : PagerState) (later : List PageCommand) : AllocatorState :=
  finish { p with queue := p.queue ++ later }

variable {capacity : UInt64} {s : AllocatorState} {p : PagerState} {events : List Event}

theorem outcome_worker (durationMs : ℚ) (later : List PageCommand) :
    outcome (workerStep p durationMs).2 later = outcome p later := by
  by_cases hblocked : p.phase = .receiving ∧ p.queue = []
  · rw [workerStep, hblocked.1, hblocked.2]
  · have hmore : (workerStep { p with queue := p.queue ++ later } durationMs).2 =
        { (workerStep p durationMs).2 with
          queue := (workerStep p durationMs).2.queue ++ later } := by
      cases hp : p.phase with
      | receiving =>
        rcases hq : p.queue with _ | ⟨a | a | _, rest⟩
        · exact absurd ⟨hp, hq⟩ hblocked
        all_goals simp [workerStep, hp, hq]
      | prefetchLookup a ms | evictLookup a =>
        simp only [workerStep, hp]
        split <;> rfl
      | prefetchMetrics a ms | prefetchMigrate a | evictMigrate a | stopped =>
        simp only [workerStep, hp]
    rw [outcome, ← hmore, finish_step]
    rfl

/-- The invariant of a run: sending and serving only move commands along. -/
theorem outcome_run (alone : ∀ call, Event.client call ∉ events) (later : List PageCommand) :
    outcome (run capacity p events) later = outcome p (sent events ++ later) := by
  induction events generalizing p with
  | nil => rfl
  | cons e rest ih =>
    have halone : ∀ call, Event.client call ∉ rest := fun call h =>
      alone call (List.mem_cons_of_mem _ h)
    rw [run, List.foldl_cons, ← run, ih halone]
    cases e with
    | client call => exact absurd List.mem_cons_self (alone call)
    | send command => simp [outcome, pagerStep, sent]
    | worker durationMs => exact outcome_worker durationMs _

theorem sends_commands (calls : List Window) :
    calls.flatMap Window.sends = calls.flatMap Window.commands := rfl

theorem no_shutdown (calls : List Window) :
    PageCommand.shutdown ∉ calls.flatMap Window.commands := by
  simp [Window.commands]

theorem finish_stopped (h : p.phase = .stopped) : finish p = p.allocator := by
  rw [finish, h]

theorem joined_allocator {calls : List Window} (h : Dropped calls events)
    (joined : Joined capacity s events) : (run capacity (opened s) events).allocator =
      (calls.flatMap Window.commands).foldl applied s := by
  have hrun := @outcome_run capacity (opened s) events h.alone []
  rw [List.append_nil, h.sends, sends_commands, outcome, finish_stopped (by exact joined)] at hrun
  refine hrun.trans ?_
  change executed s (calls.flatMap Window.commands ++ [.shutdown]) = _
  rw [executed_append (no_shutdown calls)]
  rfl

def Closing (p : PagerState) : Prop := p.phase = .stopped ∨ PageCommand.shutdown ∈ p.queue

def remaining (p : PagerState) : ℕ := if p.phase = .stopped then 0 else work p + 1

theorem closing_step (h : Closing p) (durationMs : ℚ) :
    Closing (workerStep p durationMs).2 ∧
      remaining (workerStep p durationMs).2 ≤ remaining p - 1 := by
  rcases worker_progress p durationMs with
    ⟨hstopped | ⟨hp, hempty⟩, heq⟩ | ⟨c, hp, hc, hstop, hw⟩ | ⟨hsame, hs, hs', hw⟩
  · rw [heq]
    exact ⟨h, by simp [remaining, hstopped]⟩
  · simp [Closing, hp, hempty] at h
  · by_cases hlast : c = .shutdown
    · have hend := hstop.mpr hlast
      exact ⟨.inl hend, by simp [remaining, hend]⟩
    · have hrest : PageCommand.shutdown ∈ (workerStep p durationMs).2.queue := by
        simpa [Closing, hp, hc, Ne.symm hlast] using h
      have hwork : work p = 4 * ((workerStep p durationMs).2.queue.length + 1) := by
        simp [work, hp, hc, phaseWork]
      refine ⟨.inr hrest, ?_⟩
      simp only [remaining, hp, hstop, hlast, reduceCtorEq, if_false, hwork]
      simp only [work]
      omega
  · have hrest := hsame ▸ h.resolve_left hs
    refine ⟨.inr hrest, ?_⟩
    simp only [remaining, hs, hs', if_false, work, hsame]
    omega

theorem closing_serve (h : Closing p) (durations : List ℚ) :
    Closing (serve p durations) ∧
      remaining (serve p durations) ≤ remaining p - durations.length := by
  induction durations generalizing p with
  | nil => exact ⟨h, by simp [serve]⟩
  | cons durationMs rest ih =>
    obtain ⟨hc, hr⟩ := closing_step h durationMs
    obtain ⟨hc', hr'⟩ := ih hc
    refine ⟨hc', hr'.trans ?_⟩
    rw [List.length_cons]
    omega

theorem closing_run (alone : ∀ call, Event.client call ∉ events)
    (h : PageCommand.shutdown ∈ sent events) : Closing (run capacity p events) := by
  induction events using List.reverseRecOn with
  | nil => cases h
  | append_singleton events e ih =>
    have halone : ∀ call, Event.client call ∉ events := fun call h =>
      alone call (List.mem_append_left _ h)
    rw [run, List.foldl_append, ← run]
    cases e with
    | client call => exact absurd (List.mem_append_right _ List.mem_cons_self) (alone call)
    | send command =>
      rw [sent, List.filterMap_append, ← sent, List.mem_append] at h
      rcases h with h | h
      · exact (ih halone h).imp id fun hq => List.mem_append_left _ hq
      · exact .inr (List.mem_append_right _ h)
    | worker durationMs =>
      rw [sent, List.filterMap_append, ← sent, List.mem_append] at h
      rcases h with h | h
      · exact (closing_step (ih halone h) durationMs).1
      · cases h

theorem run_serve (durations : List ℚ) :
    run capacity p (events ++ durations.map .worker) = serve (run capacity p events) durations := by
  rw [run, List.foldl_append, List.foldl_map]
  rfl

theorem joins {calls : List Window} (h : Dropped calls events) (durations : List ℚ)
    (hlen : remaining (run capacity (opened s) events) ≤ durations.length) :
    Joined capacity s (events ++ durations.map .worker) := by
  have hclosing : Closing (run capacity (opened s) events) := by
    apply closing_run h.alone
    rw [h.sends]
    simp
  obtain ⟨_, hrest⟩ := closing_serve hclosing durations
  rw [Joined, run_serve]
  by_contra hne
  rw [remaining, if_neg hne] at hrest
  omega

end Runs

theorem queued_commands_applied (capacity : UInt64) (s : AllocatorState) (calls : List Window)
    (events : List Event) (h : Dropped calls events) :
    (∃ n, ∀ durations : List ℚ, n ≤ durations.length →
      Joined capacity s (events ++ durations.map .worker)) ∧
    (Joined capacity s events →
      AppliedInOrder s (run capacity (opened s) events).allocator
        (calls.flatMap Window.commands) ∧
      ∀ calls' events', Dropped calls' events' → Joined capacity s events' →
        calls'.flatMap Window.commands =
          (calls.flatMap Window.commands).filter (aboutLive s) →
        (run capacity (opened s) events').allocator =
          (run capacity (opened s) events).allocator) := by
  refine ⟨⟨_, joins h⟩, ?_⟩
  intro joined
  rw [joined_allocator h joined]
  refine ⟨applied_in_order s _, ?_⟩
  intro calls' events' h' joined' hlive
  rw [joined_allocator h' joined', hlive, foldl_live]

def windows : List Window :=
  [⟨[], [baseAddr, 8], [baseAddr], 9⟩, ⟨[], [], [baseAddr], 9⟩]

def windowsRun : List Event :=
  [.send (.evict baseAddr), .worker 1, .send (.prefetch baseAddr 9), .worker 1,
    .send (.prefetch 8 9), .send (.evict baseAddr), .send .shutdown] ++
    List.replicate 13 (.worker 1)

theorem queued_commands_applied_windows :
    ¬ Resident (run 4096 (opened (alloc 4096 .new 4096 true).2) windowsRun).allocator baseAddr := by
  have h : Dropped windows windowsRun := by
    refine ⟨?_, by decide⟩
    intro call hmem
    simp [windowsRun] at hmem
  have joined : Joined 4096 (alloc 4096 .new 4096 true).2 windowsRun := by decide
  exact ((queued_commands_applied 4096 _ windows windowsRun h).2 joined).1.evicted baseAddr
    (by decide)

end QueuedCommands
