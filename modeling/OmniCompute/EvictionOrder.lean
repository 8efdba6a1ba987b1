import OmniCompute.SlidingPager

/-! What one `slide_window` call leaves behind once the worker has drained its commands.
Every command has one overall effect on the allocator; the worker's small steps refine it,
so the order of the two lists in the queue decides which blocks stay on the device. -/
namespace EvictionOrder

open RustValues DuvasAllocator AllocatorSoundness SlidingPager

def Resident (s : AllocatorState) (a : UInt64) : Prop := getDomain s a = some .localDevice

instance (s : AllocatorState) (a : UInt64) : Decidable (Resident s a) :=
  inferInstanceAs (Decidable (_ = _))

section Commands

def evicted (s : AllocatorState) (a : UInt64) : AllocatorState :=
  if Resident s a then (migrate s a .host).2 else s

def prefetched (s : AllocatorState) (a : UInt64) : AllocatorState :=
  if Resident s a then s else (migrate s a .localDevice).2

/-- Commands are executed in queue order; nothing behind a `Shutdown` is. -/
def executed (s : AllocatorState) : List PageCommand → AllocatorState
  | [] => s
  | .evict a :: rest => executed (evicted s a) rest
  | .prefetch a _ :: rest => executed (prefetched s a) rest
  | .shutdown :: _ => s

theorem migrate_domain (s : AllocatorState) (a b : UInt64) (target : MemoryDomain) :
    getDomain (migrate s a target).2 b =
      if b = a ∧ (getDomain s a).isSome then some target else getDomain s b := by
  rw [getDomain, migrate_lookup]
  by_cases hb : b = a
  · subst b
    cases ha : s.allocations.lookup a <;> simp [getDomain, ha]
  · simp [getDomain, hb]

theorem evicted_domain (s : AllocatorState) (a b : UInt64) :
    getDomain (evicted s a) b = if b = a ∧ Resident s b then some .host else getDomain s b := by
  simp only [evicted]
  by_cases hr : Resident s a
  · have hsome : (getDomain s a).isSome := by rw [hr]; rfl
    rw [if_pos hr, migrate_domain]
    by_cases hb : b = a
    · subst b
      simp [hr, hsome]
    · simp [hb]
  · rw [if_neg hr]
    by_cases hb : b = a
    · subst b
      simp [hr]
    · simp [hb]

theorem prefetched_domain (s : AllocatorState) (a b : UInt64) :
    getDomain (prefetched s a) b =
      if b = a ∧ (getDomain s b).isSome then some .localDevice else getDomain s b := by
  simp only [prefetched]
  by_cases hr : Resident s a
  · rw [if_pos hr]
    by_cases hb : b = a
    · subst b
      rw [hr]
      simp
    · simp [hb]
  · rw [if_neg hr, migrate_domain]
    by_cases hb : b = a
    · subst b
      rfl
    · simp [hb]

theorem evicts_domain (addrs : List UInt64) (s : AllocatorState) (b : UInt64) :
    getDomain (addrs.foldl evicted s) b =
      if b ∈ addrs ∧ Resident s b then some .host else getDomain s b := by
  induction addrs generalizing s with
  | nil => simp
  | cons a rest ih =>
    have hd := evicted_domain s a b
    rw [List.foldl_cons, ih]
    by_cases hr : Resident s b
    · by_cases hb : b = a
      · simp_all [Resident]
      · simp_all [Resident]
    · have hsame : getDomain (evicted s a) b = getDomain s b := by simp [hd, hr]
      have hr' : ¬ Resident (evicted s a) b := by rwa [Resident, hsame]
      simp [hr, hr', hsame]

theorem prefetches_domain (addrs : List UInt64) (s : AllocatorState) (b : UInt64) :
    getDomain (addrs.foldl prefetched s) b =
      if b ∈ addrs ∧ (getDomain s b).isSome then some .localDevice else getDomain s b := by
  induction addrs generalizing s with
  | nil => simp
  | cons a rest ih =>
    have hd := prefetched_domain s a b
    rw [List.foldl_cons, ih, hd]
    by_cases hb : b = a
    · cases hs : (getDomain s b).isSome <;> simp_all
    · simp [hb]

theorem executed_window (s : AllocatorState) (active prefetch evict : List UInt64) (ms : ℚ) :
    executed s (slideWindow active prefetch evict ms) =
      prefetch.foldl prefetched (evict.foldl evicted s) := by
  have hp : ∀ t, executed t (prefetch.map fun a => PageCommand.prefetch a ms) =
      prefetch.foldl prefetched t := by
    induction prefetch with
    | nil => exact fun _ => rfl
    | cons a rest ih => exact fun t => ih (prefetched t a)
  simp only [slideWindow]
  induction evict generalizing s with
  | nil => exact hp s
  | cons a rest ih => exact ih (evicted s a)

/-- The queue brings back exactly those evicted blocks that it also prefetches. -/
theorem window_resident {s : AllocatorState} {active prefetch evict : List UInt64} {ms : ℚ}
    {b : UInt64} (hr : Resident s b) :
    Resident (executed s (slideWindow active prefetch evict ms)) b ↔
      (b ∈ evict → b ∈ prefetch) := by
  have hsome : (getDomain (evict.foldl evicted s) b).isSome := by
    rw [evicts_domain]
    split
    · rfl
    · rw [hr]; rfl
  rw [executed_window, Resident, prefetches_domain]
  by_cases hp : b ∈ prefetch
  · simp [hp, hsome]
  · rw [if_neg (by simp [hp]), evicts_domain]
    by_cases he : b ∈ evict
    · simp [hp, he, hr]
    · rw [if_neg (by simp [he])]
      exact ⟨fun _ hin => absurd hin he, fun _ => hr⟩

end Commands

section Worker

def serve (p : PagerState) (durations : List ℚ) : PagerState :=
  durations.foldl (fun p durationMs => (workerStep p durationMs).2) p

def Idle (p : PagerState) : Prop := p.phase = .receiving ∧ p.queue = []

/-- The allocator the worker is bound to leave when nobody else calls. -/
def finish (p : PagerState) : AllocatorState :=
  match p.phase with
  | .receiving => executed p.allocator p.queue
  | .prefetchLookup a _ => executed (prefetched p.allocator a) p.queue
  | .prefetchMetrics a _ => executed (migrate p.allocator a .localDevice).2 p.queue
  | .prefetchMigrate a => executed (migrate p.allocator a .localDevice).2 p.queue
  | .evictLookup a => executed (evicted p.allocator a) p.queue
  | .evictMigrate a => executed (migrate p.allocator a .host).2 p.queue
  | .stopped => p.allocator

theorem finish_step (p : PagerState) (durationMs : ℚ) :
    finish (workerStep p durationMs).2 = finish p := by
  cases hp : p.phase with
  | receiving =>
    simp only [workerStep, finish, hp]
    rcases hq : p.queue with _ | ⟨a | a | _, rest⟩ <;> simp [hp, hq, executed]
  | prefetchLookup a ms =>
    by_cases hr : getDomain p.allocator a = some .localDevice
    · simp [workerStep, finish, hp, prefetched, Resident, hr]
    · simp [workerStep, finish, hp, prefetched, Resident, hr]
  | prefetchMetrics a ms => simp only [workerStep, finish, hp]
  | prefetchMigrate a => simp only [workerStep, finish, hp]
  | evictLookup a =>
    by_cases hr : getDomain p.allocator a = some .localDevice
    · simp [workerStep, finish, hp, evicted, Resident, hr]
    · simp [workerStep, finish, hp, evicted, Resident, hr]
  | evictMigrate a => simp only [workerStep, finish, hp]
  | stopped => simp [workerStep, finish, hp]

theorem serve_finish (p : PagerState) (durations : List ℚ) :
    finish (serve p durations) = finish p := by
  induction durations generalizing p with
  | nil => rfl
  | cons durationMs rest ih => exact (ih _).trans (finish_step p durationMs)

theorem finish_idle {p : PagerState} (h : Idle p) : finish p = p.allocator := by
  simp [finish, h.1, h.2, executed]

def phaseWork : WorkerPhase → ℕ
  | .receiving => 0
  | .prefetchLookup _ _ => 3
  | .prefetchMetrics _ _ => 2
  | .prefetchMigrate _ => 1
  | .evictLookup _ => 2
  | .evictMigrate _ => 1
  | .stopped => 0

def work (p : PagerState) : ℕ := phaseWork p.phase + 4 * p.queue.length

def Running (p : PagerState) : Prop := p.phase ≠ .stopped ∧ PageCommand.shutdown ∉ p.queue

theorem worker_progress (p : PagerState) (durationMs : ℚ) :
    ((p.phase = .stopped ∨ p.phase = .receiving ∧ p.queue = []) ∧
      (workerStep p durationMs).2 = p) ∨
    (∃ c, p.phase = .receiving ∧ p.queue = c :: (workerStep p durationMs).2.queue ∧
      ((workerStep p durationMs).2.phase = .stopped ↔ c = .shutdown) ∧
      phaseWork (workerStep p durationMs).2.phase ≤ 3) ∨
    ((workerStep p durationMs).2.queue = p.queue ∧ p.phase ≠ .stopped ∧
      (workerStep p durationMs).2.phase ≠ .stopped ∧
      phaseWork (workerStep p durationMs).2.phase < phaseWork p.phase) := by
  cases hp : p.phase with
  | receiving =>
    simp only [workerStep, hp]
    rcases hc : p.queue with _ | ⟨a | a | _, rest⟩
    · exact .inl ⟨.inr ⟨trivial, rfl⟩, rfl⟩
    · exact .inr (.inl ⟨_, trivial, rfl, by simp, le_rfl⟩)
    · exact .inr (.inl ⟨_, trivial, rfl, by simp, by simp [phaseWork]⟩)
    · exact .inr (.inl ⟨_, trivial, rfl, by simp, by simp [phaseWork]⟩)
  | prefetchLookup a ms =>
    simp only [workerStep, hp]
    by_cases hr : getDomain p.allocator a = some .localDevice <;> simp [hr, phaseWork]
  | prefetchMetrics a ms => simp [workerStep, hp, phaseWork]
  | prefetchMigrate a => simp [workerStep, hp, phaseWork]
  | evictLookup a =>
    simp only [workerStep, hp]
    by_cases hr : getDomain p.allocator a = some .localDevice <;> simp [hr, phaseWork]
  | evictMigrate a => simp [workerStep, hp, phaseWork]
  | stopped => simp [workerStep, hp]

theorem running_step {p : PagerState} (h : Running p) (durationMs : ℚ) :
    Running (workerStep p durationMs).2 ∧
      work (workerStep p durationMs).2 ≤ work p - 1 := by
  obtain ⟨hs, hq⟩ := h
  rcases worker_progress p durationMs with
    ⟨hstopped | ⟨hp, hempty⟩, heq⟩ | ⟨c, hp, hc, hstop, hw⟩ | ⟨hsame, _, hs', hw⟩
  · exact absurd hstopped hs
  · rw [heq]
    exact ⟨⟨hs, hq⟩, by simp [work, hp, hempty, phaseWork]⟩
  · rw [hc, List.mem_cons, not_or] at hq
    refine ⟨⟨fun h => hq.1 (hstop.mp h).symm, hq.2⟩, ?_⟩
    rw [work, work, hp, hc, List.length_cons, phaseWork]
    omega
  · refine ⟨⟨hs', hsame ▸ hq⟩, ?_⟩
    rw [work, work, hsame]
    omega

theorem running_serve {p : PagerState} (h : Running p) (durations : List ℚ) :
    Running (serve p durations) ∧ work (serve p durations) ≤ work p - durations.length := by
  induction durations generalizing p with
  | nil => exact ⟨h, by simp [serve]⟩
  | cons durationMs rest ih =>
    obtain ⟨hr, hw⟩ := running_step h durationMs
    obtain ⟨hr', hw'⟩ := ih hr
    refine ⟨hr', hw'.trans ?_⟩
    rw [List.length_cons]
    omega

theorem idle_of_work {p : PagerState} (h : Running p) (hw : work p = 0) : Idle p := by
  have hq : p.queue = [] := List.length_eq_zero_iff.mp (by unfold work at hw; omega)
  have hz : phaseWork p.phase = 0 := by unfold work at hw; omega
  refine ⟨?_, hq⟩
  cases hp : p.phase with
  | receiving => rfl
  | stopped => exact absurd hp h.1
  | prefetchLookup a ms => simp [hp, phaseWork] at hz
  | prefetchMetrics a ms => simp [hp, phaseWork] at hz
  | prefetchMigrate a => simp [hp, phaseWork] at hz
  | evictLookup a => simp [hp, phaseWork] at hz
  | evictMigrate a => simp [hp, phaseWork] at hz

end Worker

def dispatched (s : AllocatorState) (bandwidth : ℚ) (active prefetch evict : List UInt64)
    (ms : ℚ) : PagerState :=
  ⟨s, slideWindow active prefetch evict ms, .receiving, bandwidth⟩

def ActiveProtected (s t : AllocatorState) (active : List UInt64) : Prop :=
  ∀ a ∈ active, Resident s a → Resident t a

theorem dispatched_drains (s : AllocatorState) (bandwidth : ℚ)
    (active prefetch evict : List UInt64) (ms : ℚ) (durations : List ℚ)
    (h : 4 * (evict.length + prefetch.length) ≤ durations.length) :
    Idle (serve (dispatched s bandwidth active prefetch evict ms) durations) := by
  have hrun : Running (dispatched s bandwidth active prefetch evict ms) := by
    simp [Running, dispatched, slideWindow]
  have hwork : work (dispatched s bandwidth active prefetch evict ms) =
      4 * (evict.length + prefetch.length) := by
    simp [work, phaseWork, dispatched, slideWindow]
  obtain ⟨hr, hw⟩ := running_serve hrun durations
  apply idle_of_work hr
  omega

theorem active_protected_iff (s : AllocatorState) (bandwidth : ℚ)
    (active prefetch evict : List UInt64) (ms : ℚ) :
    (∃ n, ∀ durations : List ℚ, n ≤ durations.length →
      Idle (serve (dispatched s bandwidth active prefetch evict ms) durations)) ∧
    ∀ durations, Idle (serve (dispatched s bandwidth active prefetch evict ms) durations) →
      (ActiveProtected s
          (serve (dispatched s bandwidth active prefetch evict ms) durations).allocator active ↔
        ∀ a ∈ active, Resident s a → a ∈ evict → a ∈ prefetch) := by
  refine ⟨⟨_, dispatched_drains s bandwidth active prefetch evict ms⟩, ?_⟩
  intro durations hidle
  have hend : (serve (dispatched s bandwidth active prefetch evict ms) durations).allocator =
      executed s (slideWindow active prefetch evict ms) := by
    rw [← finish_idle hidle, serve_finish]
    rfl
  rw [hend]
  refine forall₂_congr fun a _ => ?_
  exact imp_congr_right fun hr => window_resident hr

/-- An address both active and evicted is moved to the host. -/
theorem active_evicted : ∃ s, Resident s baseAddr ∧
    Idle (serve (dispatched s initialBandwidth [baseAddr] [] [baseAddr] 9) [0, 0, 0]) ∧
    ¬ ActiveProtected s
      (serve (dispatched s initialBandwidth [baseAddr] [] [baseAddr] 9) [0, 0, 0]).allocator
      [baseAddr] := by
  refine ⟨(alloc 4096 .new 4096 true).2, by decide, ⟨by decide, by decide⟩, ?_⟩
  intro h
  exact absurd (h baseAddr (by simp) (by decide)) (by decide)

end EvictionOrder
