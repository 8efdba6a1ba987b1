import OmniCompute.AllocatorSoundness
import Mathlib.Algebra.Order.Ring.Rat

/-! The sliding pager: commands in an unbounded channel and one worker thread.
The worker's lookup and its migration are separate locked calls, so its position between
them is part of the state and client calls may come in between. Times and bandwidths are
exact; a measured duration is an input of the step that measures it. -/
namespace SlidingPager

open RustValues EventRuns DuvasAllocator AllocatorSoundness

inductive PageCommand where
  | prefetch (virtualAddr : UInt64) (estimatedKernelMs : ℚ)
  | evict (virtualAddr : UInt64)
  | shutdown
  deriving DecidableEq

/-- The commands one call sends, in order. `active` is only counted for a log line. -/
def slideWindow (_active prefetch evict : List UInt64) (accumulatedKernelMs : ℚ) :
    List PageCommand :=
  evict.map .evict ++ prefetch.map fun a => .prefetch a accumulatedKernelMs

def initialBandwidth : ℚ := 15
def overheadMs : ℚ := 4 / 5

/-- The fixed 64 MB every transfer is taken to move. -/
def blockSizeMb : ℚ := 64

def expectedTransferMs (bandwidth : ℚ) : ℚ := blockSizeMb / bandwidth

def slackMargin (bandwidth estimatedKernelMs : ℚ) : ℚ :=
  estimatedKernelMs - expectedTransferMs bandwidth - overheadMs

/-- The estimator moves only on transfers that took measurably long. -/
def refineBandwidth (bandwidth durationMs : ℚ) : ℚ :=
  if durationMs > 1 / 10 then 4 / 5 * bandwidth + 1 / 5 * (blockSizeMb / durationMs)
  else bandwidth

inductive WorkerPhase where
  | receiving
  | prefetchLookup (virtualAddr : UInt64) (estimatedKernelMs : ℚ)
  | prefetchMetrics (virtualAddr : UInt64) (estimatedKernelMs : ℚ)
  | prefetchMigrate (virtualAddr : UInt64)
  | evictLookup (virtualAddr : UInt64)
  | evictMigrate (virtualAddr : UInt64)
  | stopped
  deriving DecidableEq

structure PagerState where
  allocator : AllocatorState
  queue : List PageCommand
  phase : WorkerPhase
  bandwidth : ℚ

def PagerState.new : PagerState := ⟨.new, [], .receiving, initialBandwidth⟩

inductive Report where
  | silent
  | reply (result : Result (Option UInt64))
  | latency (virtualAddr : UInt64) (hidden : Bool)
  | migrated (result : Result Unit)

/-- One step of the worker; an empty queue leaves it blocked in `recv`. -/
def workerStep (p : PagerState) (durationMs : ℚ) : Report × PagerState :=
  match p.phase with
  | .receiving =>
    match p.queue with
    | [] => (.silent, p)
    | .prefetch a ms :: rest => (.silent, { p with queue := rest, phase := .prefetchLookup a ms })
    | .evict a :: rest => (.silent, { p with queue := rest, phase := .evictLookup a })
    | .shutdown :: rest => (.silent, { p with queue := rest, phase := .stopped })
  | .prefetchLookup a ms =>
    if getDomain p.allocator a = some .localDevice then (.silent, { p with phase := .receiving })
    else (.silent, { p with phase := .prefetchMetrics a ms })
  | .prefetchMetrics a ms =>
    (.latency a (decide (0 ≤ slackMargin p.bandwidth ms)), { p with phase := .prefetchMigrate a })
  | .prefetchMigrate a =>
    (.migrated (migrate p.allocator a .localDevice).1,
      { p with
        allocator := (migrate p.allocator a .localDevice).2
        phase := .receiving
        bandwidth :=
          if (migrate p.allocator a .localDevice).1.isOk then refineBandwidth p.bandwidth durationMs
          else p.bandwidth })
  | .evictLookup a =>
    if getDomain p.allocator a = some .localDevice then
      (.silent, { p with phase := .evictMigrate a })
    else (.silent, { p with phase := .receiving })
  | .evictMigrate a =>
    (.migrated (migrate p.allocator a .host).1,
      { p with allocator := (migrate p.allocator a .host).2, phase := .receiving })
  | .stopped => (.silent, p)

/-- A client's allocator call, one `send` into the channel, or a step of the worker. -/
inductive Event where
  | client (call : Call)
  | send (command : PageCommand)
  | worker (durationMs : ℚ)
  deriving DecidableEq

def pagerStep (capacity : UInt64) (p : PagerState) : Event → Report × PagerState
  | .client call =>
    (.reply (perform capacity p.allocator call).1,
      { p with allocator := (perform capacity p.allocator call).2 })
  | .send command => (.silent, { p with queue := p.queue ++ [command] })
  | .worker durationMs => workerStep p durationMs

def pager (capacity : UInt64) : Machine PagerState Event Report := ⟨.new, pagerStep capacity⟩

def allocatorCall (p : PagerState) : Event → Option Call
  | .client call => some call
  | .send _ => none
  | .worker _ =>
    match p.phase with
    | .prefetchMigrate a => some (.migrate a .localDevice)
    | .evictMigrate a => some (.migrate a .host)
    | _ => none

/-- Whoever acts, the allocator moves by at most one locked call. -/
theorem allocator_step (capacity : UInt64) (p : PagerState) (e : Event) :
    (pagerStep capacity p e).2.allocator =
      match allocatorCall p e with
      | some call => (perform capacity p.allocator call).2
      | none => p.allocator := by
  cases e with
  | client call => rfl
  | send command => rfl
  | worker durationMs =>
    simp only [pagerStep, workerStep, allocatorCall]
    cases hp : p.phase with
    | receiving | prefetchLookup a ms | evictLookup a =>
      simp only
      split <;> rfl
    | prefetchMetrics a ms | prefetchMigrate a | evictMigrate a | stopped => rfl

theorem allocatorCall_alloc {p : PagerState} {e : Event} {size : UInt64} {isStatic : Bool}
    (h : allocatorCall p e = some (.alloc size isStatic)) : e = .client (.alloc size isStatic) := by
  cases e with
  | client call => simpa [allocatorCall] using h
  | send command => simp [allocatorCall] at h
  | worker durationMs =>
    simp only [allocatorCall] at h
    split at h <;> simp at h

end SlidingPager
