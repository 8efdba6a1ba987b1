import OmniCompute.MovingAverage
import OmniCompute.SlidingPager
import Mathlib.Tactic.NormNum
import Mathlib.Tactic.Positivity

/-! The worker's latency verdict against the constraint the pager states. The constraint is
about the block that is transferred and about the throughputs measured before; the worker takes
every block for one of 64 MB, in the verdict and in each throughput. -/
namespace LatencyVerdicts

open RustValues EventRuns MovingAverage DuvasAllocator AllocatorSoundness SlidingPager

section History

structure Transfer where
  movedBytes : ℕ
  durationMs : ℚ

def megabytes (bytes : ℕ) : ℚ := bytes / 1024 / 1024

def movedBytes (block : MemoryBlock) : ℕ :=
  if block.domain = .localDevice then 0 else block.sizeBytes.toNat

/-- The transfer an event completes. A block freed in the meantime makes it fail. -/
def completed (p : PagerState) : Event → Option Transfer
  | .worker durationMs =>
    match p.phase with
    | .prefetchMigrate a =>
      (p.allocator.allocations.lookup a).map fun block => ⟨movedBytes block, durationMs⟩
    | _ => none
  | _ => none

def transfers (capacity : UInt64) (events : List Event) (i : ℕ) : List Transfer :=
  (List.range i).filterMap fun k =>
    events[k]?.bind (completed ((pager capacity).stateAt events k))

/-- `duration > 0.1` -/
def Transfer.Measurable (t : Transfer) : Prop := 1 / 10 < t.durationMs

instance (t : Transfer) : Decidable t.Measurable := inferInstanceAs (Decidable (_ < _))

def assumedThroughputs (ts : List Transfer) : List ℚ :=
  (ts.filter fun t => t.Measurable).map fun t => blockSizeMb / t.durationMs

/-- The throughputs of what was really moved; a block that was there already has none. -/
def trueThroughputs (ts : List Transfer) : List ℚ :=
  (ts.filter fun t => t.Measurable ∧ 0 < t.movedBytes).map fun t =>
    megabytes t.movedBytes / t.durationMs

def estimate (capacity : UInt64) (events : List Event) (i : ℕ) : ℚ :=
  average (1 / 5) initialBandwidth (assumedThroughputs (transfers capacity events i))

def trueEstimate (capacity : UInt64) (events : List Event) (i : ℕ) : ℚ :=
  average (1 / 5) initialBandwidth (trueThroughputs (transfers capacity events i))

end History

section Verdicts

variable (capacity : UInt64) (events : List Event)

/-- At point `i` the worker judges a prefetch that its lookup did not find resident. -/
def Judges (i : ℕ) (a : UInt64) (kernelMs : ℚ) : Prop :=
  ((pager capacity).stateAt events i).phase = .prefetchMetrics a kernelMs ∧
    ∃ durationMs, events[i]? = some (.worker durationMs)

def liveAt (i : ℕ) (a : UInt64) : Option MemoryBlock :=
  ((pager capacity).stateAt events i).allocator.allocations.lookup a

/-- The stated constraint: the block's own size, and the throughputs of what was moved. -/
def DocumentedHidden (i : ℕ) (block : MemoryBlock) (kernelMs : ℚ) : Prop :=
  megabytes block.sizeBytes.toNat / trueEstimate capacity events i ≤ kernelMs - overheadMs

/-- The constraint with 64 MB in the place of every size. -/
def TypicalHidden (i : ℕ) (kernelMs : ℚ) : Prop :=
  blockSizeMb / estimate capacity events i ≤ kernelMs - overheadMs

instance (i : ℕ) (block : MemoryBlock) (kernelMs : ℚ) :
    Decidable (DocumentedHidden capacity events i block kernelMs) :=
  inferInstanceAs (Decidable (_ ≤ _))

instance (i : ℕ) (kernelMs : ℚ) : Decidable (TypicalHidden capacity events i kernelMs) :=
  inferInstanceAs (Decidable (_ ≤ _))

end Verdicts

section Estimator

variable {capacity : UInt64} {events : List Event} {p : PagerState} {i : ℕ}

theorem bandwidth_step (e : Event) : (pagerStep capacity p e).2.bandwidth =
    match completed p e with
    | some t => refineBandwidth p.bandwidth t.durationMs
    | none => p.bandwidth := by
  cases e with
  | client call => rfl
  | send command => rfl
  | worker durationMs =>
    simp only [pagerStep, workerStep, completed]
    cases hp : p.phase with
    | receiving | prefetchLookup a ms | evictLookup a =>
      simp only
      split <;> rfl
    | prefetchMigrate a =>
      cases hb : p.allocator.allocations.lookup a with
      | none => simp [migrate, hb, Result.isOk]
      | some block =>
        by_cases hd : block.domain = .localDevice <;> simp [migrate, hb, hd, Result.isOk]
    | prefetchMetrics a ms | evictMigrate a | stopped => rfl

theorem transfers_succ : transfers capacity events (i + 1) = transfers capacity events i ++
    (events[i]?.bind (completed ((pager capacity).stateAt events i))).toList := by
  rw [transfers, List.range_succ, List.filterMap_append, ← transfers]
  cases h : events[i]?.bind (completed ((pager capacity).stateAt events i)) <;> simp [h]

theorem estimate_step (ts : List Transfer) (t : Transfer) :
    average (1 / 5) initialBandwidth (assumedThroughputs (ts ++ [t])) =
      refineBandwidth (average (1 / 5) initialBandwidth (assumedThroughputs ts)) t.durationMs := by
  by_cases hlong : t.Measurable
  · have hsnoc : assumedThroughputs (ts ++ [t]) =
        assumedThroughputs ts ++ [blockSizeMb / t.durationMs] := by
      simp [assumedThroughputs, List.filter_append, hlong]
    rw [hsnoc, average_snoc, refineBandwidth, if_pos (show t.durationMs > 1 / 10 from hlong)]
    norm_num
  · have hsame : assumedThroughputs (ts ++ [t]) = assumedThroughputs ts := by
      simp [assumedThroughputs, List.filter_append, hlong]
    rw [hsame, refineBandwidth, if_neg (show ¬ t.durationMs > 1 / 10 from hlong)]

theorem bandwidth_eq_estimate (capacity : UInt64) (events : List Event) (i : ℕ) :
    ((pager capacity).stateAt events i).bandwidth = estimate capacity events i := by
  induction i with
  | zero => rfl
  | succ i ih =>
    rw [estimate, transfers_succ]
    cases he : events[i]? with
    | none =>
      rw [stateAt_end _ he, ih]
      simp [estimate]
    | some e =>
      have hstep := @bandwidth_step capacity ((pager capacity).stateAt events i) e
      rw [stateAt_succ _ he, Option.bind_some]
      change (pagerStep capacity _ e).2.bandwidth = _
      rw [hstep]
      cases hc : completed ((pager capacity).stateAt events i) e with
      | none => simp [ih, estimate]
      | some t =>
        rw [Option.toList_some, estimate_step, ih]
        rfl

theorem Transfer.Measurable.pos {t : Transfer} (h : t.Measurable) : 0 < t.durationMs :=
  lt_trans (by norm_num) h

theorem estimate_pos : 0 < estimate capacity events i := by
  apply average_pos (by norm_num) (by norm_num) (by norm_num [initialBandwidth])
  intro x hx
  obtain ⟨t, ht, rfl⟩ := List.mem_map.mp hx
  have hlong : t.Measurable := by simpa using (List.mem_filter.mp ht).2
  exact div_nonneg (by norm_num [blockSizeMb]) hlong.pos.le

theorem trueEstimate_pos : 0 < trueEstimate capacity events i := by
  apply average_pos (by norm_num) (by norm_num) (by norm_num [initialBandwidth])
  intro x hx
  obtain ⟨t, ht, rfl⟩ := List.mem_map.mp hx
  have hlong : t.Measurable ∧ 0 < t.movedBytes := by simpa using (List.mem_filter.mp ht).2
  have hsize : 0 ≤ megabytes t.movedBytes := by
    unfold megabytes
    positivity
  exact div_nonneg hsize hlong.1.pos.le

end Estimator

section Typical

variable {capacity : UInt64} {events : List Event} {i : ℕ}

/-- The two constraints agree on every kernel time iff they are about the same latency. -/
theorem hidden_iff (block : MemoryBlock) :
    (∀ kernelMs, TypicalHidden capacity events i kernelMs ↔
      DocumentedHidden capacity events i block kernelMs) ↔
    megabytes block.sizeBytes.toNat * estimate capacity events i =
      blockSizeMb * trueEstimate capacity events i := by
  have hest : estimate capacity events i ≠ 0 := estimate_pos.ne'
  have htrue : trueEstimate capacity events i ≠ 0 := trueEstimate_pos.ne'
  have hsame : blockSizeMb / estimate capacity events i =
      megabytes block.sizeBytes.toNat / trueEstimate capacity events i ↔
      megabytes block.sizeBytes.toNat * estimate capacity events i =
        blockSizeMb * trueEstimate capacity events i := by
    rw [div_eq_div_iff hest htrue, eq_comm]
  rw [← hsame]
  constructor
  · intro h
    -- each latency is itself a kernel time that just suffices, up to the overhead
    have hle := (h (megabytes block.sizeBytes.toNat / trueEstimate capacity events i +
      overheadMs)).mpr (by rw [DocumentedHidden, add_sub_cancel_right])
    have hge := (h (blockSizeMb / estimate capacity events i + overheadMs)).mp
      (by rw [TypicalHidden, add_sub_cancel_right])
    rw [TypicalHidden, add_sub_cancel_right] at hle
    rw [DocumentedHidden, add_sub_cancel_right] at hge
    exact le_antisymm hle hge
  · intro h kernelMs
    rw [TypicalHidden, DocumentedHidden, h]

def typicalBytes : ℕ := 64 * 1024 * 1024

theorem megabytes_eq_iff (bytes : ℕ) : megabytes bytes = blockSizeMb ↔ bytes = typicalBytes := by
  have hscale : megabytes bytes = blockSizeMb ↔ (bytes : ℚ) = ((64 * 1024 * 1024 : ℕ) : ℚ) := by
    rw [megabytes, blockSizeMb, div_div, div_eq_iff (by norm_num)]
    norm_num
  rw [hscale, Nat.cast_inj, typicalBytes]

theorem estimates_agree (h : ∀ t ∈ transfers capacity events i, t.movedBytes = typicalBytes) :
    estimate capacity events i = trueEstimate capacity events i := by
  have hthroughputs : assumedThroughputs (transfers capacity events i) =
      trueThroughputs (transfers capacity events i) := by
    have hmoved : ∀ t ∈ transfers capacity events i,
        decide t.Measurable = decide (t.Measurable ∧ 0 < t.movedBytes) := by
      intro t ht
      have hpos : 0 < t.movedBytes := by
        rw [h t ht]
        decide
      simp [hpos]
    rw [assumedThroughputs, trueThroughputs, List.filter_congr hmoved]
    apply List.map_congr_left
    intro t ht
    rw [(megabytes_eq_iff t.movedBytes).mpr (h t (List.mem_of_mem_filter ht))]
  rw [estimate, trueEstimate, hthroughputs]

/-- No client calls the allocator between a prefetch's lookup and its migration. -/
def Undisturbed (capacity : UInt64) (events : List Event) : Prop :=
  ∀ k call, events[k]? = some (.client call) → ∀ a,
    ((pager capacity).stateAt events k).phase ≠ .prefetchMigrate a ∧
    ∀ kernelMs, ((pager capacity).stateAt events k).phase ≠ .prefetchMetrics a kernelMs

/-- What the phases of an undisturbed prefetch still know of the lookup and the verdict, while
all blocks judged so far had 64 MB. -/
structure Remembered (p : PagerState) (past : List Transfer) : Prop where
  moved : ∀ t ∈ past, t.movedBytes = typicalBytes
  looked : ∀ a kernelMs, p.phase = .prefetchMetrics a kernelMs →
    getDomain p.allocator a ≠ some .localDevice
  judged : ∀ a block, p.phase = .prefetchMigrate a →
    p.allocator.allocations.lookup a = some block → movedBytes block = typicalBytes

theorem worker_prefetches (p : PagerState) (durationMs : ℚ) :
    (∀ a kernelMs, (workerStep p durationMs).2.phase = .prefetchMetrics a kernelMs →
      (workerStep p durationMs).2.allocator = p.allocator ∧
        getDomain p.allocator a ≠ some .localDevice) ∧
    ∀ a, (workerStep p durationMs).2.phase = .prefetchMigrate a →
      (workerStep p durationMs).2.allocator = p.allocator ∧
        ∃ kernelMs, p.phase = .prefetchMetrics a kernelMs := by
  cases hp : p.phase with
  | receiving =>
    rcases hq : p.queue with _ | ⟨b | b | _, rest⟩ <;> simp [workerStep, hp, hq]
  | prefetchLookup b ms =>
    by_cases hd : getDomain p.allocator b = some .localDevice
    · simp [workerStep, hp, hd]
    · simp only [workerStep, hp, hd, if_false]
      refine ⟨?_, fun a h => ?_⟩
      · rintro a kernelMs ⟨⟩
        exact ⟨trivial, hd⟩
      · cases h
  | prefetchMetrics b ms =>
    simp only [workerStep, hp]
    refine ⟨fun a kernelMs h => ?_, ?_⟩
    · cases h
    · rintro a ⟨⟩
      exact ⟨trivial, ms, rfl⟩
  | evictLookup b =>
    by_cases hd : getDomain p.allocator b = some .localDevice <;> simp [workerStep, hp, hd]
  | prefetchMigrate b | evictMigrate b | stopped => simp [workerStep, hp]

theorem completed_worker {p : PagerState} {e : Event} {t : Transfer}
    (h : completed p e = some t) : ∃ a block, p.phase = .prefetchMigrate a ∧
      p.allocator.allocations.lookup a = some block ∧ t.movedBytes = movedBytes block := by
  cases e with
  | client call => cases h
  | send command => cases h
  | worker durationMs =>
    simp only [completed] at h
    split at h
    · rename_i a hp
      obtain ⟨block, hb, rfl⟩ := Option.map_eq_some_iff.mp h
      exact ⟨a, block, hp, hb, rfl⟩
    · cases h

theorem Remembered.step {p : PagerState} {past : List Transfer} (h : Remembered p past)
    (e : Event)
    (quiet : ∀ call, e = .client call → ∀ a, p.phase ≠ .prefetchMigrate a ∧
      ∀ kernelMs, p.phase ≠ .prefetchMetrics a kernelMs)
    (typical : ∀ durationMs a kernelMs block, e = .worker durationMs →
      p.phase = .prefetchMetrics a kernelMs → p.allocator.allocations.lookup a = some block →
      block.sizeBytes.toNat = typicalBytes) :
    Remembered (pagerStep capacity p e).2 (past ++ (completed p e).toList) := by
  have moved : ∀ t ∈ past ++ (completed p e).toList, t.movedBytes = typicalBytes := by
    intro t ht
    rcases List.mem_append.mp ht with ht | ht
    · exact h.moved t ht
    · obtain ⟨a, block, hp, hb, hsize⟩ := completed_worker (Option.mem_toList.mp ht)
      exact hsize.trans (h.judged a block hp hb)
  cases e with
  | client call =>
    refine ⟨moved, fun a ms hp => ?_, fun a block hp => ?_⟩
    · exact absurd hp ((quiet call rfl a).2 ms)
    · exact absurd hp (quiet call rfl a).1
  | send command => exact ⟨moved, h.looked, h.judged⟩
  | worker durationMs =>
    refine ⟨moved, fun a ms hp => ?_, fun a block hp hb => ?_⟩
    · obtain ⟨hsame, hd⟩ := (worker_prefetches p durationMs).1 a ms hp
      change getDomain (workerStep p durationMs).2.allocator a ≠ _
      rwa [hsame]
    · obtain ⟨hsame, ms, hms⟩ := (worker_prefetches p durationMs).2 a hp
      change (workerStep p durationMs).2.allocator.allocations.lookup a = _ at hb
      rw [hsame] at hb
      have hd : block.domain ≠ .localDevice := by
        intro hlocal
        exact h.looked a ms hms (by rw [getDomain, hb, Option.map_some, hlocal])
      rw [movedBytes, if_neg hd]
      exact typical durationMs a ms block rfl hms hb

/-- The induction is on the point of the run; the verdicts before it carry the sizes. -/
theorem remembered_run (quiet : Undisturbed capacity events) {n : ℕ}
    (typical : ∀ i < n, ∀ a kernelMs block, Judges capacity events i a kernelMs →
      liveAt capacity events i a = some block → block.sizeBytes.toNat = typicalBytes) :
    Remembered ((pager capacity).stateAt events n) (transfers capacity events n) := by
  induction n with
  | zero =>
    refine ⟨fun t ht => ?_, fun a ms hp => ?_, fun a block hp => ?_⟩
    · cases ht
    · cases hp
    · cases hp
  | succ n ih =>
    have hn := ih fun i hi => typical i (Nat.lt_succ_of_lt hi)
    rw [transfers_succ]
    cases he : events[n]? with
    | none => simpa [stateAt_end _ he] using hn
    | some e =>
      rw [stateAt_succ _ he, Option.bind_some]
      apply hn.step e
      · rintro call rfl
        exact quiet n call he
      · rintro durationMs a ms block rfl hp hb
        exact typical n (Nat.lt_succ_self n) a ms block ⟨hp, durationMs, he⟩ hb

def VerdictsDocumented (capacity : UInt64) (events : List Event) : Prop :=
  ∀ i a kernelMs block, Judges capacity events i a kernelMs →
    liveAt capacity events i a = some block →
    ∀ k, TypicalHidden capacity events i k ↔ DocumentedHidden capacity events i block k

/-- Errors in the verdict and in the estimator do not make up for each other. -/
theorem verdicts_documented_iff (quiet : Undisturbed capacity events) :
    VerdictsDocumented capacity events ↔ ∀ i a kernelMs block,
      Judges capacity events i a kernelMs → liveAt capacity events i a = some block →
      block.sizeBytes.toNat = typicalBytes := by
  have agree : ∀ i, (∀ j < i, ∀ a kernelMs block, Judges capacity events j a kernelMs →
      liveAt capacity events j a = some block → block.sizeBytes.toNat = typicalBytes) →
      ∀ block, (∀ k, TypicalHidden capacity events i k ↔
        DocumentedHidden capacity events i block k) ↔ block.sizeBytes.toNat = typicalBytes := by
    intro i typical block
    rw [hidden_iff, estimates_agree (remembered_run quiet typical).moved,
      mul_left_inj' trueEstimate_pos.ne', megabytes_eq_iff]
  constructor
  · intro h i
    induction i using Nat.strong_induction_on with
    | _ i ih =>
      intro a ms block hjudges hlive
      exact (agree i ih block).mp (h i a ms block hjudges hlive)
  · intro typical i a ms block hjudges hlive
    exact (agree i (fun j _ => typical j) block).mpr (typical i a ms block hjudges hlive)

end Typical

theorem verdict_output {capacity : UInt64} {events : List Event} {i : ℕ} {a : UInt64}
    {kernelMs : ℚ} (h : Judges capacity events i a kernelMs) :
    (pager capacity).outputAt events i =
      some (.latency a (decide (TypicalHidden capacity events i kernelMs))) := by
  obtain ⟨hp, durationMs, he⟩ := h
  have hmargin : 0 ≤ slackMargin ((pager capacity).stateAt events i).bandwidth kernelMs ↔
      TypicalHidden capacity events i kernelMs := by
    rw [bandwidth_eq_estimate, slackMargin, expectedTransferMs, TypicalHidden, sub_sub,
      sub_nonneg, le_sub_iff_add_le]
  rw [outputAt_eq _ he, ← decide_eq_decide.mpr hmargin]
  change some (workerStep ((pager capacity).stateAt events i) durationMs).1 = _
  rw [workerStep, hp]

/-- The verdict compares the time for 64 MB at the averaged rate of 64 MB transfers, and it is
the documented one for every kernel time iff the block takes exactly that time. -/
theorem verdict_by_typical_size (capacity : UInt64) (events : List Event) (i : ℕ) (a : UInt64)
    (kernelMs : ℚ) (h : Judges capacity events i a kernelMs) :
    (pager capacity).outputAt events i =
      some (.latency a (decide (TypicalHidden capacity events i kernelMs))) ∧
    ∀ block, liveAt capacity events i a = some block →
      ((∀ k, TypicalHidden capacity events i k ↔ DocumentedHidden capacity events i block k) ↔
        megabytes block.sizeBytes.toNat * estimate capacity events i =
          blockSizeMb * trueEstimate capacity events i) :=
  ⟨verdict_output h, fun block _ => hidden_iff block⟩

/-- Two blocks of one page. The first takes 64 ms, so the second is judged at 61/5 MB/ms. -/
def twoPages : List Event :=
  [.client (.alloc 4096 false), .client (.alloc 4096 false), .send (.prefetch baseAddr 1),
    .send (.prefetch (baseAddr + 4096) 9), .worker 0, .worker 0, .worker 0, .worker 64,
    .worker 0, .worker 0, .worker 0]

theorem verdict_by_typical_size_second :
    (pager 0).outputAt twoPages 10 =
      some (.latency (baseAddr + 4096) (decide (TypicalHidden 0 twoPages 10 9))) :=
  (verdict_by_typical_size 0 twoPages 10 (baseAddr + 4096) 9
    ⟨by decide +kernel, 0, rfl⟩).1

/-- One page is moved in far less than a fifth of a millisecond, but the worker warns. -/
theorem small_block_called_late : ¬ ∀ capacity events i a kernelMs block,
    Judges capacity events i a kernelMs → liveAt capacity events i a = some block →
    (pager capacity).outputAt events i =
      some (.latency a (decide (DocumentedHidden capacity events i block kernelMs))) := by
  intro h
  have hjudges : Judges 0 twoPages 6 baseAddr 1 := ⟨by decide +kernel, 0, rfl⟩
  have hlive : liveAt 0 twoPages 6 baseAddr = some ⟨baseAddr, 4096, .host, false⟩ := by
    decide +kernel
  have hsame := (verdict_output hjudges).symm.trans (h _ _ _ _ _ _ hjudges hlive)
  have hlate : ¬ TypicalHidden 0 twoPages 6 1 := by decide +kernel
  have hhidden : DocumentedHidden 0 twoPages 6 ⟨baseAddr, 4096, .host, false⟩ 1 := by
    decide +kernel
  simp [hlate, hhidden] at hsame

theorem verdicts_documented_iff_pages :
    Undisturbed 0 twoPages ∧ ¬ VerdictsDocumented 0 twoPages := by
  have quiet : Undisturbed 0 twoPages := by
    intro k call hk a
    have hidle : ((pager 0).stateAt twoPages k).phase = .receiving := by
      rcases k with _ | _ | k
      · decide +kernel
      · decide +kernel
      · have hlater : Event.client call ∈ twoPages.drop 2 := List.mem_of_getElem? (i := k) hk
        simp [twoPages] at hlater
    simp [hidle]
  refine ⟨quiet, fun h => ?_⟩
  have htypical := (verdicts_documented_iff quiet).mp h 6 baseAddr 1
    ⟨baseAddr, 4096, .host, false⟩ ⟨by decide +kernel, 0, rfl⟩ (by decide +kernel)
  exact absurd htypical (by decide)

end LatencyVerdicts
