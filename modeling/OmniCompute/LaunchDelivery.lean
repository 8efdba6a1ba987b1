import OmniCompute.StreamTable

/-! What becomes of a launch. Both launch calls report success whatever the handle is, so a
launch arrives exactly on a stream that is live; and a device-wide synchronization leaves the
table alone, so it finishes exactly the launches that something else has finished before. -/
namespace LaunchDelivery

open RustValues EventRuns KeyedTotals CudaShim StreamTable

section Launches

def succeeded : Reply → Bool
  | .cuda code => code = .cudaSuccess
  | .cu code => code = .cudaSuccess
  | _ => false

structure Appended (s s' : StreamState) (h : UInt64) (launch : KernelLaunch) : Prop where
  queued : ∃ ctx ctx', s.table.lookup h = some ctx ∧ s'.table.lookup h = some ctx' ∧
    ctx'.pendingKernels = ctx.pendingKernels ++ [launch]
  others : ∀ other, other ≠ h → s'.table.lookup other = s.table.lookup other

/-- Success means that the launch was queued, and an unknown handle is refused. -/
structure Delivered (s : StreamState) (e : Event) (h : UInt64) (launch : KernelLaunch) : Prop where
  queued : succeeded (streamStep s e).1 = true → Appended s (streamStep s e).2 h launch
  refused : s.table.lookup h = none →
    succeeded (streamStep s e).1 = false ∧ (streamStep s e).2 = s

def NoLaunchLost (events : List Event) : Prop :=
  ∀ i e h launch, events[i]? = some e → h ≠ 0 → launchOn h e = some launch →
    Delivered (streams.stateAt events i) e h launch

/-- A creation has returned `h`, and the stream was not destroyed since. -/
def Live (events : List Event) (i : ℕ) (h : UInt64) : Prop :=
  ∃ k, k < i ∧ streams.outputAt events k = some (.created h) ∧
    ∀ m, k < m → m < i → events[m]? ≠ some (.destroy h)

def LaunchesLive (events : List Event) : Prop :=
  ∀ i e h launch, events[i]? = some e → h ≠ 0 → launchOn h e = some launch → Live events i h

variable {s : StreamState} {e : Event} {h : UInt64} {events : List Event}

theorem launch_succeeds {launch : KernelLaunch} (hl : launchOn h e = some launch) :
    succeeded (streamStep s e).1 = true ∧ (streamStep s e).2 = enqueue s h launch := by
  cases e with
  | launchRuntime f g b m stream | launchDriver f g b m stream =>
    simp only [launchOn] at hl
    split at hl
    · rename_i heq
      subst heq
      cases hl
      exact ⟨rfl, rfl⟩
    · cases hl
  | create nullPointer => cases hl
  | insert handle => cases hl
  | destroy stream => cases hl
  | synchronize stream => cases hl

theorem enqueue_known {launch : KernelLaunch} {ctx : StreamContext} (h0 : h ≠ 0)
    (hl : s.table.lookup h = some ctx) : Appended s (enqueue s h launch) h launch := by
  constructor
  · refine ⟨ctx, { ctx with
      pendingKernels := ctx.pendingKernels ++ [launch], synchronized := false }, hl, ?_, rfl⟩
    simp only [enqueue, if_pos h0, hl]
    exact AList.lookup_insert _
  · intro other hne
    exact enqueue_other launch (Ne.symm hne)

theorem delivered_iff {launch : KernelLaunch} (h0 : h ≠ 0) (hl : launchOn h e = some launch) :
    Delivered s e h launch ↔ (s.table.lookup h).isSome := by
  obtain ⟨hok, hstep⟩ := launch_succeeds (s := s) hl
  cases hctx : s.table.lookup h with
  | none =>
    constructor
    · intro hd
      obtain ⟨hfail, _⟩ := hd.refused hctx
      rw [hok] at hfail
      cases hfail
    · intro hd
      cases hd
  | some ctx =>
    constructor
    · intro _
      rfl
    · intro _
      constructor
      · intro _
        rw [hstep]
        exact enqueue_known h0 hctx
      · intro hn
        rw [hctx] at hn
        cases hn

theorem entered_step (s : StreamState) (e : Event) (h : UInt64) :
    ((streamStep s e).2.table.lookup h).isSome ↔ (streamStep s e).1 = .created h ∨
      ((s.table.lookup h).isSome ∧ e ≠ .destroy h) := by
  by_cases ht : target e = some h
  · cases e with
    | create nullPointer => cases ht
    | insert handle =>
      cases ht
      by_cases hmem : h ∈ s.taken
      · simp [streamStep, insertStream, hmem]
      · simp [streamStep, insertStream, hmem]
    | destroy stream =>
      cases ht
      simp [streamStep, cudaStreamDestroy]
    | synchronize stream =>
      cases ht
      cases hctx : s.table.lookup h <;> simp [streamStep, cudaStreamSynchronize, hctx]
    | launchRuntime f g b m stream | launchDriver f g b m stream =>
      cases ht
      by_cases h0 : h = 0 <;> cases hctx : s.table.lookup h <;>
        simp_all [streamStep, cudaLaunchKernel, cuLaunchKernel, enqueue]
  · have hcreated : (streamStep s e).1 ≠ .created h := by
      intro hc
      cases e with
      | insert handle =>
        simp only [streamStep, insertStream] at hc
        split at hc
        · exact ht (congrArg some (Reply.created.inj hc))
        · cases hc
      | create nullPointer => cases nullPointer <;> cases hc
      | destroy stream => cases hc
      | synchronize stream =>
        simp only [streamStep, cudaStreamSynchronize] at hc
        split at hc <;> cases hc
      | launchRuntime f g b m stream | launchDriver f g b m stream => cases hc
    have hdestroy : e ≠ .destroy h := by
      rintro rfl
      exact ht rfl
    rw [lookup_other ht]
    simp [hcreated, hdestroy]

theorem live_iff (events : List Event) (i : ℕ) (h : UInt64) :
    ((streams.stateAt events i).table.lookup h).isSome ↔ Live events i h := by
  refine announced_since_iff streams events
    (P := fun s => ((s.table.lookup h).isSome : Prop)) ?_ (fun s e => entered_step s e h) i
  intro hsome
  cases hsome

/-- No launch is lost exactly when every launch names a stream that is live. -/
theorem no_launch_lost_iff (events : List Event) : NoLaunchLost events ↔ LaunchesLive events := by
  constructor
  · intro hall i e h launch he h0 hl
    exact (live_iff events i h).mp ((delivered_iff h0 hl).mp (hall i e h launch he h0 hl))
  · intro hall i e h launch he h0 hl
    exact (delivered_iff h0 hl).mpr ((live_iff events i h).mpr (hall i e h launch he h0 hl))

theorem launch_after_destroy : ¬ NoLaunchLost
    [.create false, .insert 1, .destroy 1, .launchRuntime 7 (1, 1, 1) (32, 1, 1) 0 1] := by
  intro hall
  have hd := hall 3 _ 1 _ rfl (by decide) rfl
  obtain ⟨hfail, _⟩ := hd.refused (by decide +kernel)
  revert hfail
  decide +kernel

end Launches

section DeviceWide

def cudaDeviceSynchronize (s : StreamState) : Reply × StreamState := (.cuda .cudaSuccess, s)

def cuCtxSynchronize (s : StreamState) : Reply × StreamState := (.cu .cudaSuccess, s)

inductive ShimEvent where
  | stream (e : Event)
  | deviceSynchronize
  | ctxSynchronize
  deriving DecidableEq

def shimStep (s : StreamState) : ShimEvent → Reply × StreamState
  | .stream e => streamStep s e
  | .deviceSynchronize => cudaDeviceSynchronize s
  | .ctxSynchronize => cuCtxSynchronize s

def shim : Machine StreamState ShimEvent Reply := ⟨.new, shimStep⟩

def DeviceWide (e : ShimEvent) : Prop := e = .deviceSynchronize ∨ e = .ctxSynchronize

/-- A device-wide synchronization that succeeds leaves every stream as synchronizing that very
stream would have: nothing pending, and marked as synchronized. -/
def SubsumesStreams (events : List ShimEvent) : Prop :=
  ∀ i e, events[i]? = some e → DeviceWide e →
    succeeded (shimStep (shim.stateAt events i) e).1 = true →
    ∀ h, (shim.stateAt events (i + 1)).table.lookup h =
      (cudaStreamSynchronize (shim.stateAt events i) h).2.table.lookup h ∧
      ∀ ctx, (shim.stateAt events (i + 1)).table.lookup h = some ctx →
        ctx.pendingKernels = [] ∧ ctx.synchronized = true

def Queues (s : StreamState) (e : ShimEvent) (h : UInt64) : Prop :=
  h ≠ 0 ∧ (s.table.lookup h).isSome ∧ ∃ d launch, e = .stream d ∧ launchOn h d = some launch

def Finishes (s : StreamState) (e : ShimEvent) (h : UInt64) : Prop :=
  e = .stream (.synchronize h) ∨ e = .stream (.destroy h) ∨ (shimStep s e).1 = .created h

def FinishedBefore (events : List ShimEvent) : Prop :=
  ∀ i e, events[i]? = some e → DeviceWide e → ∀ k d h, k < i → events[k]? = some d →
    Queues (shim.stateAt events k) d h → ∃ m c, k < m ∧ m < i ∧ events[m]? = some c ∧
      Finishes (shim.stateAt events m) c h

def Pending (h : UInt64) (s : StreamState) : Prop :=
  ∃ ctx, s.table.lookup h = some ctx ∧ ctx.pendingKernels ≠ []

def Marked (s : StreamState) : Prop :=
  ∀ h ctx, s.table.lookup h = some ctx → (ctx.synchronized = true ↔ ctx.pendingKernels = [])

variable {s : StreamState} {h : UInt64} {events : List ShimEvent}

theorem marked_enqueue (hm : Marked s) (launch : KernelLaunch) : Marked (enqueue s h launch) := by
  intro g ctx hl
  by_cases hg : h = g
  · subst hg
    by_cases h0 : h = 0
    · rw [enqueue, if_neg (not_not.mpr h0)] at hl
      exact hm _ ctx hl
    · obtain ⟨old, _, hp, hs⟩ := enqueue_self launch h0 hl
      simp [hp, hs]
  · rw [enqueue_other launch hg] at hl
    exact hm g ctx hl

theorem marked_step (hm : Marked s) (e : Event) : Marked (streamStep s e).2 := by
  cases e with
  | create nullPointer =>
    simp only [streamStep, cudaStreamCreate]
    split <;> exact hm
  | insert handle =>
    simp only [streamStep, insertStream]
    split
    · intro g ctx hl
      rcases lookup_insert_some hl with ⟨_, rfl⟩ | ⟨_, hold⟩
      · simp
      · exact hm g ctx hold
    · exact hm
  | destroy stream =>
    intro g ctx hl
    exact hm g ctx (lookup_erase_some hl).2
  | synchronize stream =>
    simp only [streamStep, cudaStreamSynchronize]
    split
    · intro g ctx hl
      rcases lookup_insert_some hl with ⟨_, rfl⟩ | ⟨_, hold⟩
      · simp
      · exact hm g ctx hold
    · exact hm
  | launchRuntime f g b m stream | launchDriver f g b m stream => exact marked_enqueue hm _

theorem marked_at (events : List ShimEvent) (i : ℕ) : Marked (shim.stateAt events i) := by
  apply stable_between shim events Marked (Nat.zero_le i)
  · intro h ctx hl
    cases hl
  · intro k e _ _ _ hm
    cases e with
    | stream e => exact marked_step hm e
    | deviceSynchronize => exact hm
    | ctxSynchronize => exact hm

theorem pending_launch (launch : KernelLaunch) (g : UInt64) : Pending h (enqueue s g launch) ↔
    (h ≠ 0 ∧ (s.table.lookup h).isSome ∧ g = h) ∨ Pending h s := by
  by_cases hg : g = h
  · subst hg
    by_cases h0 : g = 0
    · simp [enqueue, h0]
    · cases hctx : s.table.lookup g with
      | none => simp [Pending, enqueue, hctx]
      | some ctx => simp [Pending, enqueue, h0, hctx]
  · have hother := enqueue_other (s := s) launch hg
    simp only [Pending, hother, hg, and_false, false_or]

theorem pending_launched {e : Event} {stream : UInt64} {launch : KernelLaunch}
    (hl : ∀ g, launchOn g e = if stream = g then some launch else none)
    (hstep : (streamStep s e).2 = enqueue s stream launch)
    (hfin : ¬ Finishes s (.stream e) h) : Pending h (shimStep s (.stream e)).2 ↔
      Queues s (.stream e) h ∨ (Pending h s ∧ ¬ Finishes s (.stream e) h) := by
  have hq : Queues s (.stream e) h ↔
      h ≠ 0 ∧ (s.table.lookup h).isSome ∧ stream = h := by
    simp [Queues, hl]
  have hlaunch := pending_launch (s := s) (h := h) launch stream
  rw [← hstep] at hlaunch
  simp only [hq, hfin, not_false_eq_true, and_true]
  exact hlaunch

theorem pending_step (s : StreamState) (e : ShimEvent) (h : UInt64) :
    Pending h (shimStep s e).2 ↔ Queues s e h ∨ (Pending h s ∧ ¬ Finishes s e h) := by
  have hquiet : ∀ {d : Event}, (∀ g, launchOn g d = none) → ¬ Queues s (.stream d) h := by
    rintro d hd ⟨_, _, d', launch, heq, hl⟩
    cases heq
    rw [hd h] at hl
    cases hl
  cases e with
  | stream e =>
    cases e with
    | create nullPointer =>
      have hno := hquiet (d := .create nullPointer) fun _ => rfl
      cases nullPointer <;> simp [shimStep, streamStep, cudaStreamCreate, Pending, Finishes, hno]
    | insert handle =>
      have hno := hquiet (d := .insert handle) fun _ => rfl
      by_cases hmem : handle ∈ s.taken
      · by_cases hh : handle = h
        · subst hh
          simp [shimStep, streamStep, insertStream, hmem, Pending, Finishes, hno]
        · have hne : h ≠ handle := Ne.symm hh
          simp [shimStep, streamStep, insertStream, hmem, Pending, Finishes, hno, hh,
            AList.lookup_insert_ne hne]
      · simp [shimStep, streamStep, insertStream, hmem, Pending, Finishes, hno]
    | destroy stream =>
      have hno := hquiet (d := .destroy stream) fun _ => rfl
      by_cases hh : stream = h
      · subst hh
        simp [shimStep, streamStep, cudaStreamDestroy, Pending, Finishes, hno]
      · have hne : h ≠ stream := Ne.symm hh
        simp [shimStep, streamStep, cudaStreamDestroy, Pending, Finishes, hno, hh,
          AList.lookup_erase_ne hne]
    | synchronize stream =>
      have hno := hquiet (d := .synchronize stream) fun _ => rfl
      by_cases hh : stream = h
      · subst hh
        cases hctx : s.table.lookup stream <;>
          simp [shimStep, streamStep, cudaStreamSynchronize, hctx, Pending, Finishes, hno]
      · have hne : h ≠ stream := Ne.symm hh
        cases hctx : s.table.lookup stream <;>
          simp [shimStep, streamStep, cudaStreamSynchronize, hctx, Pending, Finishes, hno, hh,
            AList.lookup_insert_ne hne]
    | launchRuntime f g b m stream | launchDriver f g b m stream =>
      exact pending_launched (fun _ => rfl) rfl (by rintro (hc | hc | hc) <;> cases hc)
  | deviceSynchronize =>
    simp [shimStep, cudaDeviceSynchronize, Queues, Finishes]
  | ctxSynchronize =>
    simp [shimStep, cuCtxSynchronize, Queues, Finishes]

theorem pending_iff (events : List ShimEvent) (i : ℕ) (h : UInt64) :
    Pending h (shim.stateAt events i) ↔ ∃ k d, k < i ∧ events[k]? = some d ∧
      Queues (shim.stateAt events k) d h ∧ ∀ m c, k < m → m < i → events[m]? = some c →
        ¬ Finishes (shim.stateAt events m) c h := by
  have hstart : ¬ Pending h shim.start := by
    rintro ⟨ctx, hl, _⟩
    cases hl
  have hstep : ∀ s e, Pending h (shim.step s e).2 ↔
      Queues s e h ∨ (Pending h s ∧ ¬ Finishes s e h) := by
    intro s e
    exact pending_step s e h
  exact holds_since_iff shim events hstart hstep i

theorem synchronize_idle (hm : Marked s) (hidle : ∀ h, ¬ Pending h s) (h : UInt64) :
    (cudaStreamSynchronize s h).2.table.lookup h = s.table.lookup h := by
  cases hctx : s.table.lookup h with
  | none => simp [cudaStreamSynchronize, hctx]
  | some ctx =>
    have hp : ctx.pendingKernels = [] := by
      by_contra hne
      exact hidle h ⟨ctx, hctx, hne⟩
    have hs := (hm h ctx hctx).mpr hp
    simp only [cudaStreamSynchronize, hctx, AList.lookup_insert, Option.some.injEq]
    rw [← hp, ← hs]

theorem deviceWide_step {e : ShimEvent} (he : DeviceWide e) :
    succeeded (shimStep s e).1 = true ∧ (shimStep s e).2 = s := by
  rcases he with rfl | rfl <;> exact ⟨rfl, rfl⟩

/-- Device-wide synchronization subsumes that of the streams exactly when nothing is left. -/
theorem subsumes_streams_iff (events : List ShimEvent) :
    SubsumesStreams events ↔ FinishedBefore events := by
  constructor
  · intro hall i e he hw k d h hk hd hq
    by_contra hnone
    have hpending : Pending h (shim.stateAt events i) := by
      refine (pending_iff events i h).mpr ⟨k, d, hk, hd, hq, fun m c hkm hm hc hfin => ?_⟩
      exact hnone ⟨m, c, hkm, hm, hc, hfin⟩
    obtain ⟨hok, hstep⟩ := deviceWide_step (s := shim.stateAt events i) hw
    obtain ⟨ctx, hctx, hne⟩ := hpending
    have hstate : shim.stateAt events (i + 1) = shim.stateAt events i := by
      rw [stateAt_succ _ he]
      exact hstep
    rw [← hstate] at hctx
    exact hne ((hall i e he hw hok h).2 ctx hctx).1
  · intro hall i e he hw _ h
    have hidle : ∀ h, ¬ Pending h (shim.stateAt events i) := by
      intro h hp
      obtain ⟨k, d, hk, hd, hq, hkeep⟩ := (pending_iff events i h).mp hp
      obtain ⟨m, c, hkm, hm, hc, hfin⟩ := hall i e he hw k d h hk hd hq
      exact hkeep m c hkm hm hc hfin
    have hstate : shim.stateAt events (i + 1) = shim.stateAt events i := by
      rw [stateAt_succ _ he]
      exact (deviceWide_step hw).2
    rw [hstate]
    refine ⟨(synchronize_idle (marked_at events i) hidle h).symm, fun ctx hctx => ?_⟩
    have hp : ctx.pendingKernels = [] := by
      by_contra hne
      exact hidle h ⟨ctx, hctx, hne⟩
    exact ⟨hp, (marked_at events i h ctx hctx).mpr hp⟩

theorem device_sync_leaves_launch : ¬ SubsumesStreams
    [.stream (.create false), .stream (.insert 1),
      .stream (.launchDriver 7 (1, 1, 1) (32, 1, 1) 0 1), .deviceSynchronize] := by
  intro hall
  obtain ⟨_, hidle⟩ := hall 3 _ rfl (Or.inl rfl) rfl 1
  obtain ⟨hp, _⟩ := hidle ⟨1, 0, false, [⟨7, (1, 1, 1), (32, 1, 1), 0, []⟩]⟩ (by decide +kernel)
  cases hp

end DeviceWide

end LaunchDelivery
