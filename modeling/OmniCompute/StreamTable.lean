import OmniCompute.CudaShim
import OmniCompute.EventRuns
import OmniCompute.KeyedTotals

/-! The stream table under concurrent calls of both interfaces. Each access to the table is
one step; creating a stream takes a number from the counter first and enters the table in a
second step, so a call in progress is known by the handle it has taken. -/
namespace StreamTable

open RustValues EventRuns KeyedTotals CudaShim

structure StreamState where
  table : HashMap UInt64 StreamContext
  counter : UInt64
  taken : List UInt64

def StreamState.new : StreamState := ⟨∅, 1, []⟩

inductive Reply where
  | running
  | created (handle : UInt64)
  | cuda (code : CudaError)
  | cu (code : CuResult)
  deriving DecidableEq

/-- The first half of `cudaStreamCreate`: the null check and `fetch_add`. -/
def cudaStreamCreate (s : StreamState) (nullPointer : Bool) : Reply × StreamState :=
  if nullPointer then (.cuda .cudaErrorInvalidValue, s)
  else (.running, { s with counter := s.counter + 1, taken := s.counter :: s.taken })

/-- The second half, for a call that has taken `handle`; the handle is what it returns. -/
def insertStream (s : StreamState) (handle : UInt64) : Reply × StreamState :=
  if handle ∈ s.taken then
    (.created handle,
      { s with
        table := s.table.insert handle ⟨handle, 0, true, []⟩,
        taken := s.taken.erase handle })
  else (.running, s)

def cudaStreamDestroy (s : StreamState) (stream : UInt64) : Reply × StreamState :=
  (.cuda .cudaSuccess, { s with table := s.table.erase stream })

def cudaStreamSynchronize (s : StreamState) (stream : UInt64) : Reply × StreamState :=
  match s.table.lookup stream with
  | some ctx =>
    (.cuda .cudaSuccess,
      { s with
        table := s.table.insert stream { ctx with pendingKernels := [], synchronized := true } })
  | none => (.cuda .cudaSuccess, s)

def enqueue (s : StreamState) (stream : UInt64) (launch : KernelLaunch) : StreamState :=
  if stream ≠ 0 then
    match s.table.lookup stream with
    | some ctx =>
      { s with
        table := s.table.insert stream
          { ctx with pendingKernels := ctx.pendingKernels ++ [launch], synchronized := false } }
    | none => s
  else s

/-- The arguments are not recorded; `size_t` is cut to 32 bits. -/
def runtimeLaunch (func : UInt64) (gridDim blockDim : Dim3) (sharedMem : UInt64) : KernelLaunch :=
  ⟨func, gridDim, blockDim, sharedMem.toUInt32, []⟩

def driverLaunch (func : UInt64) (gridDim blockDim : Dim3) (sharedMemBytes : UInt32) :
    KernelLaunch :=
  ⟨func, gridDim, blockDim, sharedMemBytes, []⟩

def cudaLaunchKernel (s : StreamState) (func : UInt64) (gridDim blockDim : Dim3)
    (sharedMem stream : UInt64) : Reply × StreamState :=
  (.cuda .cudaSuccess, enqueue s stream (runtimeLaunch func gridDim blockDim sharedMem))

def cuLaunchKernel (s : StreamState) (func : UInt64) (gridDim blockDim : Dim3)
    (sharedMemBytes : UInt32) (stream : UInt64) : Reply × StreamState :=
  (.cu .cudaSuccess, enqueue s stream (driverLaunch func gridDim blockDim sharedMemBytes))

inductive Event where
  | create (nullPointer : Bool)
  | insert (handle : UInt64)
  | destroy (stream : UInt64)
  | synchronize (stream : UInt64)
  | launchRuntime (func : UInt64) (gridDim blockDim : Dim3) (sharedMem stream : UInt64)
  | launchDriver (func : UInt64) (gridDim blockDim : Dim3) (sharedMemBytes : UInt32)
      (stream : UInt64)
  deriving DecidableEq

def streamStep (s : StreamState) : Event → Reply × StreamState
  | .create nullPointer => cudaStreamCreate s nullPointer
  | .insert handle => insertStream s handle
  | .destroy stream => cudaStreamDestroy s stream
  | .synchronize stream => cudaStreamSynchronize s stream
  | .launchRuntime f g b m stream => cudaLaunchKernel s f g b m stream
  | .launchDriver f g b m stream => cuLaunchKernel s f g b m stream

def streams : Machine StreamState Event Reply := ⟨.new, streamStep⟩

def target : Event → Option UInt64
  | .create _ => none
  | .insert handle => some handle
  | .destroy stream => some stream
  | .synchronize stream => some stream
  | .launchRuntime _ _ _ _ stream => some stream
  | .launchDriver _ _ _ _ stream => some stream

/-- The launch a caller asks for on `h`: its kernel id, its grid and block dimensions, its amount
of shared memory as 32 bits, and no arguments. -/
def launchOn (h : UInt64) : Event → Option KernelLaunch
  | .launchRuntime func gridDim blockDim sharedMem stream =>
    if stream = h then
      some { kernelId := func, gridDim := gridDim, blockDim := blockDim,
             sharedMemBytes := sharedMem.toUInt32, args := [] }
    else none
  | .launchDriver func gridDim blockDim sharedMemBytes stream =>
    if stream = h then
      some { kernelId := func, gridDim := gridDim, blockDim := blockDim,
             sharedMemBytes := sharedMemBytes, args := [] }
    else none
  | _ => none

/-- The creation of `h` or a synchronization of it happens at position `i`. -/
def Restarts (events : List Event) (i : ℕ) (h : UInt64) : Prop :=
  streams.outputAt events i = some (.created h) ∨ events[i]? = some (.synchronize h)

def creations (events : List Event) : ℕ := events.countP (· = .create false)

structure QueuesFaithful (events : List Event) : Prop where
  queued : ∀ j h ctx, (streams.stateAt events j).table.lookup h = some ctx → ∃ i, i < j ∧
    Restarts events i h ∧ (∀ k, i < k → k < j → ¬ Restarts events k h) ∧
    ctx.pendingKernels = ((events.take j).drop (i + 1)).filterMap (launchOn h)
  flagged : ∀ j h ctx, (streams.stateAt events j).table.lookup h = some ctx →
    (ctx.synchronized = true ↔ ctx.pendingKernels = [])
  distinct : ∀ i j h, streams.outputAt events i = some (.created h) →
    streams.outputAt events j = some (.created h) → i = j
  separate : ∀ i e h, events[i]? = some e → target e ≠ some h →
    (streams.stateAt events (i + 1)).table.lookup h = (streams.stateAt events i).table.lookup h

section Steps

variable {s : StreamState} {e : Event} {h : UInt64}

theorem enqueue_other {stream : UInt64} (launch : KernelLaunch) (hne : stream ≠ h) :
    (enqueue s stream launch).table.lookup h = s.table.lookup h := by
  simp only [enqueue]
  split
  · split
    · exact AList.lookup_insert_ne (Ne.symm hne)
    · rfl
  · rfl

theorem lookup_other (ht : target e ≠ some h) :
    (streamStep s e).2.table.lookup h = s.table.lookup h := by
  cases e with
  | create nullPointer =>
    simp only [streamStep, cudaStreamCreate]
    split <;> rfl
  | insert handle =>
    have hne : h ≠ handle := fun heq => ht (congrArg some heq.symm)
    simp only [streamStep, insertStream]
    split
    · exact AList.lookup_insert_ne hne
    · rfl
  | destroy stream =>
    have hne : h ≠ stream := fun heq => ht (congrArg some heq.symm)
    exact AList.lookup_erase_ne hne
  | synchronize stream =>
    have hne : h ≠ stream := fun heq => ht (congrArg some heq.symm)
    simp only [streamStep, cudaStreamSynchronize]
    split
    · exact AList.lookup_insert_ne hne
    · rfl
  | launchRuntime f g b m stream | launchDriver f g b m stream =>
    exact enqueue_other _ fun heq => ht (congrArg some heq)

theorem enqueue_self {ctx : StreamContext} (launch : KernelLaunch) (h0 : h ≠ 0)
    (hl : (enqueue s h launch).table.lookup h = some ctx) :
    ∃ old, s.table.lookup h = some old ∧
      ctx.pendingKernels = old.pendingKernels ++ [launch] ∧ ctx.synchronized = false := by
  simp only [enqueue, if_pos h0] at hl
  cases hold : s.table.lookup h with
  | none =>
    simp only [hold] at hl
    cases hl
  | some old =>
    simp only [hold, AList.lookup_insert, Option.some.injEq] at hl
    exact ⟨old, rfl, hl ▸ rfl, hl ▸ rfl⟩

theorem lookup_step {ctx : StreamContext} (h0 : h ≠ 0)
    (hl : (streamStep s e).2.table.lookup h = some ctx) :
    (((streamStep s e).1 = .created h ∨ e = .synchronize h) ∧
      ctx.pendingKernels = [] ∧ ctx.synchronized = true) ∨
    (¬ ((streamStep s e).1 = .created h ∨ e = .synchronize h) ∧ ∃ old,
      s.table.lookup h = some old ∧
      ctx.pendingKernels = old.pendingKernels ++ (launchOn h e).toList ∧
      ctx.synchronized = (old.synchronized && (launchOn h e).isNone)) := by
  cases e with
  | create nullPointer =>
    right
    refine ⟨?_, ctx, ?_, ?_⟩
    · simp only [streamStep, cudaStreamCreate]
      split <;> simp
    · rwa [lookup_other (by simp [target])] at hl
    · simp [launchOn]
  | insert handle =>
    by_cases ht : handle ∈ s.taken
    · by_cases hh : handle = h
      · subst hh
        left
        simp only [streamStep, insertStream, if_pos ht, AList.lookup_insert,
          Option.some.injEq] at hl
        refine ⟨.inl ?_, hl ▸ rfl, hl ▸ rfl⟩
        simp [streamStep, insertStream, ht]
      · right
        refine ⟨?_, ctx, ?_, ?_⟩
        · simpa [streamStep, insertStream, ht] using hh
        · rwa [lookup_other (by simpa [target] using hh)] at hl
        · simp [launchOn]
    · right
      simp only [streamStep, insertStream, if_neg ht] at hl ⊢
      exact ⟨by simp, ctx, hl, by simp [launchOn]⟩
  | destroy stream =>
    right
    refine ⟨by simp [streamStep, cudaStreamDestroy], ctx, ?_, by simp [launchOn]⟩
    exact (lookup_erase_some hl).2
  | synchronize stream =>
    by_cases hh : stream = h
    · subst hh
      left
      simp only [streamStep, cudaStreamSynchronize] at hl
      cases hold : s.table.lookup stream with
      | none =>
        simp only [hold] at hl
        cases hl
      | some old =>
        simp only [hold, AList.lookup_insert, Option.some.injEq] at hl
        exact ⟨.inr rfl, hl ▸ rfl, hl ▸ rfl⟩
    · right
      refine ⟨?_, ctx, ?_, by simp [launchOn]⟩
      · simp only [streamStep, cudaStreamSynchronize]
        split <;> simp [hh]
      · rwa [lookup_other (by simpa [target] using hh)] at hl
  | launchRuntime f g b m stream | launchDriver f g b m stream =>
    right
    refine ⟨by simp [streamStep, cudaLaunchKernel, cuLaunchKernel], ?_⟩
    by_cases hh : stream = h
    · subst hh
      obtain ⟨old, hold, hp, hs⟩ := enqueue_self _ h0 hl
      refine ⟨old, hold, ?_, by simpa [launchOn] using hs⟩
      -- the record the call builds is the one its caller asks for
      rw [launchOn, if_pos rfl]
      exact hp
    · rw [lookup_other (by simpa [target] using hh)] at hl
      exact ⟨ctx, hl, by simp [launchOn, hh]⟩

end Steps

section Numbering

/-- How the handles in use relate to the number `c` of handles taken so far. -/
structure Numbered (c : ℕ) (s : StreamState) : Prop where
  counter : s.counter = UInt64.ofNat (c + 1)
  taken : ∀ h ∈ s.taken, 0 < h.toNat ∧ h.toNat ≤ c
  nodup : s.taken.Nodup
  entered : ∀ h ctx, s.table.lookup h = some ctx → 0 < h.toNat ∧ h.toNat ≤ c

theorem numbered_new : Numbered 0 .new := by
  refine ⟨rfl, ?_, List.nodup_nil, ?_⟩
  · intro h hh
    cases hh
  · intro h ctx hl
    cases hl

theorem creations_snoc (events : List Event) (e : Event) :
    creations (events ++ [e]) = creations events + if e = .create false then 1 else 0 := by
  simp [creations, List.countP_append, List.countP_cons]

theorem creations_take_le (events : List Event) (i : ℕ) :
    creations (events.take i) ≤ creations events :=
  (List.take_sublist i events).countP_le

variable {c : ℕ} {s : StreamState} {e : Event} {h : UInt64}

theorem fresh_toNat (hn : Numbered c s) (hc : c + 1 < 2 ^ 64) : s.counter.toNat = c + 1 := by
  rw [hn.counter, UInt64.toNat_ofNat', Nat.mod_eq_of_lt hc]

theorem taken_other (he : e ≠ .create false) :
    (streamStep s e).2.counter = s.counter ∧ (streamStep s e).2.taken.Sublist s.taken := by
  cases e with
  | create nullPointer =>
    cases nullPointer with
    | false => exact absurd rfl he
    | true => exact ⟨rfl, List.Sublist.refl _⟩
  | insert handle =>
    simp only [streamStep, insertStream]
    split
    · exact ⟨rfl, List.erase_sublist⟩
    · exact ⟨rfl, List.Sublist.refl _⟩
  | destroy stream => exact ⟨rfl, List.Sublist.refl _⟩
  | synchronize stream =>
    simp only [streamStep, cudaStreamSynchronize]
    split <;> exact ⟨rfl, List.Sublist.refl _⟩
  | launchRuntime f g b m stream | launchDriver f g b m stream =>
    simp only [streamStep, cudaLaunchKernel, cuLaunchKernel, enqueue]
    split
    · split <;> exact ⟨rfl, List.Sublist.refl _⟩
    · exact ⟨rfl, List.Sublist.refl _⟩

theorem created_taken (hn : s.taken.Nodup) (hr : (streamStep s e).1 = .created h) :
    e = .insert h ∧ h ∈ s.taken ∧ h ∉ (streamStep s e).2.taken := by
  cases e with
  | insert handle =>
    simp only [streamStep, insertStream] at hr ⊢
    by_cases ht : handle ∈ s.taken
    · simp only [if_pos ht, Reply.created.injEq] at hr
      subst hr
      simp only [if_pos ht]
      exact ⟨trivial, ht, hn.not_mem_erase⟩
    · simp [if_neg ht] at hr
  | create nullPointer => cases nullPointer <;> simp [streamStep, cudaStreamCreate] at hr
  | destroy stream => simp [streamStep, cudaStreamDestroy] at hr
  | synchronize stream =>
    simp only [streamStep, cudaStreamSynchronize] at hr
    split at hr <;> simp at hr
  | launchRuntime f g b m stream => simp [streamStep, cudaLaunchKernel] at hr
  | launchDriver f g b m stream => simp [streamStep, cuLaunchKernel] at hr

theorem entered_before {ctx : StreamContext} (hl : (streamStep s e).2.table.lookup h = some ctx) :
    (∃ old, s.table.lookup h = some old) ∨ e = .insert h ∧ h ∈ s.taken := by
  by_cases ht : target e = some h
  · cases hold : s.table.lookup h with
    | some old => exact .inl ⟨old, rfl⟩
    | none =>
      right
      cases e with
      | create nullPointer => cases ht
      | insert handle =>
        cases ht
        refine ⟨rfl, ?_⟩
        by_contra hne
        simp only [streamStep, insertStream, if_neg hne, hold] at hl
        cases hl
      | destroy stream =>
        cases ht
        simp [streamStep, cudaStreamDestroy] at hl
      | synchronize stream =>
        cases ht
        simp [streamStep, cudaStreamSynchronize, hold] at hl
      | launchRuntime f g b m stream | launchDriver f g b m stream =>
        cases ht
        simp [streamStep, cudaLaunchKernel, cuLaunchKernel, enqueue, hold] at hl
  · rw [lookup_other ht] at hl
    exact .inl ⟨ctx, hl⟩

theorem numbered_step (hn : Numbered c s)
    (hc : (c + if e = .create false then 1 else 0) < 2 ^ 64) :
    Numbered (c + if e = .create false then 1 else 0) (streamStep s e).2 := by
  by_cases he : e = .create false
  · subst he
    simp only [if_true] at hc ⊢
    have hf := fresh_toNat hn hc
    refine ⟨?_, ?_, ?_, ?_⟩
    · change s.counter + 1 = _
      rw [hn.counter]
      exact (UInt64.ofNat_add (c + 1) 1).symm
    · intro h hh
      change h ∈ s.counter :: s.taken at hh
      rcases List.mem_cons.mp hh with rfl | hh
      · omega
      · have := hn.taken h hh
        omega
    · change (s.counter :: s.taken).Nodup
      refine List.nodup_cons.mpr ⟨?_, hn.nodup⟩
      intro hmem
      have := hn.taken _ hmem
      omega
    · intro h ctx hl
      have := hn.entered h ctx hl
      omega
  · have ⟨hcount, hsub⟩ := taken_other (s := s) he
    simp only [if_neg he, Nat.add_zero]
    refine ⟨hcount.trans hn.counter, fun h hh => hn.taken h (hsub.subset hh),
      hsub.nodup hn.nodup, ?_⟩
    intro h ctx hl
    rcases entered_before hl with ⟨old, hold⟩ | ⟨_, ht⟩
    · exact hn.entered h old hold
    · exact hn.taken h ht

end Numbering

section Runs

variable {events : List Event}

theorem numbered_at (few : creations events < 2 ^ 64) (i : ℕ) :
    Numbered (creations (events.take i)) (streams.stateAt events i) := by
  have hle : creations (events.take i) < 2 ^ 64 :=
    Nat.lt_of_le_of_lt (creations_take_le events i) few
  refine invariant_after streams (fun done s => creations done < 2 ^ 64 →
    Numbered (creations done) s) (fun _ => numbered_new) ?_ (events.take i) hle
  intro done e ih hlt
  rw [creations_snoc] at hlt ⊢
  exact numbered_step (ih (by omega)) hlt

theorem entry_ne_zero (few : creations events < 2 ^ 64) {j : ℕ} {h : UInt64} {ctx : StreamContext}
    (hl : (streams.stateAt events j).table.lookup h = some ctx) : h ≠ 0 := by
  rintro rfl
  exact absurd ((numbered_at few j).entered 0 ctx hl).1 (by decide)

theorem restarts_iff {j : ℕ} {e : Event} {h : UInt64} (he : events[j]? = some e) :
    Restarts events j h ↔
      (streamStep (streams.stateAt events j) e).1 = .created h ∨ e = .synchronize h := by
  simp only [Restarts, Machine.outputAt, he, Option.map_some, Option.some.injEq]
  rfl

/-- Induction on the position: a step either restarts the queue or appends its own launch. -/
theorem queued_at (few : creations events < 2 ^ 64) (j : ℕ) (h : UInt64) (ctx : StreamContext)
    (hl : (streams.stateAt events j).table.lookup h = some ctx) : ∃ i, i < j ∧
    Restarts events i h ∧ (∀ k, i < k → k < j → ¬ Restarts events k h) ∧
    ctx.pendingKernels = ((events.take j).drop (i + 1)).filterMap (launchOn h) := by
  induction j generalizing ctx with
  | zero => cases hl
  | succ j ih =>
    have h0 := entry_ne_zero few hl
    cases he : events[j]? with
    | none =>
      rw [stateAt_end _ he] at hl
      obtain ⟨i, hij, hr, hno, hp⟩ := ih ctx hl
      refine ⟨i, by omega, hr, ?_, ?_⟩
      · intro k hik hkj
        rcases Nat.lt_succ_iff_lt_or_eq.mp hkj with hlt | rfl
        · exact hno k hik hlt
        · simp [Restarts, Machine.outputAt, he]
      · rw [hp, List.take_add_one, he]
        simp
    | some e =>
      rw [stateAt_succ _ he] at hl
      have hjlen : j < events.length := (List.getElem?_eq_some_iff.mp he).1
      rcases lookup_step h0 hl with ⟨hrestart, hp, _⟩ | ⟨hkeep, old, hold, hp, _⟩
      · refine ⟨j, Nat.lt_succ_self j, (restarts_iff he).mpr hrestart, ?_, ?_⟩
        · intro k hjk hkj
          omega
        · rw [hp, List.drop_eq_nil_of_le (by simp)]
          rfl
      · obtain ⟨i, hij, hr, hno, hq⟩ := ih old hold
        refine ⟨i, by omega, hr, ?_, ?_⟩
        · intro k hik hkj
          rcases Nat.lt_succ_iff_lt_or_eq.mp hkj with hlt | rfl
          · exact hno k hik hlt
          · exact fun hk => hkeep ((restarts_iff he).mp hk)
        · rw [hp, hq, List.take_add_one, he, List.drop_append_of_le_length (by simp; omega),
            List.filterMap_append]
          cases hla : launchOn h e <;> simp [hla]

theorem flagged_at (few : creations events < 2 ^ 64) (j : ℕ) (h : UInt64) (ctx : StreamContext)
    (hl : (streams.stateAt events j).table.lookup h = some ctx) :
    ctx.synchronized = true ↔ ctx.pendingKernels = [] := by
  induction j generalizing ctx with
  | zero => cases hl
  | succ j ih =>
    have h0 := entry_ne_zero few hl
    cases he : events[j]? with
    | none =>
      rw [stateAt_end _ he] at hl
      exact ih ctx hl
    | some e =>
      rw [stateAt_succ _ he] at hl
      rcases lookup_step h0 hl with ⟨_, hp, hs⟩ | ⟨_, old, hold, hp, hs⟩
      · simp [hp, hs]
      · have hold' := ih old hold
        rw [hp, hs]
        cases hla : launchOn h e with
        | none => simpa using hold'
        | some launch => simp

theorem creations_take_mono (events : List Event) {i k : ℕ} (hik : i ≤ k) :
    creations (events.take i) ≤ creations (events.take k) := by
  have hle := creations_take_le (events.take k) i
  rwa [List.take_take, Nat.min_eq_left hik] at hle

theorem retaken_fresh (few : creations events < 2 ^ 64) {i k : ℕ} (hik : i ≤ k)
    (hk : events[k]? = some (.create false)) :
    creations (events.take i) < (streams.stateAt events k).counter.toNat := by
  have hstep : creations (events.take (k + 1)) = creations (events.take k) + 1 := by
    rw [List.take_add_one, hk]
    exact creations_snoc _ _
  have hle := creations_take_le events (k + 1)
  have hmono := creations_take_mono events hik
  rw [fresh_toNat (numbered_at few k) (by omega)]
  omega

theorem outputAt_created {i : ℕ} {h : UInt64}
    (hi : streams.outputAt events i = some (.created h)) :
    ∃ e, events[i]? = some e ∧ (streamStep (streams.stateAt events i) e).1 = .created h := by
  obtain ⟨e, he, hr⟩ := Option.map_eq_some_iff.mp hi
  exact ⟨e, he, hr⟩

/-- Later handles have larger numbers, so a returned handle is never taken again. -/
theorem never_retaken (few : creations events < 2 ^ 64) {i k : ℕ} {h : UInt64}
    (hi : streams.outputAt events i = some (.created h)) (hik : i + 1 ≤ k) :
    h ∉ (streams.stateAt events k).taken := by
  obtain ⟨e, he, hr⟩ := outputAt_created hi
  obtain ⟨_, ht, hgone⟩ := created_taken (numbered_at few i).nodup hr
  have hold : h.toNat ≤ creations (events.take i) := ((numbered_at few i).taken h ht).2
  apply stable_between streams events (fun s => h ∉ s.taken) hik
  · rwa [stateAt_succ _ he]
  · intro k e' hik' _ hk hnot hmem
    by_cases hc : e' = .create false
    · subst hc
      have hmem' : h ∈ (streams.stateAt events k).counter :: (streams.stateAt events k).taken :=
        hmem
      rcases List.mem_cons.mp hmem' with heq | hmem'
      · have hfresh := retaken_fresh few (show i ≤ k by omega) hk
        rw [← heq] at hfresh
        omega
      · exact hnot hmem'
    · exact hnot ((taken_other hc).2.subset hmem)

theorem created_once (few : creations events < 2 ^ 64) {i j : ℕ} {h : UInt64}
    (hi : streams.outputAt events i = some (.created h))
    (hj : streams.outputAt events j = some (.created h)) : ¬ i < j := by
  intro hij
  obtain ⟨e, _, hr⟩ := outputAt_created hj
  exact never_retaken few hi hij (created_taken (numbered_at few j).nodup hr).2.1

end Runs

theorem queues_faithful (events : List Event) (few : creations events < 2 ^ 64) :
    QueuesFaithful events := by
  constructor
  · exact queued_at few
  · exact flagged_at few
  · intro i j h hi hj
    have hij := created_once few hi hj
    have hji := created_once few hj hi
    omega
  · intro i e h he ht
    rw [stateAt_succ _ he]
    exact lookup_other ht

/-- Two threads create streams at once, then both interfaces launch on the second one. -/
def twoThreads : List Event :=
  [.create false, .create false, .insert 2, .insert 1,
    .launchRuntime 7 (4, 1, 1) (32, 1, 1) 0 2, .synchronize 2,
    .launchDriver 8 (1, 1, 1) (64, 1, 1) 0 2, .destroy 1]

theorem queues_faithful_twoThreads :
    creations twoThreads < 2 ^ 64 ∧ QueuesFaithful twoThreads ∧
    (streams.stateAt twoThreads 8).table.lookup 2 =
      some ⟨2, 0, false, [⟨8, (1, 1, 1), (64, 1, 1), 0, []⟩]⟩ :=
  ⟨by decide, queues_faithful twoThreads (by decide), by decide +kernel⟩

end StreamTable
