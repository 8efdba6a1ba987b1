import OmniCompute.Linearization
import OmniCompute.RuntimeApi

/-! Calls that allocate and free, by threads that get in each other's way, against the same calls
made one at a time. A call takes effect when it registers its block, takes one out of the table,
or gives up. -/
namespace MemoryCalls

open RustValues EventRuns CudaShim DeviceMemory RuntimeApi Linearization

abbrev Result := RuntimeApi.Reply
abbrev Answer := DeviceMemory.Reply

/-- The sequential call that another one resolves to once the heap has answered. -/
def resolved : Call → UInt64 → RuntimeCall
  | .malloc _ null size, answer => .malloc null size answer
  | .free _ ptr, _ => .free ptr

def Resolves (call : Call) (op : RuntimeCall) : Prop := ∃ answer, op = resolved call answer

def releaseResult (entry : AllocEntry) : Result :=
  match fromSizeAlign entry.size 256 with
  | some _ => .succeed
  | none => .panicked "Allocation layout must be valid"

def stageOf : Phase → Stage Call Result
  | .idle => .outside
  | .allocating api size _ => .waiting (.malloc api false size)
  | .registering api _ size => .waiting (.malloc api false size)
  | .removing api addr => .waiting (.free api addr)
  | .releasing api addr entry => .decided (.free api addr) (releaseResult entry)

/-- The process as the Runtime API sees it; memory calls leave the rest alone. -/
def viewOf (s : DeviceState) : RuntimeState := { RuntimeState.new with allocTable := s.table }

def Immediate (s : DeviceState) (t : ℕ) (call : Call) : Prop :=
  s.phase t = .idle ∧ (enter call).2 = .idle

instance (s : DeviceState) (t : ℕ) (call : Call) : Decidable (Immediate s t call) :=
  inferInstanceAs (Decidable (_ ∧ _))

def entersOf (s : DeviceState) : Event → Option Call
  | .call t call => if s.phase t = .idle then some call else none
  | .step _ _ => none

def performsOf (s : DeviceState) : Event → Option RuntimeCall
  | .call t call => if Immediate s t call then some (resolved call 0) else none
  | .step t answer =>
    match s.phase t with
    | .allocating _ size _ => if answer = 0 then some (.malloc false size 0) else none
    | .registering _ addr size => some (.malloc false size addr)
    | .removing _ addr => some (.free addr)
    | _ => none

def returnsOf (s : DeviceState) : Event → Option Result
  | .call t call =>
    if Immediate s t call then some (runtimeStep (viewOf s) (resolved call 0)).1 else none
  | .step t answer =>
    match s.phase t with
    | .allocating _ _ _ => if answer = 0 then some (.fail .cudaErrorMemoryAllocation) else none
    | .registering _ addr _ => some (.code .cudaSuccess (.pointer addr))
    | .removing _ addr =>
      if (s.table.lookup addr).isNone then some (.fail .cudaErrorInvalidValue) else none
    | .releasing _ _ entry => some (releaseResult entry)
    | .idle => none

def reading : Reading DeviceState Event ℕ Call RuntimeCall Result RuntimeState where
  caller := Event.thread
  view := viewOf
  stage s t := stageOf (s.phase t)
  enters := entersOf
  performs := performsOf
  returns := returnsOf

/-- The code under which an interface reports the outcome of a call. The Driver API checks the
arguments of an allocation itself, and calls any later failure out of memory. -/
def returnCode : Call → CudaError → Code
  | .malloc .runtime _ _, err => .runtime err
  | .malloc .driver _ _, .cudaErrorInvalidValue => .driver .cudaErrorInvalidValue
  | .malloc .driver _ _, err => mallocCode .driver err
  | .free api _, err => freeCode api err

inductive Answers : Call → Result → Answer → Prop where
  | returned (call : Call) (err : CudaError) :
    Answers call (.fail err) (.returned (returnCode call err))
  | allocated (api : Api) (null : Bool) (size addr : UInt64) :
    Answers (.malloc api null size) (.code .cudaSuccess (.pointer addr))
      (.allocated (returnCode (.malloc api null size) .cudaSuccess) addr size)
  | deallocated (api : Api) (ptr : UInt64) (layout : Layout) :
    Answers (.free api ptr) .succeed
      (.deallocated (returnCode (.free api ptr) .cudaSuccess) ptr layout)
  | panicked (call : Call) (message : String) : Answers call (.panicked message) (.panicked message)

/-- A thread past the checks of `cudaMalloc` asks for something, and holds an address of it. -/
def ValidPhase : Phase → Prop
  | .allocating _ size _ => size ≠ 0 ∧ (fromSizeAlign size 256).isSome
  | .registering _ addr size => addr ≠ 0 ∧ size ≠ 0 ∧ (fromSizeAlign size 256).isSome
  | .removing _ addr => addr ≠ 0
  | _ => True

def Valid (s : DeviceState) : Prop := ∀ t, ValidPhase (s.phase t)

section Steps

variable {s : DeviceState} {t : ℕ} {call : Call}

theorem validPhase_enter (call : Call) : ValidPhase (enter call).2 := by
  have hmalloc : ∀ api null size, ValidPhase (DeviceMemory.cudaMalloc api null size).2 := by
    intro api null size
    rw [DeviceMemory.cudaMalloc]
    split
    · trivial
    · next hargs =>
      cases hl : fromSizeAlign size 256 with
      | none => trivial
      | some layout => exact ⟨(not_or.1 hargs).2, by rw [hl]; rfl⟩
  have hfree : ∀ api ptr, ValidPhase (DeviceMemory.cudaFree api ptr).2 := by
    intro api ptr
    rw [DeviceMemory.cudaFree]
    split
    · trivial
    · next h0 => exact h0
  cases call with
  | malloc api null size =>
    cases api with
    | runtime => exact hmalloc .runtime null size
    | driver =>
      rw [enter, cuMemAlloc]
      split
      · trivial
      · exact hmalloc .driver false size
  | free api ptr => cases api <;> exact hfree _ ptr

theorem valid_park (h : Valid s) {phase : Phase} (hphase : ValidPhase phase) :
    Valid (s.park t phase) := by
  intro u
  rw [park_phase]
  split
  · exact hphase
  · exact h u

theorem valid_step (h : Valid s) (e : Event) : Valid (deviceStep s e).2 := by
  cases e with
  | call t call =>
    rw [deviceStep, callStep]
    split
    · exact valid_park h (validPhase_enter call)
    · exact h
  | step t answer =>
    have ht := h t
    rw [deviceStep]
    cases hp : s.phase t with
    | idle =>
      rw [threadStep_idle hp]
      exact h
    | allocating api size layout =>
      rw [hp] at ht
      by_cases h0 : answer = 0
      · rw [threadStep_refused hp h0]
        exact valid_park h trivial
      · rw [threadStep_granted hp h0]
        exact valid_park h ⟨h0, ht⟩
    | registering api addr size =>
      rw [threadStep_registered hp]
      exact valid_park h trivial
    | removing api addr =>
      cases hl : s.table.lookup addr with
      | none =>
        rw [threadStep_unknown hp hl]
        exact valid_park h trivial
      | some entry =>
        rw [threadStep_removed hp hl]
        exact valid_park h trivial
    | releasing api addr entry =>
      simp only [threadStep, hp]
      split <;> exact valid_park h trivial

theorem malloc_checked (r : RuntimeState) {size : UInt64} (answer : UInt64) (hs : size ≠ 0)
    (hl : (fromSizeAlign size 256).isSome) : runtimeStep r (.malloc false size answer) =
      if answer = 0 then (.fail .cudaErrorMemoryAllocation, r)
      else (.code .cudaSuccess (.pointer answer),
        { r with allocTable := r.allocTable.insert answer ⟨answer, size, 0, false⟩ }) := by
  obtain ⟨layout, hlayout⟩ := Option.isSome_iff_exists.1 hl
  rw [runtimeStep, RuntimeApi.cudaMalloc, if_neg (by simp [hs]), hlayout]

theorem free_listed (r : RuntimeState) {ptr : UInt64} {entry : AllocEntry} (h0 : ptr ≠ 0)
    (hl : r.allocTable.lookup ptr = some entry) : runtimeStep r (.free ptr) =
      (releaseResult entry, { r with allocTable := r.allocTable.erase ptr }) := by
  simp only [runtimeStep, RuntimeApi.cudaFree, if_neg h0, hl, releaseResult]
  cases fromSizeAlign entry.size 256 <;> rfl

theorem free_unlisted (r : RuntimeState) {ptr : UInt64} (h0 : ptr ≠ 0)
    (hl : r.allocTable.lookup ptr = none) :
    runtimeStep r (.free ptr) = (.fail .cudaErrorInvalidValue, r) := by
  rw [runtimeStep, RuntimeApi.cudaFree, if_neg h0, hl]

theorem enter_cases (call : Call) :
    ((enter call).2 = .idle ∧ ∀ r : RuntimeState, (runtimeStep r (resolved call 0)).2 = r ∧
      Answers call (runtimeStep r (resolved call 0)).1 (enter call).1) ∨
    ((enter call).2 ≠ .idle ∧ stageOf (enter call).2 = .waiting call ∧
      (enter call).1 = .running) := by
  cases call with
  | malloc api null size =>
    by_cases hargs : null = true ∨ size = 0
    · left
      have hseq : ∀ r, runtimeStep r (.malloc null size 0) = (.fail .cudaErrorInvalidValue, r) :=
        fun r => if_pos hargs
      have henter : enter (.malloc api null size) =
          (.returned (returnCode (.malloc api null size) .cudaErrorInvalidValue), .idle) := by
        cases api with
        | runtime => exact if_pos hargs
        | driver => exact if_pos hargs
      rw [henter]
      refine ⟨rfl, fun r => ?_⟩
      rw [resolved, hseq r]
      exact ⟨rfl, .returned _ _⟩
    · obtain ⟨hn, hs⟩ := not_or.1 hargs
      obtain rfl : null = false := by simpa using hn
      have henter : enter (.malloc api false size) = DeviceMemory.cudaMalloc api false size := by
        cases api with
        | runtime => rfl
        | driver => exact if_neg hargs
      rw [henter, DeviceMemory.cudaMalloc, if_neg hargs]
      cases hl : fromSizeAlign size 256 with
      | none =>
        left
        refine ⟨rfl, fun r => ?_⟩
        have hseq : runtimeStep r (.malloc false size 0) =
            (.fail .cudaErrorMemoryAllocation, r) := by
          rw [runtimeStep, RuntimeApi.cudaMalloc, if_neg hargs, hl]
        rw [resolved, hseq]
        refine ⟨rfl, ?_⟩
        cases api with
        | runtime => exact .returned (.malloc .runtime false size) _
        | driver => exact .returned (.malloc .driver false size) _
      | some layout => exact .inr ⟨Phase.noConfusion, rfl, rfl⟩
  | free api ptr =>
    have henter : enter (.free api ptr) = DeviceMemory.cudaFree api ptr := by cases api <;> rfl
    rw [henter, DeviceMemory.cudaFree]
    split
    · next h0 =>
      left
      refine ⟨rfl, fun r => ?_⟩
      have hseq : runtimeStep r (.free ptr) = (.fail .cudaSuccess, r) := if_pos h0
      rw [resolved, hseq]
      exact ⟨rfl, .returned (.free api ptr) _⟩
    · exact .inr ⟨Phase.noConfusion, rfl, rfl⟩

end Steps

section Readings

variable {s : DeviceState} {t : ℕ}

/-- A step seen as the three parts of a call, with the answer it gives. -/
structure Explained (s : DeviceState) (e : Event) : Prop where
  view : viewOf (deviceStep s e).2 =
    ((performsOf s e).map fun op => (runtimeStep (viewOf s) op).2).getD (viewOf s)
  parts : ∃ entered done,
    Enter (stageOf (s.phase e.thread)) (entersOf s e) entered ∧
    Perform Resolves (fun op => (runtimeStep (viewOf s) op).1) entered (performsOf s e) done ∧
    Return done (returnsOf s e) (stageOf ((deviceStep s e).2.phase e.thread)) ∧
    ((deviceStep s e).1 = .running ∧ returnsOf s e = none ∨
      ∃ c r, done = .decided c r ∧ returnsOf s e = some r ∧ Answers c r (deviceStep s e).1)

variable {e : Event} {next : DeviceState}

theorem explained_quiet (hstep : deviceStep s e = (.running, next))
    (hview : viewOf next = viewOf s)
    (henters : Enter (stageOf (s.phase e.thread)) (entersOf s e) (stageOf (next.phase e.thread)))
    (hperforms : performsOf s e = none) (hreturns : returnsOf s e = none) : Explained s e := by
  refine ⟨?_, _, stageOf (next.phase e.thread), henters, ?_, ?_,
    .inl ⟨by rw [hstep], hreturns⟩⟩
  · rw [hstep, hperforms]
    exact hview
  · rw [hperforms]
    exact .stay _
  · rw [hstep, hreturns]
    exact .stay _

theorem explained_last {reply : Answer} {c : Call} {op : RuntimeCall}
    (hstep : deviceStep s e = (reply, next.park e.thread .idle))
    (henters : Enter (stageOf (s.phase e.thread)) (entersOf s e) (.waiting c))
    (hop : Resolves c op) (hperforms : performsOf s e = some op)
    (hview : viewOf next = (runtimeStep (viewOf s) op).2)
    (hreturns : returnsOf s e = some (runtimeStep (viewOf s) op).1)
    (hanswer : Answers c (runtimeStep (viewOf s) op).1 reply) : Explained s e := by
  refine ⟨?_, .waiting c, .decided c _, henters, ?_, ?_, .inr ⟨c, _, rfl, hreturns, ?_⟩⟩
  · rw [hstep, hperforms]
    exact hview
  · rw [hperforms]
    exact .effect hop
  · rw [hstep, hreturns]
    change Return _ _ (stageOf ((next.park e.thread .idle).phase e.thread))
    rw [park_self]
    exact .leave c _
  · rw [hstep]
    exact hanswer

theorem explained_call (s : DeviceState) (t : ℕ) (call : Call) : Explained s (.call t call) := by
  by_cases hp : s.phase t = .idle
  · have hstep : deviceStep s (.call t call) = ((enter call).1, s.park t (enter call).2) :=
      callStep_idle call hp
    have henters : Enter (stageOf (s.phase t)) (entersOf s (.call t call)) (.waiting call) := by
      rw [show entersOf s (.call t call) = some call from if_pos hp, hp]
      exact .call call
    rcases enter_cases call with ⟨hover, hseq⟩ | ⟨hopen, hwaits, hrunning⟩
    · have hnow : Immediate s t call := ⟨hp, hover⟩
      rw [hover] at hstep
      exact explained_last hstep henters ⟨0, rfl⟩ (if_pos hnow) (hseq (viewOf s)).1.symm
        (if_pos hnow) (hseq (viewOf s)).2
    · have hnow : ¬ Immediate s t call := fun h => hopen h.2
      rw [hrunning] at hstep
      refine explained_quiet hstep rfl ?_ (if_neg hnow) (if_neg hnow)
      change Enter _ _ (stageOf ((s.park t (enter call).2).phase t))
      rw [park_self, hwaits]
      exact henters
  · have hnow : ¬ Immediate s t call := fun h => hp h.1
    refine explained_quiet (callStep_busy call hp) rfl ?_ (if_neg hnow) (if_neg hnow)
    rw [show entersOf s (.call t call) = none from if_neg hp]
    exact .stay _

theorem explained_step (h : Valid s) (t : ℕ) (answer : UInt64) : Explained s (.step t answer) := by
  have ht := h t
  cases hp : s.phase t with
  | idle =>
    exact explained_quiet (threadStep_idle hp) rfl (.stay _) (by simp only [performsOf, hp])
      (by simp only [returnsOf, hp])
  | allocating api size layout =>
    rw [hp] at ht
    obtain ⟨hs, hl⟩ := ht
    have hwaits : Enter (stageOf (s.phase t)) none (.waiting (.malloc api false size)) := by
      rw [hp]
      exact .stay _
    by_cases h0 : answer = 0
    · have hseq := malloc_checked (viewOf s) 0 hs hl
      rw [if_pos rfl] at hseq
      have hcode : mallocCode api .cudaErrorMemoryAllocation =
          returnCode (.malloc api false size) .cudaErrorMemoryAllocation := by
        cases api <;> rfl
      refine explained_last (threadStep_refused hp h0) hwaits ⟨0, rfl⟩
        (by simp only [performsOf, hp, if_pos h0, resolved]) ?_ ?_ ?_
      · rw [resolved, hseq]
      · simp only [returnsOf, hp, if_pos h0, resolved, hseq]
      · rw [resolved, hseq, hcode]
        exact .returned _ _
    · refine explained_quiet (threadStep_granted hp h0) rfl ?_
        (by simp only [performsOf, hp, if_neg h0]) (by simp only [returnsOf, hp, if_neg h0])
      change Enter _ _ (stageOf ((DeviceState.park _ t (.registering api answer size)).phase t))
      rw [park_self]
      exact hwaits
  | registering api addr size =>
    rw [hp] at ht
    obtain ⟨h0, hs, hl⟩ := ht
    have hseq := malloc_checked (viewOf s) addr hs hl
    rw [if_neg h0] at hseq
    have hwaits : Enter (stageOf (s.phase t)) none (.waiting (.malloc api false size)) := by
      rw [hp]
      exact .stay _
    have hcode : mallocCode api .cudaSuccess =
        returnCode (.malloc api false size) .cudaSuccess := by
      cases api <;> rfl
    refine explained_last (threadStep_registered hp) hwaits ⟨addr, rfl⟩
      (by simp only [performsOf, hp, resolved]) ?_ ?_ ?_
    · rw [resolved, hseq]
      rfl
    · simp only [returnsOf, hp, resolved, hseq]
    · rw [resolved, hseq, hcode]
      exact .allocated api false size addr
  | removing api addr =>
    rw [hp] at ht
    have hwaits : Enter (stageOf (s.phase t)) none (.waiting (.free api addr)) := by
      rw [hp]
      exact .stay _
    cases hl : s.table.lookup addr with
    | none =>
      have hseq := free_unlisted (viewOf s) ht hl
      refine explained_last (threadStep_unknown hp hl) hwaits ⟨0, rfl⟩
        (by simp only [performsOf, hp, resolved]) ?_ ?_ ?_
      · rw [resolved, hseq]
      · simp only [returnsOf, hp, hl, Option.isNone_none, if_true, resolved, hseq]
      · rw [resolved, hseq]
        exact .returned (.free api addr) _
    | some entry =>
      have hseq := free_listed (viewOf s) ht hl
      have hstep : deviceStep s (.step t answer) = _ := threadStep_removed hp hl
      have hperforms : performsOf s (.step t answer) = some (.free addr) := by
        simp only [performsOf, hp]
      have hreturns : returnsOf s (.step t answer) = none := by
        simp [returnsOf, hp, hl]
      refine ⟨?_, _, .decided (.free api addr) (releaseResult entry), hwaits, ?_, ?_,
        .inl ⟨by rw [hstep], hreturns⟩⟩
      · rw [hstep, hperforms, Option.map_some, Option.getD_some, hseq]
        rfl
      · have hresolves : Resolves (.free api addr) (.free addr) := ⟨0, rfl⟩
        have hresult : (runtimeStep (viewOf s) (.free addr)).1 = releaseResult entry := by
          rw [hseq]
        rw [hperforms, ← hresult]
        exact .effect hresolves
      · rw [hstep, hreturns]
        change Return _ _ (stageOf ((DeviceState.park _ t (.releasing api addr entry)).phase t))
        rw [park_self]
        exact .stay _
  | releasing api addr entry =>
    have hperforms : performsOf s (.step t answer) = none := by
      simp only [performsOf, hp]
    have hreturns : returnsOf s (.step t answer) = some (releaseResult entry) := by
      simp only [returnsOf, hp]
    obtain ⟨reply, heap, hstep, hanswer⟩ : ∃ reply heap, deviceStep s (.step t answer) =
        (reply, { s with heap := heap }.park t .idle) ∧
        Answers (.free api addr) (releaseResult entry) reply := by
      simp only [deviceStep, threadStep, hp, releaseResult]
      cases fromSizeAlign entry.size 256 with
      | none => exact ⟨_, s.heap, rfl, .panicked _ _⟩
      | some layout => exact ⟨_, _, rfl, .deallocated api addr layout⟩
    refine ⟨?_, .decided (.free api addr) (releaseResult entry), _, ?_, ?_, ?_,
      .inr ⟨.free api addr, _, rfl, hreturns, ?_⟩⟩
    · rw [hstep, hperforms]
      rfl
    · change Enter (stageOf (s.phase t)) none (.decided (.free api addr) (releaseResult entry))
      rw [hp]
      exact .stay _
    · rw [hperforms]
      exact .stay _
    · rw [hstep, hreturns]
      change Return _ _ (stageOf ((DeviceState.park _ t .idle).phase t))
      rw [park_self]
      exact .leave _ _
    · rw [hstep]
      exact hanswer

theorem explained (h : Valid s) (e : Event) : Explained s e := by
  cases e with
  | call t call => exact explained_call s t call
  | step t answer => exact explained_step h t answer

theorem sound : Sound devices runtime reading Resolves Valid where
  valid_start _ := trivial
  valid_step _ e h := valid_step h e
  view_start := rfl
  view_step _ e h := (explained h e).view
  outside_start _ := rfl
  others _ e _ hu := congrArg stageOf (phase_other hu)
  own s e h := by
    obtain ⟨entered, done, henter, hperform, hreturn, -⟩ := (explained h e).parts
    exact ⟨entered, done, henter, hperform, hreturn⟩

end Readings

/-- Whatever the threads do to each other, some order of the calls explains the table and every
answer, and each call has its place in it between its beginning and its end. -/
theorem memory_linearizable (events : List Event) :
    Linearizable devices runtime reading Resolves events ∧
    ∀ j e answer, events[j]? = some e → devices.outputAt events j = some answer →
      answer ≠ .running → ∃ k p c op r,
        Decides devices runtime reading Resolves events k p (j + 1) j e.thread c op r ∧
        Answers c r answer := by
  refine ⟨linearizable sound events, fun j e answer he hout hdone => ?_⟩
  obtain ⟨entered, done, henter, hperform, -, hanswer⟩ := (explained (sound.valid_at j) e).parts
  have hb := between sound he (known_at sound j _) henter hperform
  rw [outputAt_eq _ he, Option.some.injEq] at hout
  subst hout
  rcases hanswer with ⟨hrunning, -⟩ | ⟨c, r, hdecided, -, hanswers⟩
  · exact absurd hrunning hdone
  · obtain ⟨k, p, op, h⟩ := hb.decided c r hdecided
    exact ⟨k, p, c, op, r, h, hanswers⟩

end MemoryCalls
