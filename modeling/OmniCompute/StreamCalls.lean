import OmniCompute.RunLogs
import OmniCompute.RuntimeApi

/-! Stream calls of many threads against the same calls made one at a time. A creation enters the
table in a second access, and so passes for one call, made when its number is taken, exactly as
long as nobody acts on a handle whose creation has not returned. -/
namespace StreamCalls

open RustValues EventRuns RunLogs CudaShim StreamTable RuntimeApi

/-- The sequential call a step stands for. The second access of a creation stands for none. -/
def performed : StreamTable.Event → Option RuntimeCall
  | .create nullPointer => some (.streamCreate nullPointer)
  | .insert _ => none
  | .destroy stream => some (.streamDestroy stream)
  | .synchronize stream => some (.streamSynchronize stream)
  | .launchRuntime f g b m stream => some (.launchKernel f g b m stream)
  | .launchDriver f g b m stream => some (.launchKernel f g b m.toUInt64 stream)

def calls (events : List StreamTable.Event) : List RuntimeCall := events.filterMap performed

def created (h : UInt64) : StreamContext := ⟨h, 0, true, []⟩

/-- The table as it is once the creations in progress have returned. -/
def settled (s : StreamState) (h : UInt64) : Option StreamContext :=
  if h ∈ s.taken then some (created h) else s.table.lookup h

def returnedHandle : StreamTable.Reply → Option UInt64
  | .created h => some h
  | _ => none

def grantedHandle : RuntimeApi.Reply → Option UInt64
  | .code _ (.pointer h) => some h
  | _ => none

def returned (events : List StreamTable.Event) (i : ℕ) : List UInt64 :=
  gathered streams (fun s e => (returnedHandle (streamStep s e).1).toList) events i

def granted (cs : List RuntimeCall) : List UInt64 :=
  gathered runtime (fun s c => (grantedHandle (runtimeStep s c).1).toList) cs cs.length

/-- The sequential state explains the table, the counter and every handle handed out. -/
structure Explains (events : List StreamTable.Event) (i : ℕ) : Prop where
  table : ∀ h, settled (streams.stateAt events i) h =
    (runtime.after (calls (events.take i))).streamTable.table.lookup h
  counter : (streams.stateAt events i).counter =
    (runtime.after (calls (events.take i))).streamTable.counter
  handles : (returned events i ++ (streams.stateAt events i).taken).Perm
    (granted (calls (events.take i)))

/-- A step whose effect depends on the presence of the stream `h`. -/
def ActsOn (h : UInt64) : StreamTable.Event → Prop
  | .destroy stream => stream = h
  | .launchRuntime _ _ _ _ stream => stream = h ∧ h ≠ 0
  | .launchDriver _ _ _ _ stream => stream = h ∧ h ≠ 0
  | _ => False

/-- Nobody acts on a handle while a creation that has taken it is still in progress. -/
def AwaitsCreations (events : List StreamTable.Event) : Prop :=
  ∀ i e h, events[i]? = some e → ActsOn h e → h ∉ (streams.stateAt events i).taken

section Steps

def follow (r : RuntimeState) (e : StreamTable.Event) : RuntimeState :=
  (performed e).elim r fun c => (runtimeStep r c).2

structure Numbers (s : StreamState) (r : RuntimeState) : Prop where
  counter : s.counter = r.streamTable.counter
  idle : r.streamTable.taken = []

def Tables (s : StreamState) (r : RuntimeState) : Prop :=
  ∀ h, settled s h = r.streamTable.table.lookup h

variable {s : StreamState} {r : RuntimeState} {e : StreamTable.Event}

theorem settled_of_mem {h : UInt64} (ht : h ∈ s.taken) : settled s h = some (created h) :=
  if_pos ht

theorem settled_of_not_mem {h : UInt64} (ht : h ∉ s.taken) : settled s h = s.table.lookup h :=
  if_neg ht

theorem enqueue_taken (stream : UInt64) (launch : KernelLaunch) :
    (enqueue s stream launch).taken = s.taken ∧
      (enqueue s stream launch).counter = s.counter := by
  rw [enqueue]
  split
  · split <;> exact ⟨rfl, rfl⟩
  · exact ⟨rfl, rfl⟩

theorem synchronize_taken (stream : UInt64) :
    (StreamTable.cudaStreamSynchronize s stream).2.taken = s.taken ∧
      (StreamTable.cudaStreamSynchronize s stream).2.counter = s.counter := by
  rw [StreamTable.cudaStreamSynchronize]
  split <;> exact ⟨rfl, rfl⟩

theorem driverLaunch_eq (f : UInt64) (g b : Dim3) (m : UInt32) :
    driverLaunch f g b m = runtimeLaunch f g b m.toUInt64 := by
  rw [driverLaunch, runtimeLaunch, UInt32.toUInt32_toUInt64]

theorem numbers_step (h : Numbers s r) (e : StreamTable.Event) :
    Numbers (streamStep s e).2 (follow r e) := by
  cases e with
  | create nullPointer =>
    cases nullPointer with
    | true => exact h
    | false =>
      constructor
      · change s.counter + 1 = _
        rw [h.counter]
        simp [follow, performed, runtimeStep, RuntimeApi.cudaStreamCreate, insertStream,
          StreamTable.cudaStreamCreate]
      · simp [follow, performed, runtimeStep, RuntimeApi.cudaStreamCreate, insertStream,
          StreamTable.cudaStreamCreate, h.idle]
  | insert handle =>
    refine ⟨?_, h.idle⟩
    rw [(taken_other (by simp)).1]
    exact h.counter
  | destroy stream => exact ⟨h.counter, h.idle⟩
  | synchronize stream =>
    exact ⟨(synchronize_taken stream).2.trans (h.counter.trans (synchronize_taken stream).2.symm),
      (synchronize_taken stream).1.trans h.idle⟩
  | launchRuntime f g b m stream | launchDriver f g b m stream =>
    exact ⟨(enqueue_taken stream _).2.trans (h.counter.trans (enqueue_taken stream _).2.symm),
      (enqueue_taken stream _).1.trans h.idle⟩

theorem tables_at {stream : UInt64} (h : Tables s r)
    (s' : StreamState) (r' : RuntimeState) (htaken : s'.taken = s.taken)
    (hs : ∀ k, k ≠ stream → s'.table.lookup k = s.table.lookup k)
    (hr : ∀ k, k ≠ stream → r'.streamTable.table.lookup k = r.streamTable.table.lookup k) :
    Tables s' r' ↔ settled s' stream = r'.streamTable.table.lookup stream := by
  refine ⟨fun h' => h' stream, fun hself k => ?_⟩
  by_cases hk : k = stream
  · rw [hk]
    exact hself
  · rw [hr k hk, ← h k, settled, settled, htaken, hs k hk]

theorem enqueue_lookup {stream : UInt64} (h0 : stream ≠ 0) (launch : KernelLaunch) :
    (enqueue s stream launch).table.lookup stream = (s.table.lookup stream).map fun ctx =>
      { ctx with pendingKernels := ctx.pendingKernels ++ [launch], synchronized := false } := by
  rw [enqueue, if_pos h0]
  cases hl : s.table.lookup stream with
  | none => exact hl
  | some ctx => exact AList.lookup_insert _

theorem synchronize_lookup (stream : UInt64) :
    (StreamTable.cudaStreamSynchronize s stream).2.table.lookup stream =
      (s.table.lookup stream).map fun ctx =>
        { ctx with pendingKernels := [], synchronized := true } := by
  rw [StreamTable.cudaStreamSynchronize]
  cases hl : s.table.lookup stream with
  | none => exact hl
  | some ctx => exact AList.lookup_insert _

theorem tables_create (h : Tables s r) (hn : Numbers s r) :
    Tables (streamStep s (.create false)).2 (follow r (.create false)) := by
  intro k
  have htable : (follow r (.create false)).streamTable.table =
      r.streamTable.table.insert r.streamTable.counter (created r.streamTable.counter) := by
    simp [follow, performed, runtimeStep, RuntimeApi.cudaStreamCreate, insertStream,
      StreamTable.cudaStreamCreate, created]
  rw [htable, ← hn.counter]
  by_cases hk : k = s.counter
  · rw [hk, AList.lookup_insert]
    exact settled_of_mem (List.mem_cons_self ..)
  · rw [AList.lookup_insert_ne hk, ← h k]
    simp [settled, streamStep, StreamTable.cudaStreamCreate, hk]

theorem tables_insert (h : Tables s r) (handle : UInt64) :
    Tables (streamStep s (.insert handle)).2 r := by
  intro k
  rw [← h k, streamStep, insertStream]
  by_cases ht : handle ∈ s.taken
  · rw [if_pos ht]
    by_cases hk : k = handle
    · subst hk
      simp [settled, ht, created]
    · simp [settled, List.mem_erase_of_ne hk, AList.lookup_insert_ne hk]
  · rw [if_neg ht]

theorem tables_destroy (h : Tables s r) (stream : UInt64) :
    Tables (streamStep s (.destroy stream)).2 (follow r (.destroy stream)) ↔
      stream ∉ s.taken := by
  have hother : ∀ (t : StreamState) k, k ≠ stream →
      (t.table.erase stream).lookup k = t.table.lookup k := fun t k hk => AList.lookup_erase_ne hk
  rw [tables_at h (streamStep s (.destroy stream)).2 _ rfl (hother s) (hother r.streamTable)]
  change settled _ stream = (r.streamTable.table.erase stream).lookup stream ↔ _
  rw [AList.lookup_erase]
  by_cases ht : stream ∈ s.taken
  · simp [settled_of_mem (s := (streamStep s (.destroy stream)).2) ht, ht]
  · rw [settled_of_not_mem (s := (streamStep s (.destroy stream)).2) ht]
    simp [streamStep, StreamTable.cudaStreamDestroy, ht]

theorem tables_synchronize (h : Tables s r) (stream : UInt64) :
    Tables (streamStep s (.synchronize stream)).2 (follow r (.synchronize stream)) := by
  have hother : ∀ (t : StreamState) k, k ≠ stream →
      (StreamTable.cudaStreamSynchronize t stream).2.table.lookup k = t.table.lookup k :=
    fun t k hk => lookup_other (e := .synchronize stream)
      (fun heq => hk (Option.some.inj heq).symm)
  have htaken := (synchronize_taken (s := s) stream).1
  refine (tables_at h _ _ htaken (hother s) (hother r.streamTable)).2 ?_
  change settled (StreamTable.cudaStreamSynchronize s stream).2 stream =
    (StreamTable.cudaStreamSynchronize r.streamTable stream).2.table.lookup stream
  rw [synchronize_lookup, ← h stream, settled, settled, htaken, synchronize_lookup]
  split <;> rfl

/-- A stream that is not in the table yet loses the launch. -/
theorem tables_enqueue (h : Tables s r) (r' : RuntimeState) {stream : UInt64}
    (launch : KernelLaunch) (hr : r'.streamTable = enqueue r.streamTable stream launch) :
    Tables (enqueue s stream launch) r' ↔ (stream ≠ 0 → stream ∉ s.taken) := by
  by_cases h0 : stream = 0
  · subst h0
    simp only [ne_eq, not_true_eq_false, false_imp_iff, iff_true]
    intro k
    rw [hr]
    exact h k
  · rw [tables_at h _ _ (enqueue_taken stream launch).1
      (fun k hk => enqueue_other launch (Ne.symm hk))
      (fun k hk => by rw [hr, enqueue_other launch (Ne.symm hk)]), hr, enqueue_lookup h0,
      ← h stream]
    rw [settled, settled, (enqueue_taken stream launch).1, enqueue_lookup h0]
    by_cases ht : stream ∈ s.taken
    · simp [created, h0, ht]
    · simp [ht]

/-- The tables stay together over a step exactly if it does not act on a creation in progress. -/
theorem tables_step (h : Tables s r) (hn : Numbers s r) (e : StreamTable.Event) :
    Tables (streamStep s e).2 (follow r e) ↔ ∀ stream, ActsOn stream e → stream ∉ s.taken := by
  cases e with
  | create nullPointer =>
    refine iff_of_true ?_ (fun _ hacts => hacts.elim)
    cases nullPointer with
    | true => exact h
    | false => exact tables_create h hn
  | insert handle => exact iff_of_true (tables_insert h handle) (fun _ hacts => hacts.elim)
  | destroy stream =>
    rw [tables_destroy h]
    simp [ActsOn]
  | synchronize stream =>
    exact iff_of_true (tables_synchronize h stream) (fun _ hacts => hacts.elim)
  | launchRuntime f g b m stream =>
    refine (tables_enqueue h (follow r (.launchRuntime f g b m stream)) _ rfl).trans ?_
    simp [ActsOn]
  | launchDriver f g b m stream =>
    refine (tables_enqueue h (follow r (.launchDriver f g b m stream)) _ ?_).trans ?_
    · rw [driverLaunch_eq]
      rfl
    · simp [ActsOn]

theorem handles_step (hn : Numbers s r) (e : StreamTable.Event) :
    ((returnedHandle (streamStep s e).1).toList ++ (streamStep s e).2.taken).Perm
      (s.taken ++ (performed e).toList.flatMap fun c =>
        (grantedHandle (runtimeStep r c).1).toList) := by
  cases e with
  | create nullPointer =>
    cases nullPointer with
    | true => simp [streamStep, StreamTable.cudaStreamCreate, returnedHandle, performed,
        runtimeStep, RuntimeApi.cudaStreamCreate, Reply.fail, grantedHandle]
    | false =>
      have hgranted : (grantedHandle (runtimeStep r (.streamCreate false)).1) = some s.counter := by
        rw [hn.counter]
        rfl
      simp only [performed, Option.toList_some, List.flatMap_cons, List.flatMap_nil, hgranted,
        List.append_nil]
      exact (List.perm_append_singleton s.counter s.taken).symm
  | insert handle =>
    simp only [performed, Option.toList_none, List.flatMap_nil, List.append_nil, streamStep,
      insertStream]
    split
    · next ht => exact (List.perm_cons_erase ht).symm
    · exact List.Perm.refl _
  | destroy stream =>
    simp [streamStep, StreamTable.cudaStreamDestroy, returnedHandle, performed, runtimeStep,
      RuntimeApi.cudaStreamDestroy, Reply.succeed, grantedHandle]
  | synchronize stream =>
    have hreply : returnedHandle (StreamTable.cudaStreamSynchronize s stream).1 = none := by
      rw [StreamTable.cudaStreamSynchronize]
      split <;> rfl
    simp [streamStep, hreply, (synchronize_taken stream).1, performed, runtimeStep,
      RuntimeApi.cudaStreamSynchronize, Reply.succeed, grantedHandle]
  | launchRuntime f g b m stream | launchDriver f g b m stream =>
    simp [streamStep, StreamTable.cudaLaunchKernel, cuLaunchKernel, (enqueue_taken stream _).1,
      returnedHandle, performed, runtimeStep, RuntimeApi.cudaLaunchKernel, Reply.succeed,
      grantedHandle]

end Steps

section Runs

variable {events : List StreamTable.Event}

def sequentialAt (events : List StreamTable.Event) (i : ℕ) : RuntimeState :=
  runtime.after (calls (events.take i))

theorem calls_succ {i : ℕ} {e : StreamTable.Event} (he : events[i]? = some e) :
    calls (events.take (i + 1)) = calls (events.take i) ++ (performed e).toList := by
  rw [calls, List.take_add_one, he, List.filterMap_append, ← calls]
  cases h : performed e <;> simp [h]

theorem sequentialAt_succ {i : ℕ} {e : StreamTable.Event} (he : events[i]? = some e) :
    sequentialAt events (i + 1) = follow (sequentialAt events i) e := by
  rw [sequentialAt, calls_succ he, follow]
  cases performed e with
  | none => rw [Option.toList_none, List.append_nil]; rfl
  | some c => exact after_snoc runtime _ c

theorem granted_snoc (cs : List RuntimeCall) (c : RuntimeCall) :
    granted (cs ++ [c]) =
      granted cs ++ (grantedHandle (runtimeStep (runtime.after cs) c).1).toList := by
  have hlast : (cs ++ [c])[cs.length]? = some c := List.getElem?_concat_length
  rw [granted, List.length_append, List.length_singleton, gathered_succ hlast,
    gathered_append _ le_rfl, stateAt_append _ le_rfl, stateAt_length, ← granted]

theorem granted_succ {i : ℕ} {e : StreamTable.Event} (he : events[i]? = some e) :
    granted (calls (events.take (i + 1))) = granted (calls (events.take i)) ++
      (performed e).toList.flatMap fun c =>
        (grantedHandle (runtimeStep (sequentialAt events i) c).1).toList := by
  rw [calls_succ he]
  cases performed e with
  | none => simp
  | some c =>
    rw [Option.toList_some, granted_snoc, List.flatMap_singleton]
    rfl

theorem sequentialAt_end {i : ℕ} (he : events[i]? = none) :
    calls (events.take (i + 1)) = calls (events.take i) := by
  rw [List.take_add_one, he, Option.toList_none, List.append_nil]

theorem numbers_at (events : List StreamTable.Event) (i : ℕ) :
    Numbers (streams.stateAt events i) (sequentialAt events i) := by
  induction i with
  | zero => exact ⟨rfl, rfl⟩
  | succ i ih =>
    cases he : events[i]? with
    | none =>
      rw [stateAt_end streams he, sequentialAt, sequentialAt_end he]
      exact ih
    | some e =>
      rw [stateAt_succ streams he, sequentialAt_succ he]
      exact numbers_step ih e

theorem handles_at (events : List StreamTable.Event) (i : ℕ) :
    (returned events i ++ (streams.stateAt events i).taken).Perm
      (granted (calls (events.take i))) := by
  induction i with
  | zero => exact List.Perm.refl _
  | succ i ih =>
    cases he : events[i]? with
    | none =>
      rw [stateAt_end streams he, sequentialAt_end he, returned, gathered_end he]
      exact ih
    | some e =>
      rw [stateAt_succ streams he, granted_succ he, returned, gathered_succ he, ← returned,
        List.append_assoc]
      refine ((handles_step (numbers_at events i) e).append_left _).trans ?_
      rw [← List.append_assoc]
      exact ih.append_right _

theorem explains_succ {i : ℕ} {e : StreamTable.Event} (he : events[i]? = some e)
    (h : Tables (streams.stateAt events i) (sequentialAt events i)) :
    Tables (streams.stateAt events (i + 1)) (sequentialAt events (i + 1)) ↔
      ∀ stream, ActsOn stream e → stream ∉ (streams.stateAt events i).taken := by
  rw [stateAt_succ streams he, sequentialAt_succ he]
  exact tables_step h (numbers_at events i) e

theorem tables_at_all (h : AwaitsCreations events) (i : ℕ) :
    Tables (streams.stateAt events i) (sequentialAt events i) := by
  induction i with
  | zero =>
    intro k
    rfl
  | succ i ih =>
    cases he : events[i]? with
    | none =>
      rw [stateAt_end streams he, sequentialAt, sequentialAt_end he]
      exact ih
    | some e => exact (explains_succ he ih).2 fun stream => h i e stream he

/-- Creating a stream in two accesses is creating it in one, for every run in which nobody acts
on a handle before the creation that takes it has returned, and for no other. -/
theorem creation_atomic_iff (events : List StreamTable.Event) :
    (∀ i, Explains events i) ↔ AwaitsCreations events := by
  constructor
  · intro h i e stream he hacts
    exact (explains_succ he (h i).table).1 (h (i + 1)).table stream hacts
  · intro h i
    exact ⟨tables_at_all h i, (numbers_at events i).counter, handles_at events i⟩

end Runs

end StreamCalls
