import OmniCompute.ByteRanges
import OmniCompute.DeviceCustody
import OmniCompute.RuntimeApi
import Mathlib.Tactic.IntervalCases

/-! What device memory holds. Copies and fills of both interfaces go straight to the process's
memory and never ask the allocation table. A copy is one step, since other accesses to the
bytes it moves would be a data race. Bytes outside the blocks from the heap belong to the host
program and to the heap itself, which may change them before every event. -/
namespace DeviceTransfers

open RustValues EventRuns KeyedTotals CudaShim DeviceMemory RuntimeApi ByteRanges

structure TransferState where
  device : DeviceState
  memory : Memory UInt8

def TransferState.new : TransferState := ⟨.new, fun _ => 0⟩

inductive Action where
  | device (event : DeviceMemory.Event)
  | memcpy (dst src count : UInt64) (kind : CudaMemcpyKind)
  | memcpyAsync (dst src count : UInt64) (kind : CudaMemcpyKind) (stream : UInt64)
  | memset (devPtr : UInt64) (value : Int32) (count : UInt64)
  | memcpyHtoD (dstDevice srcHost byteCount : UInt64)
  | memcpyDtoH (dstHost srcDevice byteCount : UInt64)

/-- An action, and what the bytes outside all blocks have become by then. -/
structure Event where
  action : Action
  outside : Memory UInt8

/-- `undefined` is an access that Rust gives no meaning to. -/
inductive Reply where
  | device (reply : DeviceMemory.Reply)
  | code (code : Code)
  | undefined
  deriving DecidableEq

def block (a : UInt64) (layout : Layout) : Range := ⟨a.toNat, layout.size.toNat⟩

def bytes (start count : UInt64) : Range := ⟨start.toNat, count.toNat⟩

def Addressable (start count : UInt64) : Prop :=
  start ≠ 0 ∧ start.toNat + count.toNat ≤ 2 ^ 64

instance (start count : UInt64) : Decidable (Addressable start count) :=
  inferInstanceAs (Decidable (_ ∧ _))

/-- `std::ptr::copy_nonoverlapping` -/
def copyNonoverlapping (m : Memory UInt8) (dst src count : UInt64) : Option (Memory UInt8) :=
  if Addressable dst count ∧ Addressable src count ∧ (bytes dst count).Apart (bytes src count) then
    some (copied m dst.toNat src.toNat count.toNat)
  else none

/-- `std::ptr::write_bytes` -/
def writeBytes (m : Memory UInt8) (dst : UInt64) (value : UInt8) (count : UInt64) :
    Option (Memory UInt8) :=
  if Addressable dst count then some (filled m dst.toNat count.toNat value) else none

def successCode : Api → Code
  | .runtime => .runtime .cudaSuccess
  | .driver => .driver .cudaSuccess

def invalidValue : Api → Code
  | .runtime => .runtime .cudaErrorInvalidValue
  | .driver => .driver .cudaErrorInvalidValue

def checked (m : Memory UInt8) (api : Api) (null : Bool) (access : Option (Memory UInt8)) :
    Reply × Memory UInt8 :=
  if null then (.code (invalidValue api), m)
  else
    match access with
    | some m' => (.code (successCode api), m')
    | none => (.undefined, m)

def cudaMemcpy (m : Memory UInt8) (dst src count : UInt64) (_kind : CudaMemcpyKind) :
    Reply × Memory UInt8 :=
  checked m .runtime (dst = 0 ∨ src = 0) (copyNonoverlapping m dst src count)

def cudaMemcpyAsync (m : Memory UInt8) (dst src count : UInt64) (kind : CudaMemcpyKind)
    (_stream : UInt64) : Reply × Memory UInt8 :=
  cudaMemcpy m dst src count kind

/-- `value as u8` keeps the low byte. -/
def cudaMemset (m : Memory UInt8) (devPtr : UInt64) (value : Int32) (count : UInt64) :
    Reply × Memory UInt8 :=
  checked m .runtime (devPtr = 0) (writeBytes m devPtr value.toUInt32.toUInt8 count)

/-- Only the host pointer is checked. -/
def cuMemcpyHtoD (m : Memory UInt8) (dstDevice srcHost byteCount : UInt64) :
    Reply × Memory UInt8 :=
  checked m .driver (srcHost = 0) (copyNonoverlapping m dstDevice srcHost byteCount)

def cuMemcpyDtoH (m : Memory UInt8) (dstHost srcDevice byteCount : UInt64) :
    Reply × Memory UInt8 :=
  checked m .driver (dstHost = 0) (copyNonoverlapping m dstHost srcDevice byteCount)

def Live (heap : HashMap UInt64 Layout) (x : ℕ) : Prop :=
  ∃ entry ∈ heap.entries, (block entry.1 entry.2).Has x

instance (heap : HashMap UInt64 Layout) (x : ℕ) : Decidable (Live heap x) :=
  inferInstanceAs (Decidable (∃ entry ∈ heap.entries, _))

def TransferState.settle (s : TransferState) (outside : Memory UInt8) : Memory UInt8 := fun x =>
  if Live s.device.heap x then s.memory x else outside x

def transfer (m : Memory UInt8) : Action → Reply × Memory UInt8
  | .device _ => (.device .running, m)
  | .memcpy dst src count kind => cudaMemcpy m dst src count kind
  | .memcpyAsync dst src count kind stream => cudaMemcpyAsync m dst src count kind stream
  | .memset devPtr value count => cudaMemset m devPtr value count
  | .memcpyHtoD dst src count => cuMemcpyHtoD m dst src count
  | .memcpyDtoH dst src count => cuMemcpyDtoH m dst src count

/-- Nothing is known of the memory after an undefined access. -/
def transferStep (s : TransferState) (e : Event) : Reply × TransferState :=
  let m := s.settle e.outside
  match e.action with
  | .device event => (.device (deviceStep s.device event).1, ⟨(deviceStep s.device event).2, m⟩)
  | action =>
    let moved := transfer m action
    (moved.1, ⟨s.device, if moved.1 = .undefined then e.outside else moved.2⟩)

def transfers : Machine TransferState Event Reply := ⟨.new, transferStep⟩

def target : Action → Option Range
  | .device _ => none
  | .memcpy dst _ count _ => some (bytes dst count)
  | .memcpyAsync dst _ count _ _ => some (bytes dst count)
  | .memset devPtr _ count => some (bytes devPtr count)
  | .memcpyHtoD dst _ count => some (bytes dst count)
  | .memcpyDtoH dst _ count => some (bytes dst count)

def contents (m : Memory UInt8) : Action → List UInt8
  | .device _ => []
  | .memcpy _ src count _ => read m (bytes src count)
  | .memcpyAsync _ src count _ _ => read m (bytes src count)
  | .memset _ value count => List.replicate count.toNat value.toUInt32.toUInt8
  | .memcpyHtoD _ src count => read m (bytes src count)
  | .memcpyDtoH _ src count => read m (bytes src count)

def source : Action → Option Range
  | .memcpy _ src count _ => some (bytes src count)
  | .memcpyAsync _ src count _ _ => some (bytes src count)
  | .memcpyHtoD _ src count => some (bytes src count)
  | .memcpyDtoH _ src count => some (bytes src count)
  | _ => none

theorem contents_source {action : Action} {r : Range} (h : source action = some r)
    (m : Memory UInt8) : contents m action = read m r := by
  cases action <;> cases h <;> rfl

def isSuccess : Reply → Bool
  | .code (.runtime .cudaSuccess) => true
  | .code (.driver .cudaSuccess) => true
  | _ => false

/-- A block comes from the heap apart from all blocks that are still allocated. -/
def GrantedApart (s : DeviceState) : DeviceMemory.Event → Prop
  | .call _ _ => True
  | .step thread answer =>
    ∀ layout ∈ requestedLayout (s.phase thread), answer ≠ 0 →
      ∀ entry ∈ s.heap.entries, (block answer layout).Apart (block entry.1 entry.2)
where
  requestedLayout : Phase → Option Layout
    | .allocating _ _ layout => some layout
    | _ => none

instance (s : DeviceState) : (e : DeviceMemory.Event) → Decidable (GrantedApart s e)
  | .call _ _ => .isTrue trivial
  | .step thread answer => inferInstanceAs (Decidable
      (∀ layout ∈ GrantedApart.requestedLayout (s.phase thread), answer ≠ 0 →
        ∀ entry ∈ s.heap.entries, (block answer layout).Apart (block entry.1 entry.2)))

def GrantsApart (s : TransferState) : Event → Prop
  | ⟨.device d, _⟩ => GrantedApart s.device d
  | _ => True

instance (s : TransferState) : (e : Event) → Decidable (GrantsApart s e)
  | ⟨.device d, _⟩ => inferInstanceAs (Decidable (GrantedApart s.device d))
  | ⟨.memcpy .., _⟩ | ⟨.memcpyAsync .., _⟩ | ⟨.memset .., _⟩ | ⟨.memcpyHtoD .., _⟩
  | ⟨.memcpyDtoH .., _⟩ => .isTrue trivial

def HeapApart (events : List Event) : Prop :=
  ∀ k (hk : k < events.length), GrantsApart (transfers.stateAt events k) events[k]

instance (events : List Event) : Decidable (HeapApart events) :=
  inferInstanceAs (Decidable (∀ k (_hk : k < events.length), _))

def Succeeds (events : List Event) (k : ℕ) : Prop :=
  ∃ reply, transfers.outputAt events k = some reply ∧ isSuccess reply = true

/-- The action writes nothing, or beside `r`, or within a block other than that at `a`. -/
def Elsewhere (s : TransferState) (a : UInt64) (r : Range) (action : Action) : Prop :=
  ∀ w ∈ target action, w.Apart r ∨
    ∃ entry ∈ s.device.heap.entries, entry.1 ≠ a ∧ w.Within (block entry.1 entry.2)

instance (s : TransferState) (a : UInt64) (r : Range) (action : Action) :
    Decidable (Elsewhere s a r action) :=
  inferInstanceAs (Decidable (∀ w ∈ target action, w.Apart r ∨ _))

/-- From `i` to `j` the block at `a` is allocated, and no action in between is aimed at `r` or
goes astray. -/
structure Kept (events : List Event) (i j : ℕ) (a : UInt64) (layout : Layout) (r : Range) :
    Prop where
  inside : r.Within (block a layout)
  live : ∀ k, i ≤ k → k ≤ j → (transfers.stateAt events k).device.heap.lookup a = some layout
  elsewhere : ∀ k e, i < k → k < j → events[k]? = some e →
    Elsewhere (transfers.stateAt events k) a r e.action
  defined : ∀ k, i < k → k < j → transfers.outputAt events k ≠ some .undefined

section Heap

def BlocksApart (heap : HashMap UInt64 Layout) : Prop :=
  ∀ a la b lb, heap.lookup a = some la → heap.lookup b = some lb → a ≠ b →
    (block a la).Apart (block b lb)

variable {s : DeviceState} {e : DeviceMemory.Event}

theorem heap_step (s : DeviceState) (e : DeviceMemory.Event) :
    (deviceStep s e).2.heap = s.heap ∨
    (∃ t answer api size layout, e = .step t answer ∧ s.phase t = .allocating api size layout ∧
      answer ≠ 0 ∧ (deviceStep s e).2.heap = s.heap.insert answer layout) ∨
    ∃ addr, (deviceStep s e).2.heap = s.heap.erase addr := by
  cases e with
  | call t call =>
    left
    simp only [deviceStep, callStep]
    split <;> rfl
  | step t answer =>
    simp only [deviceStep]
    cases hp : s.phase t with
    | idle => exact .inl (by rw [threadStep_idle hp])
    | allocating api size layout =>
      by_cases h0 : answer = 0
      · exact .inl (by rw [threadStep_refused hp h0]; rfl)
      · refine .inr (.inl ⟨t, answer, api, size, layout, rfl, hp, h0, ?_⟩)
        rw [threadStep_granted hp h0]
        rfl
    | registering api addr size => exact .inl (by rw [threadStep_registered hp]; rfl)
    | removing api addr =>
      left
      cases hl : s.table.lookup addr with
      | some entry => rw [threadStep_removed hp hl]; rfl
      | none => rw [threadStep_unknown hp hl]; rfl
    | releasing api addr entry =>
      simp only [threadStep, hp]
      split
      · exact .inr (.inr ⟨addr, rfl⟩)
      · exact .inl rfl

theorem blocksApart_step (h : BlocksApart s.heap) (granted : GrantedApart s e) :
    BlocksApart (deviceStep s e).2.heap := by
  rcases heap_step s e with hsame | ⟨t, answer, api, size, layout, rfl, hp, h0, hins⟩ | ⟨addr, her⟩
  · rwa [hsame]
  · have hnew : ∀ b lb, s.heap.lookup b = some lb → (block answer layout).Apart (block b lb) := by
      intro b lb hb
      apply granted layout _ h0 ⟨b, lb⟩ (AList.mem_lookup_iff.mp hb)
      rw [hp]
      rfl
    rw [hins]
    intro a la b lb ha hb hne
    rcases lookup_insert_some ha with ⟨rfl, rfl⟩ | ⟨_, hold⟩
    · rcases lookup_insert_some hb with ⟨rfl, _⟩ | ⟨_, hb⟩
      · exact absurd rfl hne
      · exact hnew b lb hb
    · rcases lookup_insert_some hb with ⟨rfl, rfl⟩ | ⟨_, hb⟩
      · exact (hnew a la hold).symm
      · exact h a la b lb hold hb hne
  · rw [her]
    intro a la b lb ha hb
    exact h a la b lb (lookup_erase_some ha).2 (lookup_erase_some hb).2

end Heap

section Steps

variable {s : TransferState} {e : Event} {m : Memory UInt8} {action : Action} {x : ℕ}

theorem copyNonoverlapping_some {dst src count : UInt64} {m' : Memory UInt8}
    (h : copyNonoverlapping m dst src count = some m') :
    m' = copied m dst.toNat src.toNat count.toNat := by
  simp only [copyNonoverlapping] at h
  split at h
  · exact (Option.some.inj h).symm
  · cases h

theorem checked_cases (m : Memory UInt8) (api : Api) (null : Bool)
    (access : Option (Memory UInt8)) :
    (isSuccess (checked m api null access).1 = false ∧ (checked m api null access).2 = m) ∨
    ∃ m', access = some m' ∧ (checked m api null access).2 = m' := by
  cases null with
  | true => cases api <;> exact .inl ⟨rfl, rfl⟩
  | false =>
    cases access with
    | none => exact .inl ⟨rfl, rfl⟩
    | some m' => exact .inr ⟨m', rfl, rfl⟩

theorem writeBytes_some {dst count : UInt64} {value : UInt8} {m' : Memory UInt8}
    (h : writeBytes m dst value count = some m') :
    m' = filled m dst.toNat count.toNat value := by
  simp only [writeBytes] at h
  split at h
  · exact (Option.some.inj h).symm
  · cases h

theorem transfer_cases (m : Memory UInt8) (action : Action) :
    (isSuccess (transfer m action).1 = false ∧ (transfer m action).2 = m) ∨
    ∃ w, target action = some w ∧ read (transfer m action).2 w = contents m action ∧
      ∀ x, ¬ w.Has x → (transfer m action).2 x = m x := by
  have hcopy : ∀ api null dst src count,
      (isSuccess (checked m api null (copyNonoverlapping m dst src count)).1 = false ∧
        (checked m api null (copyNonoverlapping m dst src count)).2 = m) ∨
      read (checked m api null (copyNonoverlapping m dst src count)).2 (bytes dst count) =
        read m (bytes src count) ∧
      ∀ x, ¬ (bytes dst count).Has x →
        (checked m api null (copyNonoverlapping m dst src count)).2 x = m x := by
    intro api null dst src count
    rcases checked_cases m api null (copyNonoverlapping m dst src count) with h | ⟨m', hm, heq⟩
    · exact .inl h
    · rw [heq, copyNonoverlapping_some hm]
      exact .inr ⟨read_copied, fun x => copied_outside⟩
  cases action with
  | device event => exact .inl ⟨rfl, rfl⟩
  | memcpy dst src count kind =>
    exact (hcopy .runtime _ dst src count).imp_right fun h => ⟨_, rfl, h.1, h.2⟩
  | memcpyAsync dst src count kind stream =>
    exact (hcopy .runtime _ dst src count).imp_right fun h => ⟨_, rfl, h.1, h.2⟩
  | memset devPtr value count =>
    rcases checked_cases m .runtime (decide (devPtr = 0))
      (writeBytes m devPtr value.toUInt32.toUInt8 count) with h | ⟨m', hm, heq⟩
    · exact .inl h
    · refine .inr ⟨_, rfl, ?_⟩
      rw [transfer, cudaMemset, heq, writeBytes_some hm]
      exact ⟨read_filled, fun x => filled_outside⟩
  | memcpyHtoD dst src count =>
    exact (hcopy .driver _ dst src count).imp_right fun h => ⟨_, rfl, h.1, h.2⟩
  | memcpyDtoH dst src count =>
    exact (hcopy .driver _ dst src count).imp_right fun h => ⟨_, rfl, h.1, h.2⟩

theorem transferStep_memory (h : (transferStep s e).1 ≠ .undefined) :
    (transferStep s e).2.memory = (transfer (s.settle e.outside) e.action).2 := by
  rcases e with ⟨_ | _ | _ | _ | _ | _, outside⟩
  · rfl
  all_goals exact if_neg h

theorem transferStep_reply {w : Range} (h : target e.action = some w) :
    (transferStep s e).1 = (transfer (s.settle e.outside) e.action).1 := by
  rcases e with ⟨_ | _ | _ | _ | _ | _, outside⟩
  · cases h
  all_goals rfl

theorem live_settled {a : UInt64} {layout : Layout} {outside : Memory UInt8}
    (h : s.device.heap.lookup a = some layout) (hx : (block a layout).Has x) :
    s.settle outside x = s.memory x :=
  if_pos ⟨⟨a, layout⟩, AList.mem_lookup_iff.mp h, hx⟩

theorem blocksApart_transfer (h : BlocksApart s.device.heap)
    (granted : GrantsApart s e) : BlocksApart (transferStep s e).2.device.heap := by
  rcases e with ⟨d | _ | _ | _ | _ | _, outside⟩
  · exact blocksApart_step h granted
  all_goals exact h

/-- The frame of a step: bytes of a block change only if they are aimed at. -/
theorem step_keeps {a : UInt64} {layout : Layout} {r : Range} (apart : BlocksApart s.device.heap)
    (live : s.device.heap.lookup a = some layout) (inside : r.Within (block a layout))
    (elsewhere : Elsewhere s a r e.action) (defined : (transferStep s e).1 ≠ .undefined)
    (hx : r.Has x) : (transferStep s e).2.memory x = s.memory x := by
  rw [transferStep_memory defined]
  rcases transfer_cases (s.settle e.outside) e.action with ⟨_, hsame⟩ | ⟨w, hw, _, hout⟩
  · rw [hsame, live_settled live (inside.has hx)]
  · rw [hout x, live_settled live (inside.has hx)]
    intro hwx
    rcases elsewhere w hw with hap | ⟨⟨b, lb⟩, hb, hne, hwithin⟩
    · exact hap.not_has hwx hx
    · have hap := apart b lb a layout (AList.mem_lookup_iff.mpr hb) live hne
      exact hap.not_has (hwithin.has hwx) (inside.has hx)

end Steps

section Runs

variable {events : List Event} {i j : ℕ} {a : UInt64} {layout : Layout} {r : Range}

theorem blocksApart_at (fresh : HeapApart events) (k : ℕ) :
    BlocksApart (transfers.stateAt events k).device.heap := by
  refine stable_between transfers events (fun s => BlocksApart s.device.heap) (Nat.zero_le k) ?_ ?_
  · intro b lb c lc hb
    cases hb
  · intro l e _ _ he h
    obtain ⟨hl, rfl⟩ := List.getElem?_eq_some_iff.mp he
    exact blocksApart_transfer h (fresh l hl)

theorem Kept.read_eq (kept : Kept events i j a layout r) (fresh : HeapApart events)
    (hij : i < j) : read (transfers.stateAt events j).memory r =
      read (transfers.stateAt events (i + 1)).memory r := by
  refine stable_between transfers events (fun s => read s.memory r = _) hij rfl ?_
  intro k e hik hkj he h
  have hdefined : (transferStep (transfers.stateAt events k) e).1 ≠ .undefined := by
    intro hu
    apply kept.defined k (by omega) hkj
    rw [outputAt_eq _ he]
    exact congrArg some hu
  rw [← h]
  apply read_congr
  intro x hx
  exact step_keeps (blocksApart_at fresh k) (kept.live k (by omega) (by omega)) kept.inside
    (kept.elsewhere k e (by omega) hkj he) hdefined hx

theorem succeeded {k : ℕ} {e : Event} (he : events[k]? = some e) (h : Succeeds events k)
    {w : Range} (hw : target e.action = some w) :
    read (transfers.stateAt events (k + 1)).memory w =
      contents ((transfers.stateAt events k).settle e.outside) e.action := by
  obtain ⟨reply, hout, hsuccess⟩ := h
  rw [outputAt_eq _ he] at hout
  have hreply : (transferStep (transfers.stateAt events k) e).1 = reply := Option.some.inj hout
  have hdefined : (transferStep (transfers.stateAt events k) e).1 ≠ .undefined := by
    rw [hreply]
    rintro rfl
    cases hsuccess
  rw [stateAt_succ _ he]
  change read (transferStep _ e).2.memory w = _
  rw [transferStep_memory hdefined]
  rcases transfer_cases ((transfers.stateAt events k).settle e.outside) e.action with
    ⟨hfail, _⟩ | ⟨w', hw', hread, _⟩
  · rw [← transferStep_reply hw, hreply, hsuccess] at hfail
    cases hfail
  · cases hw.symm.trans hw'
    exact hread

end Runs

/-- Whatever other threads allocate, free and write in their own blocks meanwhile, what was
written to a block is what is later read from it. -/
theorem contents_survive (events : List Event) (fresh : HeapApart events) {i j : ℕ} (hij : i < j)
    {e d : Event} (hi : events[i]? = some e) (hj : events[j]? = some d) {r w : Range}
    (stores : target e.action = some r) (fetches : source d.action = some r)
    (into : target d.action = some w) (stored : Succeeds events i) (fetched : Succeeds events j)
    {a : UInt64} {layout : Layout} (kept : Kept events i j a layout r) :
    read (transfers.stateAt events (j + 1)).memory w =
      contents ((transfers.stateAt events i).settle e.outside) e.action := by
  have hlive := kept.live j hij.le le_rfl
  calc read (transfers.stateAt events (j + 1)).memory w
      = contents ((transfers.stateAt events j).settle d.outside) d.action :=
        succeeded hj fetched into
    _ = read ((transfers.stateAt events j).settle d.outside) r := contents_source fetches _
    _ = read (transfers.stateAt events j).memory r :=
        read_congr fun x hx => live_settled hlive (kept.inside.has hx)
    _ = read (transfers.stateAt events (i + 1)).memory r := kept.read_eq fresh hij
    _ = contents ((transfers.stateAt events i).settle e.outside) e.action :=
        succeeded hi stored stores

def ramp : Memory UInt8 := UInt8.ofNat

def sharedDevice : List Event :=
  [.device (.call 0 (.malloc .runtime false 256)), .device (.step 0 4096), .device (.step 0 0),
    .memcpyHtoD 4096 65537 4,
    .device (.call 1 (.malloc .driver false 512)), .device (.step 1 8192), .device (.step 1 0),
    .memset 8192 7 512, .memcpy 131072 4096 4 .cudaMemcpyDeviceToHost].map (⟨·, ramp⟩)

theorem contents_survive_shared :
    read (transfers.stateAt sharedDevice 9).memory ⟨131072, 4⟩ = [1, 2, 3, 4] := by
  have kept : Kept sharedDevice 3 8 4096 ⟨256, 256⟩ ⟨4096, 4⟩ := by
    refine ⟨by decide, by decide +kernel, ?_, ?_⟩
    · intro k e hk hk' he
      interval_cases k <;> cases he <;> decide +kernel
    · intro k hk hk'
      interval_cases k <;> decide +kernel
  exact contents_survive sharedDevice (by decide +kernel) (by decide) rfl rfl rfl rfl rfl
    ⟨_, rfl, rfl⟩ ⟨_, rfl, rfl⟩ kept

end DeviceTransfers
