import OmniCompute.DeviceMemory

/-! The allocation table against the history of the calls. Every allocated address is in the
custody of the table or of one thread, and the steps hand it from one keeper to the next. -/
namespace DeviceCustody

open RustValues EventRuns KeyedTotals CudaShim DeviceMemory

inductive Place where
  | table
  | filling (thread : ℕ)
  | draining (thread : ℕ)
  deriving DecidableEq

/-- The custody of the allocated addresses: every one has a single keeper and a size. -/
abbrev Custody := UInt64 → Option (Place × UInt64)

def filling : Phase → Option (UInt64 × UInt64)
  | .registering _ addr size => some (addr, size)
  | _ => none

def draining : Phase → Option (UInt64 × UInt64)
  | .releasing _ addr entry => some (addr, entry.size)
  | _ => none

def Keeps (s : DeviceState) : Place → UInt64 → UInt64 → Prop
  | .table, a, size => (s.table.lookup a).map AllocEntry.size = some size
  | .filling t, a, size => filling (s.phase t) = some (a, size)
  | .draining t, a, size => draining (s.phase t) = some (a, size)

/-- An address counts as allocated from its registration to the end of its free. -/
def visible : Place × UInt64 → Option UInt64
  | (.table, size) => some size
  | (.filling _, _) => none
  | (.draining _, size) => some size

def heldBy (c : Custody) (a : UInt64) : Option UInt64 := (c a).bind visible

structure Refines (s : DeviceState) (c : Custody) : Prop where
  keeps : ∀ p a size, Keeps s p a size ↔ c a = some (p, size)
  heap : ∀ a, s.heap.lookup a = (c a).map fun kept => ⟨kept.2, 256⟩
  valid : ∀ a p size, c a = some (p, size) → fromSizeAlign size 256 = some ⟨size, 256⟩
  sized : ∀ t api size layout, s.phase t = .allocating api size layout →
    fromSizeAlign size 256 = some layout

section Steps

variable {s : DeviceState} {c : Custody} {t : ℕ}
variable {api : Api} {addr size answer : UInt64} {layout : Layout} {entry : AllocEntry}

theorem refines_park (h : Refines s c) {phase : Phase}
    (quiet : filling (s.phase t) = none ∧ draining (s.phase t) = none)
    (quiet' : filling phase = none ∧ draining phase = none)
    (sized : ∀ api size layout, phase = .allocating api size layout →
      fromSizeAlign size 256 = some layout) : Refines (s.park t phase) c := by
  constructor
  · intro p a x
    have hk := h.keeps p a x
    cases p with
    | table => exact hk
    | filling u =>
      simp only [Keeps, park_phase] at hk ⊢
      by_cases hu : u = t
      · subst hu
        rw [quiet.1] at hk
        rwa [if_pos rfl, quiet'.1]
      · rwa [if_neg hu]
    | draining u =>
      simp only [Keeps, park_phase] at hk ⊢
      by_cases hu : u = t
      · subst hu
        rw [quiet.2] at hk
        rwa [if_pos rfl, quiet'.2]
      · rwa [if_neg hu]
  · exact h.heap
  · exact h.valid
  · intro u api size layout hu
    rw [park_phase] at hu
    split at hu
    · exact sized api size layout hu
    · exact h.sized u api size layout hu

theorem refines_update (h : Refines s c) {s' : DeviceState} (kept : Option (Place × UInt64))
    (keeps : ∀ p a size,
      Keeps s' p a size ↔ if a = addr then kept = some (p, size) else Keeps s p a size)
    (heap : ∀ a, s'.heap.lookup a =
      if a = addr then kept.map fun k => ⟨k.2, 256⟩ else s.heap.lookup a)
    (valid : ∀ p size, kept = some (p, size) → fromSizeAlign size 256 = some ⟨size, 256⟩)
    (sized : ∀ u api size layout, s'.phase u = .allocating api size layout →
      s.phase u = .allocating api size layout) : Refines s' (Function.update c addr kept) := by
  constructor
  · intro p a x
    rw [keeps, Function.update_apply]
    split
    · exact Iff.rfl
    · exact h.keeps p a x
  · intro a
    rw [heap, Function.update_apply]
    split
    · rfl
    · exact h.heap a
  · intro a p x hx
    rw [Function.update_apply] at hx
    split at hx
    · exact valid p x hx
    · exact h.valid a p x hx
  · intro u api x layout hu
    exact h.sized u api x layout (sized u api x layout hu)

theorem refines_grant (h : Refines s c)
    (hp : s.phase t = .allocating api size layout) (hfree : s.heap.lookup answer = none) :
    Refines ({ s with heap := s.heap.insert answer layout }.park t (.registering api answer size))
      (Function.update c answer (some (.filling t, size))) := by
  have hv := h.sized t api size layout hp
  have hlayout := fromSizeAlign_some hv
  have hc : c answer = none := by simpa [h.heap answer] using hfree
  apply refines_update h
  · intro p a x
    have hk := h.keeps p answer x
    cases p <;> simp only [Keeps, park_table, park_phase] at hk ⊢ <;> grind [filling, draining]
  · intro a
    rw [park_heap, lookup_insert_ite, hlayout]
    rfl
  · intro p x hx
    cases hx
    rwa [← hlayout]
  · intro u api' x layout' hu
    grind [park_phase]

theorem refines_register (h : Refines s c)
    (hp : s.phase t = .registering api addr size) :
    Refines ({ s with table := s.table.insert addr ⟨addr, size, 0, false⟩ }.park t .idle)
      (Function.update c addr (some (.table, size))) := by
  have hc := (h.keeps (.filling t) addr size).mp (by simp [Keeps, hp, filling])
  apply refines_update h
  · intro p a x
    have hk := h.keeps p addr x
    cases p <;> simp only [Keeps, park_table, lookup_insert_ite, park_phase] at hk ⊢ <;>
      grind [filling, draining]
  · intro a
    have hh := h.heap addr
    grind [park_heap]
  · intro p x hx
    cases hx
    exact h.valid addr (.filling t) size hc
  · intro u api' x layout hu
    grind [park_phase]

theorem refines_remove (h : Refines s c) (hp : s.phase t = .removing api addr)
    (hl : s.table.lookup addr = some entry) :
    Refines ({ s with table := s.table.erase addr }.park t (.releasing api addr entry))
      (Function.update c addr (some (.draining t, entry.size))) := by
  have hc := (h.keeps .table addr entry.size).mp (by simp [Keeps, hl])
  apply refines_update h
  · intro p a x
    have hk := h.keeps p addr x
    cases p <;> simp only [Keeps, park_table, lookup_erase_ite, park_phase] at hk ⊢ <;>
      grind [filling, draining]
  · intro a
    have hh := h.heap addr
    grind [park_heap]
  · intro p x hx
    cases hx
    exact h.valid addr .table entry.size hc
  · intro u api' x layout hu
    grind [park_phase]

theorem refines_release (h : Refines s c)
    (hp : s.phase t = .releasing api addr entry) :
    Refines ({ s with heap := s.heap.erase addr }.park t .idle) (Function.update c addr none) := by
  have hc := (h.keeps (.draining t) addr entry.size).mp (by simp [Keeps, hp, draining])
  apply refines_update h
  · intro p a x
    have hk := h.keeps p addr x
    cases p <;> simp only [Keeps, park_table, park_phase] at hk ⊢ <;> grind [filling, draining]
  · intro a
    rw [park_heap, lookup_erase_ite]
    rfl
  · intro p x hx
    cases hx
  · intro u api' x layout hu
    grind [park_phase]

theorem entered_quiet (call : Call) :
    filling (enter call).2 = none ∧ draining (enter call).2 = none := by
  rcases call with ⟨_ | _, nullPointer, size⟩ | ⟨_ | _, ptr⟩ <;>
    simp only [enter, cudaMalloc, cuMemAlloc, cudaFree, cuMemFree] <;> grind [filling, draining]

theorem held_update (c : Custody) (addr : UInt64) (kept : Option (Place × UInt64)) :
    heldBy (Function.update c addr kept) = Function.update (heldBy c) addr (kept.bind visible) := by
  funext a
  by_cases ha : a = addr
  · subst ha
    simp [heldBy]
  · simp [heldBy, ha]

/-- Moving an address between keepers that are both visible, or both not, is no news. -/
theorem held_same {old : Option (Place × UInt64)} (hc : c addr = old)
    (new : Option (Place × UInt64)) (hv : new.bind visible = old.bind visible) :
    heldBy (Function.update c addr new) = heldBy c := by
  rw [held_update, hv, ← hc]
  exact Function.update_eq_self addr (heldBy c)

theorem step_refines (h : Refines s c) {e : Event} (granted : Granted s e) :
    ∃ c' : Custody, Refines (deviceStep s e).2 c' ∧
      account (heldBy c) (deviceStep s e).1 = heldBy c' := by
  cases e with
  | call t call =>
    simp only [deviceStep]
    by_cases hidle : s.phase t = .idle
    · rw [callStep_idle call hidle]
      refine ⟨c, refines_park h ?_ (entered_quiet call) ?_, entered_account _ call⟩
      · simp [hidle, filling, draining]
      · intro api size layout hp
        exact entered_sized call hp
    · rw [callStep_busy call hidle]
      exact ⟨c, h, rfl⟩
  | step t answer =>
    simp only [deviceStep]
    cases hp : s.phase t with
    | idle =>
      rw [threadStep_idle hp]
      exact ⟨c, h, rfl⟩
    | allocating api size layout =>
      by_cases h0 : answer = 0
      · rw [threadStep_refused hp h0]
        refine ⟨c, refines_park h (by simp [hp, filling, draining]) ⟨rfl, rfl⟩ ?_, rfl⟩
        intro api' x layout' hx
        cases hx
      · rw [threadStep_granted hp h0]
        have hfree : s.heap.lookup answer = none := granted (by simp [hp, awaitsHeap]) h0
        have hc : c answer = none := by simpa [h.heap answer] using hfree
        exact ⟨_, refines_grant h hp hfree, (held_same hc (some (.filling t, size)) rfl).symm⟩
    | registering api addr size =>
      rw [threadStep_registered hp]
      exact ⟨_, refines_register h hp, (held_update c addr (some (.table, size))).symm⟩
    | removing api addr =>
      cases hl : s.table.lookup addr with
      | some entry =>
        rw [threadStep_removed hp hl]
        have hc := (h.keeps .table addr entry.size).mp (by simp [Keeps, hl])
        exact ⟨_, refines_remove h hp hl, (held_same hc (some (.draining t, entry.size)) rfl).symm⟩
      | none =>
        rw [threadStep_unknown hp hl]
        refine ⟨c, refines_park h (by simp [hp, filling, draining]) ⟨rfl, rfl⟩ ?_, rfl⟩
        intro api' x layout' hx
        cases hx
    | releasing api addr entry =>
      have hc := (h.keeps (.draining t) addr entry.size).mp (by simp [Keeps, hp, draining])
      rw [threadStep_released hp (h.valid addr (.draining t) entry.size hc)]
      exact ⟨_, refines_release h hp, (held_update c addr none).symm⟩

end Steps

/-- The allocation table and the heap against the history of the calls. -/
structure FreedOnce (events : List Event) : Prop where
  keys : ∀ i, (∀ t, (devices.stateAt events i).phase t = .idle) → ∀ a entry,
    (devices.stateAt events i).table.lookup a = some entry ↔
      ∃ size, heldAt events i a = some size ∧ entry = ⟨a, size, 0, false⟩
  requested : ∀ i t answer code a size, events[i]? = some (.step t answer) →
    devices.outputAt events i = some (.allocated code a size) →
    ∃ k api, InCall events t k i (.malloc api false size)
  deallocated : ∀ i code a layout,
    devices.outputAt events i = some (.deallocated code a layout) →
    (devices.stateAt events i).heap.lookup a = some layout ∧
      ∃ size, heldAt events i a = some size ∧ layout = ⟨size, 256⟩
  null : ∀ i t api, events[i]? = some (.call t (.free api 0)) →
    (devices.stateAt events i).phase t = .idle →
    devices.outputAt events i = some (.returned (freeCode api .cudaSuccess)) ∧
      devices.stateAt events (i + 1) = devices.stateAt events i
  unknown : ∀ i t answer api a, events[i]? = some (.step t answer) →
    (devices.stateAt events i).phase t = .removing api a →
    (devices.stateAt events i).table.lookup a = none → RejectedAt events i api
  freed : ∀ i t answer api a, events[i]? = some (.step t answer) →
    (devices.stateAt events i).phase t = .removing api a →
    ((devices.stateAt events i).table.lookup a).isSome →
    RemovesAt events i a ∧ ReleasedAfter events i t api a
  contested : ∀ i j t u x y api api' a, i < j → events[i]? = some (.step t x) →
    (devices.stateAt events i).phase t = .removing api a →
    ((devices.stateAt events i).table.lookup a).isSome →
    events[j]? = some (.step u y) → (devices.stateAt events j).phase u = .removing api' a →
    ReleasedAfter events i t api a ∧
    (RegisteredAgain events i j a → RemovesAt events j a ∧ ReleasedAfter events j u api' a) ∧
    (¬ RegisteredAgain events i j a → RejectedAt events j api')
  defined : ∀ i message, devices.outputAt events i ≠ some (.panicked message)

section Runs

variable {events : List Event}

theorem output_of {i : ℕ} {e : Event} (he : events[i]? = some e) :
    devices.outputAt events i = some (deviceStep (devices.stateAt events i) e).1 :=
  congrArg (Option.map _) he

theorem event_of {i : ℕ} {reply : Reply} (h : devices.outputAt events i = some reply) :
    ∃ e, events[i]? = some e ∧ (deviceStep (devices.stateAt events i) e).1 = reply :=
  Option.map_eq_some_iff.mp h

theorem heldAt_succ {i : ℕ} {e : Event} (he : events[i]? = some e) :
    heldAt events (i + 1) =
      account (heldAt events i) (deviceStep (devices.stateAt events i) e).1 := by
  simp only [heldAt, output_of he]

theorem granted_at (fresh : HeapFresh events) {i : ℕ} {e : Event} (he : events[i]? = some e) :
    Granted (devices.stateAt events i) e := by
  obtain ⟨hi, heq⟩ := List.getElem?_eq_some_iff.mp he
  exact heq ▸ fresh i hi

/-- Every state of a run refines a custody that agrees with the history. -/
theorem refines_at (fresh : HeapFresh events) (i : ℕ) :
    ∃ c, Refines (devices.stateAt events i) c ∧ heldAt events i = heldBy c := by
  induction i with
  | zero =>
    refine ⟨fun _ => none, ⟨?_, fun _ => rfl, ?_, ?_⟩, rfl⟩
    · intro p a size
      cases p <;> simp [Keeps, devices, DeviceState.new, filling, draining]
    · intro a p size h
      cases h
    · intro t api size layout h
      cases h
  | succ i ih =>
    obtain ⟨c, hc, hheld⟩ := ih
    cases he : events[i]? with
    | none =>
      refine ⟨c, by rwa [stateAt_end _ he], ?_⟩
      have hout : devices.outputAt events i = none := congrArg (Option.map _) he
      simp only [heldAt, hout, hheld]
    | some e =>
      obtain ⟨c', hc', hacc⟩ := step_refines hc (granted_at fresh he)
      refine ⟨c', by rwa [stateAt_succ _ he], ?_⟩
      rw [heldAt_succ he, hheld, hacc]

theorem tagged_at (i : ℕ) {a : UInt64} {entry : AllocEntry}
    (hl : (devices.stateAt events i).table.lookup a = some entry) :
    entry = ⟨a, entry.size, 0, false⟩ := by
  induction i with
  | zero => cases hl
  | succ i ih =>
    cases he : events[i]? with
    | none =>
      rw [stateAt_end _ he] at hl
      exact ih hl
    | some e =>
      rw [stateAt_succ _ he] at hl
      rcases entered_table hl with hold | ⟨_, size, _, rfl⟩
      · exact ih hold
      · rfl

theorem inCall_at {t : ℕ} (i : ℕ) {op : Call}
    (h : callOf ((devices.stateAt events i).phase t) = some op) :
    ∃ k, InCall events t k i op := by
  induction i with
  | zero => cases h
  | succ i ih =>
    cases he : events[i]? with
    | none =>
      rw [stateAt_end _ he] at h
      obtain ⟨k, hk, hcall, hidle, hrun⟩ := ih h
      refine ⟨k, by omega, hcall, hidle, ?_⟩
      intro m answer hkm hmi hm
      rcases Nat.lt_succ_iff_lt_or_eq.mp hmi with hlt | rfl
      · exact hrun m answer hkm hlt hm
      · cases he.symm.trans hm
    | some e =>
      rw [stateAt_succ _ he] at h
      rcases callOf_step h with ⟨rfl, hidle⟩ | ⟨hbefore, hrunning⟩
      · refine ⟨i, Nat.lt_succ_self i, he, hidle, ?_⟩
        intro m answer him hmi
        omega
      · obtain ⟨k, hk, hcall, hidle, hrun⟩ := ih hbefore
        refine ⟨k, by omega, hcall, hidle, ?_⟩
        intro m answer hkm hmi hm
        rcases Nat.lt_succ_iff_lt_or_eq.mp hmi with hlt | rfl
        · exact hrun m answer hkm hlt hm
        · cases Option.some.inj (he.symm.trans hm)
          rw [output_of hm]
          exact congrArg some (hrunning answer rfl)

theorem keys_at (fresh : HeapFresh events) {i : ℕ}
    (quiet : ∀ t, (devices.stateAt events i).phase t = .idle) (a : UInt64) (entry : AllocEntry) :
    (devices.stateAt events i).table.lookup a = some entry ↔
      ∃ size, heldAt events i a = some size ∧ entry = ⟨a, size, 0, false⟩ := by
  obtain ⟨c, hc, hheld⟩ := refines_at fresh i
  rw [hheld]
  constructor
  · intro hl
    have hk := (hc.keeps .table a entry.size).mp (by simp [Keeps, hl])
    exact ⟨entry.size, by simp [heldBy, hk, visible], tagged_at i hl⟩
  · rintro ⟨size, hsize, rfl⟩
    obtain ⟨⟨p, x⟩, hp, hv⟩ := Option.bind_eq_some_iff.mp hsize
    have hk := (hc.keeps p a x).mpr hp
    cases p with
    | table =>
      obtain rfl : x = size := Option.some.inj hv
      obtain ⟨entry, hl, hx⟩ := Option.map_eq_some_iff.mp hk
      rw [hl, tagged_at i hl, hx]
    | filling t => cases hv
    | draining t =>
      rw [Keeps, quiet t] at hk
      cases hk

theorem deallocated_at (fresh : HeapFresh events) {i : ℕ} {code : Code} {a : UInt64}
    {layout : Layout} (h : devices.outputAt events i = some (.deallocated code a layout)) :
    (devices.stateAt events i).heap.lookup a = some layout ∧
      ∃ size, heldAt events i a = some size ∧ layout = ⟨size, 256⟩ := by
  obtain ⟨e, he, hr⟩ := event_of h
  obtain ⟨c, hc, hheld⟩ := refines_at fresh i
  cases e with
  | call t call =>
    rcases called_reply (s := devices.stateAt events i) (t := t) call with hrun | ⟨_, hret⟩
    · cases hrun.symm.trans hr
    · cases hret.symm.trans hr
  | step t answer =>
    obtain ⟨api, entry, hp, hv⟩ := deallocated_phase hr
    have hk := (hc.keeps (.draining t) a entry.size).mp (by simp [Keeps, hp, draining])
    have hlayout := fromSizeAlign_some hv
    refine ⟨?_, entry.size, ?_, hlayout⟩
    · rw [hc.heap a, hk, hlayout]
      rfl
    · simp [hheld, heldBy, hk, visible]

theorem unpanicked_at (fresh : HeapFresh events) {i : ℕ} {message : String} :
    devices.outputAt events i ≠ some (.panicked message) := by
  intro h
  obtain ⟨e, he, hr⟩ := event_of h
  obtain ⟨c, hc, _⟩ := refines_at fresh i
  cases e with
  | call t call =>
    rcases called_reply (s := devices.stateAt events i) (t := t) call with hrun | ⟨_, hret⟩
    · cases hrun.symm.trans hr
    · cases hret.symm.trans hr
  | step t answer =>
    obtain ⟨api, a, entry, hp, hv⟩ := panicked_phase hr
    have hk := (hc.keeps (.draining t) a entry.size).mp (by simp [Keeps, hp, draining])
    cases hv.symm.trans (hc.valid a (.draining t) entry.size hk)

theorem rejected_at {i t : ℕ} {answer a : UInt64} {api : Api}
    (he : events[i]? = some (.step t answer))
    (hp : (devices.stateAt events i).phase t = .removing api a)
    (hl : (devices.stateAt events i).table.lookup a = none) : RejectedAt events i api := by
  have hstep : threadStep _ t answer = _ := threadStep_unknown hp hl
  refine ⟨?_, ?_, ?_⟩
  · rw [output_of he, deviceStep, hstep]
  · rw [stateAt_succ _ he]
    exact congrArg (fun r => r.2.table) hstep
  · rw [stateAt_succ _ he]
    exact congrArg (fun r => r.2.heap) hstep

theorem releasing_until {i j t : ℕ} {a : UInt64} {api : Api} {entry : AllocEntry} (hij : i ≤ j)
    (hp : (devices.stateAt events i).phase t = .releasing api a entry)
    (still : ∀ k other, i ≤ k → k < j → events[k]? ≠ some (.step t other)) :
    (devices.stateAt events j).phase t = .releasing api a entry := by
  apply stable_between devices events (fun s => s.phase t = .releasing api a entry) hij hp
  intro k e hik hkj he hk
  by_cases ht : t = e.thread
  · subst ht
    cases e with
    | call u call =>
      have hbusy := callStep_busy call (show (devices.stateAt events k).phase u ≠ .idle by
        intro hidle
        cases hk.symm.trans hidle)
      exact (congrArg (fun r => r.2.phase u) hbusy).trans hk
    | step u other => exact absurd he (still k other hik hkj)
  · exact (phase_other ht).trans hk

theorem released_after (fresh : HeapFresh events) {i t : ℕ} {x a : UInt64} {api : Api}
    (he : events[i]? = some (.step t x))
    (hp : (devices.stateAt events i).phase t = .removing api a) {entry : AllocEntry}
    (hl : (devices.stateAt events i).table.lookup a = some entry) :
    ReleasedAfter events i t api a := by
  intro j answer hij hj still
  have hafter : (devices.stateAt events (i + 1)).phase t = .releasing api a entry := by
    rw [stateAt_succ _ he]
    change (threadStep _ t x).2.phase t = _
    rw [threadStep_removed hp hl, park_self]
  have hphase := releasing_until (show i + 1 ≤ j by omega) hafter
    fun k other hik hkj => still k other (by omega) hkj
  obtain ⟨c, hc, _⟩ := refines_at fresh j
  have hk := (hc.keeps (.draining t) a entry.size).mp (by simp [Keeps, hphase, draining])
  refine ⟨⟨entry.size, 256⟩, ?_⟩
  rw [output_of hj, deviceStep,
    threadStep_released hphase (hc.valid a (.draining t) entry.size hk)]

theorem removes_at {i t : ℕ} {x a : UInt64} {api : Api} (he : events[i]? = some (.step t x))
    (hp : (devices.stateAt events i).phase t = .removing api a)
    (hl : ((devices.stateAt events i).table.lookup a).isSome) : RemovesAt events i a := by
  obtain ⟨entry, hl⟩ := Option.isSome_iff_exists.mp hl
  have hstep : threadStep _ t x = _ := threadStep_removed hp hl
  refine ⟨?_, ?_, ?_⟩
  · rw [output_of he, deviceStep, hstep]
  · rw [stateAt_succ _ he]
    exact congrArg (fun r => r.2.table) hstep
  · rw [stateAt_succ _ he]
    exact congrArg (fun r => r.2.heap) hstep

theorem freed_at (fresh : HeapFresh events) {i t : ℕ} {x a : UInt64} {api : Api}
    (he : events[i]? = some (.step t x))
    (hp : (devices.stateAt events i).phase t = .removing api a)
    (hl : ((devices.stateAt events i).table.lookup a).isSome) :
    RemovesAt events i a ∧ ReleasedAfter events i t api a := by
  obtain ⟨entry, hentry⟩ := Option.isSome_iff_exists.mp hl
  exact ⟨removes_at he hp hl, released_after fresh he hp hentry⟩

theorem key_iff_again {i j t : ℕ} {x a : UInt64} {api : Api} (hij : i < j)
    (he : events[i]? = some (.step t x))
    (hp : (devices.stateAt events i).phase t = .removing api a) :
    ((devices.stateAt events j).table.lookup a).isSome ↔ RegisteredAgain events i j a := by
  have hfrees : Frees a (devices.stateAt events i) (.step t x) := ⟨t, x, api, rfl, hp⟩
  rw [@holds_since_iff _ _ _ devices events (fun s => ((s.table.lookup a).isSome : Prop))
    (Registers a) (Frees a) (by simp [devices, DeviceState.new]) (fun s e => key_step s e a) j]
  constructor
  · rintro ⟨k, e, hkj, hk, hregisters, hkept⟩
    rcases Nat.lt_trichotomy i k with hik | rfl | hki
    · exact ⟨k, e, hik, hkj, hk, hregisters, hkept⟩
    · obtain rfl := Option.some.inj (he.symm.trans hk)
      obtain ⟨_, _, hp'⟩ := (registers_step _ t x a).mp hregisters
      cases hp.symm.trans hp'
    · exact absurd hfrees (hkept i _ hki hij he)
  · rintro ⟨k, e, _, hkj, hk, hregisters, hkept⟩
    exact ⟨k, e, hkj, hk, hregisters, hkept⟩

end Runs

theorem freed_once (events : List Event) (fresh : HeapFresh events) : FreedOnce events := by
  constructor
  · intro i quiet a entry
    exact keys_at fresh quiet a entry
  · intro i t answer code a size he ho
    rw [output_of he, Option.some.injEq] at ho
    obtain ⟨api, hp⟩ := allocated_phase ho
    obtain ⟨k, hk⟩ := inCall_at i (show callOf _ = some (.malloc api false size) by rw [hp]; rfl)
    exact ⟨k, api, hk⟩
  · intro i code a layout ho
    exact deallocated_at fresh ho
  · intro i t api he hp
    have hstep := callStep_idle (.free api 0) hp
    rw [enter_null, park_idle hp] at hstep
    rw [stateAt_succ _ he, output_of he]
    exact ⟨congrArg (fun r => some r.1) hstep, congrArg (fun r => r.2) hstep⟩
  · intro i t answer api a he hp hl
    exact rejected_at he hp hl
  · intro i t answer api a he hp hl
    exact freed_at fresh he hp hl
  · intro i j t u x y api api' a hij hi hp hlive hj hq
    refine ⟨(freed_at fresh hi hp hlive).2, fun hagain => ?_, fun hnone => ?_⟩
    · exact freed_at fresh hj hq ((key_iff_again hij hi hp).mpr hagain)
    · apply rejected_at hj hq
      rw [← Option.not_isSome_iff_eq_none, key_iff_again hij hi hp]
      exact hnone
  · intro i message
    exact unpanicked_at fresh

/-- Two threads free the block of a third, which then allocates again and gets what the heap
answers: the address just given back, or another one. -/
def contestedFree (answer : UInt64) : List Event :=
  [.call 3 (.malloc .runtime false 64), .step 3 4096, .step 3 0,
    .call 1 (.free .runtime 4096), .call 2 (.free .driver 4096), .step 1 0, .step 1 0,
    .call 3 (.malloc .runtime false 128), .step 3 answer, .step 3 0, .step 2 0]

theorem freed_once_contestedFree :
    HeapFresh (contestedFree 8192) ∧ FreedOnce (contestedFree 8192) := by
  have fresh : HeapFresh (contestedFree 8192) := by
    unfold HeapFresh
    decide +kernel
  exact ⟨fresh, freed_once (contestedFree 8192) fresh⟩

/-- Of two calls that free a live address together, the later to reach the table fails. -/
def OneFrees (events : List Event) : Prop :=
  ∀ i j t u x y api api' a, t ≠ u → i < j → events[i]? = some (.step t x) →
    events[j]? = some (.step u y) → (devices.stateAt events i).phase t = .removing api a →
    (∀ k, i ≤ k → k ≤ j → (devices.stateAt events k).phase u = .removing api' a) →
    ((devices.stateAt events i).table.lookup a).isSome →
    devices.outputAt events j = some (.returned (freeCode api' .cudaErrorInvalidValue))

/-- The heap reuses the address before the second free reaches the table. -/
theorem contestedFree_reused :
    HeapFresh (contestedFree 4096) ∧ ¬ OneFrees (contestedFree 4096) := by
  constructor
  · unfold HeapFresh
    decide +kernel
  · intro h
    have hwait : ∀ k, k < 11 → 5 ≤ k →
        (devices.stateAt (contestedFree 4096) k).phase 2 = .removing .driver 4096 := by
      decide +kernel
    have hout := h 5 10 1 2 0 0 .runtime .driver 4096 (by decide) (by decide) rfl rfl
      (by decide +kernel) (fun k hk hk' => hwait k (by omega) hk) (by decide +kernel)
    have hrun : devices.outputAt (contestedFree 4096) 10 = some .running := by decide +kernel
    cases hrun.symm.trans hout

end DeviceCustody
