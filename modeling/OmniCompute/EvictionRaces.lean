import OmniCompute.EvictionOrder

/-! Commands against client calls. The worker looks a block up and moves it in two locked
calls, so a client may move the same block in between. A command holds on to what it saw,
and the later of two successful migrations wins whoever was right. -/
namespace EvictionRaces

open RustValues EventRuns DuvasAllocator AllocatorSoundness SlidingPager EvictionOrder

def evicting : WorkerPhase → Option UInt64
  | .evictLookup a => some a
  | .evictMigrate a => some a
  | _ => none

def lookingUp : WorkerPhase → Option UInt64
  | .prefetchLookup a _ => some a
  | .evictLookup a => some a
  | _ => none

def pendingMove : WorkerPhase → Option (UInt64 × MemoryDomain)
  | .prefetchMetrics a _ => some (a, .localDevice)
  | .prefetchMigrate a => some (a, .localDevice)
  | .evictMigrate a => some (a, .host)
  | _ => none

def EvictsFromDevice (before after : PagerState) : Prop :=
  ∀ a, evicting before.phase = some a → ∀ b,
    getDomain after.allocator b ≠ getDomain before.allocator b →
      b = a ∧ getDomain before.allocator b = some .localDevice ∧
        getDomain after.allocator b = some .host

/-- A client call that moves or ends the block at `a`, or a command on it that starts now. -/
def Supersedes (a : UInt64) (p : PagerState) : Event → Prop
  | .client (.migrate b _) => b = a
  | .client (.free b) => b = a
  | .client (.alloc _ _) => p.allocator.nextAddr = a
  | .send _ => False
  | .worker _ => lookingUp p.phase = some a

instance (a : UInt64) (p : PagerState) : (e : Event) → Decidable (Supersedes a p e)
  | .client (.migrate b _) => inferInstanceAs (Decidable (b = a))
  | .client (.free b) => inferInstanceAs (Decidable (b = a))
  | .client (.alloc _ _) => inferInstanceAs (Decidable (p.allocator.nextAddr = a))
  | .send _ => .isFalse id
  | .worker _ => inferInstanceAs (Decidable (lookingUp p.phase = some a))

/-- No eviction of the run overwrites a client's placement, and a client's successful
migration is in force until something that starts after it supersedes it. -/
structure KeepsUpdates (capacity : UInt64) (events : List Event) : Prop where
  evicts : ∀ i ms, events[i]? = some (.worker ms) →
    EvictsFromDevice ((pager capacity).stateAt events i) ((pager capacity).stateAt events (i + 1))
  inForce : ∀ i j a target, events[i]? = some (.client (.migrate a target)) →
    (migrate ((pager capacity).stateAt events i).allocator a target).1.isOk → i < j →
    (∀ k e, i < k → k < j → events[k]? = some e →
      ¬ Supersedes a ((pager capacity).stateAt events k) e) →
    getDomain ((pager capacity).stateAt events j).allocator a = some target

/-- A client migration that succeeds does not cross a decided move of the same block. -/
def Uncrossed (p : PagerState) : Event → Prop
  | .client (.migrate a target) =>
    (getDomain p.allocator a).isSome → ∀ t, pendingMove p.phase = some (a, t) → t = target
  | _ => True

section Domains

variable {capacity : UInt64} {s : AllocatorState}

theorem free_domain (a b : UInt64) :
    getDomain (free s a).2 b = if b = a then none else getDomain s b := by
  cases ha : s.allocations.lookup a with
  | none =>
    rw [(free_unknown ha).1]
    by_cases hb : b = a
    · subst b
      simp [getDomain, ha]
    · simp [hb]
  | some block =>
    rw [free_live ha]
    by_cases hb : b = a
    · subst b
      simp [getDomain]
    · simp [getDomain, hb, AList.lookup_erase_ne hb]

theorem alloc_domain_other {size : UInt64} {isStatic : Bool} {b : UInt64} (h : s.nextAddr ≠ b) :
    getDomain (alloc capacity s size isStatic).2 b = getDomain s b := by
  simp [getDomain, alloc, AList.lookup_insert_ne (Ne.symm h)]

theorem alloc_domain_new (size : UInt64) (isStatic : Bool) :
    getDomain (alloc capacity s size isStatic).2 s.nextAddr = some .localDevice ∨
      getDomain (alloc capacity s size isStatic).2 s.nextAddr = some .host := by
  by_cases hfit : s.allocatedDeviceBytes + alignedSize size ≤ capacity
  · simp [getDomain, alloc, hfit]
  · simp [getDomain, alloc, hfit]

theorem migrate_isOk (a : UInt64) (target : MemoryDomain) :
    (migrate s a target).1.isOk = (getDomain s a).isSome := by
  cases ha : s.allocations.lookup a with
  | none => simp [migrate, getDomain, ha, Result.isOk]
  | some block =>
    by_cases hne : block.domain = target
    · simp [migrate, getDomain, ha, hne, Result.isOk]
    · simp [migrate, getDomain, ha, hne, Result.isOk]

theorem client_domain {p : PagerState} {call : Call} {a : UInt64}
    (h : ¬ Supersedes a p (.client call)) :
    getDomain (perform capacity p.allocator call).2 a = getDomain p.allocator a := by
  cases call with
  | alloc size isStatic => exact alloc_domain_other h
  | free b => exact (free_domain b a).trans (if_neg (Ne.symm h))
  | migrate b target => exact (migrate_domain _ b a target).trans (if_neg fun hb => h hb.1.symm)

end Domains

section Worker

variable {capacity : UInt64} {p : PagerState} {durationMs : ℚ}

def Decides (p : PagerState) (a : UInt64) (t : MemoryDomain) : Prop :=
  lookingUp p.phase = some a ∧ (t = .host → getDomain p.allocator a = some .localDevice)

theorem worker_cases (p : PagerState) (durationMs : ℚ) :
    ((workerStep p durationMs).2.allocator = p.allocator ∧
      (pendingMove (workerStep p durationMs).2.phase = none ∨
        pendingMove (workerStep p durationMs).2.phase = pendingMove p.phase ∨
        ∃ a t, Decides p a t ∧ pendingMove (workerStep p durationMs).2.phase = some (a, t))) ∨
    (∃ a t, pendingMove p.phase = some (a, t) ∧
      (workerStep p durationMs).2.allocator = (migrate p.allocator a t).2 ∧
      pendingMove (workerStep p durationMs).2.phase = none) := by
  simp only [workerStep]
  cases hp : p.phase with
  | receiving =>
    left
    simp only
    split
    · exact ⟨rfl, .inl (by rw [hp]; rfl)⟩
    all_goals exact ⟨rfl, .inl rfl⟩
  | prefetchLookup a ms =>
    left
    simp only
    split
    · exact ⟨rfl, .inl rfl⟩
    · refine ⟨rfl, .inr (.inr ⟨a, .localDevice, ⟨by rw [hp]; rfl, ?_⟩, rfl⟩)⟩
      intro ht
      cases ht
  | prefetchMetrics a ms => exact .inl ⟨rfl, .inr (.inl rfl)⟩
  | prefetchMigrate a => exact .inr ⟨a, .localDevice, rfl, rfl, rfl⟩
  | evictLookup a =>
    left
    simp only
    split
    · rename_i hres
      exact ⟨rfl, .inr (.inr ⟨a, .host, ⟨by rw [hp]; rfl, fun _ => hres⟩, rfl⟩)⟩
    · exact ⟨rfl, .inl rfl⟩
  | evictMigrate a => exact .inr ⟨a, .host, rfl, rfl, rfl⟩
  | stopped => exact .inl ⟨rfl, .inl (by rw [hp]; rfl)⟩

theorem evicting_pending {a b : UInt64} {t : MemoryDomain} (h : evicting p.phase = some a)
    (hm : pendingMove p.phase = some (b, t)) : b = a ∧ t = .host := by
  cases hp : p.phase <;> simp_all [evicting, pendingMove]

end Worker

/-- A decided eviction still finds its block on the device, already on the host, or gone. -/
def EvictionSound (p : PagerState) : Prop :=
  ∀ a, pendingMove p.phase = some (a, .host) → ∀ d, getDomain p.allocator a = some d →
    d = .localDevice ∨ d = .host

section Steps

variable {capacity : UInt64} {p : PagerState}

theorem evictionSound_new : EvictionSound .new := by
  intro a h
  cases h

theorem evictionSound_step (h : EvictionSound p) {e : Event} (he : Uncrossed p e) :
    EvictionSound (pagerStep capacity p e).2 := by
  intro a hm d hd
  cases e with
  | send command => exact h a hm d hd
  | client call =>
    change pendingMove p.phase = some (a, .host) at hm
    change getDomain (perform capacity p.allocator call).2 a = some d at hd
    by_cases hs : Supersedes a p (.client call)
    · cases call with
      | alloc size isStatic =>
        subst hs
        rcases @alloc_domain_new capacity p.allocator size isStatic with hn | hn
        · exact .inl (Option.some.inj (hd.symm.trans hn))
        · exact .inr (Option.some.inj (hd.symm.trans hn))
      | free b =>
        have hn := (@free_domain p.allocator b a).trans (if_pos hs.symm)
        cases hd.symm.trans hn
      | migrate b target =>
        cases hs
        have hn := migrate_domain p.allocator a a target
        by_cases hl : (getDomain p.allocator a).isSome
        · rw [if_pos ⟨rfl, hl⟩] at hn
          exact .inr ((Option.some.inj (hd.symm.trans hn)).trans (he hl _ hm).symm)
        · rw [if_neg fun hb => hl hb.2] at hn
          exact h a hm d (hn.symm.trans hd)
    · exact h a hm d ((client_domain hs).symm.trans hd)
  | worker ms =>
    rcases worker_cases p ms with ⟨ha, hn | hk | ⟨b, t, hdec, hb⟩⟩ | ⟨b, t, _, _, hn⟩
    · cases hm.symm.trans hn
    · exact h a (hk.symm.trans hm) d (ha ▸ hd)
    · cases hb.symm.trans hm
      exact .inl (Option.some.inj ((ha ▸ hd).symm.trans (hdec.2 rfl)))
    · cases hm.symm.trans hn

theorem evicts_step (h : EvictionSound p) (ms : ℚ) :
    EvictsFromDevice p (pagerStep capacity p (.worker ms)).2 := by
  intro a ha b hne
  rcases worker_cases p ms with ⟨hs, _⟩ | ⟨c, t, hm, hs, _⟩
  · exact absurd (congrArg (getDomain · b) hs) hne
  · obtain ⟨rfl, rfl⟩ := evicting_pending ha hm
    have hd := migrate_domain p.allocator c b .host
    rw [← hs] at hd
    by_cases hb : b = c ∧ (getDomain p.allocator c).isSome
    · rw [if_pos hb] at hd
      obtain ⟨rfl, hl⟩ := hb
      obtain ⟨d, hbd⟩ := Option.isSome_iff_exists.mp hl
      rcases h b hm d hbd with rfl | rfl
      · exact ⟨rfl, hbd, hd⟩
      · exact absurd (hd.trans hbd.symm) hne
    · rw [if_neg hb] at hd
      exact absurd hd hne

/-- The block at `a` is where a client put it, and no decided move says otherwise. -/
def InForce (a : UInt64) (target : MemoryDomain) (p : PagerState) : Prop :=
  getDomain p.allocator a = some target ∧ ∀ t, pendingMove p.phase = some (a, t) → t = target

theorem inForce_begin {a : UInt64} {target : MemoryDomain}
    (he : Uncrossed p (.client (.migrate a target)))
    (ok : (migrate p.allocator a target).1.isOk) :
    InForce a target (pagerStep capacity p (.client (.migrate a target))).2 := by
  have hl : (getDomain p.allocator a).isSome := (migrate_isOk a target).symm.trans ok
  exact ⟨(migrate_domain p.allocator a a target).trans (if_pos ⟨rfl, hl⟩), he hl⟩

theorem inForce_step {a : UInt64} {target : MemoryDomain} (h : InForce a target p) {e : Event}
    (hs : ¬ Supersedes a p e) : InForce a target (pagerStep capacity p e).2 := by
  cases e with
  | send command => exact h
  | client call => exact ⟨(client_domain hs).trans h.1, h.2⟩
  | worker ms =>
    rcases worker_cases p ms with ⟨ha, hn⟩ | ⟨b, t, hm, ha, hn⟩
    · refine ⟨(congrArg (getDomain · a) ha).trans h.1, ?_⟩
      intro t ht
      rcases hn with hn | hk | ⟨b, u, hdec, hb⟩
      · cases ht.symm.trans hn
      · exact h.2 t (hk.symm.trans ht)
      · cases hb.symm.trans ht
        exact absurd hdec.1 hs
    · refine ⟨?_, fun t ht => by cases ht.symm.trans hn⟩
      have hd := migrate_domain p.allocator b a t
      rw [← ha] at hd
      by_cases hb : a = b ∧ (getDomain p.allocator b).isSome
      · rw [if_pos hb] at hd
        obtain ⟨rfl, _⟩ := hb
        exact hd.trans (congrArg some (h.2 t hm))
      · rw [if_neg hb] at hd
        exact hd.trans h.1

end Steps

section Runs

variable {capacity : UInt64} {events : List Event}

def AllUncrossed (capacity : UInt64) (events : List Event) : Prop :=
  ∀ i e, events[i]? = some e → Uncrossed ((pager capacity).stateAt events i) e

theorem evictionSound_run (h : AllUncrossed capacity events) (i : ℕ) :
    EvictionSound ((pager capacity).stateAt events i) := by
  refine stable_between (pager capacity) events EvictionSound (Nat.zero_le i) ?_ ?_
  · exact evictionSound_new
  · intro k e _ _ hk hs
    exact evictionSound_step hs (h k e hk)

theorem keepsUpdates_of_uncrossed (h : AllUncrossed capacity events) :
    KeepsUpdates capacity events := by
  constructor
  · intro i ms hi
    rw [stateAt_succ _ hi]
    exact @evicts_step capacity _ (evictionSound_run h i) ms
  · intro i j a target hi ok hij between
    refine (stable_between (pager capacity) events (InForce a target) hij ?_ ?_).1
    · rw [stateAt_succ _ hi]
      exact inForce_begin (h i _ hi) ok
    · intro k e hk hkj he hf
      exact inForce_step hf (between k e hk hkj he)

theorem crossed_overwritten {p : PagerState} {a : UInt64} {target t : MemoryDomain}
    (hl : (getDomain p.allocator a).isSome) (hm : pendingMove p.phase = some (a, t)) (ms : ℚ) :
    let q := (pagerStep capacity p (.client (.migrate a target))).2
    lookingUp q.phase = none ∧
      (getDomain (workerStep q ms).2.allocator a = some t ∨
        lookingUp (workerStep q ms).2.phase = none ∧
          ∀ ms', getDomain (workerStep (workerStep q ms).2 ms').2.allocator a = some t) := by
  intro q
  have hq : (getDomain q.allocator a).isSome := by
    have hd : getDomain q.allocator a = some target :=
      (migrate_domain p.allocator a a target).trans (if_pos ⟨rfl, hl⟩)
    rw [hd]
    rfl
  have hphase : q.phase = p.phase := rfl
  have moved : ∀ u, getDomain (migrate q.allocator a u).2 a = some u :=
    fun u => (migrate_domain q.allocator a a u).trans (if_pos ⟨rfl, hq⟩)
  rw [hphase]
  cases hp : p.phase with
  | receiving => rw [hp] at hm; cases hm
  | prefetchLookup b u => rw [hp] at hm; cases hm
  | evictLookup b => rw [hp] at hm; cases hm
  | stopped => rw [hp] at hm; cases hm
  | prefetchMetrics b u =>
    rw [hp] at hm
    cases hm
    refine ⟨rfl, .inr ⟨?_, ?_⟩⟩
    · simp [workerStep, hphase, hp, lookingUp]
    · intro ms'
      simpa [workerStep, hphase, hp] using moved .localDevice
  | prefetchMigrate b =>
    rw [hp] at hm
    cases hm
    refine ⟨rfl, .inl ?_⟩
    simpa [workerStep, hphase, hp] using moved .localDevice
  | evictMigrate b =>
    rw [hp] at hm
    cases hm
    refine ⟨rfl, .inl ?_⟩
    simpa [workerStep, hphase, hp] using moved .host

theorem not_keepsUpdates_of_crossed {e : Event}
    (h : ¬ Uncrossed ((pager capacity).after events) e) (ms ms' : ℚ) :
    ¬ KeepsUpdates capacity (events ++ [e, .worker ms, .worker ms']) := by
  intro hk
  have h₀ : (pager capacity).stateAt (events ++ [e, .worker ms, .worker ms']) events.length =
      (pager capacity).after events := by simp [Machine.stateAt]
  generalize hr : events ++ [e, .worker ms, .worker ms'] = run at hk h₀
  have e₀ : run[events.length]? = some e := by simp [← hr]
  have e₁ : run[events.length + 1]? = some (.worker ms) := by simp [← hr]
  have e₂ : run[events.length + 2]? = some (.worker ms') := by simp [← hr]
  cases e with
  | send command => exact h trivial
  | worker d => exact h trivial
  | client call =>
    cases call with
    | alloc size isStatic => exact h trivial
    | free b => exact h trivial
    | migrate a target =>
      simp only [Uncrossed, not_forall] at h
      obtain ⟨hl, t, hm, hne⟩ := h
      have h₁ := stateAt_succ (pager capacity) e₀
      have h₂ := stateAt_succ (pager capacity) e₁
      have h₃ := stateAt_succ (pager capacity) e₂
      rw [h₀] at h₁
      rw [h₁] at h₂
      rw [h₂] at h₃
      have ok : (migrate ((pager capacity).stateAt run events.length).allocator a target).1.isOk :=
        (congrArg (fun p => (migrate p.allocator a target).1.isOk) h₀).trans
          ((migrate_isOk a target).trans hl)
      have quiet : ∀ {i : ℕ} {q : PagerState} {d : ℚ}, (pager capacity).stateAt run i = q →
          run[i]? = some (.worker d) → lookingUp q.phase = none → ∀ {e}, run[i]? = some e →
          ¬ Supersedes a ((pager capacity).stateAt run i) e := by
        intro i q d hi hw hq e he hs
        cases hw.symm.trans he
        cases (hi ▸ hq).symm.trans hs
      obtain ⟨hq, hd | ⟨hq', hd⟩⟩ :=
        @crossed_overwritten capacity _ a target t hl hm ms
      · have hf := hk.inForce _ (events.length + 2) a target e₀ ok (by omega) ?_
        · rw [h₂] at hf
          exact hne (Option.some.inj (hd.symm.trans hf))
        · intro k e hk₁ hk₂ he
          obtain rfl : k = events.length + 1 := by omega
          exact quiet h₁ e₁ hq he
      · have hf := hk.inForce _ (events.length + 3) a target e₀ ok (by omega) ?_
        · rw [h₃] at hf
          exact hne (Option.some.inj ((hd ms').symm.trans hf))
        · intro k e hk₁ hk₂ he
          rcases (by omega : k = events.length + 1 ∨ k = events.length + 2) with rfl | rfl
          · exact quiet h₁ e₁ hq he
          · exact quiet h₂ e₂ hq' he

end Runs

/-- The worker's commands keep every concurrent update of a run without crossed migrations,
and a crossed migration is lost as soon as the worker goes on. -/
theorem keepsUpdates_exactly (capacity : UInt64) :
    (∀ events, AllUncrossed capacity events → KeepsUpdates capacity events) ∧
    ∀ events e, ¬ Uncrossed ((pager capacity).after events) e → ∀ ms ms',
      ¬ KeepsUpdates capacity (events ++ [e, .worker ms, .worker ms']) :=
  ⟨fun _ => keepsUpdates_of_uncrossed, fun _ _ => not_keepsUpdates_of_crossed⟩

def racedEviction (target : MemoryDomain) : List Event :=
  [.client (.alloc 4096 false), .send (.evict baseAddr), .worker 0, .worker 0,
    .client (.migrate baseAddr target), .worker 0]

theorem keepsUpdates_exactly_host : KeepsUpdates 4096 (racedEviction .host) := by
  apply (keepsUpdates_exactly 4096).1
  intro i e he
  match i with
  | 0 | 1 | 2 | 3 | 5 => cases he; trivial
  | 4 =>
    cases he
    intro _ t ht
    have hp : pendingMove ((pager 4096).stateAt (racedEviction .host) 4).phase =
        some (baseAddr, .host) := by decide +kernel
    cases hp.symm.trans ht
    rfl
  | _ + 6 => cases he

/-- A client moved the block to swap after the check; the eviction puts it on the host. -/
theorem racedEviction_swap : ¬ KeepsUpdates 4096 (racedEviction .swap) := by
  intro h
  have hd : getDomain ((pager 4096).stateAt (racedEviction .swap) 6).allocator baseAddr =
      some .host := by decide +kernel
  have hf := h.inForce 4 6 baseAddr .swap rfl (by decide +kernel) (by omega) ?_
  · rw [hd] at hf
    cases hf
  · intro k e hk hkj he
    obtain rfl : k = 5 := by omega
    cases he
    decide +kernel

end EvictionRaces
