import OmniCompute.AllocatorSoundness

/-! Address uniqueness over whole client sessions. The counter never falls, and it moves
exactly when the rounded size is not zero; a request that rounds to zero bytes leaves the
address it returned at the counter, where the next `alloc` finds it again. -/
namespace AllocatorAddresses

open RustValues EventRuns KeyedTotals DuvasAllocator AllocatorSoundness

def stateAt (capacity : UInt64) (calls : List Call) (i : ℕ) : AllocatorState :=
  (clients capacity).stateAt calls i

/-- The `i`-th call is an `alloc` and `a` is the address it returned. -/
def Returned (capacity : UInt64) (calls : List Call) (i : ℕ) (a : UInt64) : Prop :=
  (clients capacity).outputAt calls i = some (.ok (some a))

def Freed (capacity : UInt64) (calls : List Call) (i : ℕ) (a : UInt64) : Prop :=
  calls[i]? = some (.free a) ∧ (clients capacity).outputAt calls i = some (.ok none)

def CounterStays (capacity : UInt64) (calls : List Call) : Prop :=
  ∀ i c, calls[i]? = some c → CallFits (stateAt capacity calls i) c

def Unknown (s : AllocatorState) (a : UInt64) : Prop :=
  (∃ e, (free s a).1 = .error e) ∧ (∀ target, ∃ e, (migrate s a target).1 = .error e) ∧
    getDomain s a = none

structure AddressesUnique (capacity : UInt64) (calls : List Call) : Prop where
  distinct : ∀ i j a, i < j → Returned capacity calls i a → ¬ Returned capacity calls j a
  fresh : ∀ i a, Returned capacity calls i a →
    (stateAt capacity calls i).allocations.lookup a = none
  laid : ∀ i, Laid (stateAt capacity calls i)
  freeable : ∀ i j a, Returned capacity calls i a → i < j →
    (∀ k, i < k → k < j → calls[k]? ≠ some (.free a)) →
      (free (stateAt capacity calls j) a).1 = .ok ()
  gone : ∀ i j a, Freed capacity calls i a → i < j → Unknown (stateAt capacity calls j) a

/-- No request that a later `alloc` follows rounds to an empty block. -/
def EarlierRequestsNonempty (calls : List Call) : Prop :=
  ∀ (i j : ℕ) (size later : UInt64) (isStatic isStatic' : Bool), i < j →
    calls[i]? = some (.alloc size isStatic) → calls[j]? = some (.alloc later isStatic') →
    0 < size.toNat ∧ size.toNat ≤ 2 ^ 64 - 4096

section OneCall

variable {capacity : UInt64} {s : AllocatorState} {a : UInt64}

theorem unknown_iff : Unknown s a ↔ s.allocations.lookup a = none := by
  constructor
  · intro h
    simpa [getDomain] using h.2.2
  · intro h
    exact ⟨(free_unknown h).2, fun _ => (migrate_unknown h).2, by simp [getDomain, h]⟩

theorem perform_address (c : Call) :
    (perform capacity s c).1 = .ok (some a) ↔
      (∃ size isStatic, c = .alloc size isStatic) ∧ s.nextAddr = a := by
  cases c with
  | alloc size isStatic => simp [perform, alloc, Except.map]
  | free addr =>
    cases h : (free s addr).1 <;> simp [perform, h, Except.map]
  | migrate addr target =>
    cases h : (migrate s addr target).1 <;> simp [perform, h, Except.map]

theorem perform_nextAddr_le (c : Call) (fits : CallFits s c) :
    s.nextAddr.toNat ≤ (perform capacity s c).2.nextAddr.toNat := by
  cases c with
  | alloc size isStatic =>
    have h := @alloc_nextAddr capacity s size isStatic fits
    simp only [perform]
    omega
  | free addr => rw [perform_nextAddr_other _ (by simp)]
  | migrate addr target => rw [perform_nextAddr_other _ (by simp)]

theorem perform_key (c : Call) {b : MemoryBlock}
    (h : (perform capacity s c).2.allocations.lookup a = some b) :
    ((∃ size isStatic, c = .alloc size isStatic) ∧ a = s.nextAddr) ∨
      ∃ b', s.allocations.lookup a = some b' := by
  cases c with
  | alloc size isStatic =>
    rcases lookup_insert_some h with ⟨ha, _⟩ | ⟨_, h⟩
    · exact Or.inl ⟨⟨size, isStatic, rfl⟩, ha⟩
    · exact Or.inr ⟨b, h⟩
  | free addr =>
    cases hb : s.allocations.lookup addr with
    | none =>
      rw [perform, (free_unknown hb).1] at h
      exact Or.inr ⟨b, h⟩
    | some block =>
      rw [perform, free_live hb] at h
      exact Or.inr ⟨b, (lookup_erase_some h).2⟩
  | migrate addr target =>
    rw [perform, migrate_lookup] at h
    by_cases ha : a = addr
    · rw [if_pos ha] at h
      obtain ⟨block, hb, _⟩ := Option.map_eq_some_iff.mp h
      exact Or.inr ⟨block, hb⟩
    · rw [if_neg ha] at h
      exact Or.inr ⟨b, h⟩

theorem perform_keeps (c : Call) (hc : c ≠ .free a) {b : MemoryBlock}
    (h : s.allocations.lookup a = some b) :
    ∃ b', (perform capacity s c).2.allocations.lookup a = some b' := by
  cases c with
  | alloc size isStatic =>
    obtain ⟨block, hm, _⟩ := @alloc_entry capacity s size isStatic
    rw [perform, hm]
    by_cases ha : a = s.nextAddr
    · exact ⟨block, by rw [ha, AList.lookup_insert]⟩
    · exact ⟨b, by rw [AList.lookup_insert_ne ha, h]⟩
  | free addr =>
    have ha : a ≠ addr := fun he => hc (he ▸ rfl)
    cases hb : s.allocations.lookup addr with
    | none =>
      rw [perform, (free_unknown hb).1]
      exact ⟨b, h⟩
    | some block =>
      rw [perform, free_live hb]
      exact ⟨b, by rw [← h]; exact AList.lookup_erase_ne ha⟩
  | migrate addr target =>
    rw [perform, migrate_lookup, h]
    by_cases ha : a = addr
    · exact ⟨_, if_pos ha⟩
    · exact ⟨b, if_neg ha⟩

end OneCall

section Session

variable {capacity : UInt64} {calls : List Call}

theorem returned_iff {i : ℕ} {a : UInt64} :
    Returned capacity calls i a ↔ (∃ size isStatic, calls[i]? = some (.alloc size isStatic)) ∧
      (stateAt capacity calls i).nextAddr = a := by
  simp only [Returned, Machine.outputAt]
  cases hc : calls[i]? with
  | none => simp
  | some c =>
    simp only [Option.map_some, Option.some.injEq]
    exact perform_address c

theorem laid_session (h : CounterStays capacity calls) (i : ℕ) :
    Laid (stateAt capacity calls i) := by
  have h0 : Laid ((clients capacity).stateAt calls 0) := by
    rw [stateAt_zero]
    exact laid_new
  exact stable_between (clients capacity) calls Laid (Nat.zero_le i) h0
    fun k c _ _ hc hl => laid_perform hl c (h k c hc)

theorem counter_mono (h : CounterStays capacity calls) {i j : ℕ} (hij : i ≤ j) :
    (stateAt capacity calls i).nextAddr.toNat ≤ (stateAt capacity calls j).nextAddr.toNat :=
  measure_mono (clients capacity) calls (fun s => s.nextAddr.toNat)
    (fun k c hc => perform_nextAddr_le c (h k c hc)) hij

theorem live_returned (i : ℕ) {a : UInt64} {b : MemoryBlock}
    (hb : (stateAt capacity calls i).allocations.lookup a = some b) :
    ∃ k, k < i ∧ Returned capacity calls k a := by
  induction i generalizing b with
  | zero => simp [stateAt, clients, AllocatorState.new] at hb
  | succ i ih =>
    cases hc : calls[i]? with
    | none =>
      rw [stateAt, stateAt_end _ hc] at hb
      obtain ⟨k, hk, hr⟩ := ih hb
      exact ⟨k, by omega, hr⟩
    | some c =>
      rw [stateAt, stateAt_succ _ hc] at hb
      rcases perform_key c hb with ⟨⟨size, isStatic, rfl⟩, ha⟩ | ⟨b', hb'⟩
      · exact ⟨i, by omega, returned_iff.mpr ⟨⟨size, isStatic, hc⟩, ha.symm⟩⟩
      · obtain ⟨k, hk, hr⟩ := ih hb'
        exact ⟨k, by omega, hr⟩

/-- Between two `alloc`s the counter passes over the whole of the earlier block. -/
theorem returned_below (h : CounterStays capacity calls) {i j : ℕ} {size : UInt64}
    {isStatic : Bool} (hij : i < j) (hi : calls[i]? = some (.alloc size isStatic)) :
    (stateAt capacity calls i).nextAddr.toNat + (alignedSize size).toNat ≤
      (stateAt capacity calls j).nextAddr.toNat := by
  have hm := counter_mono h (show i + 1 ≤ j from hij)
  have hs : stateAt capacity calls (i + 1) =
      (alloc capacity (stateAt capacity calls i) size isStatic).2 := stateAt_succ _ hi
  rw [hs, alloc_nextAddr (h i _ hi)] at hm
  exact hm

theorem distinct_of_nonempty (h : CounterStays capacity calls)
    (hn : EarlierRequestsNonempty calls) {i j : ℕ} {a : UInt64} (hij : i < j)
    (hi : Returned capacity calls i a) : ¬ Returned capacity calls j a := by
  intro hj
  obtain ⟨⟨size, isStatic, hci⟩, hai⟩ := returned_iff.mp hi
  obtain ⟨⟨later, isStatic', hcj⟩, haj⟩ := returned_iff.mp hj
  have hpos := (alignedSize_pos_iff size).mpr (hn i j _ _ _ _ hij hci hcj)
  have hbelow := returned_below h hij hci
  rw [hai, haj] at hbelow
  omega

/-- A request that rounds to zero bytes hands its address to the next `alloc` again. -/
theorem nonempty_of_distinct
    (hd : ∀ i j a, i < j → Returned capacity calls i a → ¬ Returned capacity calls j a) :
    EarlierRequestsNonempty calls := by
  intro i j size later isStatic isStatic' hij hi hj
  rw [← alignedSize_pos_iff]
  by_contra hz
  obtain ⟨k, c, hik, _, hk, ⟨size', static', rfl⟩, hmin⟩ := first_from calls
    (fun c => ∃ size isStatic, c = Call.alloc size isStatic) (show i + 1 ≤ j from hij) hj
    ⟨later, isStatic', rfl⟩
  have hzero : alignedSize size = 0 := by
    apply UInt64.toNat_inj.mp
    simpa using hz
  have hs : (clients capacity).stateAt calls (i + 1) =
      (alloc capacity (stateAt capacity calls i) size isStatic).2 := stateAt_succ _ hi
  have hstart : ((clients capacity).stateAt calls (i + 1)).nextAddr =
      (stateAt capacity calls i).nextAddr := by
    rw [hs]
    simp [alloc, hzero]
  have hsame := stable_between (clients capacity) calls
    (fun s => s.nextAddr = (stateAt capacity calls i).nextAddr) hik hstart
    (by
      intro l c hl hlt hc hp
      have hne : ∀ size isStatic, c ≠ .alloc size isStatic :=
        fun size isStatic he => hmin l c hl hlt hc ⟨size, isStatic, he⟩
      rw [← hp]
      exact perform_nextAddr_other c hne)
  exact hd i k _ (by omega) (returned_iff.mpr ⟨⟨size, isStatic, hi⟩, rfl⟩)
    (returned_iff.mpr ⟨⟨size', static', hk⟩, hsame⟩)

theorem freeable_until_freed {i j : ℕ} {a : UInt64} (hi : Returned capacity calls i a)
    (hij : i < j) (hk : ∀ k, i < k → k < j → calls[k]? ≠ some (.free a)) :
    (free (stateAt capacity calls j) a).1 = .ok () := by
  obtain ⟨⟨size, isStatic, hc⟩, ha⟩ := returned_iff.mp hi
  obtain ⟨block, hm, _⟩ := @alloc_entry capacity (stateAt capacity calls i) size isStatic
  have hs : (clients capacity).stateAt calls (i + 1) =
      (alloc capacity (stateAt capacity calls i) size isStatic).2 := stateAt_succ _ hc
  have hstart : ∃ b, ((clients capacity).stateAt calls (i + 1)).allocations.lookup a = some b :=
    ⟨block, by rw [hs, hm, ← ha, AList.lookup_insert]⟩
  obtain ⟨b, hb⟩ := stable_between (clients capacity) calls
    (fun s => ∃ b, s.allocations.lookup a = some b) (show i + 1 ≤ j from hij) hstart
    (by
      rintro k c hik hkj hck ⟨b, hb⟩
      exact perform_keeps c (fun he => hk k (by omega) hkj (he ▸ hck)) hb)
  have hb' : (stateAt capacity calls j).allocations.lookup a = some b := hb
  rw [free_live hb']

theorem freed_stays_unknown
    (hd : ∀ i j a, i < j → Returned capacity calls i a → ¬ Returned capacity calls j a)
    {i j : ℕ} {a : UInt64} (hf : Freed capacity calls i a) (hij : i < j) :
    Unknown (stateAt capacity calls j) a := by
  obtain ⟨hc, ho⟩ := hf
  have hs : (clients capacity).stateAt calls (i + 1) = (free (stateAt capacity calls i) a).2 :=
    stateAt_succ _ hc
  cases hb : (stateAt capacity calls i).allocations.lookup a with
  | none =>
    obtain ⟨e, he⟩ := (free_unknown hb).2
    have hout : (clients capacity).outputAt calls i =
        some ((free (stateAt capacity calls i) a).1.map fun _ => none) := by
      simp [Machine.outputAt, hc, clients, perform, stateAt]
    rw [hout, he] at ho
    simp [Except.map] at ho
  | some block =>
    obtain ⟨m, hm, hr⟩ := live_returned i hb
    have hstart : ((clients capacity).stateAt calls (i + 1)).allocations.lookup a = none := by
      rw [hs, free_live hb]
      exact AList.lookup_erase _ _
    have hend := stable_between (clients capacity) calls
      (fun s => s.allocations.lookup a = none) (show i + 1 ≤ j from hij) hstart
      (by
        intro k c hik hkj hck hnone
        cases hb' : (perform capacity ((clients capacity).stateAt calls k) c).2.allocations.lookup
            a with
        | none => exact hb'
        | some b' =>
          rcases perform_key c hb' with ⟨⟨size, isStatic, rfl⟩, ha⟩ | ⟨b, hb⟩
          · exact absurd (returned_iff.mpr ⟨⟨size, isStatic, hck⟩, ha.symm⟩)
              (hd m k a (by omega) hr)
          · rw [hnone] at hb
            cases hb)
    exact unknown_iff.mpr hend

theorem addresses_unique_iff (capacity : UInt64) (calls : List Call)
    (h : CounterStays capacity calls) :
    AddressesUnique capacity calls ↔ EarlierRequestsNonempty calls := by
  constructor
  · intro hu
    exact nonempty_of_distinct hu.distinct
  · intro hn
    have hd : ∀ i j a, i < j → Returned capacity calls i a → ¬ Returned capacity calls j a :=
      fun i j a hij hi => distinct_of_nonempty h hn hij hi
    constructor
    · exact hd
    · intro i a hi
      cases hb : (stateAt capacity calls i).allocations.lookup a with
      | none => rfl
      | some b =>
        obtain ⟨k, hk, hr⟩ := live_returned i hb
        exact absurd hi (hd k i a hk hr)
    · exact laid_session h
    · intro i j a hi hij hk
      exact freeable_until_freed hi hij hk
    · intro i j a hf hij
      exact freed_stays_unknown hd hf hij

theorem addresses_unique_pair :
    AddressesUnique 4096 [.alloc 100 false, .free 0x1000000000, .alloc 5000 true] := by
  apply (addresses_unique_iff 4096 _ ?_).mpr
  · intro i j size later isStatic isStatic' hij hi hj
    have hi0 : i = 0 := by
      rcases i with _ | _ | _ | i <;> simp_all
      rcases j with _ | _ | _ | j <;> simp_all
    subst i
    have hs : size = 100 := by simpa [eq_comm] using (Call.alloc.inj (Option.some.inj hi)).1
    subst size
    decide
  · intro i c hc
    rcases i with _ | _ | _ | i <;> simp at hc <;> subst hc <;> decide

theorem empty_request_reused : CounterStays 4096 [.alloc 0 false, .alloc 4096 false] ∧
    ¬ AddressesUnique 4096 [.alloc 0 false, .alloc 4096 false] := by
  constructor
  · intro i c hc
    rcases i with _ | _ | i <;> simp at hc <;> subst hc <;> decide
  · intro h
    exact h.distinct 0 1 baseAddr (by decide) rfl rfl

end Session

end AllocatorAddresses
