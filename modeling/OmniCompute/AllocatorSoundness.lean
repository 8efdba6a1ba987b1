import OmniCompute.DuvasAllocator

/-! What every allocator call preserves while the address counter does not wrap: live
blocks lie apart below the counter, and both byte counters are exact sums over the map. -/
namespace AllocatorSoundness

open RustValues EventRuns KeyedTotals DuvasAllocator

/-- Where the live blocks lie in the virtual address space. -/
structure Laid (s : AllocatorState) : Prop where
  keyed : ∀ a b, s.allocations.lookup a = some b → b.virtualAddr = a
  below : ∀ a b, s.allocations.lookup a = some b →
    a.toNat + b.sizeBytes.toNat ≤ s.nextAddr.toNat
  apart : ∀ a b c d, s.allocations.lookup a = some b → s.allocations.lookup c = some d →
    a ≠ c → a.toNat + b.sizeBytes.toNat ≤ c.toNat ∨ c.toNat + d.sizeBytes.toNat ≤ a.toNat
  paged : ∀ a b, s.allocations.lookup a = some b →
    a.toNat % 4096 = 0 ∧ b.sizeBytes.toNat % 4096 = 0
  nextPaged : s.nextAddr.toNat % 4096 = 0

/-- The counters agree with the map, and the map fits below the address counter. -/
structure Accounted (s : AllocatorState) : Prop where
  room : baseAddr.toNat + virtualTotal s ≤ s.nextAddr.toNat
  virtualBytes : s.allocatedVirtualBytes.toNat = virtualTotal s
  deviceBytes : s.allocatedDeviceBytes.toNat = deviceTotal s

def CounterFits (s : AllocatorState) (size : UInt64) : Prop :=
  s.nextAddr.toNat + (alignedSize size).toNat < 2 ^ 64

instance (s : AllocatorState) (size : UInt64) : Decidable (CounterFits s size) :=
  inferInstanceAs (Decidable (_ < _))

theorem laid_new : Laid .new := by
  constructor <;> simp [AllocatorState.new, baseAddr]

theorem accounted_new : Accounted .new := by
  constructor <;> simp [AllocatorState.new, virtualTotal, deviceTotal]

section Alloc

variable {capacity : UInt64} {s : AllocatorState} {size : UInt64} {isStatic : Bool}

theorem alloc_nextAddr (fits : CounterFits s size) :
    (alloc capacity s size isStatic).2.nextAddr.toNat =
      s.nextAddr.toNat + (alignedSize size).toNat := by
  simp only [alloc, UInt64.toNat_add]
  exact Nat.mod_eq_of_lt fits

theorem alloc_entry : ∃ block : MemoryBlock,
    (alloc capacity s size isStatic).2.allocations = s.allocations.insert s.nextAddr block ∧
    block.virtualAddr = s.nextAddr ∧ block.sizeBytes = alignedSize size ∧
    block.isStatic = isStatic :=
  ⟨_, rfl, rfl, rfl, rfl⟩

theorem laid_alloc (h : Laid s) (fits : CounterFits s size) :
    Laid (alloc capacity s size isStatic).2 := by
  obtain ⟨block, hm, hv, hs, _⟩ := @alloc_entry capacity s size isStatic
  have hn := @alloc_nextAddr capacity s size isStatic fits
  have hp := alignedSize_page size
  constructor
  · intro a b hab
    rw [hm] at hab
    rcases lookup_insert_some hab with ⟨rfl, rfl⟩ | ⟨_, hab⟩
    · exact hv
    · exact h.keyed a b hab
  · intro a b hab
    rw [hm] at hab
    rw [hn]
    rcases lookup_insert_some hab with ⟨rfl, rfl⟩ | ⟨_, hab⟩
    · rw [hs]
    · have := h.below a b hab
      omega
  · intro a b c d hab hcd hne
    rw [hm] at hab hcd
    rcases lookup_insert_some hab with ⟨rfl, rfl⟩ | ⟨_, hold⟩
    · rcases lookup_insert_some hcd with ⟨rfl, rfl⟩ | ⟨_, hcd'⟩
      · exact absurd rfl hne
      · exact Or.inr (h.below c d hcd')
    · rcases lookup_insert_some hcd with ⟨rfl, rfl⟩ | ⟨_, hcd'⟩
      · exact Or.inl (h.below a b hold)
      · exact h.apart a b c d hold hcd' hne
  · intro a b hab
    rw [hm] at hab
    rcases lookup_insert_some hab with ⟨rfl, rfl⟩ | ⟨_, hab⟩
    · exact ⟨h.nextPaged, by rw [hs]; exact hp⟩
    · exact h.paged a b hab
  · rw [hn]
    have := h.nextPaged
    omega

/-- An entry replaced by the insert lies at the counter, so it is empty: nothing is lost. -/
theorem alloc_totals (weight : MemoryBlock → ℕ) (hw : ∀ b, weight b ≤ virtualWeight b)
    (h : Laid s) (block : MemoryBlock) :
    total weight (s.allocations.insert s.nextAddr block) =
      weight block + total weight s.allocations := by
  rw [total_insert]
  cases hl : s.allocations.lookup s.nextAddr with
  | none =>
    have he : (s.allocations.erase s.nextAddr).entries = s.allocations.entries :=
      List.kerase_of_notMem_keys (AList.lookup_eq_none.mp hl)
    simp [total, he]
  | some old =>
    have hz := h.below _ _ hl
    have ho := hw old
    have he := total_erase weight hl
    simp only [virtualWeight] at ho
    omega

theorem accounted_alloc (hl : Laid s) (h : Accounted s) (fits : CounterFits s size) :
    Accounted (alloc capacity s size isStatic).2 := by
  have hn := @alloc_nextAddr capacity s size isStatic fits
  have hroom := h.room
  have hv := h.virtualBytes
  have hd := h.deviceBytes
  have hle := deviceTotal_le s
  simp only [CounterFits] at fits
  have hvt : virtualTotal (alloc capacity s size isStatic).2 =
      (alignedSize size).toNat + virtualTotal s := alloc_totals _ (fun _ => le_rfl) hl _
  have hdt : deviceTotal (alloc capacity s size isStatic).2 =
      deviceWeight ⟨s.nextAddr, alignedSize size,
        if s.allocatedDeviceBytes + alignedSize size ≤ capacity then .localDevice else .host,
        isStatic⟩ + deviceTotal s := by
    have := alloc_totals deviceWeight deviceWeight_le hl ⟨s.nextAddr, alignedSize size,
      if s.allocatedDeviceBytes + alignedSize size ≤ capacity then .localDevice else .host,
      isStatic⟩
    simpa [deviceTotal, alloc] using this
  constructor
  · rw [hvt, hn]
    omega
  · rw [hvt]
    simp only [alloc, UInt64.toNat_add]
    rw [Nat.mod_eq_of_lt (by omega)]
    omega
  · rw [hdt]
    simp only [alloc]
    by_cases hfit : s.allocatedDeviceBytes + alignedSize size ≤ capacity
    · simp only [hfit, decide_true, if_true, deviceWeight, UInt64.toNat_add]
      rw [Nat.mod_eq_of_lt (by omega)]
      omega
    · simp only [hfit, decide_false, Bool.false_eq_true, if_false, deviceWeight, reduceCtorEq]
      omega

end Alloc

section Release

variable {s : AllocatorState} {addr : UInt64} {block : MemoryBlock}

theorem free_live (h : s.allocations.lookup addr = some block) :
    free s addr = (.ok (),
      { s with
        allocations := s.allocations.erase addr
        allocatedVirtualBytes := s.allocatedVirtualBytes - block.sizeBytes
        allocatedDeviceBytes := releasedDeviceBytes s block }) := by
  simp [free, h]

theorem free_unknown (h : s.allocations.lookup addr = none) :
    (free s addr).2 = s ∧ ∃ e, (free s addr).1 = .error e := by
  simp [free, h]

theorem migrate_unknown {target : MemoryDomain} (h : s.allocations.lookup addr = none) :
    (migrate s addr target).2 = s ∧ ∃ e, (migrate s addr target).1 = .error e := by
  simp [migrate, h]

theorem migrate_same (h : s.allocations.lookup addr = some block) :
    migrate s addr block.domain = (.ok (), s) := by
  simp [migrate, h]

theorem migrate_move {target : MemoryDomain} (h : s.allocations.lookup addr = some block)
    (hne : block.domain ≠ target) :
    migrate s addr target = (.ok (),
      { s with
        allocations := s.allocations.insert addr { block with domain := target }
        allocatedDeviceBytes :=
          if target = .localDevice then releasedDeviceBytes s block + block.sizeBytes
          else releasedDeviceBytes s block }) := by
  simp [migrate, h, hne]

theorem migrate_lookup (s : AllocatorState) (a b : UInt64) (target : MemoryDomain) :
    (migrate s a target).2.allocations.lookup b =
      if b = a then (s.allocations.lookup b).map fun block => { block with domain := target }
      else s.allocations.lookup b := by
  by_cases hb : b = a
  · subst b
    rw [if_pos rfl]
    cases ha : s.allocations.lookup a with
    | none => simpa [(migrate_unknown ha).1] using ha
    | some block =>
      by_cases hne : block.domain = target
      · subst target
        simpa [migrate_same ha] using ha
      · simp [migrate_move ha hne]
  · rw [if_neg hb]
    cases ha : s.allocations.lookup a with
    | none => simp [(migrate_unknown ha).1]
    | some block =>
      by_cases hne : block.domain = target
      · subst target
        simp [migrate_same ha]
      · simpa [migrate_move ha hne] using AList.lookup_insert_ne hb

/-- No subtraction of `free` or `migrate` underflows: a live block is part of the counters. -/
theorem block_counted (h : Accounted s) (hb : s.allocations.lookup addr = some block) :
    block.sizeBytes ≤ s.allocatedVirtualBytes ∧
    (block.domain = .localDevice → block.sizeBytes ≤ s.allocatedDeviceBytes) := by
  have hv := weight_le_total virtualWeight hb
  have hd := weight_le_total deviceWeight hb
  have hve := h.virtualBytes
  have hde := h.deviceBytes
  simp only [virtualTotal, virtualWeight] at *
  simp only [deviceTotal] at hde
  constructor
  · rw [UInt64.le_iff_toNat_le]
    omega
  · intro hdom
    rw [UInt64.le_iff_toNat_le]
    simp only [deviceWeight, hdom, if_true] at hd
    omega

theorem released_toNat (h : Accounted s) (hb : s.allocations.lookup addr = some block) :
    (releasedDeviceBytes s block).toNat + deviceWeight block = deviceTotal s := by
  have hc := (block_counted h hb).2
  have hde := h.deviceBytes
  simp only [releasedDeviceBytes, deviceWeight]
  split
  · rename_i hdom
    have hle := hc hdom
    rw [UInt64.toNat_sub_of_le _ _ hle]
    rw [UInt64.le_iff_toNat_le] at hle
    omega
  · omega

theorem laid_free (h : Laid s) : Laid (free s addr).2 := by
  cases hb : s.allocations.lookup addr with
  | none => rw [(free_unknown hb).1]; exact h
  | some block =>
    rw [free_live hb]
    constructor
    · intro a b hab; exact h.keyed a b (lookup_erase_some hab).2
    · intro a b hab; exact h.below a b (lookup_erase_some hab).2
    · intro a b c d hab hcd
      exact h.apart a b c d (lookup_erase_some hab).2 (lookup_erase_some hcd).2
    · intro a b hab; exact h.paged a b (lookup_erase_some hab).2
    · exact h.nextPaged

theorem accounted_free (h : Accounted s) : Accounted (free s addr).2 := by
  cases hb : s.allocations.lookup addr with
  | none => rw [(free_unknown hb).1]; exact h
  | some block =>
    have hv := total_erase virtualWeight hb
    have hd := total_erase deviceWeight hb
    have hr := released_toNat h hb
    have hroom := h.room
    have hve := h.virtualBytes
    have hle := (block_counted h hb).1
    have hw : virtualWeight block = block.sizeBytes.toNat := rfl
    rw [free_live hb]
    simp only [virtualTotal] at hroom hve
    simp only [deviceTotal] at hr
    constructor
    · change baseAddr.toNat + total virtualWeight (s.allocations.erase addr) ≤
        s.nextAddr.toNat
      omega
    · change (s.allocatedVirtualBytes - block.sizeBytes).toNat =
        total virtualWeight (s.allocations.erase addr)
      rw [UInt64.toNat_sub_of_le _ _ hle]
      omega
    · change (releasedDeviceBytes s block).toNat = total deviceWeight (s.allocations.erase addr)
      omega

theorem laid_migrate {target : MemoryDomain} (h : Laid s) : Laid (migrate s addr target).2 := by
  cases hb : s.allocations.lookup addr with
  | none => rw [(migrate_unknown hb).1]; exact h
  | some block =>
    by_cases hne : block.domain = target
    · subst target; rw [migrate_same hb]; exact h
    · rw [migrate_move hb hne]
      -- each live block after the move has a live block of the same extent before it
      have origin : ∀ a b, (s.allocations.insert addr { block with domain := target }).lookup a =
          some b → ∃ b', s.allocations.lookup a = some b' ∧ b'.sizeBytes = b.sizeBytes ∧
            b'.virtualAddr = b.virtualAddr := by
        intro a b hab
        rcases lookup_insert_some hab with ⟨rfl, rfl⟩ | ⟨_, hab⟩
        · exact ⟨block, hb, rfl, rfl⟩
        · exact ⟨b, hab, rfl, rfl⟩
      constructor
      · intro a b hab
        obtain ⟨b', hb', _, hv⟩ := origin a b hab
        exact hv ▸ h.keyed a b' hb'
      · intro a b hab
        obtain ⟨b', hb', hs, _⟩ := origin a b hab
        exact hs ▸ h.below a b' hb'
      · intro a b c d hab hcd hac
        obtain ⟨b', hb', hs, _⟩ := origin a b hab
        obtain ⟨d', hd', ht, _⟩ := origin c d hcd
        exact hs ▸ ht ▸ h.apart a b' c d' hb' hd' hac
      · intro a b hab
        obtain ⟨b', hb', hs, _⟩ := origin a b hab
        exact hs ▸ h.paged a b' hb'
      · exact h.nextPaged

theorem accounted_migrate {target : MemoryDomain} (h : Accounted s) :
    Accounted (migrate s addr target).2 := by
  cases hb : s.allocations.lookup addr with
  | none => rw [(migrate_unknown hb).1]; exact h
  | some block =>
    by_cases hne : block.domain = target
    · subst target; rw [migrate_same hb]; exact h
    · have hv := total_replace virtualWeight { block with domain := target } hb
      have hd := total_replace deviceWeight { block with domain := target } hb
      have hr := released_toNat h hb
      have hroom := h.room
      have hve := h.virtualBytes
      have hle := deviceTotal_le s
      have hlt := s.nextAddr.toNat_lt
      have hbv := weight_le_total virtualWeight hb
      have hw : virtualWeight { block with domain := target } = virtualWeight block := rfl
      have hwb : virtualWeight block = block.sizeBytes.toNat := rfl
      have hde : deviceWeight { block with domain := target } =
        if target = .localDevice then block.sizeBytes.toNat else 0 := rfl
      have hnew := total_mono (s.allocations.insert addr { block with domain := target })
        deviceWeight_le
      rw [migrate_move hb hne]
      simp only [virtualTotal] at hroom hve hle
      simp only [deviceTotal] at hr hle
      constructor
      · change baseAddr.toNat + total virtualWeight
          (s.allocations.insert addr { block with domain := target }) ≤ s.nextAddr.toNat
        omega
      · change s.allocatedVirtualBytes.toNat = total virtualWeight
          (s.allocations.insert addr { block with domain := target })
        omega
      · change UInt64.toNat (if target = .localDevice then
            releasedDeviceBytes s block + block.sizeBytes else releasedDeviceBytes s block) =
          total deviceWeight (s.allocations.insert addr { block with domain := target })
        by_cases ht : target = .localDevice
        · simp only [ht, if_true, UInt64.toNat_add] at *
          rw [Nat.mod_eq_of_lt (by omega)]
          omega
        · simp only [ht, if_false] at *
          omega

end Release

def CallFits (s : AllocatorState) : Call → Prop
  | .alloc size _ => CounterFits s size
  | .free _ => True
  | .migrate _ _ => True

instance (s : AllocatorState) : (c : Call) → Decidable (CallFits s c)
  | .alloc size _ => inferInstanceAs (Decidable (CounterFits s size))
  | .free _ => .isTrue trivial
  | .migrate _ _ => .isTrue trivial

theorem perform_nextAddr_other {capacity : UInt64} {s : AllocatorState} (c : Call)
    (hc : ∀ size isStatic, c ≠ .alloc size isStatic) :
    (perform capacity s c).2.nextAddr = s.nextAddr := by
  cases c with
  | alloc size isStatic => exact absurd rfl (hc size isStatic)
  | free addr =>
    simp only [perform, free]
    split <;> rfl
  | migrate addr target =>
    simp only [perform, migrate]
    split
    · rfl
    · split <;> rfl

theorem laid_perform {capacity : UInt64} {s : AllocatorState} (h : Laid s) (c : Call)
    (fits : CallFits s c) : Laid (perform capacity s c).2 := by
  cases c with
  | alloc size isStatic => exact laid_alloc h fits
  | free addr => exact laid_free h
  | migrate addr target => exact laid_migrate h

theorem accounted_perform {capacity : UInt64} {s : AllocatorState} (hl : Laid s)
    (h : Accounted s) (c : Call) (fits : CallFits s c) : Accounted (perform capacity s c).2 := by
  cases c with
  | alloc size isStatic => exact accounted_alloc hl h fits
  | free addr => exact accounted_free h
  | migrate addr target => exact accounted_migrate h

end AllocatorSoundness
