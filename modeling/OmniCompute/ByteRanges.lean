import Mathlib.Data.List.Basic
import Mathlib.Data.Nat.Init

/-! Ranges of an address space, and what copying and filling a range make of a memory: which
cells they change, and what is read back. -/
namespace ByteRanges

abbrev Memory (α : Type*) := ℕ → α

structure Range where
  start : ℕ
  length : ℕ
  deriving DecidableEq, Repr

def Range.Has (r : Range) (x : ℕ) : Prop := r.start ≤ x ∧ x < r.start + r.length

def Range.Apart (r s : Range) : Prop :=
  r.start + r.length ≤ s.start ∨ s.start + s.length ≤ r.start

def Range.Within (r s : Range) : Prop :=
  s.start ≤ r.start ∧ r.start + r.length ≤ s.start + s.length

instance (r : Range) (x : ℕ) : Decidable (r.Has x) := inferInstanceAs (Decidable (_ ∧ _))
instance (r s : Range) : Decidable (r.Apart s) := inferInstanceAs (Decidable (_ ∨ _))
instance (r s : Range) : Decidable (r.Within s) := inferInstanceAs (Decidable (_ ∧ _))

section Ranges

variable {r s : Range} {x : ℕ}

theorem Range.Apart.symm (h : r.Apart s) : s.Apart r := Or.symm h

theorem Range.Apart.not_has (h : r.Apart s) (hr : r.Has x) : ¬ s.Has x := by
  simp only [Range.Apart, Range.Has] at *
  omega

theorem Range.Within.has (h : r.Within s) (hr : r.Has x) : s.Has x := by
  simp only [Range.Within, Range.Has] at *
  omega

end Ranges

variable {α : Type*} (m : Memory α)

def read (r : Range) : List α := (List.range r.length).map fun i => m (r.start + i)

/-- `n` cells from `src` on written to `dst`, all of them read before. -/
def copied (dst src n : ℕ) : Memory α := fun x =>
  if (⟨dst, n⟩ : Range).Has x then m (src + (x - dst)) else m x

def filled (dst n : ℕ) (value : α) : Memory α := fun x =>
  if (⟨dst, n⟩ : Range).Has x then value else m x

section Lemmas

variable {m} {m' : Memory α} {r : Range} {dst src n x : ℕ} {value : α}

theorem read_congr (h : ∀ x, r.Has x → m x = m' x) : read m r = read m' r := by
  apply List.map_congr_left
  intro i hi
  have hi := List.mem_range.mp hi
  exact h _ ⟨by omega, by omega⟩

theorem copied_outside (h : ¬ (⟨dst, n⟩ : Range).Has x) : copied m dst src n x = m x := if_neg h

theorem filled_outside (h : ¬ (⟨dst, n⟩ : Range).Has x) : filled m dst n value x = m x := if_neg h

theorem read_copied : read (copied m dst src n) ⟨dst, n⟩ = read m ⟨src, n⟩ := by
  apply List.map_congr_left
  intro i hi
  have hi : i < n := List.mem_range.mp hi
  have hhas : (⟨dst, n⟩ : Range).Has (dst + i) := ⟨by simp, by simpa using hi⟩
  rw [copied, if_pos hhas, Nat.add_sub_cancel_left]

theorem read_filled : read (filled m dst n value) ⟨dst, n⟩ = List.replicate n value := by
  apply List.eq_replicate_iff.mpr
  constructor
  · simp [read]
  · intro b hb
    obtain ⟨i, hi, rfl⟩ := List.mem_map.mp hb
    have hi : i < n := List.mem_range.mp hi
    exact if_pos ⟨by simp, by simpa using hi⟩

end Lemmas

end ByteRanges
