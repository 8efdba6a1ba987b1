import Mathlib.Data.Finset.Dedup
import Mathlib.Data.Finset.Insert
import Mathlib.Data.Finset.Lattice.Basic
import Mathlib.Data.List.Nodup
import Mathlib.Data.List.Perm.Subperm
import Mathlib.Logic.Relation

/-! Backward sweeps over straight-line code. From the last instruction to the first, one is
kept if it is a root or if another that is kept behind it reads its target. Where names are
defined before they are read, one sweep keeps exactly what the roots depend on. -/
namespace BackwardSweep

variable {α ν : Type*} (dst : α → ν) (src : α → List ν) (root : α → Prop)

def Reads (code : List α) (i j : α) : Prop := j ∈ code ∧ dst j ∈ src i

/-- A chain of reads, possibly empty, leads from a root to the instruction. -/
def Needed (code : List α) (i : α) : Prop :=
  ∃ r ∈ code, root r ∧ Relation.ReflTransGen (Reads dst src code) r i

def DefinedFirst (code : List α) : Prop :=
  ∀ front i back, code = front ++ i :: back → ∀ j ∈ i :: back, dst j ∉ src i

variable {dst src root} {code front back : List α} {i j : α}

theorem Needed.mem (h : Needed dst src root code i) : i ∈ code := by
  obtain ⟨r, hr, _, hchain⟩ := h
  cases hchain with
  | refl => exact hr
  | tail _ hlast => exact hlast.1

theorem needed_root (hi : i ∈ code) (h : root i) : Needed dst src root code i :=
  ⟨i, hi, h, .refl⟩

theorem Needed.read (h : Needed dst src root code i) (hj : j ∈ code) (hread : dst j ∈ src i) :
    Needed dst src root code j := by
  obtain ⟨r, hr, hroot, hchain⟩ := h
  exact ⟨r, hr, hroot, hchain.tail ⟨hj, hread⟩⟩

theorem Needed.cases (h : Needed dst src root code i) :
    root i ∨ ∃ j, Needed dst src root code j ∧ dst i ∈ src j := by
  obtain ⟨r, hr, hroot, hchain⟩ := h
  cases hchain with
  | refl => exact .inl hroot
  | tail hbefore hlast => exact .inr ⟨_, ⟨r, hr, hroot, hbefore⟩, hlast.2⟩

theorem DefinedFirst.reader (h : DefinedFirst dst src code) (heq : code = front ++ i :: back)
    (hj : j ∈ code) (hread : dst i ∈ src j) : j ∈ back := by
  obtain ⟨before, behind, hsplit⟩ := List.append_of_mem hj
  have hnot : i ∉ j :: behind := fun hi => h before j behind hsplit i hi hread
  rw [hsplit] at heq
  rcases List.append_eq_append_iff.mp heq with ⟨mid, hfront, hmid⟩ | ⟨mid, hfront, hmid⟩
  · exact absurd (hmid ▸ List.mem_append_right mid List.mem_cons_self) hnot
  · rcases mid with _ | ⟨k, mid⟩
    · rw [List.nil_append] at hmid
      exact absurd (hmid ▸ List.mem_cons_self) hnot
    · rw [List.cons_append, List.cons.injEq] at hmid
      exact hmid.2 ▸ List.mem_append_right mid List.mem_cons_self

theorem all_needed (h : DefinedFirst dst src code)
    (hread : ∀ i ∈ code, root i ∨ ∃ j ∈ code, dst i ∈ src j) :
    ∀ i ∈ code, Needed dst src root code i := by
  have hback : ∀ front back, code = front ++ back → ∀ i ∈ back, Needed dst src root code i := by
    intro front back
    induction back generalizing front with
    | nil =>
      intro _ i hi
      cases hi
    | cons k back ih =>
      intro heq i hi
      have hlater := ih (front ++ [k]) (by simp [heq])
      rcases List.mem_cons.mp hi with rfl | hi
      · have hmem : i ∈ code := by simp [heq]
        rcases hread i hmem with hroot | ⟨j, hj, hij⟩
        · exact needed_root hmem hroot
        · exact (hlater j (h.reader heq hj hij)).read hmem hij
      · exact hlater i hi
  exact hback [] code rfl

section Sweep

variable (dst src root) [DecidableEq ν] [DecidablePred root]

/-- What is kept so far, and the names it reads. -/
def sweepStep (i : α) (acc : List α × Finset ν) : List α × Finset ν :=
  if root i ∨ dst i ∈ acc.2 then (i :: acc.1, acc.2 ∪ (src i).toFinset) else acc

def sweep (code : List α) : List α × Finset ν := code.foldr (sweepStep dst src root) ([], ∅)

variable {dst src root}

theorem sweep_cons (i : α) (code : List α) :
    sweep dst src root (i :: code) = sweepStep dst src root i (sweep dst src root code) := rfl

theorem sweep_sublist (code : List α) : (sweep dst src root code).1.Sublist code := by
  induction code with
  | nil => exact List.Sublist.refl _
  | cons i code ih =>
    rw [sweep_cons, sweepStep]
    split
    · exact ih.cons_cons _
    · exact ih.cons _

theorem mem_sweep_names {x : ν} :
    x ∈ (sweep dst src root code).2 ↔ ∃ i ∈ (sweep dst src root code).1, x ∈ src i := by
  induction code with
  | nil => simp [sweep]
  | cons i code ih =>
    rw [sweep_cons, sweepStep]
    split
    · simp only [Finset.mem_union, List.mem_toFinset, List.mem_cons, exists_eq_or_imp, ih]
      exact or_comm
    · exact ih

theorem mem_sweep_cases (h : i ∈ (sweep dst src root code).1) :
    root i ∨ ∃ j ∈ (sweep dst src root code).1, dst i ∈ src j := by
  induction code with
  | nil => cases h
  | cons k code ih =>
    rw [sweep_cons, sweepStep] at h ⊢
    split at h
    · next hk =>
      rw [if_pos hk]
      have kept : (root i ∨ ∃ j ∈ (sweep dst src root code).1, dst i ∈ src j) →
          root i ∨ ∃ j ∈ k :: (sweep dst src root code).1, dst i ∈ src j := by
        rintro (hroot | ⟨j, hj, hread⟩)
        · exact .inl hroot
        · exact .inr ⟨j, List.mem_cons_of_mem _ hj, hread⟩
      rcases List.mem_cons.mp h with rfl | hi
      · exact kept (hk.imp_right mem_sweep_names.mp)
      · exact kept (ih hi)
    · next hk =>
      rw [if_neg hk]
      exact ih h

/-- The invariant of the sweep: of the part behind it, it has kept what is needed in all. -/
theorem mem_sweep_back (h : DefinedFirst dst src code) (heq : code = front ++ back) :
    i ∈ (sweep dst src root back).1 ↔ i ∈ back ∧ Needed dst src root code i := by
  induction back generalizing front i with
  | nil => simp [sweep]
  | cons k back ih =>
    have ih := fun i => @ih (front ++ [k]) i (by simp [heq])
    have hk : root k ∨ dst k ∈ (sweep dst src root back).2 ↔ Needed dst src root code k := by
      have hmem : k ∈ code := by simp [heq]
      rw [mem_sweep_names]
      constructor
      · rintro (hroot | ⟨j, hj, hread⟩)
        · exact needed_root hmem hroot
        · exact ((ih j).mp hj).2.read hmem hread
      · intro hneeded
        rcases hneeded.cases with hroot | ⟨j, hj, hread⟩
        · exact .inl hroot
        · exact .inr ⟨j, (ih j).mpr ⟨h.reader heq hj.mem hread, hj⟩, hread⟩
    rw [sweep_cons, sweepStep]
    split
    · rename_i hkept
      rw [List.mem_cons, List.mem_cons, ih]
      constructor
      · rintro (rfl | ⟨hi, hneeded⟩)
        · exact ⟨.inl rfl, hk.mp hkept⟩
        · exact ⟨.inr hi, hneeded⟩
      · rintro ⟨rfl | hi, hneeded⟩
        · exact .inl rfl
        · exact .inr ⟨hi, hneeded⟩
    · rename_i hdropped
      rw [ih, List.mem_cons]
      constructor
      · rintro ⟨hi, hneeded⟩
        exact ⟨.inr hi, hneeded⟩
      · rintro ⟨rfl | hi, hneeded⟩
        · exact absurd (hk.mpr hneeded) hdropped
        · exact ⟨hi, hneeded⟩

theorem mem_sweep (h : DefinedFirst dst src code) :
    i ∈ (sweep dst src root code).1 ↔ Needed dst src root code i := by
  rw [mem_sweep_back h (List.nil_append code).symm]
  exact ⟨And.right, fun hi => ⟨hi.mem, hi⟩⟩

theorem sweep_eq_self_iff (h : DefinedFirst dst src code) (nodup : code.Nodup) :
    (sweep dst src root code).1 = code ↔ ∀ i ∈ code, Needed dst src root code i := by
  constructor
  · intro heq i hi
    exact (mem_sweep h).mp (heq.symm ▸ hi)
  · intro hall
    have hsub : code ⊆ (sweep dst src root code).1 := fun i hi => (mem_sweep h).mpr (hall i hi)
    exact (sweep_sublist code).eq_of_length_le (nodup.subperm hsub).length_le

theorem sweep_map {β : Type*} {dst' : β → ν} {src' : β → List ν} {root' : β → Prop}
    [DecidablePred root'] {f : α → β} (hdst : ∀ i, dst' (f i) = dst i)
    (hsrc : ∀ i, src' (f i) = src i) (hroot : ∀ i, root' (f i) ↔ root i) (code : List α) :
    sweep dst' src' root' (code.map f) =
      ((sweep dst src root code).1.map f, (sweep dst src root code).2) := by
  induction code with
  | nil => rfl
  | cons i code ih =>
    rw [List.map_cons, sweep_cons, sweep_cons, ih, sweepStep, sweepStep]
    simp only [hdst, hsrc, hroot]
    split <;> rfl

end Sweep

end BackwardSweep
