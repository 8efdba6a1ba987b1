import Mathlib.Data.Finset.Dedup
import Mathlib.Data.Finset.Union
import Mathlib.Data.List.Infix
import Mathlib.Logic.Function.Basic

/-! Straight-line code over named values: each instruction reads some names and assigns one.
Execution, the effect of replacing instructions one by one, and backward elimination of
those that nothing live reads. -/
namespace StraightLine

structure Code (α ν V : Type*) where
  dst : α → ν
  src : α → List ν
  sem : α → List V → V

variable {α ν V : Type*} [DecidableEq ν] (C : Code α ν V)

def Code.value (env : ν → V) (i : α) : V := C.sem i ((C.src i).map env)

def Code.assign (env : ν → V) (i : α) : ν → V := Function.update env (C.dst i) (C.value env i)

def Code.exec (env : ν → V) (code : List α) : ν → V := code.foldl C.assign env

@[simp] theorem exec_nil (env : ν → V) : C.exec env [] = env := rfl

@[simp] theorem exec_cons (env : ν → V) (i : α) (code : List α) :
    C.exec env (i :: code) = C.exec (C.assign env i) code := rfl

theorem exec_append (env : ν → V) (front back : List α) :
    C.exec env (front ++ back) = C.exec (C.exec env front) back := by
  simp [Code.exec]

theorem exec_snoc (env : ν → V) (code : List α) (i : α) :
    C.exec env (code ++ [i]) = C.assign (C.exec env code) i := exec_append C env code [i]

@[simp] theorem assign_dst (env : ν → V) (i : α) : C.assign env i (C.dst i) = C.value env i := by
  simp [Code.assign]

theorem assign_other {env : ν → V} {i : α} {x : ν} (h : x ≠ C.dst i) :
    C.assign env i x = env x := by
  simp [Code.assign, h]

omit [DecidableEq ν] in
theorem value_congr {env env' : ν → V} {i : α} (h : ∀ x ∈ C.src i, env x = env' x) :
    C.value env i = C.value env' i := by
  rw [Code.value, Code.value, List.map_congr_left h]

theorem exec_other {code : List α} {env : ν → V} {x : ν} (h : x ∉ code.map C.dst) :
    C.exec env code x = env x := by
  induction code generalizing env with
  | nil => rfl
  | cons i code ih =>
    rw [List.map_cons, List.mem_cons, not_or] at h
    rw [exec_cons, ih h.2, assign_other C h.1]

theorem exec_front {front back : List α} {env : ν → V} {x : ν} (h : x ∉ back.map C.dst) :
    C.exec env (front ++ back) x = C.exec env front x := by
  rw [exec_append, exec_other C h]

theorem exec_map {f : α → α} (hd : ∀ i, C.dst (f i) = C.dst i) (hs : ∀ i, C.src (f i) = C.src i)
    (hm : ∀ i, C.sem (f i) = C.sem i) (env : ν → V) (code : List α) :
    C.exec env (code.map f) = C.exec env code := by
  induction code generalizing env with
  | nil => rfl
  | cons i code ih =>
    have hi : C.assign env (f i) = C.assign env i := by
      rw [Code.assign, Code.assign, Code.value, Code.value, hd, hs, hm]
    rw [List.map_cons, exec_cons, exec_cons, hi, ih]

section Elimination

/-- `kept` is left of the code when instructions are dropped from its end to its start,
each one only if nothing kept behind it reads its target; `live` is what `kept` reads. -/
inductive Pruned : List α → List α → Finset ν → Prop
  | nil : Pruned [] [] ∅
  | keep {i : α} {code kept : List α} {live : Finset ν} :
      Pruned code kept live → Pruned (i :: code) (i :: kept) (live ∪ (C.src i).toFinset)
  | drop {i : α} {code kept : List α} {live : Finset ν} :
      C.dst i ∉ live → Pruned code kept live → Pruned (i :: code) kept live

variable {C}

theorem Pruned.sublist {code kept : List α} {live : Finset ν} (h : Pruned C code kept live) :
    kept.Sublist code := by
  induction h with
  | nil => exact List.Sublist.refl []
  | keep _ ih => exact ih.cons_cons _
  | drop _ _ ih => exact ih.cons _

/-- What is kept computes what it computed before, from any start that agrees on `live`. -/
theorem Pruned.exec {code kept : List α} {live : Finset ν} (h : Pruned C code kept live)
    (distinct : (code.map C.dst).Nodup) {env env' : ν → V} (agree : ∀ x ∈ live, env x = env' x) :
    ∀ i ∈ kept, C.exec env' kept (C.dst i) = C.exec env code (C.dst i) := by
  induction h generalizing env env' with
  | nil => simp
  | @keep i code kept live hp ih =>
    rw [List.map_cons, List.nodup_cons] at distinct
    have hv : C.value env i = C.value env' i := by
      apply value_congr
      intro x hx
      exact agree x (by simp [hx])
    have hagree : ∀ x, x ∈ live ∨ x = C.dst i → C.assign env i x = C.assign env' i x := by
      intro x hx
      by_cases hxi : x = C.dst i
      · rw [hxi, assign_dst, assign_dst, hv]
      · rw [assign_other C hxi, assign_other C hxi]
        have hl : x ∈ live := hx.resolve_right hxi
        exact agree x (by simp [hl])
    intro j hj
    rw [exec_cons, exec_cons]
    rcases List.mem_cons.mp hj with rfl | hj
    · have hnot : C.dst j ∉ kept.map C.dst :=
        fun hin => distinct.1 ((hp.sublist.map C.dst).subset hin)
      rw [exec_other C distinct.1, exec_other C hnot]
      exact (hagree _ (Or.inr rfl)).symm
    · exact ih distinct.2 (fun x hx => hagree x (Or.inl hx)) j hj
  | @drop i code kept live hdead hp ih =>
    rw [List.map_cons, List.nodup_cons] at distinct
    rw [exec_cons]
    apply ih distinct.2
    intro x hx
    have hxi : x ≠ C.dst i := fun he => hdead (he ▸ hx)
    rw [assign_other C hxi]
    exact agree x hx

end Elimination

end StraightLine
