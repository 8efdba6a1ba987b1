import Mathlib.Data.List.Nodup
import Mathlib.Data.List.Perm.Basic
import Mathlib.Logic.Function.Basic

/-! Groups of threads that share a memory and meet at barriers. In each phase every thread
stores some cells, all threads meet, every thread updates its private state from the memory,
and all meet again. Between two barriers the stores take effect in any order. -/
namespace BarrierGroups

variable {ι γ V σ : Type*}

structure Program (ι γ V σ : Type*) where
  stores : ℕ → ι → List (γ × V)
  update : ℕ → ι → (γ → V) → σ → σ

variable [DecidableEq γ]

def store (mem : γ → V) (writes : List (γ × V)) : γ → V :=
  writes.foldl (fun mem w => Function.update mem w.1 w.2) mem

theorem store_other {mem : γ → V} {writes : List (γ × V)} {c : γ}
    (h : c ∉ writes.map Prod.fst) : store mem writes c = mem c := by
  induction writes generalizing mem with
  | nil => rfl
  | cons w writes ih =>
    rw [List.map_cons, List.mem_cons, not_or] at h
    rw [store, List.foldl_cons, ← store, ih h.2, Function.update_of_ne h.1]

theorem store_mem {mem : γ → V} {writes : List (γ × V)} {c : γ} {v : V}
    (distinct : (writes.map Prod.fst).Nodup) (h : (c, v) ∈ writes) : store mem writes c = v := by
  induction writes generalizing mem with
  | nil => cases h
  | cons w writes ih =>
    rw [List.map_cons, List.nodup_cons] at distinct
    rw [store, List.foldl_cons, ← store]
    rcases List.mem_cons.mp h with rfl | h
    · rw [store_other distinct.1, Function.update_self]
    · exact ih distinct.2 h

theorem store_forall {I : V → Prop} {mem : γ → V} {writes : List (γ × V)} (base : ∀ c, I (mem c))
    (stored : ∀ w ∈ writes, I w.2) (c : γ) : I (store mem writes c) := by
  induction writes generalizing mem with
  | nil => exact base c
  | cons w writes ih =>
    rw [store, List.foldl_cons, ← store]
    apply ih
    · intro d
      rcases eq_or_ne d w.1 with rfl | hd
      · rw [Function.update_self]
        exact stored w List.mem_cons_self
      · rw [Function.update_of_ne hd]
        exact base d
    · intro u hu
      exact stored u (List.mem_cons_of_mem _ hu)

variable (P : Program ι γ V σ) (threads : List ι)

/-- One way the stores of every phase can be ordered, from some initial memory. -/
structure Schedule where
  initial : γ → V
  order : ℕ → List (γ × V)
  complete : ∀ phase, (order phase).Perm (threads.flatMap (P.stores phase))

variable {P threads}

def Schedule.sequential (initial : γ → V) : Schedule P threads :=
  ⟨initial, fun phase => threads.flatMap (P.stores phase), fun _ => .refl _⟩

def Schedule.run (s : Schedule P threads) (start : ι → σ) : ℕ → (γ → V) × (ι → σ)
  | 0 => (s.initial, start)
  | n + 1 =>
    (store (s.run start n).1 (s.order n),
      fun t => P.update n t (store (s.run start n).1 (s.order n)) ((s.run start n).2 t))

/-- What a phase leaves in the cells it stores does not depend on the order. -/
theorem Schedule.stored (s : Schedule P threads) {phase : ℕ} {t : ι} {c : γ} {v : V}
    (distinct : ((threads.flatMap (P.stores phase)).map Prod.fst).Nodup) (ht : t ∈ threads)
    (h : (c, v) ∈ P.stores phase t) (mem : γ → V) : store mem (s.order phase) c = v := by
  apply store_mem
  · exact ((s.complete phase).map Prod.fst).nodup_iff.mpr distinct
  · exact (s.complete phase).mem_iff.mpr (List.mem_flatMap.mpr ⟨t, ht, h⟩)

theorem Schedule.private_invariant (s : Schedule P threads) (start : ι → σ) {t : ι}
    (I : ℕ → σ → Prop) (base : I 0 (start t))
    (step : ∀ phase mem st, I phase st →
      I (phase + 1) (P.update phase t (store mem (s.order phase)) st)) (n : ℕ) :
    I n ((s.run start n).2 t) := by
  induction n with
  | zero => exact base
  | succ n ih => exact step n _ _ ih

end BarrierGroups
