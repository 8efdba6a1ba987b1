import Mathlib.Logic.Function.Basic

/-! Folds whose step loses nothing. Such a fold carries a difference in its state through to the
end, and so it tells two lists apart that differ in one place. -/
namespace LosslessFolds

open Function

variable {σ α : Type*}

/-- Neither the state nor the letter is lost in a step, if the other is known. -/
structure Lossless (step : σ → α → σ) : Prop where
  state : ∀ a, Injective fun s => step s a
  letter : ∀ s, Injective (step s)

variable {step : σ → α → σ}

theorem Lossless.foldl_injective (h : Lossless step) (xs : List α) :
    Injective fun s => xs.foldl step s := by
  induction xs with
  | nil => exact injective_id
  | cons a xs ih => exact ih.comp (h.state a)

theorem Lossless.foldl_eq_iff (h : Lossless step) (start : σ) (front back : List α) (a b : α) :
    (front ++ [a] ++ back).foldl step start = (front ++ [b] ++ back).foldl step start ↔ a = b := by
  simp only [List.foldl_append, List.foldl_cons, List.foldl_nil]
  constructor
  · intro heq
    exact h.letter _ (h.foldl_injective back heq)
  · intro heq
    rw [heq]

end LosslessFolds
