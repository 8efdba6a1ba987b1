import OmniCompute.RowMajor
import OmniCompute.RustValues
import Mathlib.Algebra.Order.Ring.Rat

/-! Tensor obfuscation with a private invertible matrix. An `f32` is read as an exact
rational, and an index outside its buffer is a panic. Buffer sizes and indices into tensors
are reduced by `usize`, which is `id` in unbounded arithmetic. -/
namespace Obfuscator

open RustValues RowMajor

structure ObfuscationMatrix where
  dim : ℕ
  data : List ℚ
  inverse : List ℚ
  deriving DecidableEq

def outOfBounds : Failure := .panic "index out of bounds"

def read (xs : List ℚ) (i : ℕ) : Result ℚ := readAt outOfBounds xs i

def write (xs : List ℚ) (i : ℕ) (x : ℚ) : Result (List ℚ) := writeAt outOfBounds xs i x

section Products

/-- The triple loop of both directions: `tensor` times one of the two matrices. -/
def product (usize : ℕ → ℕ) (matrix : List ℚ) (dim : ℕ) (tensor : List ℚ) (rows : ℕ) :
    Result (List ℚ) :=
  forRange 0 rows (fun output r =>
    forRange 0 dim (fun output col => do
      let sum ← forRange 0 dim (fun sum k => do
        let x ← read tensor (usize (usize (r * dim) + k))
        let y ← read matrix (usize (usize (k * dim) + col))
        return sum + x * y) 0
      write output (usize (usize (r * dim) + col)) sum) output)
    (List.replicate (usize (rows * dim)) 0)

/-- `bail!` unless the tensor has `rows * dim` entries. -/
def shapeChecked (usize : ℕ → ℕ) (context : String) (dim : ℕ) (tensor : List ℚ) (rows : ℕ)
    (body : Result (List ℚ)) : Result (List ℚ) :=
  if tensor.length ≠ usize (rows * dim) then
    .error (.error ("Obfuscator: shape mismatch" ++ context ++ ". Expected tensor of size " ++
      toString (usize (rows * dim)) ++ ", got " ++ toString tensor.length))
  else body

def obfuscate (usize : ℕ → ℕ) (m : ObfuscationMatrix) (tensor : List ℚ) (rows : ℕ) :
    Result (List ℚ) :=
  shapeChecked usize "" m.dim tensor rows (product usize m.data m.dim tensor rows)

def restore (usize : ℕ → ℕ) (m : ObfuscationMatrix) (obfuscatedTensor : List ℚ) (rows : ℕ) :
    Result (List ℚ) :=
  shapeChecked usize " during recovery" m.dim obfuscatedTensor rows
    (product usize m.inverse m.dim obfuscatedTensor rows)

end Products

section Inversion

def augment (matrix : List ℚ) (dim : ℕ) : Result (List ℚ) :=
  forRange 0 dim (fun aug i => do
    let aug ← forRange 0 dim (fun aug j => do
      let x ← read matrix (i * dim + j)
      write aug (i * (2 * dim) + j) x) aug
    write aug (i * (2 * dim) + dim + i) 1) (List.replicate (dim * dim * 2) 0)

/-- The row from `i` on with the largest entry in column `i`; the first of them on a tie. -/
def findPivotRow (aug : List ℚ) (dim i : ℕ) : Result ℕ :=
  forRange (i + 1) dim (fun pivotRow r => do
    let candidate ← read aug (r * (2 * dim) + i)
    let best ← read aug (pivotRow * (2 * dim) + i)
    return if |candidate| > |best| then r else pivotRow) i

def swapRows (aug : List ℚ) (dim i pivotRow : ℕ) : Result (List ℚ) :=
  if pivotRow ≠ i then
    forRange 0 (2 * dim) (fun aug col => do
      let temp ← read aug (i * (2 * dim) + col)
      let other ← read aug (pivotRow * (2 * dim) + col)
      let aug ← write aug (i * (2 * dim) + col) other
      write aug (pivotRow * (2 * dim) + col) temp) aug
  else .ok aug

def scalePivotRow (aug : List ℚ) (dim i : ℕ) : Result (List ℚ) := do
  let factor ← read aug (i * (2 * dim) + i)
  forRange 0 (2 * dim) (fun aug col => do
    let x ← read aug (i * (2 * dim) + col)
    write aug (i * (2 * dim) + col) (x / factor)) aug

def eliminateOthers (aug : List ℚ) (dim i : ℕ) : Result (List ℚ) :=
  forRange 0 dim (fun aug r =>
    if r ≠ i then do
      let scale ← read aug (r * (2 * dim) + i)
      forRange 0 (2 * dim) (fun aug col => do
        let pivot ← read aug (i * (2 * dim) + col)
        let x ← read aug (r * (2 * dim) + col)
        write aug (r * (2 * dim) + col) (x - scale * pivot)) aug
    else .ok aug) aug

/-- `1e-6` -/
def singularBelow : ℚ := 1 / 1000000

/-- One round of the main loop; `none` is the early `return None`. -/
def pivotStep (dim : ℕ) (aug : List ℚ) (i : ℕ) : Result (Option (List ℚ)) := do
  let pivotRow ← findPivotRow aug dim i
  let lead ← read aug (pivotRow * (2 * dim) + i)
  if |lead| < singularBelow then return none
  let aug ← swapRows aug dim i pivotRow
  let aug ← scalePivotRow aug dim i
  let aug ← eliminateOthers aug dim i
  return some aug

def sweepRound (dim : ℕ) : Option (List ℚ) → ℕ → Result (Option (List ℚ))
  | none, _ => .ok none
  | some aug, i => pivotStep dim aug i

def extractInverse (aug : List ℚ) (dim : ℕ) : Result (List ℚ) :=
  forRange 0 dim (fun inv i =>
    forRange 0 dim (fun inv j => do
      let x ← read aug (i * (2 * dim) + dim + j)
      write inv (i * dim + j) x) inv) (List.replicate (dim * dim) 0)

def invert (matrix : List ℚ) (dim : ℕ) : Result (Option (List ℚ)) := do
  let aug ← augment matrix dim
  let swept ← forRange 0 dim (sweepRound dim) (some aug)
  match swept with
  | none => return none
  | some aug => return some (← extractInverse aug dim)

end Inversion

section Generation

/-- The rounded random entry drawn for each row and column. -/
abbrev Draw := ℕ → ℕ → ℤ

/-- `gen_range(-5.0..5.0).round()` -/
def Draw.InRange (draw : Draw) : Prop := ∀ i j, -5 ≤ draw i j ∧ draw i j ≤ 5

/-- One candidate: random entries, with a dominant offset on the diagonal. -/
def candidate (dim : ℕ) (draw : Draw) : Result (List ℚ) :=
  forRange 0 dim (fun data i => do
    let data ← forRange 0 dim (fun data j => write data (i * dim + j) (draw i j)) data
    let x ← read data (i * dim + i)
    write data (i * dim + i) (x + 15)) (List.replicate (dim * dim) 0)

/-- The retry loop over the draws it makes; `none` while no candidate was invertible. -/
def generate (dim : ℕ) : List Draw → Result (Option ObfuscationMatrix)
  | [] => .ok none
  | draw :: draws => do
    let data ← candidate dim draw
    match ← invert data dim with
    | some inverse => return some ⟨dim, data, inverse⟩
    | none => generate dim draws

/-- A matrix that some sequence of draws makes `generate` return. -/
def CanGenerate (m : ObfuscationMatrix) : Prop :=
  ∃ draws : List Draw, (∀ draw ∈ draws, draw.InRange) ∧ generate m.dim draws = .ok (some m)

end Generation

end Obfuscator
