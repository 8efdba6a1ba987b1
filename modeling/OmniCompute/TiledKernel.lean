import OmniCompute.BarrierGroups
import OmniCompute.Codegen
import OmniCompute.TiledSums
import Mathlib.Algebra.Field.Defs
import Mathlib.Data.Int.DivMod

/-! What the matrix product kernels do when they run. The three generators emit one body with
different constants, shared arrays and endings; here it is, statement by statement, as a
program of a barrier-synchronized group. Index arithmetic does not overflow. -/
namespace TiledKernel

open BarrierGroups Codegen

/-- `sA[i][j]` of a declared array, or `sA[i * extent + j]` of a flat one. -/
inductive SharedLayout where
  | nested
  | flat
  deriving DecidableEq, Repr

inductive SharedArray where
  | sA
  | sB
  deriving DecidableEq, Repr

/-- A shared cell: the array and its index, with row 0 for a flat array. -/
abbrev Cell := SharedArray × ℤ × ℤ

inductive GlobalArray where
  | A
  | B
  deriving DecidableEq, Repr

/-- The constants an emitted kernel is written with, and its code behind the accumulation. -/
structure Kernel (V : Type) where
  tileM : ℤ
  tileN : ℤ
  tileK : ℤ
  layout : SharedLayout
  localX : ℕ
  localY : ℕ
  epilogue : V → V

structure Problem (V : Type) where
  M : ℕ
  N : ℕ
  K : ℕ
  A : ℤ → V
  B : ℤ → V

structure WorkGroup where
  x : ℕ
  y : ℕ
  deriving DecidableEq, Repr

structure Thread where
  x : ℕ
  y : ℕ
  deriving DecidableEq, Repr

section Body

variable {V : Type} [Semiring V] (kernel : Kernel V) (p : Problem V) (g : WorkGroup)

def row (t : Thread) : ℤ := g.y * kernel.tileM + t.y
def col (t : Thread) : ℤ := g.x * kernel.tileN + t.x

def cellA (i j : ℤ) : Cell :=
  match kernel.layout with
  | .nested => (.sA, i, j)
  | .flat => (.sA, 0, i * kernel.tileK + j)

def cellB (i j : ℤ) : Cell :=
  match kernel.layout with
  | .nested => (.sB, i, j)
  | .flat => (.sB, 0, i * kernel.tileN + j)

/-- The bound of the loop over `ph`; `/` of C truncates. -/
def phases : ℕ := ((p.K + kernel.tileK - 1).tdiv kernel.tileK).toNat

/-- The two guards of the cooperative load. -/
def InsideA (phase : ℕ) (t : Thread) : Prop :=
  row kernel g t < p.M ∧ phase * kernel.tileK + t.x < p.K

def InsideB (phase : ℕ) (t : Thread) : Prop :=
  phase * kernel.tileK + t.y < p.K ∧ col kernel g t < p.N

instance (phase : ℕ) (t : Thread) : Decidable (InsideA kernel p g phase t) :=
  inferInstanceAs (Decidable (_ ∧ _))

instance (phase : ℕ) (t : Thread) : Decidable (InsideB kernel p g phase t) :=
  inferInstanceAs (Decidable (_ ∧ _))

def indexA (phase : ℕ) (t : Thread) : ℤ := row kernel g t * p.K + phase * kernel.tileK + t.x
def indexB (phase : ℕ) (t : Thread) : ℤ := (phase * kernel.tileK + t.y) * p.N + col kernel g t

def loadA (phase : ℕ) (t : Thread) : V :=
  if InsideA kernel p g phase t then p.A (indexA kernel p g phase t) else 0

def loadB (phase : ℕ) (t : Thread) : V :=
  if InsideB kernel p g phase t then p.B (indexB kernel p g phase t) else 0

def globalReads (phase : ℕ) (t : Thread) : List (GlobalArray × ℤ) :=
  (if InsideA kernel p g phase t then [(.A, indexA kernel p g phase t)] else []) ++
    (if InsideB kernel p g phase t then [(.B, indexB kernel p g phase t)] else [])

/-- `sA[ty][tx] = …; sB[ty][tx] = …;` -/
def loads (phase : ℕ) (t : Thread) : List (Cell × V) :=
  [(cellA kernel t.y t.x, loadA kernel p g phase t),
    (cellB kernel t.y t.x, loadB kernel p g phase t)]

/-- The pairs of cells `sum += sA[ty][k] * sB[k][tx]` reads, for `k` from 0 below `tile_k`. -/
def multiplyReads (t : Thread) : List (Cell × Cell) :=
  (List.range kernel.tileK.toNat).map fun (k : ℕ) => (cellA kernel t.y k, cellB kernel k t.x)

def multiply (t : Thread) (mem : Cell → V) (sum : V) : V :=
  (multiplyReads kernel t).foldl (fun sum c => sum + mem c.1 * mem c.2) sum

/-- One group of the kernel: load, barrier, multiply, barrier. The private state is `sum`. -/
def groupProgram : BarrierGroups.Program Thread Cell V V where
  stores := loads kernel p g
  update _ t := multiply kernel t

def groupThreads : List Thread :=
  (List.range kernel.localY).flatMap fun y => (List.range kernel.localX).map fun x => ⟨x, y⟩

/-- The last block: a thread inside `C` stores one element. -/
def finish (t : Thread) (sum : V) : Option (ℤ × V) :=
  if row kernel g t < p.M ∧ col kernel g t < p.N then
    some (row kernel g t * p.N + col kernel g t, kernel.epilogue sum)
  else none

end Body

section Launch

variable {V : Type} [Semiring V] (kernel : Kernel V) (p : Problem V)

/-- `ceil(N / tile_n) x ceil(M / tile_m)` groups. -/
def gridX : ℕ := ((p.N + kernel.tileN - 1) / kernel.tileN).toNat
def gridY : ℕ := ((p.M + kernel.tileM - 1) / kernel.tileM).toNat

def InGrid (g : WorkGroup) : Prop := g.x < gridX kernel p ∧ g.y < gridY kernel p

def Runs (g : WorkGroup) (t : Thread) : Prop := InGrid kernel p g ∧ t ∈ groupThreads kernel

/-- How the shared stores of every group happen to be ordered, and what memory held before. -/
abbrev Execution := ∀ g : WorkGroup, Schedule (groupProgram kernel p g) (groupThreads kernel)

variable {kernel p}

def Execution.accumulated (e : Execution kernel p) (g : WorkGroup) (t : Thread) : V :=
  ((e g).run (fun _ => 0) (phases kernel p)).2 t

def Execution.stored (e : Execution kernel p) (g : WorkGroup) (t : Thread) : Option (ℤ × V) :=
  finish kernel p g t (e.accumulated g t)

theorem stored_value {e : Execution kernel p} {g : WorkGroup} {t : Thread} {i : ℤ} {v : V}
    (h : e.stored g t = some (i, v)) : v = kernel.epilogue (e.accumulated g t) := by
  rw [Execution.stored, finish] at h
  split at h
  · exact (Prod.mk.inj (Option.some.inj h)).2.symm
  · cases h

def product (p : Problem V) (r c : ℕ) : V :=
  ∑ k ∈ Finset.range p.K, p.A (r * p.K + k) * p.B (k * p.N + c)

def extent (p : Problem V) : GlobalArray → ℕ
  | .A => p.M * p.K
  | .B => p.K * p.N

variable (kernel p)

/-- Every shared cell a thread reads in a phase is stored in that phase by its group. -/
def FreshReads : Prop :=
  ∀ g t, Runs kernel p g t → ∀ phase < phases kernel p, ∀ c ∈ multiplyReads kernel t,
    (∃ u ∈ groupThreads kernel, c.1 ∈ (loads kernel p g phase u).map Prod.fst) ∧
    (∃ u ∈ groupThreads kernel, c.2 ∈ (loads kernel p g phase u).map Prod.fst)

/-- Every element of `C` is written, with the element of the product. -/
structure WritesProduct : Prop where
  written : ∀ (e : Execution kernel p) (r c : ℕ), r < p.M → c < p.N →
    ∃ g t v, Runs kernel p g t ∧ e.stored g t = some ((r : ℤ) * p.N + c, v)
  exact : ∀ (e : Execution kernel p) (g : WorkGroup) (t : Thread) (r c : ℕ) (v : V),
    Runs kernel p g t → r < p.M → c < p.N → e.stored g t = some ((r : ℤ) * p.N + c, v) →
    v = product p r c
  fresh : FreshReads kernel p

/-- Every element is written by exactly one thread, and nothing else is touched. -/
structure WritesOnce : Prop extends WritesProduct kernel p where
  once : ∀ (e : Execution kernel p) (r c : ℕ), r < p.M → c < p.N →
    ∃! gt : WorkGroup × Thread, Runs kernel p gt.1 gt.2 ∧
      ∃ v, e.stored gt.1 gt.2 = some ((r : ℤ) * p.N + c, v)
  confined : ∀ (e : Execution kernel p) (g : WorkGroup) (t : Thread) (i : ℤ) (v : V),
    Runs kernel p g t → e.stored g t = some (i, v) →
    ∃ r c : ℕ, r < p.M ∧ c < p.N ∧ i = r * p.N + c
  readsInside : ∀ g t, Runs kernel p g t → ∀ phase < phases kernel p,
    ∀ read ∈ globalReads kernel p g phase t,
      0 ≤ read.2 ∧ read.2 < (extent p read.1 : ℤ)

end Launch

section Endings

def Kernel.ofTemplate {V : Type} (k : MatMulKernel) (layout : SharedLayout)
    (epilogue : V → V) : Kernel V where
  tileM := k.tileM.toInt
  tileN := k.tileN.toInt
  tileK := k.tileK.toInt
  layout := layout
  localX := k.localSize.x.toNat
  localY := k.localSize.y.toNat
  epilogue := epilogue

structure MathLibrary (V : Type) where
  erf : V → V
  exp : V → V

variable {V : Type} [Field V]

/-- The literal `0.5`. -/
def half : V := 1 / 2

/-- The literal `0.70710678`, which is 1/√2 to the precision of an `f32`. -/
def rsqrtTwo : V := 70710678 / 100000000

end Endings

end TiledKernel
