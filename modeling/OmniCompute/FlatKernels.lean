import OmniCompute.LaunchShapes
import OmniCompute.ThreadMaps

/-! The kernels with one thread for each element: `Relu`, `Add` and the fallback of an opaque
operation. Their texts differ in how a thread computes and checks its index. -/
namespace FlatKernels

open RustValues OmniDialect Codegen BackEnds LaunchShapes EventRuns ThreadMaps

inductive FlatKernel where
  | relu
  | add
  | fallback
  deriving DecidableEq

def flat : KernelSource → Option FlatKernel
  | .matMul _ => none
  | .relu _ => some .relu
  | .add _ => some .add
  | .fallback _ => some .fallback

inductive Buffer where
  | first
  | second
  | output
  deriving DecidableEq

abbrev Address := Buffer × ℤ

/-- A launch that the driver accepts: no dimension is empty, and 32 bits number the threads
of a row. -/
structure Launch where
  grid : BlockSize
  block : BlockSize
  positive : 0 < grid.x ∧ 0 < grid.y ∧ 0 < grid.z ∧ 0 < block.x ∧ 0 < block.y ∧ 0 < block.z
  addressable : grid.x.toNat * block.x.toNat ≤ 2 ^ 32

def Launch.width (l : Launch) : ℕ := l.grid.x.toNat * l.block.x.toNat

def Within (bounds i : BlockSize) : Prop := i.x < bounds.x ∧ i.y < bounds.y ∧ i.z < bounds.z

structure Thread (l : Launch) where
  blockIdx : BlockSize
  threadIdx : BlockSize
  inGrid : Within l.grid blockIdx
  inBlock : Within l.block threadIdx
  deriving DecidableEq

/-- `blockIdx.x * blockDim.x + threadIdx.x`, which is also the x of the position in the grid. -/
def Thread.position {l : Launch} (t : Thread l) : UInt32 :=
  t.blockIdx.x * l.block.x + t.threadIdx.x

/-- `int idx = ..; if (idx < n)` -/
def signedIndex (position : UInt32) (n : Int32) : Option ℤ :=
  if position.toInt32 < n then some position.toInt32.toInt else none

/-- `uint idx; if (idx < uint(n))` -/
def unsignedIndex (position : UInt32) (n : Int32) : Option ℤ :=
  if position < n.toUInt32 then some position.toNat else none

def flatIndex : BackEnd → UInt32 → Int32 → Option ℤ
  | .amdGpu => signedIndex
  | .metal => unsignedIndex
  | .spirv => signedIndex

variable {V : Type} [Field V] [LinearOrder V]

def inputs : FlatKernel → List Buffer
  | .relu => [.first]
  | .add => [.first, .second]
  | .fallback => [.first]

def compute : BackEnd → FlatKernel → List V → V
  | .amdGpu, .relu, [x] => if 0 < x then x else 0
  | .metal, .relu, [x] => max x 0
  | .spirv, .relu, [x] => max x 0
  | _, .add, [a, b] => a + b
  | _, .fallback, [x] => x
  | _, _, _ => 0

def task (b : BackEnd) (k : FlatKernel) (n : Int32) {l : Launch} (t : Thread l) :
    Option (Task Address V) :=
  (flatIndex b t.position n).map fun idx =>
    ⟨(inputs k).map fun buffer => (buffer, idx), (.output, idx), compute b k⟩

def value (memory : Address → V) (i : ℤ) : FlatKernel → V
  | .relu => max (memory (.first, i)) 0
  | .add => memory (.first, i) + memory (.second, i)
  | .fallback => memory (.first, i)

def InBounds (n : Int32) (a : Address) : Prop := 0 ≤ a.2 ∧ a.2 < n.toInt

/-- In whatever order the threads run, no access leaves the arrays, every element of the output
is computed, and nothing else changes. -/
structure RunsExactly (V : Type) [Field V] [LinearOrder V] (b : BackEnd) (k : FlatKernel)
    (l : Launch) (n : Int32) : Prop where
  inBounds : ∀ (t : Thread l) (T : Task Address V), task b k n t = some T →
    InBounds n T.target ∧ ∀ a ∈ T.sources, InBounds n a
  computes : ∀ (memory : Address → V) (turns : List (Thread l)),
    Served (task (V := V) b k n) turns →
    ∀ i, 0 ≤ i → i < n.toInt →
      ((threads (task b k n) memory).after turns).memory (.output, i) = value memory i k
  frame : ∀ (memory : Address → V) (turns : List (Thread l)),
    Served (task (V := V) b k n) turns →
    ∀ a, ¬ (a.1 = .output ∧ InBounds n a) →
      ((threads (task b k n) memory).after turns).memory a = memory a

/-- The grid covers the elements, and an index that wraps around is not taken for one. -/
def Fits (b : BackEnd) (l : Launch) (n : Int32) : Prop :=
  n.toInt ≤ l.width ∧
    match b with
    | .metal => 0 ≤ n.toInt
    | .amdGpu | .spirv => l.width ≤ 2 ^ 31 ∨ n = Int32.minValue

section Tasks

variable {b : BackEnd} {k : FlatKernel} {n : Int32} {l : Launch}

theorem task_some {t : Thread l} {T : Task Address V} (h : task b k n t = some T) :
    ∃ idx, flatIndex b t.position n = some idx ∧ T =
      ⟨(inputs k).map fun buffer => (buffer, idx), (.output, idx), compute b k⟩ := by
  obtain ⟨idx, hidx, rfl⟩ := Option.map_eq_some_iff.1 h
  exact ⟨idx, hidx, rfl⟩

theorem undisturbed (memory : Address → V) : Undisturbed (task b k n (l := l)) memory := by
  constructor
  · intro t u T U ht hu _ hmem
    obtain ⟨idx, -, rfl⟩ := task_some ht
    obtain ⟨jdx, -, rfl⟩ := task_some hu
    cases k <;> simp [inputs] at hmem
  · intro t u T U ht hu hsame
    obtain ⟨idx, -, rfl⟩ := task_some ht
    obtain ⟨jdx, -, rfl⟩ := task_some hu
    obtain rfl : idx = jdx := congrArg Prod.snd hsame
    rfl

theorem outcome_value {idx : ℤ} {T : Task Address V} (memory : Address → V)
    (h : T = ⟨(inputs k).map fun buffer => (buffer, idx), (.output, idx), compute b k⟩) :
    T.outcome memory = value memory idx k := by
  subst h
  cases k with
  | relu =>
    cases b with
    | amdGpu =>
      change (if 0 < memory (.first, idx) then memory (.first, idx) else 0) = _
      split
      · next h => exact (max_eq_left h.le).symm
      · next h => exact (max_eq_right (not_lt.1 h)).symm
    | metal => rfl
    | spirv => rfl
  | add => cases b <;> rfl
  | fallback => cases b <;> rfl

end Tasks

section Positions

variable {l : Launch}

theorem position_toNat (t : Thread l) :
    t.position.toNat = t.blockIdx.x.toNat * l.block.x.toNat + t.threadIdx.x.toNat ∧
      t.position.toNat < l.width := by
  have hb : t.blockIdx.x.toNat < l.grid.x.toNat := t.inGrid.1
  have ht : t.threadIdx.x.toNat < l.block.x.toNat := t.inBlock.1
  have hlt : t.blockIdx.x.toNat * l.block.x.toNat + t.threadIdx.x.toNat < l.width := by
    calc t.blockIdx.x.toNat * l.block.x.toNat + t.threadIdx.x.toNat
        < (t.blockIdx.x.toNat + 1) * l.block.x.toNat := by
          rw [Nat.add_mul, Nat.one_mul]
          omega
      _ ≤ l.width := Nat.mul_le_mul_right _ hb
  have hall : t.position.toNat =
      t.blockIdx.x.toNat * l.block.x.toNat + t.threadIdx.x.toNat := by
    rw [Thread.position, UInt32.toNat_add, UInt32.toNat_mul, Nat.mod_add_mod]
    exact Nat.mod_eq_of_lt (hlt.trans_le l.addressable)
  exact ⟨hall, hall ▸ hlt⟩

theorem position_of_lt {g : ℕ} (h : g < l.width) : ∃ t : Thread l, t.position.toNat = g := by
  obtain ⟨hgx, hgy, hgz, hbx, hby, hbz⟩ := l.positive
  have hx : 0 < l.block.x.toNat := hbx
  have hblock : g / l.block.x.toNat < l.grid.x.toNat := by
    rw [Nat.div_lt_iff_lt_mul hx]
    exact h
  have hq : (UInt32.ofNat (g / l.block.x.toNat)).toNat = g / l.block.x.toNat :=
    UInt32.toNat_ofNat_of_lt' (hblock.trans l.grid.x.toNat_lt)
  have hr : (UInt32.ofNat (g % l.block.x.toNat)).toNat = g % l.block.x.toNat :=
    UInt32.toNat_ofNat_of_lt' ((Nat.mod_lt _ hx).trans l.block.x.toNat_lt)
  refine ⟨⟨⟨.ofNat (g / l.block.x.toNat), 0, 0⟩, ⟨.ofNat (g % l.block.x.toNat), 0, 0⟩,
    ⟨?_, hgy, hgz⟩, ⟨?_, hby, hbz⟩⟩, ?_⟩
  · change (UInt32.ofNat _).toNat < _
    rw [hq]
    exact hblock
  · change (UInt32.ofNat _).toNat < _
    rw [hr]
    exact Nat.mod_lt _ hx
  · rw [(position_toNat _).1]
    exact (congrArg₂ (· * l.block.x.toNat + ·) hq hr).trans (Nat.div_add_mod' g _)

theorem toInt32_toInt (p : UInt32) :
    p.toInt32.toInt = if p.toNat < 2 ^ 31 then (p.toNat : ℤ) else p.toNat - 2 ^ 32 := by
  change p.toBitVec.toInt = _
  rw [BitVec.toInt_eq_toNat_cond]
  change (if 2 * p.toNat < 2 ^ 32 then (p.toNat : ℤ) else p.toNat - (2 ^ 32 : ℕ)) = _
  split <;> split <;> omega

theorem signedIndex_eq (p : UInt32) (n : Int32) (i : ℤ) :
    signedIndex p n = some i ↔ i < n.toInt ∧
      i = if p.toNat < 2 ^ 31 then (p.toNat : ℤ) else p.toNat - 2 ^ 32 := by
  rw [signedIndex, ← toInt32_toInt]
  split
  · next h =>
    simp only [Option.some.injEq]
    constructor
    · rintro rfl
      exact ⟨Int32.lt_iff_toInt_lt.1 h, rfl⟩
    · exact fun h => h.2.symm
  · next h =>
    simp only [reduceCtorEq, false_iff]
    rintro ⟨hlt, rfl⟩
    exact h (Int32.lt_iff_toInt_lt.2 hlt)

theorem toUInt32_toNat (n : Int32) :
    (n.toUInt32.toNat : ℤ) = if 0 ≤ n.toInt then n.toInt else n.toInt + 2 ^ 32 := by
  have h : n.toInt = if 2 * n.toUInt32.toNat < 2 ^ 32 then (n.toUInt32.toNat : ℤ)
      else n.toUInt32.toNat - (2 ^ 32 : ℕ) := BitVec.toInt_eq_toNat_cond _
  have hlt := n.toUInt32.toNat_lt
  split at h <;> split <;> omega

theorem unsignedIndex_eq (p : UInt32) (n : Int32) (i : ℤ) :
    unsignedIndex p n = some i ↔ p.toNat < n.toUInt32.toNat ∧ i = p.toNat := by
  rw [unsignedIndex]
  split
  · next h => simp [UInt32.lt_iff_toNat_lt.1 h, eq_comm]
  · next h =>
    simp only [reduceCtorEq, false_iff]
    exact fun hlt => h (UInt32.lt_iff_toNat_lt.2 hlt.1)

theorem flatIndex_fits {b : BackEnd} {n : Int32} (fits : Fits b l n) (t : Thread l) (i : ℤ) :
    flatIndex b t.position n = some i ↔ i < n.toInt ∧ i = t.position.toNat := by
  have hsigned : l.width ≤ 2 ^ 31 ∨ n = Int32.minValue →
      (signedIndex t.position n = some i ↔ i < n.toInt ∧ i = t.position.toNat) := by
    intro h
    rw [signedIndex_eq]
    have hlt := (position_toNat t).2
    rcases h with h | rfl
    · rw [if_pos (by omega)]
    · have hmin : Int32.minValue.toInt = -2 ^ 31 := by decide
      rw [hmin]
      split <;> omega
  obtain ⟨-, h⟩ := fits
  cases b with
  | amdGpu => exact hsigned h
  | spirv => exact hsigned h
  | metal =>
    have hn := toUInt32_toNat n
    rw [if_pos h] at hn
    rw [flatIndex, unsignedIndex_eq]
    omega

theorem flatIndex_ne {b : BackEnd} {n : Int32} {t : Thread l} {i : ℤ}
    (h : flatIndex b t.position n = some i) : i ≠ l.width := by
  have hlt := (position_toNat t).2
  have hword := t.position.toNat_lt
  have hsigned : signedIndex t.position n = some i → i ≠ l.width := by
    intro h
    rw [signedIndex_eq] at h
    obtain ⟨-, rfl⟩ := h
    split <;> omega
  cases b with
  | amdGpu => exact hsigned h
  | spirv => exact hsigned h
  | metal =>
    obtain ⟨-, rfl⟩ := (unsignedIndex_eq _ _ _).1 h
    omega

end Positions

section Exactness

variable {b : BackEnd} {k : FlatKernel} {n : Int32} {l : Launch}

theorem runsExactly_of_fits (fits : Fits b l n) : RunsExactly V b k l n := by
  constructor
  · intro t T ht
    obtain ⟨idx, hidx, rfl⟩ := task_some ht
    obtain ⟨hlt, rfl⟩ := (flatIndex_fits fits t idx).1 hidx
    have hbounds : ∀ buffer, InBounds n (buffer, (t.position.toNat : ℤ)) :=
      fun _ => ⟨Int.natCast_nonneg _, hlt⟩
    refine ⟨hbounds _, fun a ha => ?_⟩
    obtain ⟨buffer, -, rfl⟩ := List.mem_map.1 ha
    exact hbounds buffer
  · intro memory turns served i hi hin
    have hwidth := fits.1
    obtain ⟨g, rfl⟩ := Int.eq_ofNat_of_zero_le hi
    obtain ⟨t, ht⟩ := position_of_lt (l := l) (g := g) (by omega)
    have htask : task b k n t = some (⟨(inputs k).map fun buffer => (buffer, (g : ℤ)),
        (.output, (g : ℤ)), compute b k⟩ : Task Address V) := by
      rw [task, (flatIndex_fits fits t g).2 ⟨hin, by rw [ht]⟩]
      rfl
    have hsettled := (threads_settle (undisturbed memory) served).1 t _ htask
    rw [outcome_value memory rfl] at hsettled
    exact hsettled
  · intro memory turns served a ha
    refine (threads_settle (undisturbed memory) served).2 a fun t T ht heq => ha ?_
    obtain ⟨idx, hidx, rfl⟩ := task_some ht
    obtain ⟨hlt, rfl⟩ := (flatIndex_fits fits t idx).1 hidx
    subst heq
    exact ⟨rfl, Int.natCast_nonneg _, hlt⟩

instance : Finite (Thread l) := by
  apply Finite.of_injective (β := (Fin (2 ^ 32) × Fin (2 ^ 32) × Fin (2 ^ 32)) ×
      (Fin (2 ^ 32) × Fin (2 ^ 32) × Fin (2 ^ 32))) fun t =>
    ((t.blockIdx.x.toFin, t.blockIdx.y.toFin, t.blockIdx.z.toFin),
      (t.threadIdx.x.toFin, t.threadIdx.y.toFin, t.threadIdx.z.toFin))
  rintro ⟨⟨_, _, _⟩, ⟨_, _, _⟩, _, _⟩ ⟨⟨_, _, _⟩, ⟨_, _, _⟩, _, _⟩ h
  simpa [UInt32.toFin_inj] using h

theorem served_exists : ∃ turns : List (Thread l), Served (task (V := V) b k n) turns := by
  classical
  obtain ⟨_⟩ := nonempty_fintype (Thread l)
  let all := (Finset.univ : Finset (Thread l)).toList
  refine ⟨all ++ all ++ all, fun t T ht => ?_⟩
  obtain ⟨idx, -, rfl⟩ := task_some ht
  have hone : 0 < all.count t := List.count_pos_iff.2 (Finset.mem_toList.2 (Finset.mem_univ t))
  have hlen : (inputs k).length ≤ 2 := by cases k <;> decide
  simp only [List.length_map, List.count_append]
  omega

theorem covers (h : RunsExactly V b k l n) : n.toInt ≤ l.width := by
  by_contra hlt
  rw [not_le] at hlt
  obtain ⟨turns, served⟩ := served_exists (V := V) (b := b) (k := k) (n := n) (l := l)
  let memory : Address → V := fun a =>
    if a.1 = .output then value (fun _ => 0) l.width k + 1 else 0
  have hvalue : value memory l.width k = value (fun _ => 0) l.width k := by
    cases k <;> rfl
  have hcomputed := h.computes memory turns served l.width (Int.natCast_nonneg _) hlt
  have hkept := (threads_settle (undisturbed memory) served).2 (.output, l.width) ?_
  · rw [hcomputed, hvalue] at hkept
    exact one_ne_zero (left_eq_add.1 hkept)
  · intro t T ht heq
    obtain ⟨idx, hidx, rfl⟩ := task_some ht
    exact flatIndex_ne hidx (congrArg Prod.snd heq)

theorem no_stray (h : RunsExactly V b k l n) (t : Thread l) {i : ℤ}
    (hi : flatIndex b t.position n = some i) : 0 ≤ i ∧ i < n.toInt := by
  have htask : task b k n t = some (⟨(inputs k).map fun buffer => (buffer, i),
      (.output, i), compute b k⟩ : Task Address V) := by
    rw [task, hi]
    rfl
  exact (h.inBounds t _ htask).1

theorem fits_of_runsExactly (h : RunsExactly V b k l n) : Fits b l n := by
  refine ⟨covers h, ?_⟩
  have hsigned : (∀ p, flatIndex b p n = signedIndex p n) →
      l.width ≤ 2 ^ 31 ∨ n = Int32.minValue := by
    intro hb
    by_contra hstray
    rw [not_or, not_le] at hstray
    obtain ⟨t, ht⟩ := position_of_lt hstray.1
    have hindex : flatIndex b t.position n = some (-2 ^ 31) := by
      rw [hb, signedIndex_eq, ht]
      refine ⟨lt_of_le_of_ne (Int32.minValue_le_toInt n) fun heq => hstray.2 ?_, by norm_num⟩
      exact Int32.toInt_inj.1 heq.symm
    have := no_stray h t hindex
    omega
  have hunsigned : (∀ p, flatIndex b p n = unsignedIndex p n) → 0 ≤ n.toInt := by
    intro hb
    by_contra hneg
    obtain ⟨hgx, -, -, hbx, -, -⟩ := l.positive
    obtain ⟨t, ht⟩ := position_of_lt (l := l) (g := 0) (Nat.mul_pos hgx hbx)
    have hn := toUInt32_toNat n
    rw [if_neg hneg] at hn
    have hlow := n.le_toInt
    have hindex : flatIndex b t.position n = some 0 := by
      rw [hb, unsignedIndex_eq, ht]
      refine ⟨?_, rfl⟩
      omega
    have := no_stray h t hindex
    omega
  cases b with
  | amdGpu => exact hsigned fun _ => rfl
  | spirv => exact hsigned fun _ => rfl
  | metal => exact hunsigned fun _ => rfl

end Exactness

/-- An elementwise kernel is exact on exactly the launches that cover its elements and whose
indices do not wrap around. -/
theorem runs_exactly_iff (b : BackEnd) (k : FlatKernel) (l : Launch) (n : Int32) :
    RunsExactly V b k l n ↔ Fits b l n :=
  ⟨fits_of_runsExactly, runsExactly_of_fits⟩

section Emitted

variable {F : Type} [DebugText F] {b : BackEnd} {es : List Emission}

theorem block_divides (b : BackEnd) (es : List Emission) :
    (es.foldl (append b.dialect) b.dialect.start).blockSize.x.toNat ∣ 2 ^ 31 := by
  induction es using List.reverseRecOn with
  | nil => cases b <;> decide
  | append_singleton es e ih =>
    rw [List.foldl_append, List.foldl_cons, List.foldl_nil, block_append]
    split
    · cases b <;> decide
    · cases b with
      | spirv =>
        change 256 ∣ 2 ^ 31
        decide
      | amdGpu => exact ih
      | metal => exact ih

theorem fits_of_smallest {l : Launch} {n : Int32} (hdvd : l.block.x.toNat ∣ 2 ^ 31)
    (hgrid : l.grid.x.toNat = (n.toInt.toNat + l.block.x.toNat - 1) / l.block.x.toNat) :
    Fits b l n := by
  obtain ⟨hgx, -, -, hbx, -, -⟩ := l.positive
  have hx : 0 < l.block.x.toNat := hbx
  have hg : 0 < l.grid.x.toNat := hgx
  have hcover : n.toInt.toNat ≤ l.width := by
    rw [Launch.width, hgrid]
    have := Nat.lt_div_mul_add (a := n.toInt.toNat + l.block.x.toNat - 1) hx
    omega
  have hpos : 0 < n.toInt := by
    by_contra hneg
    have hzero : n.toInt.toNat = 0 := Int.toNat_of_nonpos (not_lt.1 hneg)
    rw [hzero, Nat.zero_add, Nat.div_eq_of_lt (Nat.sub_lt hx Nat.one_pos)] at hgrid
    omega
  have hwidth : l.width ≤ 2 ^ 31 := by
    obtain ⟨q, hq⟩ := hdvd
    have hn := n.toInt_lt
    rw [Launch.width, hgrid, hq, Nat.mul_comm]
    apply Nat.mul_le_mul_left
    rw [← Nat.lt_succ_iff, Nat.div_lt_iff_lt_mul hx, Nat.succ_mul, Nat.mul_comm q]
    omega
  refine ⟨by omega, ?_⟩
  cases b with
  | metal => exact hpos.le
  | amdGpu => exact .inl hwidth
  | spirv => exact .inl hwidth

def flatKind : OpKind F → Option FlatKernel
  | .relu => some .relu
  | .add => some .add
  | .opaqueOp _ => some .fallback
  | _ => none

theorem flat_lowered {op : OmniOp F} {source : KernelSource} {k : FlatKernel}
    (h : b.dialect.lower op = .ok source) (hk : flatKind op.kind = some k) :
    flat source = some k := by
  rcases lower_cases b.dialect h with ⟨hm, -⟩ | ⟨ho, rfl⟩ | ⟨ho, rfl⟩ | ⟨_, ho, rfl⟩
  · cases ho : op.kind <;> simp [ho, flatKind, OpKind.isMatMul] at hm hk
  all_goals
    rw [ho] at hk
    exact hk

/-- Whatever operations come before, an elementwise kernel that is launched with the returned
block size on the smallest grid that covers its elements is exact. -/
theorem emitted_exact (b : BackEnd) (m : OmniModule F) (ops : List (OmniOp F)) (o : OmniOp F)
    (hops : m.ops = ops ++ [o]) (kernel : GeneratedKernel) (h : b.generate m = .ok kernel)
    (k : FlatKernel) (hk : flatKind o.kind = some k) (l : Launch) (n : Int32)
    (hblock : l.block = kernel.blockSize)
    (hgrid : l.grid.x.toNat = (n.toInt.toNat + l.block.x.toNat - 1) / l.block.x.toNat) :
    ∃ source, b.dialect.lower o = .ok source ∧ kernel.name = source.entryPoint o.id ∧
      flat source = some k ∧ RunsExactly V b k l n := by
  obtain ⟨es, e, -, ⟨hlower, hid⟩, rfl⟩ := generate_split hops h
  refine ⟨e.source, hlower, by rw [← hid]; rfl, flat_lowered hlower hk, ?_⟩
  refine runsExactly_of_fits (fits_of_smallest ?_ hgrid)
  rw [hblock]
  have := block_divides b (es ++ [e])
  rwa [List.foldl_append] at this

def shortLaunch : Launch := ⟨⟨3, 1, 1⟩, ⟨8, 8, 1⟩, by decide, by decide⟩

theorem emitted_exact_layer : ∃ kernel, BackEnd.amdGpu.generate layer = .ok kernel ∧
    ∃ source, BackEnd.amdGpu.dialect.lower activation = .ok source ∧
      kernel.name = source.entryPoint activation.id ∧ flat source = some .relu ∧
      RunsExactly ℚ .amdGpu .relu shortLaunch 20 :=
  ⟨_, rfl, emitted_exact .amdGpu layer [product] activation rfl _ rfl .relu rfl shortLaunch 20 rfl
    (by decide)⟩

end Emitted

end FlatKernels
