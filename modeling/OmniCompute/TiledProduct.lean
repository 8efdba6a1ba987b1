import OmniCompute.RowMajor
import OmniCompute.TiledKernel
import Mathlib.Data.List.Pairwise
import Mathlib.Tactic.Ring

/-! A kernel whose three tile sizes and two local sizes are one number computes the product:
every load slot has a thread, so a phase fills exactly the tiles it multiplies. -/
namespace TiledProduct

open BarrierGroups TiledKernel TiledSums

theorem mem_groupThreads {V : Type} {kernel : Kernel V} {t : Thread} :
    t ∈ groupThreads kernel ↔ t.x < kernel.localX ∧ t.y < kernel.localY := by
  rcases t with ⟨x, y⟩
  simp only [groupThreads, List.mem_flatMap, List.mem_map, List.mem_range, Thread.mk.injEq]
  constructor
  · rintro ⟨b, hb, a, ha, rfl, rfl⟩
    exact ⟨ha, hb⟩
  · rintro ⟨hx, hy⟩
    exact ⟨y, hy, x, hx, rfl, rfl⟩

theorem groupThreads_nodup {V : Type} (kernel : Kernel V) : (groupThreads kernel).Nodup := by
  rw [groupThreads, List.nodup_flatMap]
  constructor
  · intro y _
    apply List.Nodup.map _ List.nodup_range
    intro a b hab
    exact (Thread.mk.inj hab).1
  · refine List.nodup_range.imp ?_
    intro a b hab x hx hx'
    obtain ⟨_, _, rfl⟩ := List.mem_map.mp hx
    obtain ⟨_, _, heq⟩ := List.mem_map.mp hx'
    exact hab (Thread.mk.inj heq).2.symm

theorem index_inj {N r c r' c' : ℕ} (hc : c < N) (hc' : c' < N)
    (h : (r : ℤ) * N + c = (r' : ℤ) * N + c') : r = r' ∧ c = c' := by
  have hn : r * N + c = r' * N + c' := by exact_mod_cast h
  exact RowMajor.index_inj hc hc' hn

/-- The numbers a kernel is written with, all tile sizes positive. -/
structure Sized {V : Type} (kernel : Kernel V) (m n k x y : ℕ) : Prop where
  tileM : kernel.tileM = m
  tileN : kernel.tileN = n
  tileK : kernel.tileK = k
  localX : kernel.localX = x
  localY : kernel.localY = y
  posM : 0 < m
  posN : 0 < n
  posK : 0 < k

/-- One number for all tiles and the local size, and declared shared arrays. -/
structure Square {V : Type} (kernel : Kernel V) (tile : ℕ) : Prop where
  sized : Sized kernel tile tile tile tile tile
  nested : kernel.layout = .nested

def ones (V : Type) [One V] (x y k : ℕ) : Problem V := ⟨y, x, k, fun _ => 1, fun _ => 1⟩

def onesExecution {V : Type} [Semiring V] (kernel : Kernel V) (x y k : ℕ) :
    Execution kernel (ones V x y k) :=
  fun _ => .sequential fun _ => 1

variable {V : Type} {kernel : Kernel V} {p : Problem V} {g : WorkGroup} {t : Thread}

section Numbers

variable {m n k x y : ℕ} (h : Sized kernel m n k x y)

include h

theorem Sized.row_eq : row kernel g t = ((g.y * m + t.y : ℕ) : ℤ) := by
  rw [row, h.tileM]
  push_cast
  rfl

theorem Sized.col_eq : col kernel g t = ((g.x * n + t.x : ℕ) : ℤ) := by
  rw [col, h.tileN]
  push_cast
  rfl

theorem Sized.phases_eq : phases kernel p = (p.K + k - 1) / k := by
  have hp := h.posK
  have hc : (p.K : ℤ) + k - 1 = ((p.K + k - 1 : ℕ) : ℤ) := by omega
  rw [phases, h.tileK, hc, Int.tdiv_eq_ediv_of_nonneg (by omega)]
  norm_cast

theorem Sized.phases_pos (hK : 0 < p.K) : 0 < phases kernel p := by
  rw [h.phases_eq]
  exact Nat.div_pos (by omega) h.posK

theorem Sized.grid_iff :
    InGrid kernel p g ↔ g.x < (p.N + n - 1) / n ∧ g.y < (p.M + m - 1) / m := by
  have hm := h.posM
  have hn := h.posN
  have hcn : (p.N : ℤ) + n - 1 = ((p.N + n - 1 : ℕ) : ℤ) := by omega
  have hcm : (p.M : ℤ) + m - 1 = ((p.M + m - 1 : ℕ) : ℤ) := by omega
  rw [InGrid, gridX, gridY, h.tileM, h.tileN, hcn, hcm]
  norm_cast

theorem Sized.insideA_iff {phase : ℕ} :
    InsideA kernel p g phase t ↔ g.y * m + t.y < p.M ∧ phase * k + t.x < p.K := by
  rw [InsideA, h.row_eq, h.tileK]
  norm_cast

theorem Sized.insideB_iff {phase : ℕ} :
    InsideB kernel p g phase t ↔ phase * k + t.y < p.K ∧ g.x * n + t.x < p.N := by
  rw [InsideB, h.col_eq, h.tileK]
  norm_cast

theorem Sized.mem_threads : t ∈ groupThreads kernel ↔ t.x < x ∧ t.y < y := by
  rw [mem_groupThreads, h.localX, h.localY]

theorem Sized.readsInside (g : WorkGroup) (t : Thread) (phase : ℕ) :
    ∀ read ∈ globalReads kernel p g phase t,
      0 ≤ read.2 ∧ read.2 < (extent p read.1 : ℤ) := by
  intro read hread
  rcases List.mem_append.mp hread with hread | hread
  · split at hread
    · rename_i hin
      obtain rfl := List.mem_singleton.mp hread
      obtain ⟨hr, hk⟩ := h.insideA_iff.mp hin
      have hlt := RowMajor.index_lt hr hk
      have hidx : indexA kernel p g phase t =
          (((g.y * m + t.y) * p.K + (phase * k + t.x) : ℕ) : ℤ) := by
        rw [indexA, h.row_eq, h.tileK]
        push_cast
        ring
      rw [hidx]
      exact ⟨Int.natCast_nonneg _, Int.ofNat_lt.mpr hlt⟩
    · cases hread
  · split at hread
    · rename_i hin
      obtain rfl := List.mem_singleton.mp hread
      obtain ⟨hk, hc⟩ := h.insideB_iff.mp hin
      have hlt := RowMajor.index_lt hk hc
      have hidx : indexB kernel p g phase t =
          (((phase * k + t.y) * p.N + (g.x * n + t.x) : ℕ) : ℤ) := by
        rw [indexB, h.col_eq, h.tileK]
        push_cast
        ring
      rw [hidx]
      exact ⟨Int.natCast_nonneg _, Int.ofNat_lt.mpr hlt⟩
    · cases hread

theorem Sized.stored_iff [Semiring V] (e : Execution kernel p) {i : ℤ} {v : V} :
    e.stored g t = some (i, v) ↔ g.y * m + t.y < p.M ∧ g.x * n + t.x < p.N ∧
      i = ((g.y * m + t.y : ℕ) : ℤ) * p.N + ((g.x * n + t.x : ℕ) : ℤ) ∧
      v = kernel.epilogue (e.accumulated g t) := by
  rw [Execution.stored, finish, h.row_eq, h.col_eq]
  constructor
  · intro hs
    split at hs
    · rename_i hin
      obtain ⟨rfl, rfl⟩ := Prod.mk.inj (Option.some.inj hs)
      exact ⟨by exact_mod_cast hin.1, by exact_mod_cast hin.2, rfl, rfl⟩
    · cases hs
  · rintro ⟨hr, hc, rfl, rfl⟩
    rw [if_pos ⟨by exact_mod_cast hr, by exact_mod_cast hc⟩]

/-- A block smaller than the tile only ever stores the first rows and columns of a tile. -/
theorem Sized.stored_corner [Semiring V] (hx : x ≤ n) (hy : y ≤ m) (e : Execution kernel p)
    (hrun : Runs kernel p g t) {r c : ℕ} {v : V} (hc : c < p.N)
    (hs : e.stored g t = some ((r : ℤ) * p.N + c, v)) : r % m < y ∧ c % n < x := by
  obtain ⟨_, hc', hi, _⟩ := (h.stored_iff e).mp hs
  obtain ⟨rfl, rfl⟩ := index_inj hc hc' hi
  obtain ⟨htx, hty⟩ := h.mem_threads.mp hrun.2
  rw [Nat.mul_comm, Nat.mul_add_mod, Nat.mul_comm, Nat.mul_add_mod,
    Nat.mod_eq_of_lt (by omega), Nat.mod_eq_of_lt (by omega)]
  exact ⟨hty, htx⟩

theorem Sized.row_missing [Semiring V] (hx : x ≤ n) (hy : y < m) (hN : 0 < p.N)
    (e : Execution kernel p) : ¬ ∃ g t v, Runs kernel p g t ∧
      e.stored g t = some (((y : ℕ) : ℤ) * p.N + ((0 : ℕ) : ℤ), v) := by
  rintro ⟨g, t, v, hrun, hs⟩
  obtain ⟨hrow, _⟩ := h.stored_corner hx hy.le e hrun hN hs
  rw [Nat.mod_eq_of_lt hy] at hrow
  exact lt_irrefl _ hrow

theorem Sized.not_written [Semiring V] (hx : x ≤ n) (hy : y < m) (hM : y < p.M) (hN : 0 < p.N) :
    ¬ WritesProduct kernel p := by
  intro hprod
  let e : Execution kernel p := fun _ => .sequential fun _ => 0
  exact h.row_missing hx hy hN e (hprod.written e y 0 hM hN)

/-- Nor does it fill the tile it multiplies: the first row of `sA` ends before `tile_k`. -/
theorem Sized.not_fresh [Semiring V] (hx : x < k) (hx' : 0 < x) (hy : 0 < y) (hM : 0 < p.M)
    (hN : 0 < p.N) (hK : 0 < p.K) : ¬ FreshReads kernel p := by
  intro hfresh
  have hrun : Runs kernel p ⟨0, 0⟩ ⟨0, 0⟩ := by
    refine ⟨h.grid_iff.mpr ⟨Nat.div_pos ?_ h.posN, Nat.div_pos ?_ h.posM⟩,
      h.mem_threads.mpr ⟨hx', hy⟩⟩
    · omega
    · omega
  have htile : kernel.tileK.toNat = k := by rw [h.tileK]; rfl
  have hread : (cellA kernel (0 : ℕ) x, cellB kernel x (0 : ℕ)) ∈ multiplyReads kernel ⟨0, 0⟩ := by
    refine List.mem_map.mpr ⟨x, ?_, rfl⟩
    rw [htile]
    exact List.mem_range.mpr hx
  obtain ⟨⟨u, hu, hcell⟩, _⟩ := hfresh _ _ hrun 0 (h.phases_pos hK) _ hread
  obtain ⟨hux, _⟩ := h.mem_threads.mp hu
  simp only [loads, List.map_cons, List.map_nil, List.mem_cons, List.not_mem_nil, or_false,
    cellA, cellB, h.tileK] at hcell
  cases hl : kernel.layout with
  | nested =>
    simp only [hl, Prod.mk.injEq, reduceCtorEq, false_and, or_false, true_and] at hcell
    omega
  | flat =>
    simp only [hl, Prod.mk.injEq, reduceCtorEq, false_and, or_false, true_and, Nat.cast_zero,
      zero_mul, zero_add] at hcell
    rcases Nat.eq_zero_or_pos u.y with h0 | h1
    · rw [h0] at hcell
      omega
    · have hle : (k : ℤ) ≤ u.y * k := by
        have := Nat.le_mul_of_pos_left k h1
        exact_mod_cast this
      omega

theorem Sized.loads_ones [Semiring V] (hx : x ≤ k) (hy : y ≤ k) (ht : t ∈ groupThreads kernel) :
    ∀ w ∈ loads kernel (ones V x y k) ⟨0, 0⟩ 0 t, w.2 = 1 := by
  obtain ⟨htx, hty⟩ := h.mem_threads.mp ht
  intro w hw
  rcases List.mem_pair.mp hw with rfl | rfl
  · exact if_pos (h.insideA_iff.mpr ⟨by simpa [ones] using hty,
      by simpa [ones] using htx.trans_le hx⟩)
  · exact if_pos (h.insideB_iff.mpr ⟨by simpa [ones] using hty.trans_le hy,
      by simpa [ones] using htx⟩)

theorem Sized.multiply_ones [Semiring V] {mem : Cell → V} (hmem : ∀ c, mem c = 1) (sum : V) :
    multiply kernel t mem sum = sum + k := by
  have htile : kernel.tileK.toNat = k := by rw [h.tileK]; rfl
  rw [multiply, multiplyReads, List.foldl_map, htile]
  simp only [hmem, mul_one]
  rw [foldl_add (fun _ => (1 : V))]
  simp

theorem Sized.ones_accumulated [Semiring V] (hx : x ≤ k) (hy : y ≤ k) (t : Thread) :
    (onesExecution kernel x y k).accumulated ⟨0, 0⟩ t = k := by
  have hphases : phases kernel (ones V x y k) = 1 := by
    have hk := h.posK
    rw [h.phases_eq]
    change (k + k - 1) / k = 1
    exact Nat.div_eq_of_lt_le (by omega) (by omega)
  have hmem : ∀ c, store (fun _ => (1 : V)) ((groupThreads kernel).flatMap
      (loads kernel (ones V x y k) ⟨0, 0⟩ 0)) c = 1 := by
    intro c
    refine store_forall (I := (· = 1)) (fun _ => rfl) ?_ c
    intro w hw
    obtain ⟨u, hu, hw⟩ := List.mem_flatMap.mp hw
    exact h.loads_ones hx hy hu w hw
  rw [Execution.accumulated, hphases]
  exact (h.multiply_ones hmem 0).trans (zero_add _)

end Numbers

variable {tile : ℕ} (h : Square kernel tile)

section Tiles

include h

theorem Square.cellA_eq (i j : ℤ) : cellA kernel i j = (.sA, i, j) := by
  rw [cellA, h.nested]

theorem Square.cellB_eq (i j : ℤ) : cellB kernel i j = (.sB, i, j) := by
  rw [cellB, h.nested]

theorem Square.runs_owner {r c : ℕ} (hr : r < p.M) (hc : c < p.N) :
    Runs kernel p ⟨c / tile, r / tile⟩ ⟨c % tile, r % tile⟩ := by
  have hp := h.sized.posK
  refine ⟨h.sized.grid_iff.mpr ⟨?_, ?_⟩, h.sized.mem_threads.mpr ⟨?_, ?_⟩⟩
  · have : (c + tile) / tile ≤ (p.N + tile - 1) / tile := Nat.div_le_div_right (by omega)
    rw [Nat.add_div_right c hp] at this
    exact this
  · have : (r + tile) / tile ≤ (p.M + tile - 1) / tile := Nat.div_le_div_right (by omega)
    rw [Nat.add_div_right r hp] at this
    exact this
  · exact Nat.mod_lt _ hp
  · exact Nat.mod_lt _ hp

end Tiles

variable [Semiring V]

section Cells

variable {u : Thread} {phase phase' : ℕ} {write write' : Cell × V}
  (nested : kernel.layout = .nested)

include nested

theorem loads_cells (hw : write ∈ loads kernel p g phase t) :
    write.1 = (.sA, (t.y : ℤ), (t.x : ℤ)) ∨ write.1 = (.sB, (t.y : ℤ), (t.x : ℤ)) := by
  rcases List.mem_pair.mp hw with rfl | rfl
  · exact .inl (by rw [cellA, nested])
  · exact .inr (by rw [cellB, nested])

theorem loads_thread (hw : write ∈ loads kernel p g phase t)
    (hw' : write' ∈ loads kernel p g phase' u) (heq : write.1 = write'.1) : t = u := by
  rcases t with ⟨tx, ty⟩
  rcases u with ⟨ux, uy⟩
  rcases loads_cells nested hw with hc | hc <;> rcases loads_cells nested hw' with hc' | hc' <;>
    rw [hc, hc'] at heq <;> simp_all

end Cells

section Phases

include h

theorem Square.cells_nodup (phase : ℕ) :
    (((groupThreads kernel).flatMap (loads kernel p g phase)).map Prod.fst).Nodup := by
  rw [List.map_flatMap, List.nodup_flatMap]
  constructor
  · intro t _
    simp [loads, h.cellA_eq, h.cellB_eq]
  · refine (groupThreads_nodup kernel).imp ?_
    intro a b hab c hc hc'
    obtain ⟨write, hw, rfl⟩ := List.mem_map.mp hc
    obtain ⟨write', hw', heq⟩ := List.mem_map.mp hc'
    exact hab (loads_thread h.nested hw hw' heq.symm)

theorem Square.sA_stored (e : Execution kernel p) {phase k : ℕ} (ht : t ∈ groupThreads kernel)
    (hk : k < tile) (mem : Cell → V) :
    store mem ((e g).order phase) (.sA, (t.y : ℤ), (k : ℤ)) = loadA kernel p g phase ⟨k, t.y⟩ := by
  have hu : (⟨k, t.y⟩ : Thread) ∈ groupThreads kernel := by
    rw [h.sized.mem_threads] at ht ⊢
    exact ⟨hk, ht.2⟩
  apply (e g).stored (h.cells_nodup phase) hu
  simp [groupProgram, loads, h.cellA_eq]

theorem Square.sB_stored (e : Execution kernel p) {phase k : ℕ} (ht : t ∈ groupThreads kernel)
    (hk : k < tile) (mem : Cell → V) :
    store mem ((e g).order phase) (.sB, (k : ℤ), (t.x : ℤ)) = loadB kernel p g phase ⟨t.x, k⟩ := by
  have hu : (⟨t.x, k⟩ : Thread) ∈ groupThreads kernel := by
    rw [h.sized.mem_threads] at ht ⊢
    exact ⟨ht.1, hk⟩
  apply (e g).stored (h.cells_nodup phase) hu
  simp [groupProgram, loads, h.cellB_eq]

theorem Square.multiply_eq (mem : Cell → V) (sum : V) :
    multiply kernel t mem sum =
      sum + ∑ k ∈ Finset.range tile,
        mem (.sA, (t.y : ℤ), (k : ℤ)) * mem (.sB, (k : ℤ), (t.x : ℤ)) := by
  have htile : kernel.tileK.toNat = tile := by rw [h.sized.tileK]; rfl
  rw [multiply, multiplyReads, List.foldl_map, htile]
  simp only [h.cellA_eq, h.cellB_eq]
  exact foldl_add _ sum tile

/-- The invariant over the phases: after `n` of them `sum` holds `n` tiles of the product. -/
theorem Square.run_sum (e : Execution kernel p) (ht : t ∈ groupThreads kernel) (n : ℕ) :
    ((e g).run (fun _ => 0) n).2 t =
      ∑ phase ∈ Finset.range n, ∑ k ∈ Finset.range tile,
        loadA kernel p g phase ⟨k, t.y⟩ * loadB kernel p g phase ⟨t.x, k⟩ := by
  apply (e g).private_invariant (fun _ => 0) (fun n sum => sum = ∑ phase ∈ Finset.range n,
    ∑ k ∈ Finset.range tile, loadA kernel p g phase ⟨k, t.y⟩ * loadB kernel p g phase ⟨t.x, k⟩)
  · rfl
  · intro phase mem sum hsum
    change multiply kernel t _ sum = _
    rw [h.multiply_eq, hsum, Finset.sum_range_succ]
    congr 1
    apply Finset.sum_congr rfl
    intro k hk
    rw [h.sA_stored e ht (Finset.mem_range.mp hk), h.sB_stored e ht (Finset.mem_range.mp hk)]

/-- Inside `C`, the zero padding leaves exactly the terms of the product. -/
theorem Square.accumulated_eq (e : Execution kernel p) (ht : t ∈ groupThreads kernel)
    (hr : g.y * tile + t.y < p.M) (hc : g.x * tile + t.x < p.N) :
    e.accumulated g t = product p (g.y * tile + t.y) (g.x * tile + t.x) := by
  rw [Execution.accumulated, h.run_sum e ht, h.sized.phases_eq]
  refine Eq.trans ?_ (tiled_sum (fun k : ℕ => p.A ((g.y * tile + t.y : ℕ) * p.K + k) *
    p.B (k * p.N + (g.x * tile + t.x : ℕ))) h.sized.posK)
  apply Finset.sum_congr rfl
  intro phase _
  apply Finset.sum_congr rfl
  intro k _
  have ha : loadA kernel p g phase ⟨k, t.y⟩ =
      if phase * tile + k < p.K then p.A ((g.y * tile + t.y : ℕ) * p.K + (phase * tile + k : ℕ))
      else 0 := by
    rw [loadA, indexA, h.sized.row_eq, h.sized.tileK]
    simp only [h.sized.insideA_iff, hr, true_and]
    push_cast
    rw [add_assoc ((((g.y : ℤ) * tile + t.y) * p.K))]
  have hb : loadB kernel p g phase ⟨t.x, k⟩ =
      if phase * tile + k < p.K then p.B ((phase * tile + k : ℕ) * p.N + (g.x * tile + t.x : ℕ))
      else 0 := by
    rw [loadB, indexB, h.sized.col_eq, h.sized.tileK]
    simp only [h.sized.insideB_iff, hc, and_true]
    push_cast
    rfl
  rw [ha, hb]
  split
  · rfl
  · exact mul_zero 0

end Phases

section Stores

variable (plain : ∀ v, kernel.epilogue v = v)

include h

theorem Square.fresh : FreshReads kernel p := by
  intro g t hrun phase _ c hc
  obtain ⟨k, hk, rfl⟩ := List.mem_map.mp hc
  have htile : kernel.tileK.toNat = tile := by rw [h.sized.tileK]; rfl
  rw [htile, List.mem_range] at hk
  obtain ⟨hx, hy⟩ := h.sized.mem_threads.mp hrun.2
  constructor
  · exact ⟨⟨k, t.y⟩, h.sized.mem_threads.mpr ⟨hk, hy⟩, by simp [loads]⟩
  · exact ⟨⟨t.x, k⟩, h.sized.mem_threads.mpr ⟨hx, hk⟩, by simp [loads]⟩

include plain

theorem Square.writesProduct : WritesProduct kernel p := by
  refine ⟨?_, ?_, h.fresh⟩
  · intro e r c hr hc
    refine ⟨_, _, _, h.runs_owner hr hc, (h.sized.stored_iff e).mpr ⟨?_, ?_, ?_, rfl⟩⟩
    · simpa [Nat.div_add_mod'] using hr
    · simpa [Nat.div_add_mod'] using hc
    · simp only [Nat.div_add_mod']
  · intro e g t r c v hrun hr hc hs
    obtain ⟨hr', hc', hi, rfl⟩ := (h.sized.stored_iff e).mp hs
    obtain ⟨rfl, rfl⟩ := index_inj hc hc' hi
    rw [plain, h.accumulated_eq e hrun.2 hr' hc']

theorem Square.writesOnce : WritesOnce kernel p := by
  refine ⟨h.writesProduct plain, ?_, ?_, fun g t _ phase _ => h.sized.readsInside g t phase⟩
  · intro e r c hr hc
    refine ⟨(⟨c / tile, r / tile⟩, ⟨c % tile, r % tile⟩), ⟨h.runs_owner hr hc, _,
      (h.sized.stored_iff e).mpr ⟨?_, ?_, ?_, rfl⟩⟩, ?_⟩
    · simpa [Nat.div_add_mod'] using hr
    · simpa [Nat.div_add_mod'] using hc
    · simp only [Nat.div_add_mod']
    · rintro ⟨⟨gx, gy⟩, ⟨tx, ty⟩⟩ ⟨hrun, v, hs⟩
      obtain ⟨_, hc', hi, _⟩ := (h.sized.stored_iff e).mp hs
      obtain ⟨rfl, rfl⟩ := index_inj hc hc' hi
      obtain ⟨hx, hy⟩ := h.sized.mem_threads.mp hrun.2
      simp only at hx hy
      have hp := h.sized.posK
      simp only [Prod.mk.injEq, WorkGroup.mk.injEq, Thread.mk.injEq]
      refine ⟨⟨?_, ?_⟩, ?_, ?_⟩
      · rw [Nat.mul_comm, Nat.mul_add_div hp, Nat.div_eq_of_lt hx, add_zero]
      · rw [Nat.mul_comm, Nat.mul_add_div hp, Nat.div_eq_of_lt hy, add_zero]
      · rw [Nat.mul_comm, Nat.mul_add_mod, Nat.mod_eq_of_lt hx]
      · rw [Nat.mul_comm, Nat.mul_add_mod, Nat.mod_eq_of_lt hy]
  · intro e g t i v hrun hs
    obtain ⟨hr, hc, hi, _⟩ := (h.sized.stored_iff e).mp hs
    exact ⟨_, _, hr, hc, hi⟩

end Stores

end TiledProduct
