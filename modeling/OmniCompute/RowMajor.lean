import Mathlib.Data.List.Range
import Mathlib.Data.Matrix.Mul
import Mathlib.Tactic.Ring

/-! Matrices stored row by row in one flat list, with every access checked.
A loop is a fold that may fail; a list `Stores` a table when each in-range cell reads back
the table's entry, and the rules say how reads, writes and loops act on the stored table. -/
namespace RowMajor

universe u v

variable {ε : Type u} {α σ : Type v}

section Access

def readAt (fault : ε) (xs : List α) (i : ℕ) : Except ε α :=
  match xs[i]? with
  | some x => .ok x
  | none => .error fault

def writeAt (fault : ε) (xs : List α) (i : ℕ) (x : α) : Except ε (List α) :=
  if i < xs.length then .ok (xs.set i x) else .error fault

@[simp] theorem ok_bind {τ : Type v} (x : σ) (f : σ → Except ε τ) :
    (Except.ok x >>= f) = f x := rfl

/-- `for i in lo..hi` over a body that may fail. -/
def forRange (lo hi : ℕ) (body : σ → ℕ → Except ε σ) (s : σ) : Except ε σ :=
  (List.range' lo (hi - lo)).foldlM body s

theorem forRange_ok {body : σ → ℕ → Except ε σ} (I : ℕ → σ → Prop) {lo hi : ℕ} (hle : lo ≤ hi)
    (step : ∀ i s, lo ≤ i → i < hi → I i s → ∃ t, body s i = .ok t ∧ I (i + 1) t)
    {s : σ} (hs : I lo s) : ∃ t, forRange lo hi body s = .ok t ∧ I hi t := by
  induction hi, hle using Nat.le_induction with
  | base => exact ⟨s, by simp [forRange, pure, Except.pure], hs⟩
  | succ hi hle ih =>
    obtain ⟨t, ht, hI⟩ := ih fun i s hlo hhi => step i s hlo (Nat.lt_succ_of_lt hhi)
    obtain ⟨u, hu, hJ⟩ := step hi t hle (Nat.lt_succ_self hi) hI
    refine ⟨u, ?_, hJ⟩
    have hn : hi + 1 - lo = hi - lo + 1 := by omega
    have hlast : lo + (hi - lo) = hi := by omega
    simp only [forRange] at ht
    rw [forRange, hn, List.range'_1_concat, List.foldlM_append, ht, hlast]
    change (body t hi >>= pure) = .ok u
    rw [hu]
    rfl

theorem bind_error {τ : Type v} {x : Except ε σ} {f : σ → Except ε τ} {e : ε}
    (h : (x >>= f) = .error e) : x = .error e ∨ ∃ a, x = .ok a ∧ f a = .error e := by
  cases x with
  | error e' => exact Or.inl (congrArg Except.error (Except.error.inj h))
  | ok a => exact Or.inr ⟨a, rfl, h⟩

theorem forRange_error {body : σ → ℕ → Except ε σ} {E : ε → Prop}
    (hbody : ∀ s i e, body s i = .error e → E e) {lo hi : ℕ} {s : σ} {e : ε}
    (h : forRange lo hi body s = .error e) : E e := by
  unfold forRange at h
  generalize List.range' lo (hi - lo) = indices at h
  induction indices generalizing s with
  | nil => cases h
  | cons i indices ih =>
    rcases bind_error h with hi | ⟨t, _, ht⟩
    · exact hbody s i e hi
    · exact ih ht

theorem forRange_fails {body : σ → ℕ → Except ε σ} {lo hi : ℕ} (hlt : lo < hi) {s : σ} {e : ε}
    (h : body s lo = .error e) : forRange lo hi body s = .error e := by
  obtain ⟨n, hn⟩ : ∃ n, hi - lo = n + 1 := ⟨hi - lo - 1, by omega⟩
  rw [forRange, hn, List.range'_succ, List.foldlM_cons, h]
  rfl

end Access

section Tables

abbrev Table (α : Type v) := ℕ → ℕ → α

/-- The list holds the `rows × cols` part of a table, row after row. -/
structure Stores (xs : List α) (rows cols : ℕ) (M : Table α) : Prop where
  length : xs.length = rows * cols
  cell : ∀ r c, r < rows → c < cols → xs[r * cols + c]? = some (M r c)

def setCell (M : Table α) (r c : ℕ) (x : α) : Table α :=
  fun r' c' => if r' = r ∧ c' = c then x else M r' c'

theorem index_lt {rows cols r c : ℕ} (hr : r < rows) (hc : c < cols) :
    r * cols + c < rows * cols :=
  calc r * cols + c < r * cols + cols := Nat.add_lt_add_left hc _
    _ = (r + 1) * cols := (Nat.succ_mul r cols).symm
    _ ≤ rows * cols := Nat.mul_le_mul_right _ hr

theorem index_inj {cols r c r' c' : ℕ} (hc : c < cols) (hc' : c' < cols)
    (h : r * cols + c = r' * cols + c') : r = r' ∧ c = c' := by
  have hpos : 0 < cols := Nat.zero_lt_of_lt hc
  have hrow : r = r' := by
    have hd := congrArg (· / cols) h
    simpa [Nat.add_comm, Nat.add_mul_div_right _ _ hpos, Nat.div_eq_of_lt hc,
      Nat.div_eq_of_lt hc'] using hd
  exact ⟨hrow, by subst hrow; omega⟩

variable {fault : ε} {xs : List α} {rows cols : ℕ} {M N : Table α} {r c : ℕ}

theorem Stores.read (h : Stores xs rows cols M) (hr : r < rows) (hc : c < cols) :
    readAt fault xs (r * cols + c) = .ok (M r c) := by
  rw [readAt, h.cell r c hr hc]

theorem Stores.write (h : Stores xs rows cols M) (hr : r < rows) (hc : c < cols) (x : α) :
    ∃ ys, writeAt fault xs (r * cols + c) x = .ok ys ∧
      Stores ys rows cols (setCell M r c x) := by
  have hlt : r * cols + c < xs.length := h.length ▸ index_lt hr hc
  refine ⟨xs.set (r * cols + c) x, if_pos hlt, by rw [List.length_set, h.length], ?_⟩
  intro r' c' hr' hc'
  by_cases hsame : r' = r ∧ c' = c
  · obtain ⟨rfl, rfl⟩ := hsame
    rw [List.getElem?_set_self hlt]
    simp [setCell]
  · have hne : r * cols + c ≠ r' * cols + c' := by
      intro heq
      obtain ⟨rfl, rfl⟩ := index_inj hc hc' heq
      exact hsame ⟨rfl, rfl⟩
    rw [List.getElem?_set_ne hne, h.cell r' c' hr' hc']
    simp [setCell, hsame]

theorem Stores.congr (h : Stores xs rows cols M)
    (heq : ∀ r c, r < rows → c < cols → M r c = N r c) : Stores xs rows cols N :=
  ⟨h.length, fun r c hr hc => by rw [h.cell r c hr hc, heq r c hr hc]⟩

theorem stores_replicate (x : α) (rows cols : ℕ) :
    Stores (List.replicate (rows * cols) x) rows cols fun _ _ => x := by
  refine ⟨List.length_replicate, ?_⟩
  intro r c hr hc
  rw [List.getElem?_replicate, if_pos (index_lt hr hc)]

/-- A table rewritten into `N` in the cells that belong to the first `k` stages of a loop. -/
def partway (stage : ℕ → ℕ → ℕ) (k : ℕ) (M N : Table α) : Table α :=
  fun r c => if stage r c < k then N r c else M r c

/-- A loop whose body at `k` rewrites exactly the cells of stage `k`. -/
theorem Stores.sweep {body : List α → ℕ → Except ε (List α)} (stage : ℕ → ℕ → ℕ) (bound : ℕ)
    (N : Table α) (h : Stores xs rows cols M)
    (step : ∀ k ys, k < bound → Stores ys rows cols (partway stage k M N) → ∃ zs,
      body ys k = .ok zs ∧ Stores zs rows cols fun r c =>
        if stage r c = k then N r c else partway stage k M N r c) :
    ∃ ys, forRange 0 bound body xs = .ok ys ∧ Stores ys rows cols (partway stage bound M N) := by
  apply forRange_ok (fun k ys => Stores ys rows cols (partway stage k M N)) (Nat.zero_le bound)
  · intro k ys _ hk hst
    obtain ⟨zs, hzs, hst'⟩ := step k ys hk hst
    refine ⟨zs, hzs, hst'.congr fun r c _ _ => ?_⟩
    simp only [partway]
    rcases Nat.lt_trichotomy (stage r c) k with hlt | heq | hgt
    · rw [if_neg (by omega), if_pos hlt, if_pos (by omega)]
    · rw [if_pos heq, if_pos (by omega)]
    · rw [if_neg (by omega), if_neg (by omega), if_neg (by omega)]
  · exact h.congr fun r c _ _ => by simp [partway]

def filled (M : Table α) (row k : ℕ) (f : ℕ → α) : Table α :=
  fun r c => if r = row ∧ c < k then f c else M r c

theorem Stores.fillRow (fault : ε) {body : List α → ℕ → Except ε (List α)} {row bound : ℕ}
    (f : ℕ → α)
    (h : Stores xs rows cols M) (hrow : row < rows) (hbound : bound ≤ cols)
    (step : ∀ k ys, k < bound → Stores ys rows cols (filled M row k f) →
      body ys k = writeAt fault ys (row * cols + k) (f k)) :
    ∃ ys, forRange 0 bound body xs = .ok ys ∧ Stores ys rows cols (filled M row bound f) := by
  apply forRange_ok (fun k ys => Stores ys rows cols (filled M row k f)) (Nat.zero_le bound)
  · intro k ys _ hk hst
    obtain ⟨zs, hzs, hst'⟩ : ∃ zs, writeAt fault ys (row * cols + k) (f k) = .ok zs ∧
        Stores zs rows cols (setCell (filled M row k f) row k (f k)) :=
      hst.write hrow (Nat.lt_of_lt_of_le hk hbound) (f k)
    refine ⟨zs, (step k ys hk hst).trans hzs, hst'.congr fun r c _ _ => ?_⟩
    simp only [setCell, filled]
    by_cases hr : r = row
    · rcases Nat.lt_trichotomy c k with hlt | rfl | hgt
      · rw [if_neg (by omega), if_pos ⟨hr, hlt⟩, if_pos ⟨hr, by omega⟩]
      · rw [if_pos ⟨hr, rfl⟩, if_pos ⟨hr, by omega⟩]
      · rw [if_neg (by omega), if_neg (by omega), if_neg (by omega)]
    · rw [if_neg (by tauto), if_neg (by tauto), if_neg (by tauto)]
  · exact h.congr fun r c _ _ => by simp [filled]

end Tables

section Matrices

variable [Zero α] {xs ys : List α} {rows cols : ℕ}

def table (xs : List α) (cols : ℕ) : Table α := fun r c => xs.getD (r * cols + c) 0

def toMatrix (xs : List α) (rows cols : ℕ) : Matrix (Fin rows) (Fin cols) α :=
  .of fun r c => table xs cols r c

theorem stores_table (h : xs.length = rows * cols) : Stores xs rows cols (table xs cols) := by
  refine ⟨h, ?_⟩
  intro r c hr hc
  have hlt : r * cols + c < xs.length := h ▸ index_lt hr hc
  simp [table, List.getD_eq_getElem?_getD, hlt]

theorem Stores.toMatrix {M : Table α} (h : Stores xs rows cols M) :
    toMatrix xs rows cols = .of fun r c : Fin _ => M r c := by
  ext r c
  simp [RowMajor.toMatrix, table, List.getD_eq_getElem?_getD, h.cell r c r.isLt c.isLt]

def ofMatrix (M : Matrix (Fin rows) (Fin cols) α) : List α :=
  List.ofFn fun i : Fin (rows * cols) => M i.divNat i.modNat

theorem toMatrix_ofMatrix (M : Matrix (Fin rows) (Fin cols) α) :
    toMatrix (ofMatrix M) rows cols = M := by
  ext r c
  have hlt : (r : ℕ) * cols + c < rows * cols := index_lt r.isLt c.isLt
  have hpos : 0 < cols := Nat.zero_lt_of_lt c.isLt
  have hdiv : ((r : ℕ) * cols + c) / cols = r := by
    rw [Nat.add_comm, Nat.add_mul_div_right _ _ hpos, Nat.div_eq_of_lt c.isLt, Nat.zero_add]
  have hmod : ((r : ℕ) * cols + c) % cols = c := by
    rw [Nat.add_comm, Nat.add_mul_mod_self_right, Nat.mod_eq_of_lt c.isLt]
  have hr : Fin.divNat ⟨(r : ℕ) * cols + c, hlt⟩ = r := Fin.ext hdiv
  have hc : Fin.modNat ⟨(r : ℕ) * cols + c, hlt⟩ = c := Fin.ext hmod
  simp [toMatrix, table, ofMatrix, List.getD_eq_getElem?_getD, List.getElem?_ofFn, hlt, hr, hc]

theorem toMatrix_inj (hx : xs.length = rows * cols) (hy : ys.length = rows * cols)
    (h : toMatrix xs rows cols = toMatrix ys rows cols) : xs = ys := by
  apply List.ext_getElem?
  intro i
  by_cases hi : i < rows * cols
  · have hpos : 0 < cols := Nat.pos_of_ne_zero (by rintro rfl; simp at hi)
    have hr : i / cols < rows := Nat.div_lt_of_lt_mul (by rwa [Nat.mul_comm])
    have hc : i % cols < cols := Nat.mod_lt i hpos
    have hsplit : i / cols * cols + i % cols = i := by
      rw [Nat.mul_comm]
      exact Nat.div_add_mod i cols
    have hcx := (stores_table hx).cell _ _ hr hc
    have hcy := (stores_table hy).cell _ _ hr hc
    have he : table xs cols (i / cols) (i % cols) = table ys cols (i / cols) (i % cols) :=
      congrFun (congrFun h ⟨_, hr⟩) ⟨_, hc⟩
    rw [hsplit] at hcx hcy
    rw [hcx, hcy, he]
  · rw [List.getElem?_eq_none (by omega), List.getElem?_eq_none (by omega)]

end Matrices

end RowMajor
