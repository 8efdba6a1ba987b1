import Mathlib.Data.List.AList
import Mathlib.Algebra.Order.BigOperators.Group.List
import Mathlib.Algebra.Order.Group.Nat
import Mathlib.Algebra.GroupWithZero.Nat

/-! Totals of a weight over the values of a finite map, and how they move under
insertion, replacement and removal of one key. -/
namespace KeyedTotals

variable {κ ν : Type*}

def total (weight : ν → ℕ) (m : AList (fun _ : κ => ν)) : ℕ :=
  (m.entries.map fun entry => weight entry.2).sum

@[simp] theorem total_empty (weight : ν → ℕ) : total weight (∅ : AList (fun _ : κ => ν)) = 0 := by
  simp [total]

theorem total_perm (weight : ν → ℕ) {m m' : AList (fun _ : κ => ν)}
    (h : m.entries.Perm m'.entries) : total weight m = total weight m' :=
  (h.map _).sum_eq

theorem total_mono {weight bound : ν → ℕ} (m : AList (fun _ : κ => ν))
    (h : ∀ v, weight v ≤ bound v) : total weight m ≤ total bound m :=
  List.sum_le_sum fun entry _ => h entry.2

variable [DecidableEq κ]

theorem lookup_insert_some {m : AList (fun _ : κ => ν)} {k a : κ} {v b : ν}
    (h : (m.insert k v).lookup a = some b) :
    (a = k ∧ b = v) ∨ (a ≠ k ∧ m.lookup a = some b) := by
  by_cases ha : a = k
  · subst a
    rw [AList.lookup_insert] at h
    exact Or.inl ⟨rfl, (Option.some.inj h).symm⟩
  · rw [AList.lookup_insert_ne ha] at h
    exact Or.inr ⟨ha, h⟩

theorem lookup_erase_some {m : AList (fun _ : κ => ν)} {k a : κ} {b : ν}
    (h : (m.erase k).lookup a = some b) : a ≠ k ∧ m.lookup a = some b := by
  by_cases ha : a = k
  · subst a
    simp [AList.lookup_erase] at h
  · rw [AList.lookup_erase_ne ha] at h
    exact ⟨ha, h⟩

theorem lookup_insert_ite (m : AList (fun _ : κ => ν)) (k a : κ) (v : ν) :
    (m.insert k v).lookup a = if a = k then some v else m.lookup a := by
  by_cases h : a = k
  · subst h
    simp
  · simp [h, AList.lookup_insert_ne h]

theorem lookup_erase_ite (m : AList (fun _ : κ => ν)) (k a : κ) :
    (m.erase k).lookup a = if a = k then none else m.lookup a := by
  by_cases h : a = k
  · subst h
    simp
  · simp [h, AList.lookup_erase_ne h]

theorem total_insert (weight : ν → ℕ) (m : AList (fun _ : κ => ν)) (k : κ) (v : ν) :
    total weight (m.insert k v) = weight v + total weight (m.erase k) := by
  rw [total, AList.entries_insert, List.map_cons, List.sum_cons]
  rfl

/-- Looking a present key up and storing the value again only reorders the map. -/
theorem insert_lookup_perm {m : AList (fun _ : κ => ν)} {k : κ} {v : ν}
    (h : m.lookup k = some v) : (m.insert k v).entries.Perm m.entries := by
  apply List.lookup_ext (m.insert k v).nodupKeys m.nodupKeys
  intro x y
  change y ∈ (m.insert k v).lookup x ↔ y ∈ m.lookup x
  by_cases hx : x = k
  · subst x
    rw [AList.lookup_insert, h]
  · rw [AList.lookup_insert_ne hx]

theorem total_erase (weight : ν → ℕ) {m : AList (fun _ : κ => ν)} {k : κ} {v : ν}
    (h : m.lookup k = some v) : weight v + total weight (m.erase k) = total weight m := by
  rw [← total_insert]
  exact total_perm weight (insert_lookup_perm h)

theorem weight_le_total (weight : ν → ℕ) {m : AList (fun _ : κ => ν)} {k : κ} {v : ν}
    (h : m.lookup k = some v) : weight v ≤ total weight m := by
  have := total_erase weight h
  omega

theorem total_replace (weight : ν → ℕ) {m : AList (fun _ : κ => ν)} {k : κ} {v : ν} (w : ν)
    (h : m.lookup k = some v) :
    total weight (m.insert k w) + weight v = total weight m + weight w := by
  have he := total_erase weight h
  have hi := total_insert weight m k w
  omega

end KeyedTotals
