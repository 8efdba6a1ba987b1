import Mathlib.Data.List.AList

/-! Finite maps whose entries are visited in some order, and those whose values name the key they
are stored under: who reads only the values still sees every key once and can look it up. -/
namespace NamedValues

variable {κ ν : Type*} [DecidableEq κ]

def SelfKeyed (key : ν → κ) (m : AList (fun _ : κ => ν)) : Prop :=
  ∀ k v, m.lookup k = some v → key v = k

variable {key : ν → κ} {m : AList (fun _ : κ => ν)}

theorem selfKeyed_empty : SelfKeyed key (∅ : AList (fun _ : κ => ν)) := by
  intro k v h
  cases h

theorem selfKeyed_insert (h : SelfKeyed key m) {k : κ} {v : ν} (hv : key v = k) :
    SelfKeyed key (m.insert k v) := by
  intro a b hl
  by_cases ha : a = k
  · subst ha
    rw [AList.lookup_insert] at hl
    exact Option.some.inj hl ▸ hv
  · rw [AList.lookup_insert_ne ha] at hl
    exact h a b hl

theorem lookup_entry {entry : Sigma fun _ : κ => ν} (h : entry ∈ m.entries) :
    m.lookup entry.1 = some entry.2 :=
  AList.mem_lookup_iff.mpr h

section Visits

variable {order : List (Sigma fun _ : κ => ν)}

omit [DecidableEq κ] in
theorem visited_nodup (hp : order.Perm m.entries) : (order.map Sigma.fst).Nodup :=
  (hp.map Sigma.fst).nodup_iff.mpr m.nodupKeys

theorem mem_visited (hp : order.Perm m.entries) {k : κ} :
    k ∈ order.map Sigma.fst ↔ (m.lookup k).isSome := by
  rw [AList.lookup_isSome, (hp.map Sigma.fst).mem_iff, AList.mem_keys]
  exact Iff.rfl

theorem visited_values (hp : order.Perm m.entries) :
    (order.map Sigma.snd).map some = (order.map Sigma.fst).map m.lookup := by
  rw [List.map_map, List.map_map]
  apply List.map_congr_left
  intro entry hmem
  exact (lookup_entry (hp.subset hmem)).symm

end Visits

theorem values_nodup (h : SelfKeyed key m) {order : List (Sigma fun _ : κ => ν)}
    (hp : order.Perm m.entries) : (order.map fun entry => key entry.2).Nodup := by
  have hkeys : order.map (fun entry => key entry.2) = order.map Sigma.fst := by
    apply List.map_congr_left
    intro entry hmem
    exact h entry.1 entry.2 (lookup_entry (hp.subset hmem))
  rw [hkeys]
  exact visited_nodup hp

theorem value_lookup (h : SelfKeyed key m) {order : List (Sigma fun _ : κ => ν)}
    (hp : order.Perm m.entries) {v : ν} :
    v ∈ order.map Sigma.snd ↔ m.lookup (key v) = some v := by
  constructor
  · intro hv
    obtain ⟨entry, hmem, rfl⟩ := List.mem_map.mp hv
    have hl := lookup_entry (hp.subset hmem)
    rwa [h entry.1 entry.2 hl]
  · intro hl
    exact List.mem_map.mpr ⟨⟨key v, v⟩, hp.symm.subset (AList.mem_lookup_iff.mp hl), rfl⟩

end NamedValues
