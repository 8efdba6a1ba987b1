import Mathlib.Data.List.Basic
import Mathlib.Data.List.Infix

/-! Names behind a keyword. A scan of a text collects what stands between each occurrence of the
keyword and the next closing mark; pieces in which the keyword neither occurs nor begins may be
cut out of the text. -/
namespace KeywordScan

variable {α : Type*} (keyword : List α)

/-- No occurrence of the keyword begins in the text, whatever comes behind it. -/
def Quiet (xs : List α) : Prop :=
  ∀ t ∈ xs.tails, t ≠ [] → ¬ keyword <+: t ∧ ¬ t <+: keyword

variable {keyword} {xs ys name : List α}

theorem quiet_nil : Quiet keyword [] := by
  intro t ht hne
  exact absurd (by simpa using ht) hne

theorem quiet_cons {c : α} :
    Quiet keyword (c :: xs) ↔
      (¬ keyword <+: c :: xs ∧ ¬ c :: xs <+: keyword) ∧ Quiet keyword xs := by
  simp [Quiet, List.tails]

instance Quiet.decidable [DecidableEq α] : (xs : List α) → Decidable (Quiet keyword xs)
  | [] => isTrue quiet_nil
  | c :: cs =>
    have : Decidable (Quiet keyword cs) := Quiet.decidable cs
    decidable_of_iff ((keyword.isPrefixOf (c :: cs) = false ∧
      (c :: cs).isPrefixOf keyword = false) ∧ Quiet keyword cs) (by
        rw [quiet_cons, ← Bool.not_eq_true, ← Bool.not_eq_true, List.isPrefixOf_iff_prefix,
          List.isPrefixOf_iff_prefix])

theorem Quiet.append (hx : Quiet keyword xs) (hy : Quiet keyword ys) :
    Quiet keyword (xs ++ ys) := by
  induction xs with
  | nil => exact hy
  | cons c xs ih =>
    obtain ⟨⟨hno, hpart⟩, hxs⟩ := quiet_cons.mp hx
    refine quiet_cons.mpr ⟨⟨?_, ?_⟩, ih hxs⟩
    · intro h
      rcases List.prefix_or_prefix_of_prefix h (List.prefix_append (c :: xs) ys) with h | h
      · exact hno h
      · exact hpart h
    · intro h
      exact hpart ((List.prefix_append (c :: xs) ys).trans h)

theorem Quiet.not_occurs (hx : Quiet keyword xs) (hne : keyword ≠ []) : ¬ keyword <:+: xs := by
  rintro ⟨front, back, rfl⟩
  have htail : keyword ++ back ∈ (front ++ keyword ++ back).tails := by
    rw [List.mem_tails, List.append_assoc]
    exact List.suffix_append _ _
  have hsome : keyword ++ back ≠ [] := by
    intro hnil
    exact hne (List.append_eq_nil_iff.mp hnil).1
  exact (hx _ htail hsome).1 (List.prefix_append _ _)

theorem quiet_of_not_mem {k : α} {ks : List α} (h : k ∉ xs) : Quiet (k :: ks) xs := by
  induction xs with
  | nil => exact quiet_nil
  | cons c xs ih =>
    rw [List.mem_cons, not_or] at h
    refine quiet_cons.mpr ⟨⟨?_, ?_⟩, ih h.2⟩
    · intro hp
      exact h.1 (List.cons_prefix_cons.mp hp).1
    · intro hp
      exact h.1 (List.cons_prefix_cons.mp hp).1.symm

section Names

variable [DecidableEq α] {stop : α}

variable (keyword stop) in
def names : List α → List (List α)
  | [] => []
  | c :: cs =>
    if keyword <+: c :: cs then
      ((c :: cs).drop keyword.length).takeWhile (· ≠ stop) :: names cs
    else names cs

theorem names_quiet (hx : Quiet keyword xs) :
    names keyword stop (xs ++ ys) = names keyword stop ys := by
  induction xs with
  | nil => rfl
  | cons c xs ih =>
    obtain ⟨⟨hno, hpart⟩, hxs⟩ := quiet_cons.mp hx
    rw [List.cons_append, names, if_neg, ih hxs]
    intro h
    rcases List.prefix_or_prefix_of_prefix h (List.prefix_append (c :: xs) ys) with h | h
    · exact hno h
    · exact hpart h

/-- A keyword that does not overlap itself, with a name and the mark that ends the name. -/
theorem names_keyword (hne : keyword ≠ []) (hoverlap : Quiet keyword keyword.tail)
    (hstop : stop ∉ name) :
    names keyword stop (keyword ++ (name ++ stop :: ys)) =
      name :: names keyword stop (name ++ stop :: ys) := by
  obtain ⟨k, ks, rfl⟩ := List.exists_cons_of_ne_nil hne
  have hp : k :: ks <+: k :: (ks ++ (name ++ stop :: ys)) := List.prefix_append (k :: ks) _
  have hname : (name ++ stop :: ys).takeWhile (· ≠ stop) = name := by
    rw [List.takeWhile_append_of_pos]
    · simp
    · intro a ha
      rw [decide_eq_true_eq]
      rintro rfl
      exact hstop ha
  have htail : names (k :: ks) stop (ks ++ (name ++ stop :: ys)) =
      names (k :: ks) stop (name ++ stop :: ys) := names_quiet hoverlap
  rw [List.cons_append, names, if_pos hp, htail, ← List.cons_append, List.drop_left, hname]

variable (keyword stop) in
def Defines (found : List (List α)) (xs : List α) : Prop :=
  ∀ ys, names keyword stop (xs ++ ys) = found ++ names keyword stop ys

variable {found found' : List (List α)}

theorem Quiet.defines (hx : Quiet keyword xs) : Defines keyword stop [] xs :=
  fun _ => names_quiet hx

theorem Defines.append (hx : Defines keyword stop found xs)
    (hy : Defines keyword stop found' ys) : Defines keyword stop (found ++ found') (xs ++ ys) := by
  intro zs
  rw [List.append_assoc, hx, hy, List.append_assoc]

theorem Defines.names_eq (hx : Defines keyword stop found xs) : names keyword stop xs = found := by
  simpa [names] using hx []

theorem defines_keyword (hne : keyword ≠ []) (hoverlap : Quiet keyword keyword.tail)
    (hstop : stop ∉ name) (hquiet : Quiet keyword (name ++ [stop])) :
    Defines keyword stop [name] (keyword ++ (name ++ [stop])) := by
  intro ys
  have h : names keyword stop (keyword ++ (name ++ stop :: ys)) = _ :=
    names_keyword hne hoverlap hstop
  have hrest : names keyword stop (name ++ [stop] ++ ys) = _ := names_quiet hquiet
  simp only [List.append_assoc, List.cons_append, List.nil_append] at hrest ⊢
  rw [h, hrest]

end Names

end KeywordScan
