import OmniCompute.EventRuns
import Mathlib.Data.List.AList
import Mathlib.Logic.Function.Basic

/-! A table of results in front of a function that can fail, with a digest of the argument as
its key. Whether an answer is the right one depends on the arguments that share a digest. -/
namespace DigestMemo

open EventRuns

structure Memo (ι κ ν ε : Type*) where
  digest : ι → κ
  compute : ι → Except ε ν

inductive Request (ι : Type*) where
  | ask (arg : ι)
  | clear

abbrev Table (κ ν : Type*) := AList (fun _ : κ => ν)

variable {ι κ ν ε σ : Type*} [DecidableEq κ] (M : Memo ι κ ν ε)

section Machines

def Memo.ask (table : Table κ ν) (arg : ι) : Except ε ν × Table κ ν :=
  match table.lookup (M.digest arg) with
  | some value => (.ok value, table)
  | none =>
    match M.compute arg with
    | .ok value => (.ok value, table.insert (M.digest arg) value)
    | .error e => (.error e, table)

def Memo.step (table : Table κ ν) : Request ι → Option (Except ε ν) × Table κ ν
  | .ask arg => ((M.ask table arg).1, (M.ask table arg).2)
  | .clear => (none, ∅)

def Memo.machine : Machine (Table κ ν) (Request ι) (Option (Except ε ν)) := ⟨∅, M.step⟩

def Memo.record (owner : κ → Option ι) : Request ι → κ → Option ι
  | .ask arg =>
    match owner (M.digest arg), M.compute arg with
    | none, .ok _ => Function.update owner (M.digest arg) (some arg)
    | _, _ => owner
  | .clear => fun _ => none

def Memo.owners : Machine (κ → Option ι) (Request ι) Unit :=
  ⟨fun _ => none, fun owner request => ((), M.record owner request)⟩

end Machines

/-- The table holds exactly the results of the recorded owners. -/
structure Tracks (table : Table κ ν) (owner : κ → Option ι) : Prop where
  entry : ∀ k, table.lookup k = (owner k).bind fun arg => (M.compute arg).toOption
  owned : ∀ k arg, owner k = some arg → M.digest arg = k ∧ ∃ value, M.compute arg = .ok value

section Tracking

variable {M} {table : Table κ ν} {owner : κ → Option ι}

theorem Tracks.lookup_owned (h : Tracks M table owner) {k : κ} {arg : ι}
    (ho : owner k = some arg) :
    ∃ value, M.compute arg = .ok value ∧ table.lookup k = some value := by
  obtain ⟨_, value, hvalue⟩ := h.owned k arg ho
  refine ⟨value, hvalue, ?_⟩
  rw [h.entry, ho, Option.bind_some, hvalue]
  rfl

theorem Tracks.lookup_none (h : Tracks M table owner) {k : κ} (ho : owner k = none) :
    table.lookup k = none := by
  rw [h.entry, ho, Option.bind_none]

theorem tracks_empty : Tracks M ∅ fun _ => none := by
  refine ⟨?_, ?_⟩
  · intro k
    simp
  · intro k arg h
    cases h

theorem Tracks.insert (h : Tracks M table owner) {arg : ι} {value : ν}
    (hvalue : M.compute arg = .ok value) :
    Tracks M (table.insert (M.digest arg) value)
      (Function.update owner (M.digest arg) (some arg)) := by
  refine ⟨?_, ?_⟩
  · intro k
    rcases eq_or_ne k (M.digest arg) with rfl | hk
    · rw [AList.lookup_insert, Function.update_self, Option.bind_some, hvalue]
      rfl
    · rw [AList.lookup_insert_ne hk, Function.update_of_ne hk]
      exact h.entry k
  · intro k other hother
    rcases eq_or_ne k (M.digest arg) with rfl | hk
    · rw [Function.update_self] at hother
      obtain rfl := Option.some.inj hother
      exact ⟨rfl, value, hvalue⟩
    · rw [Function.update_of_ne hk] at hother
      exact h.owned k other hother

theorem Tracks.step (h : Tracks M table owner) (request : Request ι) :
    Tracks M (M.step table request).2 (M.record owner request) := by
  cases request with
  | clear => exact tracks_empty
  | ask arg =>
    rw [Memo.step, Memo.ask, Memo.record]
    cases ho : owner (M.digest arg) with
    | some other =>
      obtain ⟨value, _, hl⟩ := h.lookup_owned ho
      rw [hl]
      exact h
    | none =>
      rw [h.lookup_none ho]
      cases hc : M.compute arg with
      | ok value => exact h.insert hc
      | error e => exact h

theorem Tracks.answer (h : Tracks M table owner) (arg : ι) :
    (M.ask table arg).1 = M.compute ((owner (M.digest arg)).getD arg) := by
  rw [Memo.ask]
  cases ho : owner (M.digest arg) with
  | some other =>
    obtain ⟨value, hvalue, hl⟩ := h.lookup_owned ho
    rw [hl, Option.getD_some, hvalue]
  | none =>
    rw [h.lookup_none ho, Option.getD_none]
    cases M.compute arg <;> rfl

theorem tracks_at (requests : List (Request ι)) (i : ℕ) :
    Tracks M (M.machine.stateAt requests i) (M.owners.stateAt requests i) :=
  stateAt_related M.machine M.owners requests tracks_empty (fun _ _ e h => h.step e) i

end Tracking

section Owners

variable {M} {requests : List (Request ι)}

def Uncleared (requests : List (Request ι)) (i j : ℕ) : Prop :=
  ∀ k, i < k → k < j → requests[k]? ≠ some .clear

theorem record_ask (owner : κ → Option ι) (arg : ι) :
    M.record owner (.ask arg) = owner ∨ owner (M.digest arg) = none ∧
      M.record owner (.ask arg) = Function.update owner (M.digest arg) (some arg) := by
  rw [Memo.record]
  cases ho : owner (M.digest arg) with
  | some other => exact Or.inl rfl
  | none =>
    cases M.compute arg with
    | ok value => exact Or.inr ⟨rfl, rfl⟩
    | error e => exact Or.inl rfl

theorem record_kept {owner : κ → Option ι} {k : κ} {arg : ι} (h : owner k = some arg)
    {request : Request ι} (hr : request ≠ .clear) : M.record owner request k = some arg := by
  cases request with
  | clear => exact absurd rfl hr
  | ask other =>
    rcases record_ask owner other with hrec | ⟨ho, hrec⟩
    · rwa [hrec]
    · rw [hrec, Function.update_of_ne]
      · exact h
      · rintro rfl
        rw [h] at ho
        cases ho

theorem owner_stays {i j : ℕ} {k : κ} {arg : ι} (hij : i < j) (huncleared : Uncleared requests i j)
    (h : M.owners.stateAt requests (i + 1) k = some arg) :
    M.owners.stateAt requests j k = some arg := by
  refine stable_between M.owners requests (fun owner => owner k = some arg) hij h ?_
  intro l e hl hlj he hown
  apply record_kept hown
  rintro rfl
  exact huncleared l hl hlj he

/-- Once an argument that can be computed was asked for, its key has an owner: the one it had,
or else this argument. -/
theorem owner_after_ask {i : ℕ} {arg : ι} {value : ν} (hi : requests[i]? = some (.ask arg))
    (hvalue : M.compute arg = .ok value) :
    M.owners.stateAt requests (i + 1) (M.digest arg) =
      some ((M.owners.stateAt requests i (M.digest arg)).getD arg) := by
  rw [stateAt_succ M.owners hi]
  change M.record _ (.ask arg) _ = _
  rw [Memo.record]
  cases ho : M.owners.stateAt requests i (M.digest arg) with
  | some other => exact ho
  | none =>
    rw [hvalue]
    exact Function.update_self ..

theorem owner_asked (j : ℕ) {k : κ} {arg : ι} (h : M.owners.stateAt requests j k = some arg) :
    ∃ i < j, requests[i]? = some (.ask arg) ∧ Uncleared requests i j := by
  induction j generalizing k with
  | zero => cases h
  | succ j ih =>
    have hold : M.owners.stateAt requests j k = some arg → requests[j]? ≠ some .clear →
        ∃ i < j + 1, requests[i]? = some (.ask arg) ∧ Uncleared requests i (j + 1) := by
      intro hj hclear
      obtain ⟨i, hij, hi, huncleared⟩ := ih hj
      refine ⟨i, Nat.lt_succ_of_lt hij, hi, ?_⟩
      intro l hil hlj
      rcases Nat.lt_succ_iff_lt_or_eq.mp hlj with hlt | rfl
      · exact huncleared l hil hlt
      · exact hclear
    cases he : requests[j]? with
    | none =>
      rw [stateAt_end M.owners he] at h
      exact hold h (by rw [he]; simp)
    | some request =>
      rw [stateAt_succ M.owners he] at h
      cases request with
      | clear => cases h
      | ask other =>
        have hne : requests[j]? ≠ some .clear := by
          rw [he]
          simp
        change M.record _ (.ask other) k = _ at h
        rcases record_ask (M.owners.stateAt requests j) other with hrec | ⟨_, hrec⟩
        · rw [hrec] at h
          exact hold h hne
        · rw [hrec] at h
          rcases eq_or_ne k (M.digest other) with rfl | hk
          · rw [Function.update_self] at h
            obtain rfl := Option.some.inj h
            exact ⟨j, Nat.lt_succ_self j, he, fun l hl hlj => absurd hlj (by omega)⟩
          · rw [Function.update_of_ne hk] at h
            exact hold h hne

end Owners

section Transparency

variable {M} (source : ι → σ) (requests : List (Request ι))

/-- Every answer is the result of its own argument, and comes from its own source. -/
structure Transparent (M : Memo ι κ ν ε) (source : ι → σ) (requests : List (Request ι)) :
    Prop where
  answers : ∀ j arg, requests[j]? = some (.ask arg) →
    M.machine.outputAt requests j = some (some (M.compute arg))
  sources : ∀ j arg other, requests[j]? = some (.ask arg) →
    M.owners.stateAt requests j (M.digest arg) = some other → source other = source arg

def NoClash (M : Memo ι κ ν ε) (source : ι → σ) (requests : List (Request ι)) : Prop :=
  ∀ i j arg other, i < j → requests[i]? = some (.ask arg) → requests[j]? = some (.ask other) →
    Uncleared requests i j → M.digest arg = M.digest other →
    (∃ value, M.compute arg = .ok value) → source arg = source other

variable {source} {requests}

theorem Transparent.noClash (h : Transparent M source requests) : NoClash M source requests := by
  intro i j arg other hij hi hj huncleared hdigest ⟨value, hvalue⟩
  have hafter := owner_after_ask hi hvalue
  have hlater := owner_stays hij huncleared hafter
  rw [hdigest] at hlater
  rw [← h.sources j other _ hj hlater]
  cases ho : M.owners.stateAt requests i (M.digest other) with
  | none => rfl
  | some first =>
    rw [← hdigest] at ho
    exact (h.sources i arg first hi ho).symm

theorem NoClash.transparent (h : NoClash M source requests)
    (sourced : ∀ arg other, source arg = source other → M.compute arg = M.compute other) :
    Transparent M source requests := by
  have hsources : ∀ j arg other, requests[j]? = some (.ask arg) →
      M.owners.stateAt requests j (M.digest arg) = some other → source other = source arg := by
    intro j arg other hj ho
    obtain ⟨i, hij, hi, huncleared⟩ := owner_asked j ho
    obtain ⟨hdigest, hvalue⟩ := (tracks_at requests j).owned _ _ ho
    exact h i j other arg hij hi hj huncleared hdigest hvalue
  refine ⟨?_, hsources⟩
  intro j arg hj
  rw [outputAt_eq _ hj]
  change some (some (M.ask _ arg).1) = _
  rw [(tracks_at requests j).answer]
  cases ho : M.owners.stateAt requests j (M.digest arg) with
  | none => rfl
  | some other =>
    rw [Option.getD_some]
    rw [sourced other arg (hsources j arg other hj ho)]

end Transparency

end DigestMemo
