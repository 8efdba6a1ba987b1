import OmniCompute.RunLogs

/-! Linearization points. A concurrent object is read as a sequential one when some step inside
each call performs the whole call at once: the state is what the performed operations make of
it, one after the other, and each call returns what its operation returned. -/
namespace Linearization

open EventRuns RunLogs

variable {σ ε ρ τ κ ω ν α : Type*}

/-- Where a caller stands: outside, in a call without effect yet, or in one whose result is
decided. -/
inductive Stage (κ ν : Type*) where
  | outside
  | waiting (call : κ)
  | decided (call : κ) (result : ν)

inductive Enter : Stage κ ν → Option κ → Stage κ ν → Prop where
  | stay (stage : Stage κ ν) : Enter stage none stage
  | call (c : κ) : Enter .outside (some c) (.waiting c)

inductive Perform (resolves : κ → ω → Prop) (result : ω → ν) :
    Stage κ ν → Option ω → Stage κ ν → Prop where
  | stay (stage : Stage κ ν) : Perform resolves result stage none stage
  | effect {c : κ} {op : ω} (h : resolves c op) :
    Perform resolves result (.waiting c) (some op) (.decided c (result op))

inductive Return : Stage κ ν → Option ν → Stage κ ν → Prop where
  | stay (stage : Stage κ ν) : Return stage none stage
  | leave (c : κ) (r : ν) : Return (.decided c r) (some r) .outside

/-- Which steps of a machine enter a call, perform an operation, and return. -/
structure Reading (σ ε τ κ ω ν α : Type*) where
  caller : ε → τ
  view : σ → α
  stage : σ → τ → Stage κ ν
  enters : σ → ε → Option κ
  performs : σ → ε → Option ω
  returns : σ → ε → Option ν

/-- Any step goes through its three parts in order, for its own caller, and moves the sequential
object by the operation it performs. -/
structure Sound (M : Machine σ ε ρ) (S : Machine α ω ν) (R : Reading σ ε τ κ ω ν α)
    (resolves : κ → ω → Prop) (Valid : σ → Prop) : Prop where
  valid_start : Valid M.start
  valid_step : ∀ s e, Valid s → Valid (M.step s e).2
  view_start : R.view M.start = S.start
  view_step : ∀ s e, Valid s → R.view (M.step s e).2 =
    ((R.performs s e).map fun op => (S.step (R.view s) op).2).getD (R.view s)
  outside_start : ∀ t, R.stage M.start t = .outside
  others : ∀ s e t, t ≠ R.caller e → R.stage (M.step s e).2 t = R.stage s t
  own : ∀ s e, Valid s → ∃ entered done,
    Enter (R.stage s (R.caller e)) (R.enters s e) entered ∧
    Perform resolves (fun op => (S.step (R.view s) op).1) entered (R.performs s e) done ∧
    Return done (R.returns s e) (R.stage (M.step s e).2 (R.caller e))

section Runs

variable (M : Machine σ ε ρ) (S : Machine α ω ν) (R : Reading σ ε τ κ ω ν α)
  (resolves : κ → ω → Prop) (events : List ε)

def EnteredAt (i : ℕ) (t : τ) (c : κ) : Prop :=
  ∃ e, events[i]? = some e ∧ R.caller e = t ∧ R.enters (M.stateAt events i) e = some c

def PerformedAt (i : ℕ) (t : τ) (op : ω) : Prop :=
  ∃ e, events[i]? = some e ∧ R.caller e = t ∧ R.performs (M.stateAt events i) e = some op

def ReturnedAt (i : ℕ) (t : τ) (r : ν) : Prop :=
  ∃ e, events[i]? = some e ∧ R.caller e = t ∧ R.returns (M.stateAt events i) e = some r

def operations (i : ℕ) : List ω :=
  gathered M (fun s e => (R.performs s e).toList) events i

def Silent (i : ℕ) (t : τ) : Prop :=
  (∀ op, ¬ PerformedAt M R events i t op) ∧ ∀ r, ¬ ReturnedAt M R events i t r

/-- The call that `t` entered at `k` has had no effect before `i`. -/
structure Waits (k i : ℕ) (t : τ) (c : κ) : Prop where
  entered : EnteredAt M R events k t c
  silent : ∀ q, k ≤ q → q < i → Silent M R events q t

/-- The call that `t` entered at `k` took effect at `p`, as it does on the sequential object then,
and nowhere else before `n`; and has not returned before `i`. -/
structure Decides (k p n i : ℕ) (t : τ) (c : κ) (op : ω) (r : ν) : Prop where
  entered : EnteredAt M R events k t c
  performed : PerformedAt M R events p t op
  order : k ≤ p ∧ p < n
  resolved : resolves c op
  result : r = (S.step (S.after (operations M R events p)) op).1
  once : ∀ q op', k ≤ q → q < n → PerformedAt M R events q t op' → q = p
  inside : ∀ q r', k ≤ q → q < i → ¬ ReturnedAt M R events q t r'

/-- The performed operations explain the state and every result, and each belongs to a call. -/
structure Linearizable : Prop where
  state : ∀ i, R.view (M.stateAt events i) = S.after (operations M R events i)
  returns : ∀ j t r, ReturnedAt M R events j t r →
    ∃ k p c op, Decides M S R resolves events k p (j + 1) j t c op r
  performs : ∀ p t op, PerformedAt M R events p t op →
    ∃ k ≤ p, ∃ c, Waits M R events k p t c ∧ resolves c op

end Runs

section Induction

variable {M : Machine σ ε ρ} {S : Machine α ω ν} {R : Reading σ ε τ κ ω ν α}
  {resolves : κ → ω → Prop} {Valid : σ → Prop} {events : List ε} {i : ℕ} {t : τ} {e : ε}

theorem Sound.valid_at (sound : Sound M S R resolves Valid) (i : ℕ) :
    Valid (M.stateAt events i) := by
  refine stable_between M events Valid (Nat.zero_le i) ?_ fun k e _ _ _ h => sound.valid_step _ e h
  rw [stateAt_zero]
  exact sound.valid_start

theorem Sound.view_at (sound : Sound M S R resolves Valid) (i : ℕ) :
    R.view (M.stateAt events i) = S.after (operations M R events i) := by
  induction i with
  | zero =>
    rw [stateAt_zero, sound.view_start]
    rfl
  | succ i ih =>
    cases he : events[i]? with
    | none =>
      rw [stateAt_end _ he, operations, gathered_end he]
      exact ih
    | some e =>
      rw [stateAt_succ _ he, sound.view_step _ e (sound.valid_at i), operations, gathered_succ he]
      cases hp : R.performs (M.stateAt events i) e with
      | none =>
        rw [Option.toList_none, List.append_nil]
        exact ih
      | some op =>
        rw [Option.toList_some, after_snoc, ← operations, ← ih]
        rfl

theorem silent_of_other (he : events[i]? = some e) (ht : t ≠ R.caller e) :
    Silent M R events i t := by
  constructor
  · rintro op ⟨d, hd, rfl, -⟩
    rw [he, Option.some.injEq] at hd
    exact ht (congrArg R.caller hd.symm)
  · rintro r ⟨d, hd, rfl, -⟩
    rw [he, Option.some.injEq] at hd
    exact ht (congrArg R.caller hd.symm)

theorem silent_end (he : events[i]? = none) : Silent M R events i t := by
  constructor
  · rintro op ⟨d, hd, -⟩
    rw [he] at hd
    cases hd
  · rintro r ⟨d, hd, -⟩
    rw [he] at hd
    cases hd

theorem Waits.succ {k : ℕ} {c : κ} (h : Waits M R events k i t c)
    (silent : Silent M R events i t) : Waits M R events k (i + 1) t c := by
  refine ⟨h.entered, fun q hk hq => ?_⟩
  rcases Nat.lt_succ_iff_lt_or_eq.1 hq with hq | rfl
  · exact h.silent q hk hq
  · exact silent

theorem Decides.succ {k p : ℕ} {c : κ} {op : ω} {r : ν}
    (h : Decides M S R resolves events k p i i t c op r) (silent : Silent M R events i t) :
    Decides M S R resolves events k p (i + 1) (i + 1) t c op r := by
  refine ⟨h.entered, h.performed, ⟨h.order.1, Nat.lt_succ_of_lt h.order.2⟩, h.resolved, h.result,
    fun q op' hk hq hop => ?_, fun q r' hk hq => ?_⟩
  · rcases Nat.lt_succ_iff_lt_or_eq.1 hq with hq | rfl
    · exact h.once q op' hk hq hop
    · exact absurd hop (silent.1 op')
  · rcases Nat.lt_succ_iff_lt_or_eq.1 hq with hq | rfl
    · exact h.inside q r' hk hq
    · exact silent.2 r'

def Known (M : Machine σ ε ρ) (S : Machine α ω ν) (R : Reading σ ε τ κ ω ν α)
    (resolves : κ → ω → Prop) (events : List ε) (i : ℕ) (t : τ) : Stage κ ν → Prop
  | .outside => True
  | .waiting c => ∃ k < i, Waits M R events k i t c
  | .decided c r => ∃ k p op, Decides M S R resolves events k p i i t c op r

theorem Known.succ {stage : Stage κ ν} (h : Known M S R resolves events i t stage)
    (silent : Silent M R events i t) : Known M S R resolves events (i + 1) t stage := by
  cases stage with
  | outside => trivial
  | waiting c =>
    obtain ⟨k, hk, hwaits⟩ := h
    exact ⟨k, Nat.lt_succ_of_lt hk, hwaits.succ silent⟩
  | decided c r =>
    obtain ⟨k, p, op, hdecides⟩ := h
    exact ⟨k, p, op, hdecides.succ silent⟩

theorem performedAt_iff (he : events[i]? = some e) {op : ω} :
    PerformedAt M R events i (R.caller e) op ↔ R.performs (M.stateAt events i) e = some op := by
  constructor
  · rintro ⟨d, hd, -, h⟩
    rw [he, Option.some.injEq] at hd
    rwa [hd]
  · exact fun h => ⟨e, he, rfl, h⟩

theorem returnedAt_iff (he : events[i]? = some e) {r : ν} :
    ReturnedAt M R events i (R.caller e) r ↔ R.returns (M.stateAt events i) e = some r := by
  constructor
  · rintro ⟨d, hd, -, h⟩
    rw [he, Option.some.injEq] at hd
    rwa [hd]
  · exact fun h => ⟨e, he, rfl, h⟩

structure Between (M : Machine σ ε ρ) (S : Machine α ω ν) (R : Reading σ ε τ κ ω ν α)
    (resolves : κ → ω → Prop) (events : List ε) (i : ℕ) (e : ε) (entered done : Stage κ ν) :
    Prop where
  waiting : ∀ c, entered = .waiting c → ∃ k ≤ i, Waits M R events k i (R.caller e) c
  decided : ∀ c r, done = .decided c r →
    ∃ k p op, Decides M S R resolves events k p (i + 1) i (R.caller e) c op r
  kept : R.performs (M.stateAt events i) e = none → done = entered
  performed : ∀ op, R.performs (M.stateAt events i) e = some op →
    ∃ c, entered = .waiting c ∧ resolves c op ∧
      done = .decided c (S.step (R.view (M.stateAt events i)) op).1

theorem between (sound : Sound M S R resolves Valid) (he : events[i]? = some e)
    (known : Known M S R resolves events i (R.caller e) (R.stage (M.stateAt events i) (R.caller e)))
    {entered done : Stage κ ν}
    (henter : Enter (R.stage (M.stateAt events i) (R.caller e))
      (R.enters (M.stateAt events i) e) entered)
    (hperform : Perform resolves (fun op => (S.step (R.view (M.stateAt events i)) op).1) entered
      (R.performs (M.stateAt events i) e) done) :
    Between M S R resolves events i e entered done := by
  have hwaiting : ∀ c, entered = .waiting c → ∃ k ≤ i, Waits M R events k i (R.caller e) c := by
    rintro c rfl
    generalize hstage : R.stage (M.stateAt events i) (R.caller e) = stage at henter known
    generalize hcall : R.enters (M.stateAt events i) e = call at henter
    cases henter with
    | stay =>
      obtain ⟨k, hk, hwaits⟩ := known
      exact ⟨k, hk.le, hwaits⟩
    | call =>
      exact ⟨i, le_rfl, ⟨e, he, rfl, hcall⟩, fun q hq hlt => absurd hlt (Nat.not_lt.2 hq)⟩
  generalize hop : R.performs (M.stateAt events i) e = performed at hperform
  cases hperform with
  | stay =>
    refine ⟨hwaiting, fun c r hdone => ?_, fun _ => rfl, fun op h => ?_⟩
    · subst hdone
      generalize hstage : R.stage (M.stateAt events i) (R.caller e) = stage at henter known
      generalize R.enters (M.stateAt events i) e = call at henter
      cases henter with
      | stay =>
        obtain ⟨k, p, op, h⟩ := known
        refine ⟨k, p, op, h.entered, h.performed, ⟨h.order.1, Nat.lt_succ_of_lt h.order.2⟩,
          h.resolved, h.result, fun q op' hk hq hop' => ?_, h.inside⟩
        rcases Nat.lt_succ_iff_lt_or_eq.1 hq with hq | rfl
        · exact h.once q op' hk hq hop'
        · rw [performedAt_iff he, hop] at hop'
          cases hop'
    · rw [hop] at h
      cases h
  | effect hresolves =>
    rename_i c op
    refine ⟨hwaiting, fun c' r hdone => ?_, fun h => ?_, fun op' h => ?_⟩
    · cases hdone
      obtain ⟨k, hk, hwaits⟩ := hwaiting c rfl
      refine ⟨k, i, op, hwaits.entered, (performedAt_iff he).2 hop, ⟨hk, Nat.lt_succ_self i⟩,
        hresolves, by rw [sound.view_at], fun q op' hkq hq hop' => ?_, fun q r' hkq hq => ?_⟩
      · rcases Nat.lt_succ_iff_lt_or_eq.1 hq with hq | rfl
        · exact absurd hop' ((hwaits.silent q hkq hq).1 op')
        · rfl
      · exact (hwaits.silent q hkq hq).2 r'
    · rw [hop] at h
      cases h
    · rw [hop] at h
      cases h
      exact ⟨c, rfl, hresolves, rfl⟩

theorem known_step (sound : Sound M S R resolves Valid) (he : events[i]? = some e)
    (known : Known M S R resolves events i (R.caller e)
      (R.stage (M.stateAt events i) (R.caller e))) :
    Known M S R resolves events (i + 1) (R.caller e)
      (R.stage (M.stateAt events (i + 1)) (R.caller e)) := by
  obtain ⟨entered, done, henter, hperform, hreturn⟩ :=
    sound.own (M.stateAt events i) e (sound.valid_at i)
  have hb := between sound he known henter hperform
  rw [stateAt_succ _ he]
  generalize R.stage (M.step (M.stateAt events i) e).2 (R.caller e) = stage at hreturn
  generalize hr : R.returns (M.stateAt events i) e = returned at hreturn
  cases hreturn with
  | stay =>
    have hquiet : ∀ r, ¬ ReturnedAt M R events i (R.caller e) r := by
      intro r h
      rw [returnedAt_iff he, hr] at h
      cases h
    cases hstage : done with
    | outside => trivial
    | waiting c =>
      have hnone : R.performs (M.stateAt events i) e = none := by
        cases hop : R.performs (M.stateAt events i) e with
        | none => rfl
        | some op =>
          obtain ⟨c', -, -, hdone⟩ := hb.performed op hop
          rw [hstage] at hdone
          cases hdone
      obtain ⟨k, hk, hwaits⟩ := hb.waiting c ((hb.kept hnone).symm.trans hstage)
      refine ⟨k, Nat.lt_succ_of_le hk, hwaits.succ ⟨fun op h => ?_, hquiet⟩⟩
      rw [performedAt_iff he, hnone] at h
      cases h
    | decided c r =>
      obtain ⟨k, p, op, h⟩ := hb.decided c r hstage
      refine ⟨k, p, op, h.entered, h.performed, h.order, h.resolved, h.result, h.once,
        fun q r' hk hq => ?_⟩
      rcases Nat.lt_succ_iff_lt_or_eq.1 hq with hq | rfl
      · exact h.inside q r' hk hq
      · exact hquiet r'
  | leave => trivial

theorem known_at (sound : Sound M S R resolves Valid) (i : ℕ) (t : τ) :
    Known M S R resolves events i t (R.stage (M.stateAt events i) t) := by
  induction i with
  | zero =>
    rw [stateAt_zero, sound.outside_start]
    trivial
  | succ i ih =>
    cases he : events[i]? with
    | none =>
      rw [stateAt_end _ he]
      exact ih.succ (silent_end he)
    | some e =>
      by_cases ht : t = R.caller e
      · subst ht
        exact known_step sound he ih
      · rw [stateAt_succ _ he, sound.others _ e t ht]
        exact ih.succ (silent_of_other he ht)

theorem linearizable (sound : Sound M S R resolves Valid) (events : List ε) :
    Linearizable M S R resolves events := by
  refine ⟨sound.view_at, ?_, ?_⟩
  · rintro j t r ⟨e, he, rfl, hr⟩
    obtain ⟨entered, done, henter, hperform, hreturn⟩ :=
      sound.own (M.stateAt events j) e (sound.valid_at j)
    have hb := between sound he (known_at sound j _) henter hperform
    rw [hr] at hreturn
    generalize R.stage (M.step (M.stateAt events j) e).2 (R.caller e) = stage at hreturn
    cases hreturn with
    | leave c =>
      obtain ⟨k, p, op, h⟩ := hb.decided c r rfl
      exact ⟨k, p, c, op, h⟩
  · rintro p t op ⟨e, he, rfl, hop⟩
    obtain ⟨entered, done, henter, hperform, -⟩ :=
      sound.own (M.stateAt events p) e (sound.valid_at p)
    have hb := between sound he (known_at sound p _) henter hperform
    obtain ⟨c, hentered, hresolves, -⟩ := hb.performed op hop
    obtain ⟨k, hk, hwaits⟩ := hb.waiting c hentered
    exact ⟨k, hk, c, hwaits, hresolves⟩

end Induction

end Linearization
