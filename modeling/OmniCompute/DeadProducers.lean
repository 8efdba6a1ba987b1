import OmniCompute.DeadCode
import OmniCompute.DerivedConstants

/-! Constant folding and dead code elimination one after the other. A folded operation keeps the
inputs it no longer needs, so elimination still takes their producers for live. -/
namespace DeadProducers

open RustValues OmniDialect PassManager PassStructure BackwardSweep FusionMeaning DeadCode
open DerivedConstants

variable {F : Type}

/-- Both passes come to an end, and whatever is left but the last operation is read by something
left that is no `Fill`. -/
def NoDeadProducers [Add F] [Mul F] (m : OmniModule F) : Prop :=
  ∃ folded, runConstantFolding m = .ok folded ∧ ∀ op ∈ (runDce folded).ops,
    op ∈ (runDce folded).ops.getLast? ∨
      ∃ reader ∈ (runDce folded).ops, ¬ IsFill reader.kind ∧ op.output ∈ reader.inputs

/-- Folding does not panic, and what a needed operation that is folded reads is also read by a
needed one that is not. -/
structure ConstantsShared (ops : List (OmniOp F)) : Prop where
  long : ∀ front op back, ops = front ++ op :: back → ¬ Short front op
  shared : ∀ op ∈ ops, Depends ops op → Combines op.kind →
    (∀ x ∈ op.inputs, Derivable ops x) → ∀ x ∈ op.inputs,
      ∃ reader ∈ ops, Depends ops reader ∧ ¬ Derivable ops reader.output ∧ x ∈ reader.inputs

section Partners

def visible (op : OmniOp F) : UInt64 × List String × String := (op.id, op.inputs, op.output)

variable {m folded : OmniModule F} {all ops ops' : List (OmniOp F)} {op op' : OmniOp F}

theorem visible_folded (h : List.Forall₂ (Partner all) ops ops') :
    ops'.map visible = ops.map visible := by
  induction h with
  | nil => rfl
  | cons hop _ ih =>
    obtain ⟨kind, rfl⟩ := hop.same
    rw [List.map_cons, List.map_cons, ih]
    rfl

theorem partner_of (h : List.Forall₂ (Partner all) ops ops') (hop' : op' ∈ ops') :
    ∃ op ∈ ops, Partner all op op' := by
  induction h with
  | nil => cases hop'
  | cons hop _ ih =>
    rcases List.mem_cons.mp hop' with rfl | hop'
    · exact ⟨_, List.mem_cons_self, hop⟩
    · obtain ⟨op, hmem, hpartner⟩ := ih hop'
      exact ⟨op, List.mem_cons_of_mem _ hmem, hpartner⟩

/-- Elimination keeps the same positions before and after folding. -/
theorem visible_kept (h : ops'.map visible = ops.map visible) (hops : m.ops = ops)
    (hops' : folded.ops = ops') : (runDce folded).ops.map visible = (runDce m).ops.map visible := by
  have hcount : folded.opCount = m.opCount := by
    have := congrArg List.length h
    simpa [OmniModule.opCount, hops, hops'] using this
  have hsweep : ∀ (n : ℕ) (code : List (OmniOp F)),
      (sweep OmniOp.output OmniOp.inputs (isRoot n) code).1.map visible =
        (sweep (fun v : UInt64 × List String × String => v.2.2) (fun v => v.2.1)
          (fun v => v.1 = UInt64.ofNat (n - 1)) (code.map visible)).1 := by
    intro n code
    have h := @sweep_map (OmniOp F) String OmniOp.output OmniOp.inputs (isRoot n) _ _ _
      (fun v : UInt64 × List String × String => v.2.2) (fun v => v.2.1)
      (fun v => v.1 = UInt64.ofNat (n - 1)) _ visible (fun _ => rfl) (fun _ => rfl)
      (fun _ => Iff.rfl) code
    exact (congrArg Prod.fst h).symm
  rw [runDce_ops, runDce_ops, hsweep, hsweep, hops, hops', h, hcount]

variable (sorted : Sorted m.ops) (partners : List.Forall₂ (Partner m.ops) m.ops folded.ops)

include sorted partners

theorem kept_partner (hop' : op' ∈ (runDce folded).ops) :
    ∃ op ∈ (runDce m).ops, Partner m.ops op op' := by
  have hsub : op' ∈ folded.ops := (mark_sublist folded.ops).subset hop'
  obtain ⟨q, hq, hpartner⟩ := partner_of partners hsub
  have hv : visible op' ∈ (runDce m).ops.map visible := by
    rw [← visible_kept (visible_folded partners) rfl rfl]
    exact List.mem_map_of_mem hop'
  obtain ⟨op, hop, hvisible⟩ := List.mem_map.mp hv
  have hout : op.output = q.output := by
    obtain ⟨kind, rfl⟩ := hpartner.same
    exact congrArg (fun v => v.2.2) hvisible
  obtain rfl : op = q := List.inj_on_of_nodup_map sorted.distinct
    ((mark_sublist m.ops).subset hop) hq hout
  exact ⟨op, hop, hpartner⟩

theorem kept_folded (hop : op ∈ (runDce m).ops) :
    ∃ op' ∈ (runDce folded).ops, Partner m.ops op op' := by
  have hv : visible op ∈ (runDce folded).ops.map visible := by
    rw [visible_kept (visible_folded partners) rfl rfl]
    exact List.mem_map_of_mem hop
  obtain ⟨op', hop', hvisible⟩ := List.mem_map.mp hv
  obtain ⟨q, hq, hpartner⟩ := kept_partner sorted partners hop'
  have hout : op.output = q.output := by
    obtain ⟨kind, rfl⟩ := hpartner.same
    exact (congrArg (fun v => v.2.2) hvisible).symm
  obtain rfl : op = q := List.inj_on_of_nodup_map sorted.distinct
    ((mark_sublist m.ops).subset hop) ((mark_sublist m.ops).subset hq) hout
  exact ⟨op', hop', hpartner⟩

omit sorted in
theorem numbered_folded (numbered : Numbered m.ops) : Numbered folded.ops := by
  intro i op' hop'
  have hv := congrArg (fun l => l[i]?) (visible_folded partners)
  simp only [List.getElem?_map, hop', Option.map_some] at hv
  obtain ⟨op, hop, hvisible⟩ := Option.map_eq_some_iff.mp hv.symm
  rw [← numbered i op hop]
  exact (congrArg Prod.fst hvisible).symm

omit sorted in
theorem last_iff (numbered : Numbered m.ops) (few : m.ops.length < 2 ^ 64) (hop : op ∈ m.ops)
    (hop' : op' ∈ folded.ops) (hpartner : Partner m.ops op op') :
    op' ∈ (runDce folded).ops.getLast? ↔ op ∈ m.ops.getLast? := by
  have hlen := partners.length_eq
  have hnumbered := numbered_folded partners numbered
  rw [dce_getLast hnumbered, ← isRoot_iff numbered few hop,
    ← isRoot_iff hnumbered (hlen ▸ few) hop', isRoot, isRoot, ← hlen]
  obtain ⟨kind, rfl⟩ := hpartner.same
  exact Iff.rfl

end Partners

section Exactly

variable {m : OmniModule F} {op : OmniOp F} {x : String}
  (numbered : Numbered m.ops) (sorted : Sorted m.ops) (few : m.ops.length < 2 ^ 64)

include numbered sorted few

theorem producer_kept (hop : op ∈ m.ops) (hneeded : Depends m.ops op) (hx : x ∈ op.inputs)
    (hdef : x ∈ m.ops.map OmniOp.output) :
    ∃ p ∈ (runDce m).ops, p.output = x ∧ p ∉ m.ops.getLast? := by
  obtain ⟨p, hp, rfl⟩ := List.mem_map.mp hdef
  obtain ⟨last, hlast, hchain⟩ := hneeded
  refine ⟨p, (mem_runDce numbered sorted few).mpr ⟨last, hlast, hchain.tail ⟨hp, hx⟩⟩, rfl, ?_⟩
  intro hend
  obtain ⟨front, heq⟩ := List.getLast?_eq_some_iff.mp hend
  have hback := (definedFirst sorted).reader heq hop hx
  cases hback

theorem shared_of_noDead [Add F] [Mul F] (h : NoDeadProducers m) : ConstantsShared m.ops := by
  obtain ⟨folded, hfold, hread⟩ := h
  have long : ∀ front op back, m.ops = front ++ op :: back → ¬ Short front op := by
    intro front op back heq short
    obtain ⟨message, hpanic⟩ := foldOps_short knows_nothing heq short
    rw [runConstantFolding, hpanic] at hfold
    cases hfold
  refine ⟨long, ?_⟩
  intro op hop hneeded _ hin x hx
  have partners : List.Forall₂ (Partner m.ops) m.ops folded.ops := by
    obtain ⟨ops, hops, partners⟩ := folded_partners sorted long
    rw [runConstantFolding, hops] at hfold
    obtain rfl := Except.ok.inj hfold
    exact partners
  obtain ⟨p, hp, rfl, hnot⟩ := producer_kept numbered sorted few hop hneeded hx (hin x hx).defined
  obtain ⟨p', hp', hpartner⟩ := kept_folded sorted partners hp
  have hout : p'.output = p.output := by
    obtain ⟨kind, rfl⟩ := hpartner.same
    rfl
  rcases hread p' hp' with hlast | ⟨reader', hreader', hfill, hreads⟩
  · exact absurd ((last_iff partners numbered few ((mark_sublist _).subset hp)
      ((mark_sublist _).subset hp') hpartner).mp hlast) hnot
  · obtain ⟨reader, hreader, hr⟩ := kept_partner sorted partners hreader'
    refine ⟨reader, (mark_sublist _).subset hreader,
      (mem_runDce numbered sorted few).mp hreader, fun hd => hfill (hr.fill.mpr hd), ?_⟩
    obtain ⟨kind, rfl⟩ := hr.same
    rwa [hout] at hreads

theorem read_of_shared (bare : ∀ op ∈ m.ops, IsFill op.kind → op.inputs = [])
    (shared : ConstantsShared m.ops) (hneeded : Depends m.ops op) :
    op ∈ m.ops.getLast? ∨ ∃ reader ∈ m.ops, Depends m.ops reader ∧
      ¬ Derivable m.ops reader.output ∧ op.output ∈ reader.inputs := by
  have hn := (needed_iff numbered few).mpr hneeded
  rcases hn.cases with hroot | ⟨reader, hreader, hread⟩
  · exact .inl ((isRoot_iff numbered few hn.mem).mp hroot)
  · have hmem := hreader.mem
    by_cases hd : Derivable m.ops reader.output
    · obtain ⟨front, back, heq⟩ := List.append_of_mem hmem
      rcases (derives_iff sorted heq).mpr hd with hfill | ⟨hk, hin⟩
      · rw [bare reader hmem hfill] at hread
        cases hread
      · refine .inr (shared.shared reader hmem ((needed_iff numbered few).mp hreader) hk ?_ _ hread)
        intro x hx
        exact (hin x hx).derivable.mono (by simp [heq])
    · exact .inr ⟨reader, hmem, (needed_iff numbered few).mp hreader, hd, hread⟩

theorem noDead_of_shared [Add F] [Mul F]
    (bare : ∀ op ∈ m.ops, IsFill op.kind → op.inputs = []) (shared : ConstantsShared m.ops) :
    NoDeadProducers m := by
  obtain ⟨ops, hops, hpartners⟩ := folded_partners sorted shared.long
  refine ⟨{ m with ops := ops }, by rw [runConstantFolding, hops]; rfl, ?_⟩
  have partners : List.Forall₂ (Partner m.ops) m.ops (OmniModule.ops { m with ops := ops }) :=
    hpartners
  generalize { m with ops := ops } = folded at partners ⊢
  intro op' hop'
  obtain ⟨op, hop, hpartner⟩ := kept_partner sorted partners hop'
  have hout : op'.output = op.output := by
    obtain ⟨kind, rfl⟩ := hpartner.same
    rfl
  have hneeded := (mem_runDce numbered sorted few).mp hop
  rcases read_of_shared numbered sorted few bare shared hneeded with
    hlast | ⟨reader, _, hreader, hd, hread⟩
  · exact .inl ((last_iff partners numbered few ((mark_sublist _).subset hop)
      ((mark_sublist _).subset hop') hpartner).mpr hlast)
  · obtain ⟨reader', hreader', hr⟩ :=
      kept_folded sorted partners ((mem_runDce numbered sorted few).mpr hreader)
    refine .inr ⟨reader', hreader', fun hfill => hd (hr.fill.mp hfill), ?_⟩
    obtain ⟨kind, rfl⟩ := hr.same
    rwa [hout]

end Exactly

theorem no_dead_producers_iff [Add F] [Mul F] (pushed : List (OmniOp F))
    (sorted : Sorted (OmniModule.build pushed).ops)
    (few : (OmniModule.build pushed).ops.length < 2 ^ 64)
    (bare : ∀ op ∈ (OmniModule.build pushed).ops, IsFill op.kind → op.inputs = []) :
    NoDeadProducers (OmniModule.build pushed) ↔
      ConstantsShared (OmniModule.build pushed).ops := by
  have numbered := build_numbered pushed
  constructor
  · exact shared_of_noDead numbered sorted few
  · exact noDead_of_shared numbered sorted few bare

section Constants

def trimmed : List (OmniOp ℚ) :=
  [⟨0, .fill 1, [], "a", ∅, .staticTensor [1] .f32⟩,
    ⟨0, .add, ["a", "a"], "b", ∅, .staticTensor [1] .f32⟩,
    ⟨0, .matMul, ["a", "x"], "y", ∅, .staticTensor [1] .f32⟩]

theorem no_dead_producers_iff_trimmed : NoDeadProducers (OmniModule.build trimmed) := by
  have sorted : Sorted (OmniModule.build trimmed).ops := sorted_of_take (by decide) (by decide)
  have few : (OmniModule.build trimmed).ops.length < 2 ^ 64 := by decide
  refine (no_dead_producers_iff trimmed sorted few ?_).mpr ⟨?_, ?_⟩
  · decide
  · exact not_short_of_binary (by decide)
  · intro op hop hneeded hk _ x hx
    have hkept := (mem_runDce (build_numbered trimmed) sorted few).mpr hneeded
    have hout : op.output ∈ ["a", "y"] := List.mem_map_of_mem hkept
    have hsum : ∀ op ∈ (OmniModule.build trimmed).ops, Combines op.kind → op.output = "b" := by
      decide
    rw [hsum op hop hk] at hout
    exact absurd hout (by decide)

def doubled : List (OmniOp ℚ) :=
  [⟨0, .fill 1, [], "a", ∅, .staticTensor [1] .f32⟩,
    ⟨0, .add, ["a", "a"], "b", ∅, .staticTensor [1] .f32⟩]

theorem doubled_kept : Sorted (OmniModule.build doubled).ops ∧
    ¬ NoDeadProducers (OmniModule.build doubled) := by
  have sorted : Sorted (OmniModule.build doubled).ops := sorted_of_take (by decide) (by decide)
  refine ⟨sorted, ?_⟩
  rintro ⟨folded, hfold, hread⟩
  obtain rfl := Except.ok.inj hfold
  rcases hread _ List.mem_cons_self with hlast | ⟨reader, hreader, hfill, _⟩
  · have hname := congrArg (Option.map OmniOp.output) hlast
    exact absurd hname (by decide)
  · revert reader
    decide

end Constants

end DeadProducers
