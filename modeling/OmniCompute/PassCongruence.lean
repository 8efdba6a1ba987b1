import OmniCompute.PassStructure
import Mathlib.Data.List.Forall2

/-! Two modules that differ in nothing the passes look at. Whatever relation between operations
folding and fusion keep holds behind every pass, if it is about the same ids, kinds, inputs and
outputs. -/
namespace PassCongruence

open RustValues OmniDialect PassManager PassStructure

variable {F : Type}

structure SamePlace (R : OmniOp F → OmniOp F → Prop) : Prop where
  id : ∀ {a b}, R a b → b.id = a.id
  inputs : ∀ {a b}, R a b → b.inputs = a.inputs
  output : ∀ {a b}, R a b → b.output = a.output

/-- A relation that no pass can tell apart, and that the operations a pass makes anew keep. -/
structure Congruence [DebugText F] (R : OmniOp F → OmniOp F → Prop) : Prop extends
    SamePlace R where
  kind : ∀ {a b}, R a b → b.kind = a.kind
  refill : ∀ {a b}, R a b → a.kind.isMatMul = false → ∀ value : F,
    R { a with kind := .fill value } { b with kind := .fill value }
  fused : ∀ {a b c d}, R a b → R c d → R (fusedOp a c) (fusedOp b d)

/-- Both end in the same failure, or in lists whose operations are related one by one. -/
inductive Alike (R : OmniOp F → OmniOp F → Prop) :
    Result (List (OmniOp F)) → Result (List (OmniOp F)) → Prop where
  | ok {ops ops' : List (OmniOp F)} (h : List.Forall₂ R ops ops') : Alike R (.ok ops) (.ok ops')
  | error (failure : Failure) : Alike R (.error failure) (.error failure)

variable {R : OmniOp F → OmniOp F → Prop} {ops ops' : List (OmniOp F)} {a b c d : OmniOp F}
  {constants : HashMap String F}

theorem SamePlace.mark (h : SamePlace R) (n : ℕ) (hops : List.Forall₂ R ops ops') :
    List.Forall₂ R (ops.foldr (markOp n) ([], ∅)).1 (ops'.foldr (markOp n) ([], ∅)).1 ∧
      (ops'.foldr (markOp n) ([], ∅)).2 = (ops.foldr (markOp n) ([], ∅)).2 := by
  induction hops with
  | nil => exact ⟨.nil, rfl⟩
  | cons hop _ ih =>
    simp only [List.foldr_cons, markOp, h.id hop, h.output hop, h.inputs hop, ih.2]
    split
    · exact ⟨.cons hop ih.1, rfl⟩
    · exact ih

variable [DebugText F]

theorem Congruence.fuses (h : Congruence R) (hab : R a b) (hcd : R c d) :
    PassManager.fuses b d = PassManager.fuses a c := by
  rw [PassManager.fuses, PassManager.fuses, h.kind hab, h.output hab, h.kind hcd, h.inputs hcd]

theorem Congruence.fuse (h : Congruence R) (hops : List.Forall₂ R ops ops') :
    List.Forall₂ R (PassManager.fuse ops) (PassManager.fuse ops') := by
  induction ops using fuse.induct generalizing ops' with
  | case1 =>
    cases hops
    exact .nil
  | case2 op =>
    obtain _ | ⟨hop, ⟨⟩⟩ := hops
    exact .cons hop .nil
  | case3 current next rest hf ih =>
    obtain _ | ⟨hc, _ | ⟨hn, hrest⟩⟩ := hops
    rw [PassManager.fuse, PassManager.fuse, if_pos hf, if_pos (by rwa [h.fuses hc hn])]
    exact .cons (h.fused hc hn) (ih hrest)
  | case4 current next rest hf ih =>
    obtain _ | ⟨hc, _ | ⟨hn, hrest⟩⟩ := hops
    rw [PassManager.fuse, PassManager.fuse, if_neg hf, if_neg (by rwa [h.fuses hc hn])]
    exact .cons hc (ih (.cons hn hrest))

theorem Congruence.foldBinary (h : Congruence R) (combine : F → F → F) (hab : R a b)
    (ha : a.kind.isMatMul = false) :
    (∃ failure, PassManager.foldBinary combine constants a = .error failure ∧
      PassManager.foldBinary combine constants b = .error failure) ∨
    ∃ constants' a' b', PassManager.foldBinary combine constants a = .ok (constants', a') ∧
      PassManager.foldBinary combine constants b = .ok (constants', b') ∧ R a' b' := by
  have hat : ∀ i, constantAt constants b i = constantAt constants a i := by
    intro i
    rw [constantAt, constantAt, h.inputs hab]
  simp only [PassManager.foldBinary, hat, h.inputs hab, h.output hab]
  split
  · cases constantAt constants a 0 with
    | error failure => exact .inl ⟨failure, rfl, rfl⟩
    | ok x =>
      cases constantAt constants a 1 with
      | error failure => exact .inl ⟨failure, rfl, rfl⟩
      | ok y =>
        have hfill := h.refill hab ha (combine x y)
        simp only [h.inputs hab, h.output hab] at hfill
        exact .inr ⟨_, _, _, rfl, rfl, hfill⟩
  · exact .inr ⟨_, _, _, rfl, rfl, hab⟩

variable [Add F] [Mul F]

theorem Congruence.foldOp (h : Congruence R) (hab : R a b) :
    (∃ failure, PassManager.foldOp constants a = .error failure ∧
      PassManager.foldOp constants b = .error failure) ∨
    ∃ constants' a' b', PassManager.foldOp constants a = .ok (constants', a') ∧
      PassManager.foldOp constants b = .ok (constants', b') ∧ R a' b' := by
  simp only [PassManager.foldOp, h.kind hab, h.output hab]
  split
  · exact .inr ⟨_, _, _, rfl, rfl, hab⟩
  · next hk => exact h.foldBinary _ hab (by rw [hk]; rfl)
  · next hk => exact h.foldBinary _ hab (by rw [hk]; rfl)
  · exact .inr ⟨_, _, _, rfl, rfl, hab⟩

theorem Congruence.foldOps (h : Congruence R) (hops : List.Forall₂ R ops ops') :
    Alike R (PassManager.foldOps constants ops) (PassManager.foldOps constants ops') := by
  induction hops generalizing constants with
  | nil => exact .ok .nil
  | cons hop _ ih =>
    simp only [PassManager.foldOps]
    rcases h.foldOp hop with ⟨failure, ha, hb⟩ | ⟨constants', a', b', ha, hb, hab⟩
    · rw [ha, hb]
      exact .error failure
    · rw [ha, hb]
      have hrest := @ih constants'
      simp only [bind, Except.bind]
      generalize PassManager.foldOps constants' _ = r at hrest ⊢
      generalize PassManager.foldOps constants' _ = r' at hrest ⊢
      cases hrest with
      | ok hall => exact .ok (.cons hab hall)
      | error failure => exact .error failure

end PassCongruence
