import OmniCompute.StraightLine

/-! Straight-line code whose operations are left uninterpreted. Run on expressions instead of
values, the code computes for every name the expression it stands for, and every reading of
the operations evaluates that expression. -/
namespace Expressions

open StraightLine

inductive Expr (κ ν : Type) where
  | name (x : ν)
  | app (k : κ) (args : List (Expr κ ν))

variable {α κ ν V W : Type}

def Expr.eval (f : κ → List V → V) (env : ν → V) : Expr κ ν → V
  | .name x => env x
  | .app k args => f k (args.map fun e => e.eval f env)

@[simp] theorem eval_name (f : κ → List V → V) (env : ν → V) (x : ν) :
    (Expr.name x : Expr κ ν).eval f env = env x := by
  rw [Expr.eval]

@[simp] theorem eval_app (f : κ → List V → V) (env : ν → V) (k : κ) (args : List (Expr κ ν)) :
    (Expr.app k args).eval f env = f k (args.map fun e => e.eval f env) := by
  rw [Expr.eval]

theorem sizeOf_lt_app [SizeOf κ] [SizeOf ν] {k : κ} {args : List (Expr κ ν)} {e : Expr κ ν}
    (h : e ∈ args) : sizeOf e < sizeOf (Expr.app k args) := by
  have := List.sizeOf_lt_of_mem h
  simp only [Expr.app.sizeOf_spec]
  omega

/-- Instructions that mean something for every reading of the operations `κ`, and nothing
that depends on what the values are. -/
structure Scheme (α κ ν : Type) where
  dst : α → ν
  src : α → List ν
  sem : ∀ {V : Type}, (κ → List V → V) → α → List V → V
  natural : ∀ {V W : Type} (f : κ → List V → V) (g : κ → List W → W) (h : V → W),
    (∀ k args, h (f k args) = g k (args.map h)) →
    ∀ i args, h (sem f i args) = sem g i (args.map h)

def Scheme.read (S : Scheme α κ ν) (f : κ → List V → V) : Code α ν V := ⟨S.dst, S.src, S.sem f⟩

def Scheme.symbolic (S : Scheme α κ ν) : Code α ν (Expr κ ν) := S.read Expr.app

section Runs

variable [DecidableEq ν] (S : Scheme α κ ν)

theorem exec_hom {f : κ → List V → V} {g : κ → List W → W} {h : V → W}
    (hom : ∀ k args, h (f k args) = g k (args.map h)) (env : ν → V) (code : List α) (x : ν) :
    h ((S.read f).exec env code x) = (S.read g).exec (fun y => h (env y)) code x := by
  induction code generalizing env with
  | nil => rfl
  | cons i code ih =>
    have hstep : (fun y => h ((S.read f).assign env i y)) =
        (S.read g).assign (fun y => h (env y)) i := by
      funext y
      by_cases hy : y = S.dst i
      · subst hy
        refine (congrArg h (assign_dst (S.read f) env i)).trans ?_
        refine Eq.trans ?_ (assign_dst (S.read g) (fun y => h (env y)) i).symm
        refine (S.natural f g h hom i _).trans ?_
        rw [List.map_map]
        rfl
      · refine (congrArg h (assign_other (S.read f) hy)).trans (Eq.symm ?_)
        exact assign_other (S.read g) hy
    rw [exec_cons, exec_cons, ih, hstep]

def Scheme.expression (code : List α) (x : ν) : Expr κ ν := S.symbolic.exec Expr.name code x

def Scheme.computed (code : List α) (i : α) : Expr κ ν :=
  S.symbolic.value (S.symbolic.exec Expr.name code) i

theorem exec_eval (f : κ → List V → V) (env : ν → V) (code : List α) (x : ν) :
    (S.read f).exec env code x = (S.expression code x).eval f env := by
  have hom : ∀ k (args : List (Expr κ ν)),
      (Expr.app k args).eval f env = f k (args.map fun e => e.eval f env) := eval_app f env
  refine Eq.symm ((exec_hom S hom Expr.name code x).trans ?_)
  simp only [eval_name]

theorem value_eval (f : κ → List V → V) (env : ν → V) (code : List α) (i : α) :
    (S.read f).value ((S.read f).exec env code) i = (S.computed code i).eval f env := by
  have hom : ∀ k (args : List (Expr κ ν)),
      (Expr.app k args).eval f env = f k (args.map fun e => e.eval f env) := eval_app f env
  refine Eq.symm ((S.natural Expr.app f (fun e => e.eval f env) hom i _).trans ?_)
  rw [List.map_map, Code.value]
  apply congrArg (S.sem f i)
  apply List.map_congr_left
  intro x _
  exact (exec_eval S f env code x).symm

end Runs

end Expressions
