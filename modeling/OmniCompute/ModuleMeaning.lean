import OmniCompute.PassManager
import OmniCompute.StraightLine
import Mathlib.Algebra.Algebra.Rat
import Mathlib.Data.List.Forall2

/-! What a module computes, for any reading of its operation kinds in a commutative
ℚ-algebra, and that constant folding and tiling leave it alone. -/
namespace ModuleMeaning

open RustValues OmniDialect PassManager StraightLine

/-- A reading of the kinds. Constants are exact, `Add` and `Mul` are sum and product. -/
structure Interpretation (V : Type) [CommRing V] [Algebra ℚ V] where
  kind : OpKind ℚ → List V → V
  fill : ∀ value args, kind (.fill value) args = algebraMap ℚ V value
  add : ∀ x y, kind .add [x, y] = x + y
  mul : ∀ x y, kind .mul [x, y] = x * y

/-- The operation recorded in `fused_activation`, when it is one that fusion records. -/
def recorded (op : OmniOp ℚ) : Option (OpKind ℚ) :=
  match op.attrs.lookup "fused_activation" with
  | some (.string "Relu") => some .relu
  | some (.string "Gelu") => some .gelu
  | some (.string "Silu") => some .silu
  | some (.string "Add") => some .add
  | _ => none

/-- The recorded operation applied to a product; `Add` adds what follows the two factors. -/
def applyRecorded {V : Type} [CommRing V] (kind : OpKind ℚ → List V → V) (product : OpKind ℚ)
    (args : List V) : Option (OpKind ℚ) → V
  | none => kind product args
  | some .add => kind product (args.take 2) + (args.drop 2).sum
  | some act => kind act [kind product args]

def meaning {V : Type} [CommRing V] [Algebra ℚ V] (I : Interpretation V) (op : OmniOp ℚ)
    (args : List V) : V :=
  if op.kind.isMatMul then applyRecorded I.kind op.kind args (recorded op)
  else I.kind op.kind args

def code {V : Type} [CommRing V] [Algebra ℚ V] (I : Interpretation V) :
    Code (OmniOp ℚ) String V :=
  ⟨OmniOp.output, OmniOp.inputs, meaning I⟩

def valueOf {V : Type} [CommRing V] [Algebra ℚ V] (I : Interpretation V) (env : String → V)
    (m : OmniModule ℚ) : String → V :=
  (code I).exec env m.ops

/-- SSA form in topological order, with binary `Add` and `Mul`; a `Vec` is no longer than 2^64. -/
structure WellFormed (ops : List (OmniOp ℚ)) : Prop where
  distinct : (ops.map OmniOp.output).Nodup
  topological : ∀ (i : ℕ) (op : OmniOp ℚ), ops[i]? = some op → ∀ x ∈ op.inputs,
    x ∉ ops.map OmniOp.output ∨ ∃ (j : ℕ) (p : OmniOp ℚ), j < i ∧ ops[j]? = some p ∧ p.output = x
  binary : ∀ op ∈ ops, op.kind = .add ∨ op.kind = .mul → op.inputs.length = 2
  bounded : ops.length < 2 ^ 64

theorem output_inj {ops : List (OmniOp ℚ)} (h : (ops.map OmniOp.output).Nodup) {a b : OmniOp ℚ}
    (ha : a ∈ ops) (hb : b ∈ ops) (hab : a.output = b.output) : a = b :=
  List.inj_on_of_nodup_map h ha hb hab

section Tiling

variable (hardware : HardwareProfile) (op : OmniOp ℚ)

theorem recorded_tileOp : recorded (tileOp hardware op) = recorded op := by
  rw [recorded, tileOp_lookup hardware op (by decide)]
  rfl

theorem exec_tile {V : Type} [CommRing V] [Algebra ℚ V] (I : Interpretation V) (env : String → V)
    (ops : List (OmniOp ℚ)) :
    (code I).exec env (ops.map (tileOp hardware)) = (code I).exec env ops := by
  apply exec_map
  · exact tileOp_output hardware
  · exact tileOp_inputs hardware
  · intro op
    funext args
    change meaning I _ args = meaning I op args
    rw [meaning, meaning, tileOp_kind, recorded_tileOp]

end Tiling

section Folding

/-- Folding keeps an operation or turns it into a `Fill`; then its inputs satisfy `P`. -/
def Folded (P : String → Prop) (op folded : OmniOp ℚ) : Prop :=
  folded = op ∨ (op.kind = .add ∨ op.kind = .mul) ∧ (∀ x ∈ op.inputs, P x) ∧
    ∃ value, folded = { op with kind := .fill value }

theorem Folded.same {P : String → Prop} {op folded : OmniOp ℚ} (h : Folded P op folded) :
    folded.id = op.id ∧ folded.inputs = op.inputs ∧ folded.output = op.output ∧
      folded.attrs = op.attrs := by
  rcases h with rfl | ⟨_, _, value, rfl⟩
  · exact ⟨rfl, rfl, rfl, rfl⟩
  · exact ⟨rfl, rfl, rfl, rfl⟩

/-- The table speaks about names of earlier operations only, and about no product. -/
structure TableOf (P : String → Prop) (constants : HashMap String ℚ) (rest : List (OmniOp ℚ)) :
    Prop where
  earlier : ∀ x value, constants.lookup x = some value → x ∉ rest.map OmniOp.output
  allowed : ∀ x value, constants.lookup x = some value → P x

def Agrees {V : Type} [CommRing V] [Algebra ℚ V] (constants : HashMap String ℚ)
    (env : String → V) : Prop :=
  ∀ x value, constants.lookup x = some value → env x = algebraMap ℚ V value

variable {P : String → Prop} {constants : HashMap String ℚ} {op : OmniOp ℚ}
  {rest : List (OmniOp ℚ)}

theorem TableOf.skip (h : TableOf P constants (op :: rest)) : TableOf P constants rest := by
  refine ⟨?_, h.allowed⟩
  intro x value hx hin
  exact h.earlier x value hx (List.mem_cons_of_mem _ hin)

theorem TableOf.record (h : TableOf P constants (op :: rest)) (hp : P op.output)
    (hd : op.output ∉ rest.map OmniOp.output) (value : ℚ) :
    TableOf P (constants.insert op.output value) rest := by
  constructor
  · intro x v hx
    by_cases hxo : x = op.output
    · exact hxo ▸ hd
    · rw [AList.lookup_insert_ne hxo] at hx
      exact h.skip.earlier x v hx
  · intro x v hx
    by_cases hxo : x = op.output
    · exact hxo ▸ hp
    · rw [AList.lookup_insert_ne hxo] at hx
      exact h.allowed x v hx

variable {V : Type} [CommRing V] [Algebra ℚ V] {env : String → V}

theorem Agrees.keep (I : Interpretation V) (h : Agrees constants env)
    (ht : TableOf P constants (op :: rest)) : Agrees constants ((code I).assign env op) := by
  intro x value hx
  have hne : x ≠ op.output := by
    intro he
    exact ht.earlier x value hx (by simp [he])
  rw [assign_other _ hne]
  exact h x value hx

theorem Agrees.record (I : Interpretation V) (h : Agrees constants env)
    (ht : TableOf P constants (op :: rest)) {value : ℚ}
    (hv : (code I).value env op = algebraMap ℚ V value) :
    Agrees (constants.insert op.output value) ((code I).assign env op) := by
  intro x v hx
  by_cases hxo : x = op.output
  · subst x
    rw [AList.lookup_insert] at hx
    obtain rfl := Option.some.inj hx
    exact (assign_dst (code I) env op).trans hv
  · rw [AList.lookup_insert_ne hxo] at hx
    exact h.keep I ht x v hx

structure FoldsTo (P : String → Prop) (constants : HashMap String ℚ) (op : OmniOp ℚ)
    (rest : List (OmniOp ℚ)) (constants' : HashMap String ℚ) (folded : OmniOp ℚ) : Prop where
  shape : Folded P op folded
  table : TableOf P constants' rest
  agrees : ∀ (V : Type) [CommRing V] [Algebra ℚ V] (I : Interpretation V) (env : String → V),
    Agrees constants env → (code I).assign env folded = (code I).assign env op ∧
      Agrees constants' ((code I).assign env op)

theorem foldsTo_self (ht : TableOf P constants (op :: rest)) :
    FoldsTo P constants op rest constants op :=
  ⟨Or.inl rfl, ht.skip, fun _ _ _ I _ h => ⟨rfl, h.keep I ht⟩⟩

theorem fill_value (I : Interpretation V) (op : OmniOp ℚ) {value : ℚ}
    (h : op.kind = .fill value) (env : String → V) :
    (code I).value env op = algebraMap ℚ V value := by
  change meaning I op _ = _
  simp [meaning, h, OpKind.isMatMul, I.fill]

theorem foldBinary_spec {combine : ℚ → ℚ → ℚ} (hkind : op.kind = .add ∨ op.kind = .mul)
    (hbinary : op.inputs.length = 2)
    (hcombine : ∀ (V : Type) [CommRing V] [Algebra ℚ V] (I : Interpretation V) (a b : ℚ),
      I.kind op.kind [algebraMap ℚ V a, algebraMap ℚ V b] = algebraMap ℚ V (combine a b))
    (ht : TableOf P constants (op :: rest)) (hp : P op.output)
    (hd : op.output ∉ rest.map OmniOp.output) :
    ∃ constants' folded, foldBinary combine constants op = .ok (constants', folded) ∧
      FoldsTo P constants op rest constants' folded := by
  obtain ⟨x, y, hin⟩ := List.length_eq_two.mp hbinary
  simp only [foldBinary]
  by_cases hall : (op.inputs.all fun input => (constants.lookup input).isSome) = true
  · have hxy : (constants.lookup x).isSome ∧ (constants.lookup y).isSome := by
      simpa [hin] using hall
    obtain ⟨a, ha⟩ := Option.isSome_iff_exists.mp hxy.1
    obtain ⟨b, hb⟩ := Option.isSome_iff_exists.mp hxy.2
    have h0 : constantAt constants op 0 = .ok a := by simp [constantAt, hin, ha]
    have h1 : constantAt constants op 1 = .ok b := by simp [constantAt, hin, hb]
    refine ⟨constants.insert op.output (combine a b),
      { op with kind := .fill (combine a b) }, ?_, ?_, ?_, ?_⟩
    · rw [if_pos hall, h0, h1]
      rfl
    · refine Or.inr ⟨hkind, ?_, combine a b, rfl⟩
      intro z hz
      rw [hin] at hz
      rcases List.mem_pair.mp hz with rfl | rfl
      · exact ht.allowed _ _ ha
      · exact ht.allowed _ _ hb
    · exact ht.record hp hd _
    · intro V _ _ I env h
      have hv : (code I).value env op = algebraMap ℚ V (combine a b) := by
        change meaning I op (op.inputs.map env) = _
        have hmm : op.kind.isMatMul = false := by
          rcases hkind with hk | hk <;> rw [hk] <;> rfl
        rw [meaning, hmm, hin]
        simpa [h x a ha, h y b hb] using hcombine V I a b
      refine ⟨?_, h.record I ht hv⟩
      have hf := fill_value I { op with kind := .fill (combine a b) } rfl env
      change Function.update env op.output _ = Function.update env op.output _
      rw [hf, hv]
  · rw [if_neg hall]
    exact ⟨constants, op, rfl, foldsTo_self ht⟩

theorem foldOp_spec (hbinary : op.kind = .add ∨ op.kind = .mul → op.inputs.length = 2)
    (ht : TableOf P constants (op :: rest)) (hp : op.kind.isMatMul = false → P op.output)
    (hd : op.output ∉ rest.map OmniOp.output) :
    ∃ constants' folded, foldOp constants op = .ok (constants', folded) ∧
      FoldsTo P constants op rest constants' folded := by
  simp only [foldOp]
  split
  · rename_i value hk
    have hpo := hp (by rw [hk]; rfl)
    refine ⟨_, _, rfl, Or.inl rfl, ht.record hpo hd value, ?_⟩
    intro V _ _ I env h
    exact ⟨rfl, h.record I ht (fill_value I op hk env)⟩
  · rename_i hk
    refine foldBinary_spec (Or.inl hk) (hbinary (Or.inl hk)) ?_ ht (hp (by rw [hk]; rfl)) hd
    intro V _ _ I a b
    rw [hk, I.add, map_add]
  · rename_i hk
    refine foldBinary_spec (Or.inr hk) (hbinary (Or.inr hk)) ?_ ht (hp (by rw [hk]; rfl)) hd
    intro V _ _ I a b
    rw [hk, I.mul, map_mul]
  · exact ⟨constants, op, rfl, foldsTo_self ht⟩

theorem foldOps_spec (ops : List (OmniOp ℚ)) (constants : HashMap String ℚ)
    (distinct : (ops.map OmniOp.output).Nodup)
    (binary : ∀ op ∈ ops, op.kind = .add ∨ op.kind = .mul → op.inputs.length = 2)
    (allowed : ∀ op ∈ ops, op.kind.isMatMul = false → P op.output)
    (table : TableOf P constants ops) :
    ∃ ops', foldOps constants ops = .ok ops' ∧ List.Forall₂ (Folded P) ops ops' ∧
      ∀ (V : Type) [CommRing V] [Algebra ℚ V] (I : Interpretation V) (env : String → V),
        Agrees constants env →
          ∀ n, (code I).exec env (ops'.take n) = (code I).exec env (ops.take n) := by
  induction ops generalizing constants with
  | nil => exact ⟨[], rfl, List.Forall₂.nil, fun _ _ _ _ _ _ _ => rfl⟩
  | cons op rest ih =>
    rw [List.map_cons, List.nodup_cons] at distinct
    obtain ⟨constants', folded, hop, hf⟩ :=
      foldOp_spec (binary op List.mem_cons_self) table (allowed op List.mem_cons_self) distinct.1
    obtain ⟨rest', hrest, hall, hexec⟩ := ih constants' distinct.2
      (fun o ho => binary o (List.mem_cons_of_mem _ ho))
      (fun o ho => allowed o (List.mem_cons_of_mem _ ho)) hf.table
    refine ⟨folded :: rest', ?_, List.Forall₂.cons hf.shape hall, ?_⟩
    · rw [foldOps, hop]
      change (foldOps constants' rest).bind _ = _
      rw [hrest]
      rfl
    · intro V _ _ I env h n
      obtain ⟨hsame, hagrees⟩ := hf.agrees V I env h
      cases n with
      | zero => rfl
      | succ n =>
        rw [List.take_succ_cons, List.take_succ_cons, exec_cons, exec_cons, hsame]
        exact hexec V I _ hagrees n

def NotProduct (ops : List (OmniOp ℚ)) (x : String) : Prop :=
  ∀ m ∈ ops, m.kind.isMatMul → m.output ≠ x

/-- Folding succeeds, and every prefix of the result computes what it computed before. -/
theorem folding_spec {ops : List (OmniOp ℚ)} (h : WellFormed ops) :
    ∃ ops', foldOps ∅ ops = .ok ops' ∧ List.Forall₂ (Folded (NotProduct ops)) ops ops' ∧
      ∀ (V : Type) [CommRing V] [Algebra ℚ V] (I : Interpretation V) (env : String → V) (n : ℕ),
        (code I).exec env (ops'.take n) = (code I).exec env (ops.take n) := by
  obtain ⟨ops', hok, hall, hexec⟩ := @foldOps_spec (NotProduct ops) ops ∅ h.distinct h.binary
    (by
      intro op hop hmm m hm hmmul he
      rw [output_inj h.distinct hm hop he, hmm] at hmmul
      cases hmmul)
    ⟨by simp, by simp⟩
  refine ⟨ops', hok, hall, ?_⟩
  intro V _ _ I env n
  exact hexec V I env (by intro x value hx; simp at hx) n

end Folding

end ModuleMeaning
