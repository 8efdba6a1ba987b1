import OmniCompute.DeadCode
import OmniCompute.DerivedConstants
import OmniCompute.ModuleInvariants
import OmniCompute.PassOrder

/-! Optimizing what has been optimized before, again and again. No pass makes a module longer,
and a run that leaves its length alone leaves nothing to do, so the runs come to an end. There
every id is a position: what removes an operation in the middle removes the rest in the end. -/
namespace SettledModules

open RustValues OmniDialect PassManager PassStructure PassOrder FusionMeaning DeadCode
  DerivedConstants ModuleInvariants

section Rounds

variable {ε α : Type*}

def rounds (step : α → Except ε α) : ℕ → α → Except ε α
  | 0, a => .ok a
  | n + 1, a => step a >>= rounds step n

/-- A step that makes nothing larger, can always be taken again, and has nothing left to do for
what it did not make smaller. -/
structure Shrinks (step : α → Except ε α) (size : α → ℕ) : Prop where
  size_le : ∀ {a b}, step a = .ok b → size b ≤ size a
  again : ∀ {a b}, step a = .ok b → ∃ c, step b = .ok c
  done : ∀ {a b}, step a = .ok b → size b = size a → step b = .ok b
  least : ∀ {a b}, step a = .ok b → size a = 0 → b = a

variable {step : α → Except ε α} {size : α → ℕ} {a b : α}

theorem rounds_succ (h : step a = .ok b) (n : ℕ) : rounds step (n + 1) a = rounds step n b := by
  rw [rounds, h]
  rfl

theorem rounds_fixed (h : step a = .ok a) (n : ℕ) : rounds step n a = .ok a := by
  induction n with
  | zero => rfl
  | succ n ih => rw [rounds_succ h, ih]

theorem rounds_keep {P : α → Prop} (keep : ∀ {a b}, step a = .ok b → P a → P b) {n : ℕ}
    (h : rounds step n a = .ok b) (ha : P a) : P b := by
  induction n generalizing a with
  | zero =>
    cases h
    exact ha
  | succ n ih =>
    cases hstep : step a with
    | error e =>
      rw [rounds, hstep] at h
      cases h
    | ok c =>
      rw [rounds_succ hstep] at h
      exact ih h (keep hstep ha)

/-- There are no more rounds that change something than the size has units to lose. -/
theorem Shrinks.limit (h : Shrinks step size) (ha : step a = .ok b) :
    ∃ c, step c = .ok c ∧ ∀ n, size a ≤ n → rounds step n a = .ok c := by
  induction hsize : size a using Nat.strong_induction_on generalizing a b with
  | _ s ih =>
    subst hsize
    rcases Nat.lt_or_eq_of_le (h.size_le ha) with hlt | heq
    · obtain ⟨c, hc⟩ := h.again ha
      obtain ⟨settled, hfixed, hrounds⟩ := ih _ hlt hc rfl
      refine ⟨settled, hfixed, fun n hn => ?_⟩
      obtain ⟨k, rfl⟩ : ∃ k, n = k + 1 := ⟨n - 1, by omega⟩
      rw [rounds_succ ha, hrounds k (by omega)]
    · have hfixed := h.done ha heq
      refine ⟨b, hfixed, fun n hn => ?_⟩
      cases n with
      | zero =>
        rw [h.least ha (Nat.le_zero.1 hn)]
        rfl
      | succ n => rw [rounds_succ ha, rounds_fixed hfixed]

end Rounds

variable {F : Type}

section Folded

/-- Nothing is left to fold behind the given constants: every sum and product reads something
else than the constants before it. -/
def Folded (known : Set String) : List (OmniOp F) → Prop
  | [] => True
  | op :: rest => (Combines op.kind → ∃ x ∈ op.inputs, x ∉ known) ∧
    Folded {x | x ∈ known ∨ IsFill op.kind ∧ x = op.output} rest

def keys (constants : HashMap String F) : Set String := {x | (constants.lookup x).isSome}

variable {known known' : Set String} {ops ops' : List (OmniOp F)} {op : OmniOp F}
  {constants constants' : HashMap String F}

theorem keys_empty : keys (∅ : HashMap String F) = ∅ := by
  ext x
  simp [keys]

theorem keys_insert (name : String) (value : F) :
    keys (constants.insert name value) = {x | x ∈ keys constants ∨ x = name} := by
  ext x
  by_cases hx : x = name
  · subst hx
    simp [keys]
  · simp [keys, AList.lookup_insert_ne hx, hx]

theorem Folded.anti (h : Folded known ops) (hsub : known' ⊆ known) : Folded known' ops := by
  induction ops generalizing known known' with
  | nil => trivial
  | cons op rest ih =>
    refine ⟨fun hk => ?_, ih h.2 fun x hx => hx.imp_left (hsub ·)⟩
    obtain ⟨x, hx, hunknown⟩ := h.1 hk
    exact ⟨x, hx, fun hknown => hunknown (hsub hknown)⟩

theorem Folded.sublist (h : Folded known ops) (hsub : ops'.Sublist ops) : Folded known ops' := by
  induction hsub generalizing known with
  | slnil => trivial
  | cons _ _ ih => exact ih (h.2.anti fun x hx => .inl hx)
  | cons_cons _ _ ih => exact ⟨h.1, ih h.2⟩

theorem Folded.tile (h : Folded known ops) (hardware : HardwareProfile) :
    Folded known (ops.map (tileOp hardware)) := by
  induction ops generalizing known with
  | nil => trivial
  | cons op rest ih =>
    rw [List.map_cons, Folded, tileOp_kind, tileOp_inputs, tileOp_output]
    exact ⟨h.1, ih h.2⟩

theorem product_not_folded {k : OpKind F} (h : k.isMatMul = true) :
    ¬ Combines k ∧ ¬ IsFill k := by
  refine ⟨?_, ?_⟩
  · rintro (rfl | rfl) <;> cases h
  · rintro ⟨value, rfl⟩
    cases h

theorem Folded.fuse [DebugText F] (h : Folded known ops) : Folded known (fuse ops) := by
  induction ops using fuse.induct generalizing known with
  | case1 => exact h
  | case2 => exact h
  | case3 current next rest hf ih =>
    rw [PassManager.fuse, if_pos hf]
    have hproduct := product_not_folded (fuses_isMatMul hf)
    refine ⟨fun hk => absurd hk hproduct.1, ih (h.2.2.anti ?_)⟩
    rintro x (hx | ⟨hfill, -⟩)
    · exact .inl (.inl hx)
    · exact absurd hfill hproduct.2
  | case4 current next rest hf ih =>
    rw [PassManager.fuse, if_neg hf]
    exact ⟨h.1, ih h.2⟩

variable [Add F] [Mul F]

theorem foldOp_folded {folded : OmniOp F} (h : foldOp constants op = .ok (constants', folded)) :
    (Combines folded.kind → ∃ x ∈ folded.inputs, x ∉ keys constants) ∧
      keys constants' = {x | x ∈ keys constants ∨ IsFill folded.kind ∧ x = folded.output} := by
  rcases foldOp_arm constants op with ⟨value, hfill, heq⟩ | ⟨hk, combine, heq⟩ | ⟨hfill, hk, heq⟩
  · cases heq.symm.trans h
    have hisFill : IsFill op.kind := ⟨value, hfill⟩
    exact ⟨fun hc => absurd hisFill hc.not_fill, by simp [keys_insert, hisFill]⟩
  · rw [heq, foldBinary] at h
    split at h
    · cases ha : constantAt constants op 0 with
      | error failure => simp [ha, bind, Except.bind] at h
      | ok a =>
        cases hb : constantAt constants op 1 with
        | error failure => simp [ha, hb, bind, Except.bind] at h
        | ok b =>
          simp only [ha, hb, bind, Except.bind, Except.ok.injEq, Prod.mk.injEq] at h
          obtain ⟨rfl, rfl⟩ := h
          have hisFill : IsFill (OpKind.fill (combine a b)) := ⟨_, rfl⟩
          exact ⟨fun hc => absurd hisFill hc.not_fill, by simp [keys_insert, hisFill]⟩
    · next hguard =>
      cases h
      refine ⟨fun _ => ?_, by simp [hk.not_fill]⟩
      simpa [keys, List.all_eq_true] using hguard
  · cases heq.symm.trans h
    exact ⟨fun hc => absurd hc hk, by simp [hfill]⟩

theorem folded_of_foldOps (h : foldOps constants ops = .ok ops') :
    Folded (keys constants) ops' := by
  induction ops generalizing constants ops' with
  | nil =>
    cases h
    trivial
  | cons op rest ih =>
    rw [foldOps] at h
    cases hop : foldOp constants op with
    | error failure => simp [hop, bind, Except.bind] at h
    | ok folded =>
      cases hrest : foldOps folded.1 rest with
      | error failure => simp [hop, hrest, bind, Except.bind] at h
      | ok rest' =>
        simp only [hop, hrest, bind, Except.bind, Except.ok.injEq] at h
        subst h
        obtain ⟨hcombines, hkeys⟩ := foldOp_folded hop
        exact ⟨hcombines, hkeys ▸ ih hrest⟩

theorem Folded.foldOps (h : Folded (keys constants) ops) :
    PassManager.foldOps constants ops = .ok ops := by
  induction ops generalizing constants with
  | nil => rfl
  | cons op rest ih =>
    have hop : ∃ constants', foldOp constants op = .ok (constants', op) := by
      rcases foldOp_arm constants op with ⟨value, _, heq⟩ | ⟨hk, combine, heq⟩ | ⟨_, _, heq⟩
      · exact ⟨_, heq⟩
      · obtain ⟨x, hx, hunknown⟩ := h.1 hk
        refine ⟨constants, heq.trans (if_neg fun hguard => hunknown ?_)⟩
        exact List.all_eq_true.1 hguard x hx
      · exact ⟨_, heq⟩
    obtain ⟨constants', hop⟩ := hop
    have hrest := (foldOp_folded hop).2 ▸ h.2
    rw [PassManager.foldOps, hop]
    simp only [bind, Except.bind, ih hrest]

end Folded

section Sequences

/-- The passes without the foldings that follow the first one. -/
def foldOnce : List Pass → List Pass
  | [] => []
  | .constantFolding :: passes => .constantFolding :: passes.filter (· ≠ .constantFolding)
  | pass :: passes => pass :: foldOnce passes

variable [Add F] [Mul F] {hardware : HardwareProfile} {m m' : OmniModule F}

theorem folded_of_folding (h : runConstantFolding m = .ok m') : Folded ∅ m'.ops := by
  rw [runConstantFolding] at h
  cases hfold : foldOps ∅ m.ops with
  | error failure =>
    rw [hfold] at h
    cases h
  | ok folded =>
    rw [hfold] at h
    cases h
    exact keys_empty (F := F) ▸ folded_of_foldOps hfold

theorem Folded.folding (h : Folded ∅ m.ops) : runConstantFolding m = .ok m := by
  have hops : PassManager.foldOps ∅ m.ops = .ok m.ops := (keys_empty (F := F) ▸ h).foldOps
  rw [runConstantFolding, hops]
  rfl

variable [DebugText F]

theorem Folded.pass (h : Folded ∅ m.ops) (hardware : HardwareProfile) (pass : Pass) :
    ∃ m', applyPass hardware m pass = .ok m' ∧ Folded ∅ m'.ops := by
  cases pass with
  | constantFolding => exact ⟨m, h.folding, h⟩
  | operatorFusion =>
    refine ⟨_, rfl, ?_⟩
    rw [runOperatorFusion_ops]
    exact h.fuse
  | loopTiling => exact ⟨_, rfl, h.tile hardware⟩
  | dce => exact ⟨_, rfl, h.sublist (mark_sublist _)⟩

theorem Folded.passes (h : Folded ∅ m.ops) (passes : List Pass) : ∃ m',
    runPasses hardware passes m = .ok m' ∧
    runPasses hardware (passes.filter (· ≠ .constantFolding)) m = .ok m' := by
  induction passes generalizing m with
  | nil => exact ⟨m, rfl, rfl⟩
  | cons pass passes ih =>
    obtain ⟨next, hpass, hnext⟩ := h.pass hardware pass
    obtain ⟨m', hall, hrest⟩ := ih hnext
    refine ⟨m', ?_, ?_⟩
    · rw [runPasses_cons, hpass]
      exact hall
    · by_cases hp : pass = .constantFolding
      · subst hp
        obtain rfl : m = next := Except.ok.inj (h.folding.symm.trans hpass)
        rw [List.filter_cons_of_neg (by simp)]
        exact hrest
      · rw [List.filter_cons_of_pos (by simpa using hp), runPasses_cons, hpass]
        exact hrest

theorem runPasses_foldOnce (passes : List Pass) (m : OmniModule F) :
    runPasses hardware passes m = runPasses hardware (foldOnce passes) m := by
  induction passes generalizing m with
  | nil => rfl
  | cons pass passes ih =>
    by_cases hp : pass = .constantFolding
    · subst hp
      rw [foldOnce, runPasses_cons, runPasses_cons]
      change runConstantFolding m >>= _ = runConstantFolding m >>= _
      cases hfold : runConstantFolding m with
      | error failure => rfl
      | ok folded =>
        obtain ⟨m', hall, hrest⟩ := (folded_of_folding hfold).passes passes
        exact hall.trans hrest.symm
    · have honce : foldOnce (pass :: passes) = pass :: foldOnce passes := by
        cases pass <;> first | rfl | exact absurd rfl hp
      rw [honce, runPasses_cons, runPasses_cons]
      exact congrArg _ (funext ih)

/-- In any sequence of passes on any module, only the first folding matters: later ones change
neither the module nor the failure, and once a folding has come through, nothing fails. -/
theorem folds_once (hardware : HardwareProfile) (passes : List Pass) (m : OmniModule F) :
    runPasses hardware passes m = runPasses hardware (foldOnce passes) m ∧
    ∀ folded, runConstantFolding m = .ok folded → ∃ m', runPasses hardware passes folded = .ok m' :=
  ⟨runPasses_foldOnce passes m, fun _ h =>
    ((folded_of_folding h).passes passes).imp fun _ hm' => hm'.1⟩

end Sequences

section Runs

/-- A module with nothing left to do for any of the passes. -/
structure Settled (hardware : HardwareProfile) (m : OmniModule F) : Prop where
  folded : Folded ∅ m.ops
  unpaired : hasPair m.ops = false
  tiled : ∀ op ∈ m.ops, tileOp hardware op = op
  live : (runDce m).ops = m.ops

variable {hardware : HardwareProfile} {m m' : OmniModule F}

theorem tileOp_again (op : OmniOp F) :
    tileOp hardware (tileOp hardware op) = tileOp hardware op := by
  rw [tileOp, tileOp_kind]
  split
  · next hk =>
    rw [tileOp, if_pos hk]
    congr 1
  · rfl

theorem hasPair_tiled (ops : List (OmniOp F)) :
    hasPair (ops.map (tileOp hardware)) = hasPair ops := by
  induction ops with
  | nil => rfl
  | cons a ops ih =>
    cases ops with
    | nil => rfl
    | cons b ops =>
      simp only [List.map_cons, hasPair, fuses, tileOp_kind, tileOp_inputs, tileOp_output] at ih ⊢
      rw [ih]

theorem runDce_congr (h : m.ops = m'.ops) : (runDce m).ops = (runDce m').ops := by
  simp only [runDce, OmniModule.opCount, h]

variable [DebugText F]

theorem runOperatorFusion_unpaired (h : hasPair m.ops = false) : runOperatorFusion m = m := by
  have hops := (runOperatorFusion_ops m).trans (fuse_eq_self h)
  rw [runOperatorFusion] at hops ⊢
  split
  · rfl
  · next hne =>
    rw [if_neg hne] at hops
    simp only at hops
    rw [hops]

variable [Add F] [Mul F]

theorem run_cases (h : run hardware m = .ok m') : ∃ folded, foldOps ∅ m.ops = .ok folded ∧
    m' = runDce (runLoopTiling hardware (runOperatorFusion { m with ops := folded })) := by
  rw [run, runConstantFolding] at h
  cases hfold : foldOps ∅ m.ops with
  | error failure =>
    rw [hfold] at h
    cases h
  | ok folded =>
    rw [hfold] at h
    cases h
    exact ⟨folded, rfl, rfl⟩

theorem Settled.run (h : Settled hardware m) : PassManager.run hardware m = .ok m := by
  have htile : runLoopTiling hardware m = m := by
    rw [runLoopTiling, List.map_congr_left h.tiled, List.map_id']
  have hdce : runDce m = m := by
    have hlive := h.live
    rw [runDce] at hlive ⊢
    simp only at hlive
    rw [hlive]
  rw [PassManager.run, h.folded.folding]
  simp only [bind, Except.bind, runOperatorFusion_unpaired h.unpaired, htile, hdce]

theorem run_narrows (h : PassManager.run hardware m = .ok m') : Narrows m m' := by
  obtain ⟨folded, hfold, rfl⟩ := run_cases h
  have hfolding : runConstantFolding m = .ok { m with ops := folded } := by
    rw [runConstantFolding, hfold]
    rfl
  have h1 := narrows_folding hfolding
  have h2 := narrows_fusion (m := { m with ops := folded })
  have h3 := narrows_tiling (m := runOperatorFusion { m with ops := folded }) hardware
  have h4 := narrows_dce (m := runLoopTiling hardware (runOperatorFusion { m with ops := folded }))
  exact ⟨((h4.ids.trans h3.ids).trans h2.ids).trans h1.ids,
    ((h4.results.trans h3.results).trans h2.results).trans h1.results,
    ((h4.valueTypes.trans h3.valueTypes).trans h2.valueTypes).trans h1.valueTypes,
    ((h4.nextId.trans h3.nextId).trans h2.nextId).trans h1.nextId⟩

theorem run_opCount_le (h : PassManager.run hardware m = .ok m') : m'.opCount ≤ m.opCount := by
  have hlength := (run_narrows h).ids.length_le
  rwa [List.length_map, List.length_map] at hlength

theorem run_folded (h : PassManager.run hardware m = .ok m') : Folded ∅ m'.ops := by
  obtain ⟨folded, hfold, rfl⟩ := run_cases h
  have hfolded : Folded ∅ folded := keys_empty (F := F) ▸ folded_of_foldOps hfold
  have hfused : Folded ∅ (runOperatorFusion { m with ops := folded }).ops := by
    rw [runOperatorFusion_ops]
    exact hfolded.fuse
  exact (hfused.tile hardware).sublist (mark_sublist _)

/-- A run that costs no operation fused nothing and removed nothing. -/
theorem settled_of_run (h : PassManager.run hardware m = .ok m') (hcount : m'.opCount = m.opCount) :
    Settled hardware m' := by
  have hfolded := run_folded h
  obtain ⟨folded, hfold, rfl⟩ := run_cases h
  have hlength : folded.length = m.ops.length := by
    have hids := congrArg List.length (foldOps_shape hfold).1
    rwa [List.length_map, List.length_map] at hids
  have htiled : (runLoopTiling hardware (runOperatorFusion { m with ops := folded })).ops =
      (fuse folded).map (tileOp hardware) := by
    rw [runLoopTiling, runOperatorFusion_ops]
  generalize runLoopTiling hardware (runOperatorFusion { m with ops := folded }) = tiled at *
  have hkept : (runDce tiled).ops.Sublist tiled.ops := mark_sublist _
  have hlost : tiled.ops.length = (fuse folded).length := by rw [htiled, List.length_map]
  have hle := hkept.length_le
  rw [OmniModule.opCount, OmniModule.opCount] at hcount
  have hunpaired : hasPair folded = false := by
    by_contra hpair
    have hlt := fuse_length_lt (Bool.eq_true_of_not_eq_false hpair)
    omega
  rw [fuse_eq_self hunpaired] at htiled hlost
  have hops : (runDce tiled).ops = tiled.ops := hkept.eq_of_length (by omega)
  refine ⟨hfolded, ?_, ?_, ?_⟩
  · rw [hops, htiled, hasPair_tiled]
    exact hunpaired
  · rw [hops, htiled]
    intro op hop
    obtain ⟨op', _, rfl⟩ := List.mem_map.1 hop
    exact tileOp_again op'
  · rw [runDce_congr hops]

theorem run_shrinks (hardware : HardwareProfile) :
    Shrinks (PassManager.run (F := F) hardware) OmniModule.opCount := by
  refine ⟨run_opCount_le, ?_, fun h hcount => (settled_of_run h hcount).run, ?_⟩
  · intro m m' h
    have hfold : foldOps ∅ m'.ops = .ok m'.ops := (keys_empty (F := F) ▸ run_folded h).foldOps
    rw [PassManager.run, runConstantFolding, hfold]
    exact ⟨_, rfl⟩
  · intro m m' h hempty
    have hops : m.ops = [] := List.length_eq_zero_iff.1 hempty
    have hsettled : Settled hardware m := by
      refine ⟨?_, ?_, ?_, ?_⟩
      · rw [hops]
        trivial
      · rw [hops]
        rfl
      · rw [hops]
        exact fun op hop => absurd hop List.not_mem_nil
      · simp only [runDce, hops, List.foldr_nil]
    exact Except.ok.inj (h.symm.trans hsettled.run)

end Runs

section Ids

variable {hardware : HardwareProfile} {m : OmniModule F} {ops : List (OmniOp F)}

def Increasing (ops : List (OmniOp F)) : Prop := (ops.map OmniOp.id).Pairwise (· < ·)

theorem increasing_of_numbered (h : Numbered ops) (few : ops.length < 2 ^ 64) :
    Increasing ops := by
  rw [Increasing, List.pairwise_map, List.pairwise_iff_getElem]
  intro i j hi hj hij
  have hsmall : UInt64.size = 2 ^ 64 := rfl
  rw [h i _ (List.getElem?_eq_getElem hi), h j _ (List.getElem?_eq_getElem hj),
    UInt64.lt_iff_toNat_lt, UInt64.toNat_ofNat_of_lt' (by omega),
    UInt64.toNat_ofNat_of_lt' (by omega)]
  exact hij

variable {front : List (OmniOp F)} {last : OmniOp F}

theorem Increasing.before (h : Increasing (front ++ [last])) : Increasing front :=
  h.sublist ((List.sublist_append_left front [last]).map OmniOp.id)

theorem Increasing.lt_last {op : OmniOp F} (h : Increasing (front ++ [last])) (hop : op ∈ front) :
    op.id.toNat < last.id.toNat := by
  rw [Increasing, List.map_append, List.pairwise_append] at h
  exact UInt64.lt_iff_toNat_lt.1
    (h.2.2 op.id (List.mem_map_of_mem hop) last.id List.mem_cons_self)

theorem Increasing.length_le (h : Increasing (front ++ [last])) :
    front.length ≤ last.id.toNat := by
  induction front using List.reverseRecOn generalizing last with
  | nil => exact Nat.zero_le _
  | append_singleton front prev ih =>
    have hprev := ih h.before
    have hlt := h.lt_last (List.mem_append_right front List.mem_cons_self)
    rw [List.length_append, List.length_singleton]
    omega

theorem numbered_snoc (h : Numbered front) (hid : last.id = UInt64.ofNat front.length) :
    Numbered (front ++ [last]) := by
  intro i op hop
  rcases Nat.lt_or_ge i front.length with hi | hi
  · rw [List.getElem?_append_left hi] at hop
    exact h i op hop
  · rw [List.getElem?_append_right hi, List.getElem?_singleton] at hop
    obtain ⟨hi', hlast⟩ := Option.ite_none_right_eq_some.1 hop
    rw [← Option.some.inj hlast, hid, show i = front.length by omega]

theorem Increasing.numbered (h : Increasing (front ++ [last])) (few : front.length < 2 ^ 64)
    (hid : last.id = UInt64.ofNat front.length) : Numbered (front ++ [last]) := by
  have hsmall : UInt64.size = 2 ^ 64 := rfl
  induction front using List.reverseRecOn generalizing last with
  | nil => exact numbered_snoc (fun i op hop => by cases hop) hid
  | append_singleton front prev ih =>
    have hlow := h.before.length_le
    have hhigh := h.lt_last (List.mem_append_right front List.mem_cons_self)
    refine numbered_snoc ?_ hid
    rw [List.length_append, List.length_singleton] at few hid
    rw [hid, UInt64.toNat_ofNat_of_lt' (by omega)] at hhigh
    apply ih h.before (by omega)
    apply UInt64.toNat_inj.1
    rw [UInt64.toNat_ofNat_of_lt' (by omega)]
    omega

theorem Settled.root (h : Settled hardware m)
    (hops : m.ops = front ++ [last]) : last.id = UInt64.ofNat front.length := by
  by_contra hid
  have hcount : m.opCount - 1 = front.length := by simp [OmniModule.opCount, hops]
  have hlost := @sweep_rootless F m.opCount front last (hcount ▸ hid)
  have hlive := h.live
  rw [runDce] at hlive
  simp only [hops] at hlive
  rw [hlive] at hlost
  have hle := hlost.length_le
  rw [List.length_append, List.length_singleton] at hle
  omega

theorem Settled.numbered (h : Settled hardware m) (increasing : Increasing m.ops)
    (few : m.ops.length < 2 ^ 64) : Numbered m.ops := by
  rcases List.eq_nil_or_concat' m.ops with hnil | ⟨front, last, hops⟩
  · rw [hnil]
    intro i op hop
    cases hop
  · rw [hops] at increasing few ⊢
    rw [List.length_append, List.length_singleton] at few
    exact increasing.numbered (by omega) (h.root hops)

theorem Settled.allRead (h : Settled hardware m) (numbered : Numbered m.ops)
    (few : m.ops.length < 2 ^ 64) : AllRead m.ops := by
  intro op hop
  have hlive := h.live
  rw [runDce_ops] at hlive
  rw [← hlive] at hop
  have hcases := BackwardSweep.mem_sweep_cases hop
  rw [hlive] at hcases hop
  exact hcases.imp_left (isRoot_iff numbered few hop).1

end Ids

/-- Optimized over and over, a module as it was built comes to rest after at most as many runs as
it has operations: with nothing left for any pass, every id a position, and nothing unread but
the last operation. -/
theorem settles [DebugText F] [Add F] [Mul F] (hardware : HardwareProfile)
    (pushed : List (OmniOp F)) (few : pushed.length < 2 ^ 64) {first : OmniModule F}
    (h : PassManager.run hardware (.build pushed) = .ok first) :
    ∃ settled, Settled hardware settled ∧ Numbered settled.ops ∧ AllRead settled.ops ∧
      ∀ n, pushed.length ≤ n →
        rounds (PassManager.run hardware) n (.build pushed) = .ok settled := by
  have hcount : (OmniModule.build pushed).opCount = pushed.length := by
    simp [OmniModule.opCount, build_ops]
  obtain ⟨settled, hfixed, hrounds⟩ := (run_shrinks hardware).limit h
  rw [hcount] at hrounds
  have hsettled := settled_of_run hfixed rfl
  have hids : Increasing settled.ops ∧ settled.ops.length < 2 ^ 64 := by
    refine rounds_keep (P := fun m => Increasing m.ops ∧ m.ops.length < 2 ^ 64) ?_
      (hrounds _ le_rfl) ?_
    · rintro m m' hrun ⟨increasing, hfew⟩
      exact ⟨increasing.sublist (run_narrows hrun).ids,
        lt_of_le_of_lt (run_opCount_le hrun) hfew⟩
    · have hfew : (OmniModule.build pushed).ops.length < 2 ^ 64 := hcount.trans_lt few
      exact ⟨increasing_of_numbered (build_numbered pushed) hfew, hfew⟩
  have hnumbered := hsettled.numbered hids.1 hids.2
  exact ⟨settled, hsettled, hnumbered, hsettled.allRead hnumbered hids.2, hrounds⟩

def biased : List (OmniOp ℚ) :=
  [⟨0, .matMul, ["x", "w"], "h", ∅, .staticTensor [1] .f32⟩,
    ⟨0, .add, ["h", "b"], "y", ∅, .staticTensor [1] .f32⟩]

theorem settles_biased : ∃ settled, Settled ⟨.cpuVectorized 8 512⟩ settled ∧
    Numbered settled.ops ∧ AllRead settled.ops ∧ ∀ n, 2 ≤ n →
      rounds (PassManager.run ⟨.cpuVectorized 8 512⟩) n (.build biased) = .ok settled := by
  obtain ⟨first, hfirst⟩ : ∃ first,
      PassManager.run ⟨.cpuVectorized 8 512⟩ (.build biased) = .ok first := ⟨_, rfl⟩
  exact settles ⟨.cpuVectorized 8 512⟩ biased (by decide) hfirst

end SettledModules
