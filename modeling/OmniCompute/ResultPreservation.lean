import OmniCompute.FusedPair

/-! Whether the whole pipeline keeps the module's result. Fusion leaves the id of the product
in place and shortens the list, so the root that the last pass looks for is the last operation
only if nothing was fused, or nothing but the last two operations. -/
namespace ResultPreservation

open RustValues OmniDialect PassManager PassStructure StraightLine ModuleMeaning FusedPair

/-- The last operation's name is still defined after `run`, with the value it had. -/
def ResultPreserved (hardware : HardwareProfile) (m : OmniModule ℚ) : Prop :=
  ∃ m', run hardware m = .ok m' ∧ ∀ last ∈ m.ops.getLast?,
    (∃ op ∈ m'.ops, op.output = last.output) ∧
    ∀ (V : Type) [CommRing V] [Algebra ℚ V] (I : Interpretation V) (env : String → V),
      valueOf I env m' last.output = valueOf I env m last.output

inductive ResultSafe (ops : List (OmniOp ℚ)) : Prop where
  /-- No operation is fused. -/
  | unfused (none : hasPair ops = false)
  /-- Only the last two operations are, and their operands allow it. -/
  | lastPair (pre : List (OmniOp ℚ)) (m a : OmniOp ℚ) (split : ops = pre ++ [m, a])
      (merged : fuses m a = true) (only : hasPair pre = false) (safe : PairSafe pre m a)

section Folding

variable {all : List (OmniOp ℚ)} {a b a' b' : OmniOp ℚ}

theorem folded_product (h : Folded (NotProduct all) a a') (ha : a.kind.isMatMul = true) :
    a' = a := by
  rcases h with rfl | ⟨hk, _, _⟩
  · rfl
  · rcases hk with hk | hk <;> rw [hk] at ha <;> cases ha

/-- A consumer of a product is never folded: a product is not in the table. -/
theorem folded_consumer (hmem : a ∈ all) (h : Folded (NotProduct all) b b')
    (ha : a.kind.isMatMul = true) (hreads : a.output ∈ b.inputs) : b' = b := by
  rcases h with rfl | ⟨_, hp, _⟩
  · rfl
  · exact absurd rfl (hp _ hreads a hmem ha)

theorem folded_fuses (hmem : a ∈ all) (h : Folded (NotProduct all) a a')
    (h' : Folded (NotProduct all) b b') : fuses a' b' = fuses a b := by
  by_cases ha : a.kind.isMatMul = true
  · rw [folded_product h ha]
    by_cases hreads : a.output ∈ b.inputs
    · rw [folded_consumer hmem h' ha hreads]
    · obtain ⟨_, hin, _, _⟩ := h'.same
      simp [fuses, hin, hreads]
  · have ha' : a'.kind.isMatMul = false := by
      rcases h with rfl | ⟨_, _, value, rfl⟩
      · exact Bool.eq_false_of_not_eq_true ha
      · rfl
    simp [fuses, ha, ha']

theorem folded_outputs {P : String → Prop} {ops ops' : List (OmniOp ℚ)}
    (h : List.Forall₂ (Folded P) ops ops') : ops'.map OmniOp.output = ops.map OmniOp.output := by
  induction h with
  | nil => rfl
  | cons hop _ ih => rw [List.map_cons, List.map_cons, ih, hop.same.2.2.1]

theorem folded_hasPair {ops ops' : List (OmniOp ℚ)}
    (h : List.Forall₂ (Folded (NotProduct all)) ops ops') (hsub : ∀ op ∈ ops, op ∈ all) :
    hasPair ops' = hasPair ops := by
  induction h with
  | nil => rfl
  | @cons a a' rest rest' hab hrest ih =>
    have hih := ih fun op hop => hsub op (List.mem_cons_of_mem _ hop)
    cases hrest with
    | nil => rfl
    | cons hb hrest =>
      rw [hasPair, hih, folded_fuses (hsub _ List.mem_cons_self) hab hb, ← hasPair]

theorem forall₂_snoc {α β : Type} {R : α → β → Prop} {xs : List α} {x : α} {zs : List β}
    (h : List.Forall₂ R (xs ++ [x]) zs) :
    ∃ ys y, zs = ys ++ [y] ∧ List.Forall₂ R xs ys ∧ R x y := by
  rw [← List.forall₂_reverse_iff, List.reverse_append, List.reverse_singleton,
    List.singleton_append] at h
  obtain ⟨y, ys, hxy, hrest, hzs⟩ := List.forall₂_cons_left_iff.mp h
  refine ⟨ys.reverse, y, ?_, ?_, hxy⟩
  · rw [← List.reverse_reverse zs, hzs, List.reverse_cons]
  · rw [← List.forall₂_reverse_iff, List.reverse_reverse]
    exact hrest

end Folding

section Pipeline

def optimized (hardware : HardwareProfile) (ops : List (OmniOp ℚ)) : List (OmniOp ℚ) :=
  (((fuse ops).map (tileOp hardware)).foldr (markOp (fuse ops).length) ([], ∅)).1

variable {hardware : HardwareProfile} {ops front : List (OmniOp ℚ)} {z : OmniOp ℚ}

theorem run_ok {m : OmniModule ℚ} (h : foldOps ∅ m.ops = .ok ops) :
    run hardware m = .ok { m with ops := optimized hardware ops } := by
  have hf : runConstantFolding m = .ok { m with ops := ops } := by
    rw [runConstantFolding, h]
    rfl
  have hops := runOperatorFusion_ops { m with ops := ops }
  have hfuse : runOperatorFusion { m with ops := ops } = { m with ops := fuse ops } := by
    simp only [runOperatorFusion] at *
    split at hops
    · rename_i he
      rw [if_pos he, ← hops]
    · rename_i he
      rw [if_neg he]
      simp only at hops
      rw [hops]
  rw [run, hf]
  change Except.ok (runDce (runLoopTiling hardware (runOperatorFusion _))) = _
  rw [hfuse]
  simp [runDce, runLoopTiling, optimized, OmniModule.opCount]

theorem sweep_pruned {V : Type} [CommRing V] [Algebra ℚ V] (I : Interpretation V) (n : ℕ)
    (ops : List (OmniOp ℚ)) :
    Pruned (code I) ops (ops.foldr (markOp n) ([], ∅)).1 (ops.foldr (markOp n) ([], ∅)).2 := by
  induction ops with
  | nil => exact Pruned.nil
  | cons op ops ih =>
    rw [List.foldr_cons, markOp]
    split
    · exact Pruned.keep ih
    · rename_i hdead
      exact Pruned.drop (fun hin => hdead (Or.inr hin)) ih

theorem outputs_tile (ops : List (OmniOp ℚ)) :
    (ops.map (tileOp hardware)).map OmniOp.output = ops.map OmniOp.output := by
  rw [List.map_map]
  exact List.map_congr_left fun op _ => tileOp_output hardware op

theorem fuse_nodup (distinct : (ops.map OmniOp.output).Nodup) :
    ((fuse ops).map OmniOp.output).Nodup := (fuse_outputs ops).nodup distinct

theorem optimized_root (distinct : (ops.map OmniOp.output).Nodup) (hend : fuse ops = front ++ [z])
    (hid : z.id = UInt64.ofNat front.length) :
    (∃ op ∈ optimized hardware ops, op.output = z.output) ∧
    ∀ (V : Type) [CommRing V] [Algebra ℚ V] (I : Interpretation V) (env : String → V),
      (code I).exec env (optimized hardware ops) z.output =
        (code I).exec env (fuse ops) z.output := by
  have hmem : tileOp hardware z ∈ optimized hardware ops := by
    rw [optimized, hend, List.map_append, List.map_singleton]
    apply sweep_root
    simpa [tileOp_id] using hid
  refine ⟨⟨_, hmem, tileOp_output hardware z⟩, ?_⟩
  intro V _ _ I env
  have hdis : (((fuse ops).map (tileOp hardware)).map (code I).dst).Nodup := by
    have := fuse_nodup distinct
    rwa [← @outputs_tile hardware] at this
  have hexec := (sweep_pruned I (fuse ops).length ((fuse ops).map (tileOp hardware))).exec hdis
    (fun x _ => rfl : ∀ x ∈ _, env x = env x) _ hmem
  rw [exec_tile] at hexec
  have hout : (code I).dst (tileOp hardware z) = z.output := tileOp_output hardware z
  rw [hout] at hexec
  exact hexec

theorem optimized_rootless (distinct : (ops.map OmniOp.output).Nodup)
    (hend : fuse ops = front ++ [z]) (hid : z.id ≠ UInt64.ofNat front.length) :
    ¬ ∃ op ∈ optimized hardware ops, op.output = z.output := by
  rintro ⟨op, hop, hout⟩
  have hsub : (optimized hardware ops).Sublist (front.map (tileOp hardware)) := by
    rw [optimized, hend, List.map_append, List.map_singleton]
    apply sweep_rootless
    simpa [tileOp_id] using hid
  obtain ⟨f, hf, rfl⟩ := List.mem_map.mp (hsub.subset hop)
  have hnodup := fuse_nodup distinct
  rw [hend, List.map_append, List.map_singleton, List.nodup_append] at hnodup
  refine hnodup.2.2 f.output (List.mem_map_of_mem hf) z.output (List.mem_singleton_self _) ?_
  rw [← hout, tileOp_output]

/-- Fusion shortens the list, so the id of its last operation no longer marks the root. -/
theorem stale_id (hbound : ops.length < 2 ^ 64) (hpair : hasPair ops = true) :
    UInt64.ofNat ops.length ≠ UInt64.ofNat (fuse ops).length := by
  have hlt := fuse_length_lt hpair
  intro he
  have := (ofNat_eq_iff hbound (hlt.trans hbound)).mp he
  omega

end Pipeline

section Result

variable {hardware : HardwareProfile} {m : OmniModule ℚ}

theorem preserved_iff {ops : List (OmniOp ℚ)} (hok : foldOps ∅ m.ops = .ok ops) :
    ResultPreserved hardware m ↔ ∀ last ∈ m.ops.getLast?,
      (∃ op ∈ optimized hardware ops, op.output = last.output) ∧
      ∀ (V : Type) [CommRing V] [Algebra ℚ V] (I : Interpretation V) (env : String → V),
        (code I).exec env (optimized hardware ops) last.output =
          (code I).exec env m.ops last.output := by
  simp only [ResultPreserved]
  rw [run_ok hok]
  constructor
  · rintro ⟨m', hm', h⟩
    obtain rfl := Except.ok.inj hm'
    exact h
  · intro h
    exact ⟨_, rfl, h⟩

/-- The folded list next to the original one, both split before their last operation. -/
structure FoldedTo (ops pre : List (OmniOp ℚ)) (last : OmniOp ℚ) (pre' : List (OmniOp ℚ))
    (last' : OmniOp ℚ) : Prop where
  front : List.Forall₂ (Folded (NotProduct ops)) pre pre'
  back : Folded (NotProduct ops) last last'
  distinct : ((pre' ++ [last']).map OmniOp.output).Nodup
  pairs : hasPair (pre' ++ [last']) = hasPair ops
  exec : ∀ (V : Type) [CommRing V] [Algebra ℚ V] (I : Interpretation V) (env : String → V) (n : ℕ),
    (code I).exec env ((pre' ++ [last']).take n) = (code I).exec env (ops.take n)

theorem folded_to {ops pre : List (OmniOp ℚ)} {last : OmniOp ℚ} (h : WellFormed ops)
    (hsplit : ops = pre ++ [last]) :
    ∃ pre' last', foldOps ∅ ops = .ok (pre' ++ [last']) ∧ FoldedTo ops pre last pre' last' := by
  obtain ⟨ops', hok, hall, hexec⟩ := folding_spec h
  have hpairs := folded_hasPair hall fun _ hop => hop
  have hdis : (ops'.map OmniOp.output).Nodup := by
    rw [folded_outputs hall]
    exact h.distinct
  have hsnoc := hall
  rw [hsplit] at hsnoc
  obtain ⟨pre', last', rfl, hfront, hback⟩ := forall₂_snoc hsnoc
  rw [← hsplit] at hfront hback
  exact ⟨pre', last', hok, hfront, hback, hdis, hpairs, hexec⟩

section Split

variable {ops pre pre' : List (OmniOp ℚ)} {last last' : OmniOp ℚ}
  (view : FoldedTo ops pre last pre' last') (hsplit : ops = pre ++ [last])

include view

theorem FoldedTo.length : pre'.length = pre.length := view.front.length_eq.symm

include hsplit

theorem FoldedTo.exec_all {V : Type} [CommRing V] [Algebra ℚ V] (I : Interpretation V)
    (env : String → V) :
    (code I).exec env (pre' ++ [last']) = (code I).exec env ops := by
  have hlen : (pre' ++ [last']).length = ops.length := by
    rw [hsplit, List.length_append, List.length_append, view.length]
    rfl
  have h := view.exec V I env ops.length
  rwa [← hlen, List.take_length, hlen, List.take_length] at h

theorem FoldedTo.last_id (hid : Numbered ops) : last'.id = UInt64.ofNat pre'.length := by
  rw [hsplit] at hid
  rw [view.back.same.1, hid.at_split, view.length]

end Split

theorem preserved_unfused (h : WellFormed m.ops) (hid : Numbered m.ops)
    (hnone : hasPair m.ops = false) : ResultPreserved hardware m := by
  rcases List.eq_nil_or_concat' m.ops with hnil | ⟨pre, last, hsplit⟩
  · rw [@preserved_iff hardware m [] (by rw [hnil]; rfl), hnil]
    simp
  obtain ⟨pre', last', hok, view⟩ := folded_to h hsplit
  rw [preserved_iff hok]
  have hself : fuse (pre' ++ [last']) = pre' ++ [last'] :=
    fuse_eq_self (view.pairs.trans hnone)
  obtain ⟨hdef, hval⟩ := @optimized_root hardware _ _ _ view.distinct hself
    (view.last_id hsplit hid)
  have hout := view.back.same.2.2.1
  rw [hout] at hdef hval
  intro l hl
  rw [hsplit, List.getLast?_concat, Option.mem_some_iff] at hl
  subst l
  refine ⟨hdef, ?_⟩
  intro V _ _ I env
  rw [hval V I env, hself, view.exec_all hsplit]

theorem lost_behind_pair (h : WellFormed m.ops) (hid : Numbered m.ops) {pre : List (OmniOp ℚ)}
    {last : OmniOp ℚ} (hsplit : m.ops = pre ++ [last]) (hpair : hasPair m.ops = true)
    (happart : ∀ x ∈ pre.getLast?, fuses x last = false) : ¬ ResultPreserved hardware m := by
  obtain ⟨pre', last', hok, view⟩ := folded_to h hsplit
  rw [preserved_iff hok]
  intro hpres
  have hsame : Apart pre' [last'] := by
    intro x' hx' b hb
    rw [List.head?_cons, Option.mem_some_iff] at hb
    subst b
    have hfront := view.front
    rcases List.eq_nil_or_concat' pre with rfl | ⟨front, x, rfl⟩
    · cases hfront
      cases hx'
    · obtain ⟨front', y, rfl, _, hxy⟩ := forall₂_snoc hfront
      obtain rfl : y = x' := by simpa using hx'
      rw [folded_fuses (by simp [hsplit]) hxy view.back]
      exact happart x (by simp)
  have hfuse : fuse (pre' ++ [last']) = fuse pre' ++ [last'] := fuse_snoc_single hsame
  have hpre : hasPair pre' = true := by
    have := view.pairs.trans hpair
    rw [hasPair_append hsame] at this
    simpa [hasPair] using this
  have hne : last'.id ≠ UInt64.ofNat (fuse pre').length := by
    have hbound := h.bounded
    rw [hsplit, List.length_append, List.length_singleton] at hbound
    rw [view.last_id hsplit hid]
    exact stale_id (by rw [view.length]; omega) hpre
  apply @optimized_rootless hardware _ _ _ view.distinct hfuse hne
  have hdef := (hpres last (by simp [hsplit])).1
  rwa [← view.back.same.2.2.1] at hdef

section LastPair

variable {pre : List (OmniOp ℚ)} {p a : OmniOp ℚ} (h : WellFormed m.ops) (hid : Numbered m.ops)
  (hsplit : m.ops = pre ++ [p, a]) (hfuses : fuses p a = true)

include h hsplit hfuses

theorem folded_pair : ∃ pre', foldOps ∅ m.ops = .ok (pre' ++ [p] ++ [a]) ∧
    FoldedTo m.ops (pre ++ [p]) a (pre' ++ [p]) a ∧ hasPair pre' = hasPair pre ∧
    fuse (pre' ++ [p] ++ [a]) = fuse pre' ++ [fusedOp p a] := by
  have hsnoc : m.ops = (pre ++ [p]) ++ [a] := by simp [hsplit]
  obtain ⟨front, a', hok, view⟩ := folded_to h hsnoc
  obtain ⟨pre', p', rfl, hpre, hp⟩ := forall₂_snoc view.front
  have hmem : p ∈ m.ops := by simp [hsplit]
  have hmul := fuses_isMatMul hfuses
  obtain rfl := folded_product hp hmul
  obtain rfl := folded_consumer hmem view.back hmul (fuses_reads hfuses)
  refine ⟨pre', hok, view, ?_, ?_⟩
  · exact folded_hasPair hpre fun op hop => by simp [hsplit, hop]
  · rw [List.append_assoc]
    exact fuse_snoc_pair hfuses

include hid

theorem lastPair_lost (hpair : hasPair pre = true) : ¬ ResultPreserved hardware m := by
  obtain ⟨pre', hok, view, hpairs, hfuse⟩ := folded_pair h hsplit hfuses
  rw [preserved_iff hok]
  intro hpres
  have hlen : pre'.length = pre.length := by simpa using view.length
  have hne : (fusedOp p a).id ≠ UInt64.ofNat (fuse pre').length := by
    have hbound := h.bounded
    rw [hsplit, List.length_append] at hbound
    rw [hsplit] at hid
    change p.id ≠ _
    rw [hid.at_split, ← hlen]
    exact stale_id (by omega) (hpairs.trans hpair)
  exact @optimized_rootless hardware _ (fuse pre') (fusedOp p a) view.distinct hfuse hne
    (hpres a (by simp [hsplit])).1

theorem lastPair_alone (honly : hasPair pre = false) :
    ResultPreserved hardware m ↔ PairAgrees pre p a := by
  obtain ⟨pre', hok, view, hpairs, hfuse⟩ := folded_pair h hsplit hfuses
  rw [fuse_eq_self (hpairs.trans honly)] at hfuse
  have hlen : pre'.length = pre.length := by simpa using view.length
  have hroot : (fusedOp p a).id = UInt64.ofNat pre'.length := by
    rw [hsplit] at hid
    rw [hlen]
    exact hid.at_split
  obtain ⟨hdef, hval⟩ := @optimized_root hardware _ _ _ view.distinct hfuse hroot
  have hmerged : ∀ (V : Type) [CommRing V] [Algebra ℚ V] (I : Interpretation V)
      (env : String → V),
      (code I).exec env (optimized hardware (pre' ++ [p] ++ [a])) a.output =
        (code I).value ((code I).exec env pre) (fusedOp p a) := by
    intro V _ _ I env
    have hfront := view.exec V I env pre.length
    rw [hsplit, List.take_left, ← hlen, List.append_assoc, List.take_left] at hfront
    have := hval V I env
    rw [hfuse, exec_snoc, hfront] at this
    exact this.trans (assign_dst (code I) _ (fusedOp p a))
  have hplain : ∀ (V : Type) [CommRing V] [Algebra ℚ V] (I : Interpretation V)
      (env : String → V),
      (code I).exec env m.ops a.output =
        (code I).value ((code I).assign ((code I).exec env pre) p) a := by
    intro V _ _ I env
    have hsnoc : m.ops = (pre ++ [p]) ++ [a] := by simp [hsplit]
    rw [hsnoc, exec_snoc, exec_snoc]
    exact assign_dst (code I) _ a
  have hlast : ∀ l, l ∈ m.ops.getLast? ↔ a = l := by simp [hsplit]
  rw [preserved_iff hok]
  constructor
  · intro hpres V _ _ I env
    have heq := (hpres a ((hlast a).mpr rfl)).2 V I env
    rwa [hmerged, hplain] at heq
  · intro agrees l hl
    obtain rfl := (hlast l).mp hl
    refine ⟨hdef, ?_⟩
    intro V _ _ I env
    rw [hmerged, hplain]
    exact agrees V I env

theorem lastPair_iff : ResultPreserved hardware m ↔ hasPair pre = false ∧ PairAgrees pre p a := by
  constructor
  · intro hpres
    have honly : hasPair pre = false := by
      by_contra hpair
      exact lastPair_lost h hid hsplit hfuses (Bool.eq_true_of_not_eq_false hpair) hpres
    exact ⟨honly, (lastPair_alone h hid hsplit hfuses honly).mp hpres⟩
  · rintro ⟨honly, agrees⟩
    exact (lastPair_alone h hid hsplit hfuses honly).mpr agrees

end LastPair

theorem result_preserved_iff (hardware : HardwareProfile) (pushed : List (OmniOp ℚ))
    (h : WellFormed (OmniModule.build pushed).ops) :
    ResultPreserved hardware (OmniModule.build pushed) ↔
      ResultSafe (OmniModule.build pushed).ops := by
  have hid := build_numbered pushed
  generalize OmniModule.build pushed = m at *
  constructor
  · intro hpres
    by_cases hnone : hasPair m.ops = false
    · exact .unfused hnone
    rw [Bool.not_eq_false] at hnone
    rcases List.eq_nil_or_concat' m.ops with hnil | ⟨front, a, hsplit⟩
    · rw [hnil] at hnone
      cases hnone
    by_cases happart : ∀ x ∈ front.getLast?, fuses x a = false
    · exact absurd hpres (lost_behind_pair h hid hsplit hnone happart)
    · push Not at happart
      obtain ⟨p, hp, hfuses⟩ := happart
      rw [ne_eq, Bool.not_eq_false] at hfuses
      obtain ⟨pre, rfl⟩ := List.getLast?_eq_some_iff.mp hp
      have hpair : m.ops = pre ++ [p, a] := by simp [hsplit]
      obtain ⟨honly, agrees⟩ := (lastPair_iff h hid hpair hfuses).mp hpres
      have hbinary : a.kind = .add → a.inputs.length = 2 :=
        fun ha => h.binary a (by simp [hpair]) (Or.inl ha)
      exact .lastPair pre p a hpair hfuses honly ((pair_agrees_iff hfuses hbinary).mp agrees)
  · intro hsafe
    cases hsafe with
    | unfused hnone => exact preserved_unfused h hid hnone
    | lastPair pre p a hpair hfuses honly safe =>
      have hbinary : a.kind = .add → a.inputs.length = 2 :=
        fun ha => h.binary a (by simp [hpair]) (Or.inl ha)
      exact (lastPair_iff h hid hpair hfuses).mpr
        ⟨honly, (pair_agrees_iff hfuses hbinary).mpr safe⟩

end Result

section Layers

def plainOp (kind : OpKind ℚ) (inputs : List String) (output : String) : OmniOp ℚ :=
  ⟨0, kind, inputs, output, ∅, .dynamic 2 .f32⟩

def layer : List (OmniOp ℚ) := [plainOp .matMul ["x", "w"] "h", plainOp .relu ["h"] "y"]

def layerThenProduct : List (OmniOp ℚ) := layer ++ [plainOp .matMul ["y", "v"] "z"]

theorem layer_wellFormed : WellFormed (OmniModule.build layer).ops := by
  refine ⟨by decide, ?_, by decide, by decide⟩
  · intro i op h x hx
    rcases i with _ | _ | i
    · obtain rfl := Option.some.inj h
      left; revert x; decide
    · obtain rfl := Option.some.inj h
      right; exact ⟨0, _, by decide, rfl, (List.mem_singleton.mp hx).symm⟩
    · cases h

theorem layer_preserved : ResultPreserved ⟨.vulkanGeneric "gpu" 1024⟩ (OmniModule.build layer) :=
  (result_preserved_iff _ layer layer_wellFormed).mpr
    (.lastPair [] _ _ rfl rfl rfl (.activation (by decide) rfl (Or.inl rfl)))

theorem layerThenProduct_lost : WellFormed (OmniModule.build layerThenProduct).ops ∧
    ¬ ResultPreserved ⟨.vulkanGeneric "gpu" 1024⟩ (OmniModule.build layerThenProduct) := by
  have hwf : WellFormed (OmniModule.build layerThenProduct).ops := by
    refine ⟨by decide, ?_, by decide, by decide⟩
    · intro i op h x hx
      rcases i with _ | _ | _ | i
      · obtain rfl := Option.some.inj h
        left; revert x; decide
      · obtain rfl := Option.some.inj h
        right; exact ⟨0, _, by decide, rfl, (List.mem_singleton.mp hx).symm⟩
      · obtain rfl := Option.some.inj h
        rcases List.mem_pair.mp hx with rfl | rfl
        · right; exact ⟨1, _, by decide, rfl, rfl⟩
        · left; decide
      · cases h
  refine ⟨hwf, ?_⟩
  have hsplit : (OmniModule.build layerThenProduct).ops =
      (OmniModule.build layer).ops ++ [{ plainOp .matMul ["y", "v"] "z" with id := 2 }] := rfl
  exact lost_behind_pair hwf (build_numbered _) hsplit rfl (by decide)

end Layers

end ResultPreservation
