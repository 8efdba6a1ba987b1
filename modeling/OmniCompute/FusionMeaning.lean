import OmniCompute.Expressions
import OmniCompute.PassStructure

/-! When operator fusion leaves the meaning of a module alone. A merged pair loses the name of
its product, so nothing behind the pair may read it, and the fused operation must compute what
the consumer computed. -/
namespace FusionMeaning

open RustValues OmniDialect PassManager PassStructure StraightLine Expressions

variable {F : Type}

/-- SSA form in topological order. -/
structure Sorted (ops : List (OmniOp F)) : Prop where
  distinct : (ops.map OmniOp.output).Nodup
  topological : ∀ pre op post, ops = pre ++ op :: post → ∀ x ∈ op.inputs,
    x ∈ ops.map OmniOp.output → x ∈ pre.map OmniOp.output

theorem sorted_of_take {ops : List (OmniOp F)} (distinct : (ops.map OmniOp.output).Nodup)
    (h : ∀ i (hi : i < ops.length), ∀ x ∈ ops[i].inputs, x ∈ ops.map OmniOp.output →
      x ∈ (ops.take i).map OmniOp.output) : Sorted ops := by
  refine ⟨distinct, ?_⟩
  rintro pre op post rfl x hx hdef
  have hi := h pre.length (by simp) x (by simpa using hx) hdef
  rwa [List.take_left] at hi

theorem Sorted.apart {ops front back : List (OmniOp F)} (sorted : Sorted ops)
    (heq : ops = front ++ back) {x : String} (hx : x ∈ front.map OmniOp.output) :
    x ∉ back.map OmniOp.output := by
  have hd := sorted.distinct
  rw [heq, List.map_append] at hd
  intro hb
  exact (List.nodup_append.mp hd).2.2 x hx x hb rfl

section Pairs

def merged : List (OmniOp F) → List String
  | [] => []
  | [_] => []
  | current :: next :: rest =>
    if fuses current next then current.output :: merged rest else merged (next :: rest)

theorem fusedOp_reads [DebugText F] {p a : OmniOp F} {x : String} (h : x ∈ (fusedOp p a).inputs) :
    x ∈ p.inputs ∨ x ∈ a.inputs ∧ x ≠ p.output := by
  simp only [fusedOp] at h
  split at h
  · rcases List.mem_append.mp h with h | h
    · exact .inl h
    · obtain ⟨ha, hne⟩ := List.mem_filter.mp h
      exact .inr ⟨ha, by simpa using hne⟩
  · exact .inl h

theorem fusedOp_keeps [DebugText F] {p a : OmniOp F} {x : String} (h : x ∈ p.inputs) :
    x ∈ (fusedOp p a).inputs := by
  simp only [fusedOp]
  split
  · exact List.mem_append_left _ h
  · exact h

theorem apart_product {pre post : List (OmniOp F)} {p a : OmniOp F} (h : fuses p a = true) :
    Apart pre (p :: a :: post) := by
  intro x _ b hb
  rw [List.head?_cons, Option.mem_some_iff] at hb
  subst b
  exact not_fuses_product (fuses_isMatMul h)

theorem merged_append {front back : List (OmniOp F)} (h : Apart front back) :
    merged (front ++ back) = merged front ++ merged back := by
  induction front using merged.induct with
  | case1 => simp [merged]
  | case2 a =>
    cases back with
    | nil => simp [merged]
    | cons b back =>
      have hab : fuses a b = false := h a (by simp) b (by simp)
      simp [merged, hab]
  | case3 a b front hf ih =>
    simp [merged, hf, ih h.tail_pair]
  | case4 a b front hf ih =>
    have hrest := ih h.tail
    rw [List.cons_append] at hrest
    simp [merged, hf, hrest]

theorem merged_pair {pre post : List (OmniOp F)} {p a : OmniOp F} (h : fuses p a = true) :
    p.output ∈ merged (pre ++ p :: a :: post) := by
  rw [merged_append (apart_product h), merged, if_pos h]
  exact List.mem_append_right _ List.mem_cons_self

theorem pair_of_merged {ops : List (OmniOp F)} {x : String} (h : x ∈ merged ops) :
    ∃ pre p a post, ops = pre ++ p :: a :: post ∧ fuses p a = true ∧ x = p.output := by
  induction ops using merged.induct with
  | case1 => cases h
  | case2 op => cases h
  | case3 current next rest hf ih =>
    rw [merged, if_pos hf] at h
    rcases List.mem_cons.mp h with rfl | h
    · exact ⟨[], current, next, rest, rfl, hf, rfl⟩
    · obtain ⟨pre, p, a, post, rfl, hpair, hx⟩ := ih h
      exact ⟨current :: next :: pre, p, a, post, rfl, hpair, hx⟩
  | case4 current next rest hf ih =>
    rw [merged, if_neg hf] at h
    obtain ⟨pre, p, a, post, heq, hpair, hx⟩ := ih h
    exact ⟨current :: pre, p, a, post, by rw [heq, List.cons_append], hpair, hx⟩

variable [DebugText F]

theorem fuse_pair {pre post : List (OmniOp F)} {p a : OmniOp F} (h : fuses p a = true) :
    fuse (pre ++ p :: a :: post) = fuse pre ++ fusedOp p a :: fuse post := by
  rw [fuse_append (apart_product h), fuse, if_pos h]

theorem fuse_perm (ops : List (OmniOp F)) :
    ((fuse ops).map OmniOp.output ++ merged ops).Perm (ops.map OmniOp.output) := by
  induction ops using fuse.induct with
  | case1 => exact List.Perm.refl _
  | case2 op => exact List.Perm.refl _
  | case3 current next rest hf ih =>
    rw [fuse, if_pos hf, merged, if_pos hf]
    exact (List.perm_middle.trans ((ih.cons next.output).cons current.output))
  | case4 current next rest hf ih =>
    rw [fuse, if_neg hf, merged, if_neg hf]
    exact ih.cons current.output

theorem fuse_split {ops pre' post' : List (OmniOp F)} {op : OmniOp F}
    (h : fuse ops = pre' ++ op :: post') :
    (∃ pre post, ops = pre ++ op :: post ∧ fuse pre = pre') ∨
    (∃ pre p a post, ops = pre ++ p :: a :: post ∧ fuses p a = true ∧ op = fusedOp p a ∧
      fuse pre = pre') := by
  induction ops using fuse.induct generalizing pre' with
  | case1 => simp [fuse] at h
  | case2 single =>
    left
    rw [fuse] at h
    obtain ⟨rfl, hsingle⟩ | ⟨_, rfl, hnil⟩ := List.cons_eq_append_iff.mp h
    · cases hsingle
      exact ⟨[], [], rfl, rfl⟩
    · simp at hnil
  | case3 current next rest hf ih =>
    rw [fuse, if_pos hf] at h
    obtain ⟨rfl, hhead⟩ | ⟨front, rfl, hrest⟩ := List.cons_eq_append_iff.mp h
    · right
      cases hhead
      exact ⟨[], current, next, rest, rfl, hf, rfl, rfl⟩
    · have hfuse : ∀ pre, fuse pre = front →
          fuse (current :: next :: pre) = fusedOp current next :: front := by
        intro pre hpre
        rw [fuse, if_pos hf, hpre]
      rcases ih hrest with ⟨pre, post, rfl, hpre⟩ | ⟨pre, p, a, post, rfl, hpair, hop, hpre⟩
      · exact .inl ⟨current :: next :: pre, post, rfl, hfuse pre hpre⟩
      · exact .inr ⟨current :: next :: pre, p, a, post, rfl, hpair, hop, hfuse pre hpre⟩
  | case4 current next rest hf ih =>
    rw [fuse, if_neg hf] at h
    obtain ⟨rfl, hhead⟩ | ⟨front, rfl, hrest⟩ := List.cons_eq_append_iff.mp h
    · left
      cases hhead
      exact ⟨[], next :: rest, rfl, rfl⟩
    · have hfuse : ∀ pre back, next :: rest = pre ++ back → fuse pre = front →
          fuse (current :: pre) = current :: front := by
        intro pre back heq hpre
        cases pre with
        | nil =>
          rw [← hpre]
          rfl
        | cons b pre =>
          obtain ⟨rfl, _⟩ := List.cons.inj heq
          rw [fuse, if_neg hf, hpre]
      rcases ih hrest with ⟨pre, post, heq, hpre⟩ | ⟨pre, p, a, post, heq, hpair, hop, hpre⟩
      · refine .inl ⟨current :: pre, post, ?_, hfuse pre _ heq hpre⟩
        rw [heq, List.cons_append]
      · refine .inr ⟨current :: pre, p, a, post, ?_, hpair, hop, hfuse pre _ heq hpre⟩
        rw [heq, List.cons_append]

/-- A read survives the pass, unless it is one of a merged consumer that fusion drops. -/
theorem fuse_reads {ops : List (OmniOp F)} {op : OmniOp F} {x : String} (hop : op ∈ ops)
    (hx : x ∈ op.inputs) : (∃ op' ∈ fuse ops, x ∈ op'.inputs) ∨
    (∃ pre p post, ops = pre ++ p :: op :: post ∧ fuses p op = true ∧
      (x = p.output ∨ op.kind ≠ .add)) := by
  induction ops using fuse.induct with
  | case1 => cases hop
  | case2 single =>
    rw [List.mem_singleton] at hop
    subst hop
    exact .inl ⟨op, by simp [fuse], hx⟩
  | case3 current next rest hf ih =>
    rw [fuse, if_pos hf]
    rcases List.mem_cons.mp hop with rfl | hop
    · exact .inl ⟨_, List.mem_cons_self, fusedOp_keeps hx⟩
    rcases List.mem_cons.mp hop with rfl | hop
    · by_cases hxp : x = current.output
      · exact .inr ⟨[], current, rest, rfl, hf, .inl hxp⟩
      · by_cases hadd : op.kind = .add
        · refine .inl ⟨_, List.mem_cons_self, ?_⟩
          have hfilter : x ∈ op.inputs.filter (· != current.output) :=
            List.mem_filter.mpr ⟨hx, by simpa using hxp⟩
          simp only [fusedOp, hadd, OpKind.isAdd, if_true]
          exact List.mem_append_right _ hfilter
        · exact .inr ⟨[], current, rest, rfl, hf, .inr hadd⟩
    · rcases ih hop with ⟨op', hop', hx'⟩ | ⟨pre, p, post, rfl, hpair, hlost⟩
      · exact .inl ⟨op', List.mem_cons_of_mem _ hop', hx'⟩
      · exact .inr ⟨current :: next :: pre, p, post, rfl, hpair, hlost⟩
  | case4 current next rest hf ih =>
    rw [fuse, if_neg hf]
    rcases List.mem_cons.mp hop with rfl | hop
    · exact .inl ⟨op, List.mem_cons_self, hx⟩
    · rcases ih hop with ⟨op', hop', hx'⟩ | ⟨pre, p, post, heq, hpair, hlost⟩
      · exact .inl ⟨op', List.mem_cons_of_mem _ hop', hx'⟩
      · exact .inr ⟨current :: pre, p, post, by rw [heq, List.cons_append], hpair, hlost⟩

end Pairs

def under {V : Type} (sem : OmniOp F → List V → V) : Code (OmniOp F) String V :=
  ⟨OmniOp.output, OmniOp.inputs, sem⟩

abbrev Readings (F : Type) := (V : Type) → (OmniOp F → List V → V) → Prop

section Preservation

variable [DebugText F]

/-- What fusion has to leave as it is, for every reading of the class and all external values. -/
structure FusionPreserves (R : Readings F) (m : OmniModule F) : Prop where
  closed : ∀ pre op post, (runOperatorFusion m).ops = pre ++ op :: post → ∀ x ∈ op.inputs,
    x ∈ m.ops.map OmniOp.output → x ∈ pre.map OmniOp.output
  same : ∀ (V : Type) (sem : OmniOp F → List V → V), R V sem → ∀ env : String → V,
    ∀ x ∈ (runOperatorFusion m).ops.map OmniOp.output,
      (under sem).exec env (runOperatorFusion m).ops x = (under sem).exec env m.ops x

def Agree (R : Readings F) (pre : List (OmniOp F)) (p a : OmniOp F) : Prop :=
  ∀ (V : Type) (sem : OmniOp F → List V → V), R V sem → ∀ env : String → V,
    (under sem).value ((under sem).exec env pre) (fusedOp p a) =
      (under sem).value ((under sem).assign ((under sem).exec env pre) p) a

/-- Nothing behind a merged pair reads the product, and the pair agrees. -/
def PairsMerge (R : Readings F) (ops : List (OmniOp F)) : Prop :=
  ∀ pre p a post, ops = pre ++ p :: a :: post → fuses p a = true →
    (∀ op ∈ post, p.output ∉ op.inputs) ∧ Agree R pre p a

section Sufficiency

variable {V : Type} {sem : OmniOp F → List V → V}

/-- Two runs that differ on dropped names only go on to differ on dropped names only. -/
theorem fuse_exec (rest : List (OmniOp F)) (e e' : String → V) (gone : Set String)
    (agree : ∀ x, x ∉ gone → e x = e' x) (unread : ∀ op ∈ rest, ∀ x ∈ op.inputs, x ∉ gone)
    (pairs : ∀ pre p a post, rest = pre ++ p :: a :: post → fuses p a = true →
      (∀ op ∈ post, p.output ∉ op.inputs) ∧
      (under sem).value ((under sem).exec e pre) (fusedOp p a) =
        (under sem).value ((under sem).assign ((under sem).exec e pre) p) a)
    (x : String) (hx : x ∉ gone) (hm : x ∉ merged rest) :
    (under sem).exec e' (fuse rest) x = (under sem).exec e rest x := by
  induction rest using fuse.induct generalizing e e' gone with
  | case1 => exact (agree x hx).symm
  | case2 op =>
    have hv : (under sem).value e op = (under sem).value e' op :=
      value_congr _ fun y hy => agree y (unread op List.mem_cons_self y hy)
    rw [fuse, exec_cons, exec_cons, exec_nil, exec_nil]
    by_cases hxo : x = op.output
    · subst hxo
      exact (assign_dst (under sem) e' op).trans (hv.symm.trans (assign_dst (under sem) e op).symm)
    · rw [assign_other (under sem) hxo, assign_other (under sem) hxo, agree x hx]
  | case3 p a rest hf ih =>
    obtain ⟨hlater, hpair⟩ := pairs [] p a rest rfl hf
    have hv : (under sem).value e (fusedOp p a) = (under sem).value e' (fusedOp p a) := by
      apply value_congr
      intro y hy
      apply agree
      rcases fusedOp_reads hy with hy | ⟨hy, _⟩
      · exact unread p List.mem_cons_self y hy
      · exact unread a (List.mem_cons_of_mem _ List.mem_cons_self) y hy
    rw [merged, if_pos hf, List.mem_cons, not_or] at hm
    rw [fuse, if_pos hf, exec_cons, exec_cons, exec_cons]
    apply ih _ _ (insert p.output gone)
    · intro y hy
      rw [Set.mem_insert_iff, not_or] at hy
      by_cases hya : y = a.output
      · subst hya
        refine (assign_dst (under sem) _ a).trans (hpair.symm.trans (hv.trans ?_))
        exact (assign_dst (under sem) e' (fusedOp p a)).symm
      · rw [assign_other (under sem) hya, assign_other (under sem) hy.1, agree y hy.2]
        exact Eq.symm (assign_other (under sem)
          (show y ≠ (under sem).dst (fusedOp p a) from hya))
    · intro op hop y hy
      rw [Set.mem_insert_iff, not_or]
      refine ⟨?_, unread op (List.mem_cons_of_mem _ (List.mem_cons_of_mem _ hop)) y hy⟩
      rintro rfl
      exact hlater op hop hy
    · intro pre q b post heq hq
      have hrest := pairs (p :: a :: pre) q b post (by rw [heq]; rfl) hq
      rwa [exec_cons, exec_cons] at hrest
    · rw [Set.mem_insert_iff, not_or]
      exact ⟨hm.1, hx⟩
    · exact hm.2
  | case4 op next rest hf ih =>
    have hv : (under sem).value e op = (under sem).value e' op :=
      value_congr _ fun y hy => agree y (unread op List.mem_cons_self y hy)
    rw [merged, if_neg hf] at hm
    rw [fuse, if_neg hf, exec_cons, exec_cons]
    apply ih _ _ gone
    · intro y hy
      by_cases hyo : y = op.output
      · subst hyo
        exact (assign_dst (under sem) e op).trans (hv.trans (assign_dst (under sem) e' op).symm)
      · rw [assign_other (under sem) hyo, assign_other (under sem) hyo, agree y hy]
    · intro b hb
      exact unread b (List.mem_cons_of_mem _ hb)
    · intro pre q b post heq hq
      have hrest := pairs (op :: pre) q b post (by rw [heq]; rfl) hq
      rwa [exec_cons] at hrest
    · exact hx
    · exact hm

end Sufficiency

variable {R : Readings F} {m : OmniModule F}

theorem kept_not_merged {ops : List (OmniOp F)} (distinct : (ops.map OmniOp.output).Nodup)
    {x : String} (hx : x ∈ (fuse ops).map OmniOp.output) : x ∉ merged ops := by
  have hnodup := (fuse_perm ops).nodup_iff.mpr distinct
  intro hm
  exact (List.nodup_append.mp hnodup).2.2 x hx x hm rfl

theorem kept_or_merged {ops : List (OmniOp F)} {x : String} (hx : x ∈ ops.map OmniOp.output) :
    x ∈ (fuse ops).map OmniOp.output ∨ x ∈ merged ops :=
  List.mem_append.mp ((fuse_perm ops).mem_iff.mpr hx)

theorem read_kept (pairs : PairsMerge R m.ops) {pre back : List (OmniOp F)}
    (heq : m.ops = pre ++ back) {op : OmniOp F} (hop : op ∈ back) {x : String}
    (hx : x ∈ op.inputs) (hpre : x ∈ pre.map OmniOp.output) :
    x ∈ (fuse pre).map OmniOp.output := by
  rcases kept_or_merged hpre with hk | hm
  · exact hk
  · obtain ⟨front, p, a, post, rfl, hpair, rfl⟩ := pair_of_merged hm
    have hsplit : m.ops = front ++ p :: a :: (post ++ back) := by simp [heq]
    exact absurd hx ((pairs front p a _ hsplit hpair).1 op (List.mem_append_right _ hop))

theorem preserves_of_pairs (sorted : Sorted m.ops) (pairs : PairsMerge R m.ops) :
    FusionPreserves R m := by
  constructor
  · intro pre' op post' heq x hx hdef
    rw [runOperatorFusion_ops] at heq
    rcases fuse_split heq with ⟨pre, post, hops, rfl⟩ | ⟨pre, p, a, post, hops, hpair, rfl, rfl⟩
    · exact read_kept pairs hops List.mem_cons_self hx
        (sorted.topological pre op post hops x hx hdef)
    · rcases fusedOp_reads hx with hx | ⟨hx, hne⟩
      · exact read_kept pairs hops List.mem_cons_self hx
          (sorted.topological pre p (a :: post) hops x hx hdef)
      · have hmid := sorted.topological (pre ++ [p]) a post (by simp [hops]) x hx hdef
        rw [List.map_append, List.mem_append] at hmid
        have hpre := hmid.resolve_right (by simpa using hne)
        exact read_kept pairs hops (List.mem_cons_of_mem _ List.mem_cons_self) hx hpre
  · intro V sem hsem env x hx
    rw [runOperatorFusion_ops] at hx ⊢
    apply fuse_exec m.ops env env ∅ (fun _ _ => rfl) (fun _ _ _ _ => Set.notMem_empty _) ?_ x
      (Set.notMem_empty x) (kept_not_merged sorted.distinct hx)
    intro pre p a post heq hpair
    obtain ⟨hlater, hagree⟩ := pairs pre p a post heq hpair
    exact ⟨hlater, hagree V sem hsem env⟩

section Necessity

variable (sorted : Sorted m.ops) (h : FusionPreserves R m)

include sorted h

theorem read_same {V : Type} {sem : OmniOp F → List V → V} (hsem : R V sem) (env : String → V)
    {pre post : List (OmniOp F)} {p a : OmniOp F} (heq : m.ops = pre ++ p :: a :: post)
    (hpair : fuses p a = true) {x : String} (hx : x ∈ (fusedOp p a).inputs) :
    (under sem).exec env (fuse pre) x = (under sem).exec env pre x := by
  have hfuse : fuse m.ops = fuse pre ++ fusedOp p a :: fuse post := by
    rw [heq, fuse_pair hpair]
  by_cases hkept : x ∈ (fuse pre).map OmniOp.output
  · have hdistinct : ((fuse m.ops).map OmniOp.output).Nodup :=
      (fuse_outputs m.ops).nodup sorted.distinct
    rw [hfuse, List.map_append] at hdistinct
    have hnot' : x ∉ (fusedOp p a :: fuse post).map OmniOp.output :=
      fun hb => (List.nodup_append.mp hdistinct).2.2 x hkept x hb rfl
    have hnot := sorted.apart heq ((fuse_outputs pre).subset hkept)
    have hmem : x ∈ (runOperatorFusion m).ops.map OmniOp.output := by
      rw [runOperatorFusion_ops, hfuse, List.map_append]
      exact List.mem_append_left _ hkept
    have hs := h.same V sem hsem env x hmem
    rw [runOperatorFusion_ops, hfuse, heq, exec_front (under sem) hnot',
      exec_front (under sem) hnot] at hs
    exact hs
  · have hexternal : x ∉ pre.map OmniOp.output := by
      intro hpre
      apply hkept
      apply h.closed (fuse pre) (fusedOp p a) (fuse post) _ x hx
      · rw [heq, List.map_append]
        exact List.mem_append_left _ hpre
      · rw [runOperatorFusion_ops, hfuse]
    rw [exec_other (under sem) hkept, exec_other (under sem) hexternal]

theorem agree_of_preserves {pre post : List (OmniOp F)} {p a : OmniOp F}
    (heq : m.ops = pre ++ p :: a :: post) (hpair : fuses p a = true) : Agree R pre p a := by
  intro V sem hsem env
  have hfuse : fuse m.ops = fuse pre ++ fusedOp p a :: fuse post := by
    rw [heq, fuse_pair hpair]
  have hpost : a.output ∉ post.map OmniOp.output :=
    sorted.apart (show m.ops = (pre ++ [p, a]) ++ post by simp [heq]) (by simp)
  have hpost' : a.output ∉ (fuse post).map OmniOp.output :=
    fun hb => hpost ((fuse_outputs post).subset hb)
  have hmem : a.output ∈ (runOperatorFusion m).ops.map OmniOp.output := by
    rw [runOperatorFusion_ops, hfuse]
    simp [fusedOp]
  have hs := h.same V sem hsem env a.output hmem
  rw [runOperatorFusion_ops, hfuse, heq, exec_append, exec_append, exec_cons, exec_cons, exec_cons,
    exec_other (under sem) hpost, exec_other (under sem) hpost'] at hs
  have hv : (under sem).value ((under sem).exec env (fuse pre)) (fusedOp p a) =
      (under sem).value ((under sem).exec env pre) (fusedOp p a) :=
    value_congr _ fun x hx => read_same sorted h hsem env heq hpair hx
  rw [← hv]
  refine Eq.trans ?_ (hs.trans (assign_dst (under sem) _ a))
  exact (assign_dst (under sem) _ (fusedOp p a)).symm

theorem unread_of_preserves
    (reads : ∀ pre p a, fuses p a = true → a.kind ≠ .add → Agree R pre p a → a.inputs = [p.output])
    {pre post : List (OmniOp F)} {p a : OmniOp F} (heq : m.ops = pre ++ p :: a :: post)
    (hpair : fuses p a = true) : ∀ op ∈ post, p.output ∉ op.inputs := by
  intro op hop hx
  have hgone : p.output ∉ (fuse m.ops).map OmniOp.output := by
    intro hk
    exact kept_not_merged sorted.distinct hk (heq ▸ merged_pair hpair)
  have hmem : op ∈ m.ops := by simp [heq, hop]
  rcases fuse_reads hmem hx with ⟨op', hop', hx'⟩ | ⟨pre₂, p₂, post₂, heq₂, hpair₂, hlost⟩
  · obtain ⟨front, back, hsplit⟩ := List.append_of_mem hop'
    have hdef : p.output ∈ m.ops.map OmniOp.output := by simp [heq]
    have hfront := h.closed front op' back (by rw [runOperatorFusion_ops, hsplit]) _ hx' hdef
    apply hgone
    rw [hsplit, List.map_append]
    exact List.mem_append_left _ hfront
  · have hsame : p.output = p₂.output := by
      rcases hlost with hsame | hact
      · exact hsame
      · rw [reads pre₂ p₂ op hpair₂ hact (agree_of_preserves sorted h heq₂ hpair₂)] at hx
        exact List.mem_singleton.mp hx
    have hpp : p = p₂ := List.inj_on_of_nodup_map sorted.distinct (by simp [heq])
      (by simp [heq₂]) hsame
    subst hpp
    have hout := congrArg (List.map OmniOp.output) (heq.symm.trans heq₂)
    rw [List.map_append, List.map_append, List.map_cons, List.map_cons, List.map_cons,
      List.map_cons] at hout
    have hbefore : p.output ∉ pre.map OmniOp.output :=
      fun hb => sorted.apart heq hb (by simp)
    have hbehind : p.output ∉ a.output :: post.map OmniOp.output :=
      sorted.apart (show m.ops = (pre ++ [p]) ++ a :: post by simp [heq]) (by simp)
    rw [List.append_cons_inj_of_notMem hbefore hbehind] at hout
    have hao : a.output = op.output := (List.cons.inj hout.2.2).1
    have hpost : a.output ∉ post.map OmniOp.output :=
      sorted.apart (show m.ops = (pre ++ [p, a]) ++ post by simp [heq]) (by simp)
    exact hpost (hao ▸ List.mem_map_of_mem hop)

end Necessity

/-- Fusion preserves the module exactly when each of its pairs may be merged. -/
theorem preserves_iff_pairs (sorted : Sorted m.ops)
    (reads : ∀ pre p a, fuses p a = true → a.kind ≠ .add → Agree R pre p a →
      a.inputs = [p.output]) :
    FusionPreserves R m ↔ PairsMerge R m.ops := by
  constructor
  · intro h pre p a post heq hpair
    exact ⟨unread_of_preserves sorted h reads heq hpair, agree_of_preserves sorted h heq hpair⟩
  · exact preserves_of_pairs sorted

end Preservation

end FusionMeaning
