import OmniCompute.ControlFlowObfuscator
import OmniCompute.EntryPoints

/-! The texts of the back ends under the control flow obfuscator. A kernel comes out well formed
if its signature stands on one line together with the brace that opens the body; a signature
that is broken after its parenthesis receives the dummy code as a parameter. -/
namespace ObfuscatedKernels

open RustValues OmniDialect Codegen BackEnds KeywordScan LaunchShapes ControlFlowObfuscator
open EntryPoints (lone)

section Fragments

/-- Inserted lines contain one of these. No hexadecimal number ends in the beginning of one. -/
def tags : List (List Char) := [['o', 'b', 'f', 'u', 's', 'c', 'a', 't'], ['u', 'm', 'm', 'y', '_']]

def keywords : List (List Char) := void :: kernel :: tags

def breaks : List (List Char) := ['\n'] :: ['\r'] :: tags

/-- None of the words occurs in the text, whatever it stands in, and it changes the depths of
braces and parentheses by `w`. -/
structure Avoids (words : List (List Char)) (w : ℤ × ℤ) (s : String) : Prop where
  quiet : ∀ word ∈ words, Quiet word s.toList
  depths_eq : depths s.toList = w

def Inert (s : String) : Prop := Avoids (keywords ++ breaks) 0 s

variable {words words' : List (List Char)} {w w' v u : ℤ × ℤ} {s t : String} {ts : List String}
  {l : List Char}

theorem Avoids.cast (h : Avoids words w s) (hw : w = w') : Avoids words w' s := hw ▸ h

theorem avoids_literal (hs : s = String.ofList l) (hl : ∀ word ∈ words, Quiet word l) :
    Avoids words (depths l) s := by
  rw [hs]
  constructor
  · rwa [String.toList_ofList]
  · rw [String.toList_ofList]

theorem Avoids.append (hs : Avoids words w s) (ht : Avoids words w' t) :
    Avoids words (w + w') (s ++ t) := by
  constructor
  · intro word hword
    rw [String.toList_append]
    exact (hs.quiet word hword).append (ht.quiet word hword)
  · rw [String.toList_append, depths_append, hs.depths_eq, ht.depths_eq]

theorem avoids_lines_nil : Avoids keywords 0 (lines []) := by
  constructor
  · intro word _
    exact quiet_nil
  · rfl

theorem avoids_newline : Avoids keywords 0 "\n" := by
  have h : Avoids keywords (depths ['\n']) "\n" := avoids_literal rfl (by decide +kernel)
  exact h

theorem avoids_lines_cons (ht : Avoids keywords w t) (hts : Avoids keywords w' (lines ts)) :
    Avoids keywords (w + w') (lines (t :: ts)) := by
  rw [EntryPoints.lines_cons]
  simpa using (ht.append avoids_newline).append hts

theorem Inert.inText (h : Inert s) : Avoids keywords 0 s :=
  ⟨fun word hword => h.quiet word (List.mem_append_left _ hword), h.depths_eq⟩

theorem Inert.inLine (h : Inert s) : Avoids breaks 0 s :=
  ⟨fun word hword => h.quiet word (List.mem_append_right _ hword), h.depths_eq⟩

theorem Inert.append (hs : Inert s) (ht : Inert t) : Inert (s ++ t) := Avoids.append hs ht

theorem inert_literal (hs : s = String.ofList l) (hl : ∀ word ∈ keywords ++ breaks, Quiet word l)
    (hw : depths l = 0) : Inert s := by
  have h := avoids_literal hs hl
  rwa [hw] at h

theorem inert_digits {b : ℕ} (hb : 1 < b) (n : ℕ) (hs : s.toList = Nat.toDigits b n) :
    Inert s := by
  have hdigits : ∀ c ∈ ['v', 'k', 'o', 'u', '\n', '\r', '\x7b', '\x7d', '(', ')'],
      c ∉ Nat.toDigits b n := by
    intro c hc
    refine EntryPoints.not_mem_toDigits hb (fun i => Nat.digitChar_ne c ?_) n
    simp only [List.mem_cons, List.not_mem_nil, or_false] at hc
    rcases hc with rfl | rfl | rfl | rfl | rfl | rfl | rfl | rfl | rfl | rfl <;> decide
  have hheads : ∀ word ∈ keywords ++ breaks,
      word ≠ [] ∧ word.headI ∈ ['v', 'k', 'o', 'u', '\n', '\r'] := by
    decide +kernel
  constructor
  · intro word hword
    obtain ⟨hne, hhead⟩ := hheads word hword
    obtain ⟨c, cs, rfl⟩ := List.exists_cons_of_ne_nil hne
    rw [hs]
    exact quiet_of_not_mem (hdigits c (List.mem_append_left _ hhead))
  · rw [hs]
    exact Prod.ext
      (InsertedBlocks.depth_of_not_mem (hdigits _ (by decide)) (hdigits _ (by decide)))
      (InsertedBlocks.depth_of_not_mem (hdigits _ (by decide)) (hdigits _ (by decide)))

theorem inert_repr (n : ℕ) : Inert n.repr := inert_digits (by decide) n Nat.toList_repr

theorem inert_int64 (i : Int64) : Inert (toString i) := by
  change Inert (Int.repr i.toInt)
  cases i.toInt with
  | ofNat n => exact inert_repr n
  | negSucc n => exact (inert_literal rfl (by decide +kernel) (by decide)).append (inert_repr _)

theorem inert_uint32 (n : UInt32) : Inert (toString n) := inert_repr n.toNat

theorem inert_uint64 (n : UInt64) : Inert (toString n) := inert_repr n.toNat

theorem inert_lowerHex (h : UInt64) : Inert (lowerHex h) :=
  inert_digits (by decide) h.toNat String.toList_ofList

theorem inert_name (e : Emission) : Inert e.name := by
  rw [Emission.name]
  cases e.source <;>
    exact (inert_literal rfl (by decide +kernel) (by decide +kernel)).append (inert_uint64 e.id)

theorem inert_datatype (b : BackEnd) (t : ElementType) : Inert (b.dialect.datatype t) := by
  cases b <;> cases t <;> exact inert_literal rfl (by decide +kernel) (by decide +kernel)

end Fragments

section Texts

variable {words : List (List Char)} {w w' v u : ℤ × ℤ} {s t : String} {ts : List String}
  {l : List Char}

def Whole (s : String) : Prop := ∀ t, strLines (s.toList ++ t) = strLines s.toList ++ strLines t

theorem newline_toList : ("\n" : String).toList = ['\n'] := String.toList_ofList

theorem whole_break (s : String) : Whole (s ++ "\n") := by
  intro t
  rw [String.toList_append, newline_toList, List.append_assoc]
  exact strLines_append s.toList t

theorem Whole.append (hs : Whole s) (ht : Whole t) : Whole (s ++ t) := by
  intro r
  rw [String.toList_append, List.append_assoc, hs, ht, hs, List.append_assoc]

theorem whole_lines (ts : List String) : Whole (lines ts) := by
  induction ts with
  | nil =>
    intro r
    rfl
  | cons t ts ih =>
    rw [EntryPoints.lines_cons]
    exact (whole_break t).append ih

def Opens (w : ℤ × ℤ) (ls : List Line) : Prop :=
  ∀ before line after, ls = before ++ line :: after → mentionsKernel line = true →
    w + depths before.flatten = 0 ∧ depths line = (1, 0)

theorem Opens.append {xs ys : List Line} (hx : Opens w xs)
    (hy : Opens (w + depths xs.flatten) ys) : Opens w (xs ++ ys) := by
  intro before line after h hline
  rcases List.append_eq_append_iff.mp h with ⟨mid, rfl, hys⟩ | ⟨mid, rfl, htail⟩
  · have hopen := hy mid line after hys hline
    rwa [List.flatten_append, depths_append, ← add_assoc]
  · cases mid with
    | nil =>
      have hopen := hy [] line after htail.symm hline
      simpa using hopen
    | cons first mid =>
      obtain ⟨rfl, _⟩ := List.cons.inj htail
      exact hx before line mid rfl hline

/-- A text that the obfuscator keeps well formed, from one depth to another. -/
structure Keeps (w v : ℤ × ℤ) (s : String) : Prop where
  whole : Whole s
  fresh : ∀ line ∈ strLines s.toList, line ∉ marker :: opaquePredicate
  opens : Opens w (strLines s.toList)
  depths_eq : w + depths s.toList = v

theorem Keeps.cast (h : Keeps w v s) (hv : v = u) : Keeps w u s := hv ▸ h

theorem Keeps.append (hs : Keeps w v s) (ht : Keeps v u t) : Keeps w u (s ++ t) := by
  have hlines : strLines (s ++ t).toList = strLines s.toList ++ strLines t.toList := by
    rw [String.toList_append]
    exact hs.whole t.toList
  have hv : v = w + depths (strLines s.toList).flatten := by
    rw [depths_strLines]
    exact hs.depths_eq.symm
  constructor
  · exact hs.whole.append ht.whole
  · intro line hline
    rw [hlines, List.mem_append] at hline
    exact hline.elim (hs.fresh line) (ht.fresh line)
  · rw [hlines]
    exact hs.opens.append (hv ▸ ht.opens)
  · rw [String.toList_append, depths_append, ← add_assoc, hs.depths_eq, ht.depths_eq]

theorem fresh_of_quiet {line : Line} (h : ∀ tag ∈ tags, ¬ tag <:+: line) :
    line ∉ marker :: opaquePredicate := by
  have htagged : ∀ line ∈ marker :: opaquePredicate, ∃ tag ∈ tags, tag <:+: line := by
    decide +kernel
  intro hmem
  obtain ⟨tag, htag, hoccurs⟩ := htagged line hmem
  exact h tag htag hoccurs

theorem Avoids.keeps (hs : Avoids keywords w' s) (hwhole : Whole s) : Keeps w (w + w') s := by
  have hne : ∀ word ∈ keywords, word ≠ [] := by decide
  have hnot : ∀ word ∈ keywords, ∀ line ∈ strLines s.toList, ¬ word <:+: line := by
    intro word hword line hline hoccurs
    exact (hs.quiet word hword).not_occurs (hne word hword) (hoccurs.trans (mem_strLines hline).1)
  constructor
  · exact hwhole
  · intro line hline
    refine fresh_of_quiet fun tag htag => hnot tag ?_ line hline
    exact List.mem_cons_of_mem _ (List.mem_cons_of_mem _ htag)
  · intro before line after h hline
    have hmem : line ∈ strLines s.toList := by
      rw [h]
      exact List.mem_append_right _ List.mem_cons_self
    have hvoid := hnot void (by decide) line hmem
    have hkernel := hnot kernel (by decide) line hmem
    simp [mentionsKernel, hvoid, hkernel] at hline
  · rw [hs.depths_eq]

structure Signature (w : ℤ × ℤ) (s : String) : Prop where
  inLine : Avoids breaks w s
  mentions : void <:+: s.toList

theorem Signature.mentionsKernel (h : Signature w s) : mentionsKernel s.toList = true := by
  unfold ControlFlowObfuscator.mentionsKernel
  rw [decide_eq_true h.mentions, Bool.true_or]

theorem Signature.strLines_eq (h : Signature w s) (t : List Char) :
    strLines (s.toList ++ '\n' :: t) = s.toList :: strLines t := by
  have hwords : ∀ c ∈ ['\n', '\r'], [c] ∈ breaks := by simp [breaks]
  have hnot : ∀ c ∈ ['\n', '\r'], c ∉ s.toList := by
    intro c hc hmem
    exact (h.inLine.quiet [c] (hwords c hc)).not_occurs (List.cons_ne_nil _ _)
      ((List.singleton_infix_iff c s.toList).mpr hmem)
  have hstrip : stripCarriageReturn s.toList = s.toList := by
    refine if_neg fun hlast => hnot '\r' (by decide) (List.mem_of_getLast? hlast)
  rw [strLines_more (hnot '\n' (by decide)), hstrip]

theorem Signature.keeps (h : Signature w s) (hw : w = (1, 0)) (hv : v = 0) :
    Keeps v (1, 0) (s ++ "\n") := by
  subst hw hv
  have hlines : strLines (s ++ "\n").toList = [s.toList] := by
    rw [String.toList_append, newline_toList]
    exact h.strLines_eq []
  have hdepths := h.inLine.depths_eq
  constructor
  · exact whole_break s
  · intro line hline
    rw [hlines, List.mem_singleton] at hline
    rw [hline]
    refine fresh_of_quiet fun tag htag => ?_
    have hne : ∀ tag ∈ tags, tag ≠ [] := by decide
    refine (h.inLine.quiet tag ?_).not_occurs (hne tag htag)
    exact List.mem_cons_of_mem _ (List.mem_cons_of_mem _ htag)
  · intro before line after hsplit _
    rw [hlines] at hsplit
    cases before with
    | nil =>
      obtain ⟨rfl, _⟩ := List.cons.inj hsplit
      exact ⟨rfl, hdepths⟩
    | cons first before =>
      have hlen := congrArg List.length hsplit
      simp at hlen
  · rw [String.toList_append, newline_toList, depths_append, hdepths]
    rfl

end Texts

section Kernels

variable {w w' v : ℤ × ℤ} {s t name datatype : String} {ts : List String} {l : List Char}

theorem signature_literal (hs : s = String.ofList l) (hl : ∀ word ∈ breaks, Quiet word l)
    (hvoid : void <:+: l) : Signature (depths l) s := by
  refine ⟨avoids_literal hs hl, ?_⟩
  rwa [hs, String.toList_ofList]

theorem Signature.append (hs : Signature w s) (ht : Avoids breaks w' t) :
    Signature (w + w') (s ++ t) := by
  refine ⟨hs.inLine.append ht, ?_⟩
  rw [String.toList_append]
  exact hs.mentions.trans (List.prefix_append _ _).isInfix

theorem Keeps.tail (ht : Avoids keywords w' t) (hts : Keeps (w + w') v (lines ts)) :
    Keeps w v (lines (t :: ts)) := by
  have hline : Keeps w (w + w' + 0) (t ++ "\n") := by
    rw [add_assoc]
    exact (ht.append avoids_newline).keeps (whole_break t)
  rw [EntryPoints.lines_cons]
  exact (hline.cast (add_zero _)).append hts

theorem Keeps.head (ht : Signature w t) (hw : w = (1, 0)) (hv : v = 0)
    (hts : Avoids keywords w' (lines ts)) : Keeps v ((1, 0) + w') (lines (t :: ts)) := by
  rw [EntryPoints.lines_cons]
  exact (ht.keeps hw hv).append (hts.keeps (whole_lines ts))

theorem Keeps.then (hs : Keeps w v s) (ht : Avoids keywords w' t) (hwhole : Whole t) :
    Keeps w (v + w') (s ++ t) := hs.append (ht.keeps hwhole)

/-- The text reaches a signature whose parentheses are still open at the end of its line. -/
def Spills (s : String) : Prop :=
  ∃ front line back w, s = front ++ (line ++ "\n" ++ back) ∧ Keeps 0 0 front ∧
    Signature w line ∧ w.2 ≠ 0

theorem spills_head (ht : Signature w t) (hw : w.2 ≠ 0) : Spills (lines (t :: ts)) := by
  refine ⟨"", t, lines ts, w, ?_, ?_, ht, hw⟩
  · rw [EntryPoints.lines_cons, String.empty_append]
  · exact avoids_lines_nil.keeps (whole_lines [])

theorem Spills.after (hs : Keeps 0 0 s) (ht : Spills t) : Spills (s ++ t) := by
  obtain ⟨front, line, back, w, rfl, hfront, hline, hw⟩ := ht
  exact ⟨s ++ front, line, back, w, (String.append_assoc).symm, hs.append hfront, hline, hw⟩

theorem Spills.append (hs : Spills s) (t : String) : Spills (s ++ t) := by
  obtain ⟨front, line, back, w, rfl, hfront, hline, hw⟩ := hs
  exact ⟨front, line, back ++ t, w, by simp only [String.append_assoc], hfront, hline, hw⟩

theorem spills_tail (ht : Avoids keywords w t) (hw : 0 + w = 0) (hts : Spills (lines ts)) :
    Spills (lines (t :: ts)) := by
  rw [EntryPoints.lines_cons]
  have hline := (ht.append avoids_newline).keeps (w := 0) (whole_break t)
  rw [add_zero] at hline
  exact .after (hline.cast hw) hts

theorem Keeps.wellFormed (h : Keeps 0 0 s) : KeepsWellFormed s := by
  refine keepsWellFormed_of h.fresh ?_
  intro before line after hsplit hline
  have hopen := h.opens before line after hsplit hline
  rwa [zero_add] at hopen

theorem Spills.not_wellFormed (h : Spills s) : ¬ KeepsWellFormed s := by
  obtain ⟨front, line, back, w, rfl, hfront, hline, hw⟩ := h
  have hlines : strLines (front ++ (line ++ "\n" ++ back)).toList =
      strLines front.toList ++ line.toList :: strLines back.toList := by
    rw [String.toList_append, hfront.whole, String.toList_append, String.toList_append,
      newline_toList, List.append_assoc, List.singleton_append, hline.strLines_eq]
  refine not_keepsWellFormed hlines hline.mentionsKernel ?_
  have hdepths : depths ((strLines front.toList).flatten ++ line.toList) = w := by
    have hzero := hfront.depths_eq
    rw [zero_add] at hzero
    rw [depths_append, depths_strLines, hzero, zero_add, hline.inLine.depths_eq]
  rw [← hdepths] at hw
  exact hw

end Kernels

section BackEnds

variable {w : ℤ × ℤ} {name : String} {source : KernelSource}

def isSafe : BackEnd → KernelSource → Bool
  | .amdGpu, .matMul _ => false
  | .metal, _ => false
  | _, _ => true

theorem whole_of_break {s : String} (h : s.toList.getLast? = some '\n') : Whole s := by
  have hs := List.dropLast_append_getLast? '\n' h
  intro t
  rw [← hs, List.append_assoc]
  exact strLines_append _ t

theorem amd_keeps (hname : Inert name) (htypes : TypeNames Inert source)
    (hsafe : isSafe .amdGpu source = true) : Keeps 0 0 (AmdGpuCodegen.text name source) := by
  cases source
  case matMul => cases hsafe
  case' relu datatype =>
    replace htypes : Inert datatype := htypes
    rw [AmdGpuCodegen.text, AmdGpuCodegen.reluText]
    apply Keeps.cast
    apply Keeps.head
  case' add datatype =>
    replace htypes : Inert datatype := htypes
    rw [AmdGpuCodegen.text, AmdGpuCodegen.addText]
    apply Keeps.cast
    apply Keeps.head
  case' fallback ptxHash =>
    rw [AmdGpuCodegen.text, AmdGpuCodegen.fallbackText]
    apply Keeps.cast
    apply Keeps.tail
    on_goal 2 => apply Keeps.head
  -- Texts fall apart into literals and fillings; what is left at the end adds up their depths.
  all_goals
    repeat' first
      | with_reducible exact hname.inLine
      | with_reducible exact htypes.inLine
      | with_reducible exact (inert_lowerHex _).inText
      | with_reducible exact avoids_lines_nil
      | with_reducible apply avoids_lines_cons
      | with_reducible apply Avoids.append
      | with_reducible apply Signature.append
      | exact avoids_literal (by with_reducible rfl) (by decide +kernel)
      | exact signature_literal (by with_reducible rfl) (by decide +kernel) (by decide +kernel)
      | decide +kernel

theorem spirv_activation (act : String) : Avoids keywords 0 (SpirvCodegen.activationLine act) ∧
    Whole (SpirvCodegen.activationLine act) := by
  unfold SpirvCodegen.activationLine
  split
  case h_4 => exact ⟨avoids_lines_nil, whole_lines []⟩
  all_goals
    refine ⟨?_, whole_of_break (by decide +kernel)⟩
    apply Avoids.cast
    · exact avoids_literal (by with_reducible rfl) (by decide +kernel)
    · decide +kernel

theorem spirv_ending (activation : Option String) :
    Avoids keywords 0 ((activation.map SpirvCodegen.activationLine).getD "") ∧
      Whole ((activation.map SpirvCodegen.activationLine).getD "") := by
  cases activation with
  | none => exact ⟨avoids_lines_nil, whole_lines []⟩
  | some act => exact spirv_activation act

theorem spirv_main : Signature (1, 0) "void main() \x7b" := by
  have h : Signature (depths ['v', 'o', 'i', 'd', ' ', 'm', 'a', 'i', 'n', '(', ')', ' ', '\x7b'])
      "void main() \x7b" := signature_literal rfl (by decide +kernel) (by decide +kernel)
  exact h

theorem spirv_keeps (name : String) (htypes : TypeNames Inert source) :
    Keeps 0 0 (SpirvCodegen.text name source) := by
  cases source
  case' matMul k =>
    replace htypes : Inert k.datatype := htypes
    rw [SpirvCodegen.text, SpirvCodegen.matMulText]
    apply Keeps.cast
    apply Keeps.then (Keeps.then _ (spirv_ending _).1 (spirv_ending _).2) _ (whole_lines _)
  case' relu datatype =>
    replace htypes : Inert datatype := htypes
    rw [SpirvCodegen.text, SpirvCodegen.reluText]
    apply Keeps.cast
  case' add datatype =>
    replace htypes : Inert datatype := htypes
    rw [SpirvCodegen.text, SpirvCodegen.addText]
    apply Keeps.cast
  case' fallback ptxHash =>
    rw [SpirvCodegen.text, SpirvCodegen.fallbackText]
    apply Keeps.cast
  all_goals
    repeat' first
      | with_reducible apply Keeps.head spirv_main
      | with_reducible apply Keeps.tail
      | with_reducible exact htypes.inText
      | with_reducible exact (inert_int64 _).inText
      | with_reducible exact (inert_uint32 _).inText
      | with_reducible exact (inert_lowerHex _).inText
      | with_reducible exact avoids_lines_nil
      | with_reducible apply avoids_lines_cons
      | with_reducible apply Avoids.append
      | exact avoids_literal (by with_reducible rfl) (by decide +kernel)
      | decide +kernel

theorem amd_spills (hname : Inert name) (k : MatMulKernel) :
    Spills (AmdGpuCodegen.text name (.matMul k)) := by
  rw [AmdGpuCodegen.text, AmdGpuCodegen.matMulText]
  refine .append (.append ?_ _) _
  apply spills_head
  all_goals
    repeat' first
      | with_reducible exact hname.inLine
      | with_reducible apply Signature.append
      | exact avoids_literal (by with_reducible rfl) (by decide +kernel)
      | exact signature_literal (by with_reducible rfl) (by decide +kernel) (by decide +kernel)
      | decide +kernel

theorem metal_spills (hname : Inert name) (source : KernelSource) :
    Spills (MetalCodegen.text name source) := by
  cases source
  case' matMul k =>
    rw [MetalCodegen.text, MetalCodegen.matMulText]
    refine .append (.append ?_ _) _
    apply spills_head
  case' relu datatype =>
    rw [MetalCodegen.text, MetalCodegen.reluText]
    apply spills_head
  case' add datatype =>
    rw [MetalCodegen.text, MetalCodegen.addText]
    apply spills_head
  case' fallback ptxHash =>
    rw [MetalCodegen.text, MetalCodegen.fallbackText]
    apply spills_tail
    on_goal 3 => apply spills_head
  all_goals
    repeat' first
      | with_reducible exact hname.inLine
      | with_reducible exact (inert_lowerHex _).inText
      | with_reducible apply Avoids.append
      | with_reducible apply Signature.append
      | exact avoids_literal (by with_reducible rfl) (by decide +kernel)
      | exact signature_literal (by with_reducible rfl) (by decide +kernel) (by decide +kernel)
      | decide +kernel

theorem header_keeps (b : BackEnd) : Keeps 0 0 b.dialect.header := by
  cases b
  case' amdGpu => change Keeps 0 0 AmdGpuCodegen.header; rw [AmdGpuCodegen.header]
  case' metal => change Keeps 0 0 MetalCodegen.header; rw [MetalCodegen.header]
  case' spirv => change Keeps 0 0 SpirvCodegen.header; rw [SpirvCodegen.header]
  all_goals
    apply Keeps.cast
    apply Avoids.keeps
    repeat' first
      | with_reducible exact avoids_lines_nil
      | with_reducible apply avoids_lines_cons
      | exact avoids_literal (by with_reducible rfl) (by decide +kernel)
      | exact whole_lines _
      | decide +kernel

end BackEnds

section Modules

variable {F : Type} [DebugText F] {b : BackEnd} {m : OmniModule F} {op : OmniOp F}
  {ops : List (OmniOp F)} {e : Emission} {es : List Emission} {out : Output}

theorem text_keeps (h : LoweredTo b.dialect op e) (hsafe : isSafe b e.source = true) :
    Keeps 0 0 (b.dialect.text e.name e.source) := by
  have htypes : TypeNames Inert e.source := h.typeNames (inert_datatype b _)
  cases b with
  | amdGpu => exact amd_keeps (inert_name e) htypes hsafe
  | metal => cases hsafe
  | spirv => exact spirv_keeps e.name htypes

theorem text_spills (b : BackEnd) (e : Emission) (hsafe : isSafe b e.source = false) :
    Spills (b.dialect.text e.name e.source) := by
  cases b with
  | amdGpu =>
    cases hs : e.source with
    | matMul k => exact amd_spills (inert_name e) k
    | _ =>
      rw [hs] at hsafe
      cases hsafe
  | metal => exact metal_spills (inert_name e) e.source
  | spirv => cases hsafe

theorem spills_append (h : Spills out.code) (es : List Emission) :
    Spills (es.foldl (LaunchShapes.append b.dialect) out).code := by
  induction es generalizing out with
  | nil => exact h
  | cons e es ih =>
    have hnext : Spills (LaunchShapes.append b.dialect out e).code := h.append _
    exact ih hnext

/-- The loop keeps the text well formed up to the first unsafe kernel, which spoils the rest. -/
theorem code_cases (hes : List.Forall₂ (LoweredTo b.dialect) ops es)
    (hout : Keeps 0 0 out.code) :
    KeepsWellFormed (es.foldl (LaunchShapes.append b.dialect) out).code ↔
      ∀ e ∈ es, isSafe b e.source = true := by
  induction hes generalizing out with
  | nil => exact iff_of_true hout.wellFormed (by simp)
  | @cons op e ops es he hes ih =>
    cases hsafe : isSafe b e.source with
    | true =>
      have hnext : Keeps 0 0 (LaunchShapes.append b.dialect out e).code :=
        hout.append (text_keeps he hsafe)
      rw [List.foldl_cons, ih hnext]
      simp [hsafe]
    | false =>
      have hnext : Spills (LaunchShapes.append b.dialect out e).code :=
        .after hout (text_spills b e hsafe)
      refine iff_of_false (spills_append hnext es).not_wellFormed ?_
      intro hall
      rw [hall e List.mem_cons_self] at hsafe
      cases hsafe

/-- The modules whose kernels have their signatures on one line. -/
def OneLineSignatures (b : BackEnd) (m : OmniModule F) : Prop :=
  match b with
  | .amdGpu => ∀ op ∈ m.ops, op.kind.isMatMul = false
  | .metal => m.ops = []
  | .spirv => True

theorem safe_iff (hes : List.Forall₂ (LoweredTo b.dialect) m.ops es) :
    (∀ e ∈ es, isSafe b e.source = true) ↔ OneLineSignatures b m := by
  cases b with
  | amdGpu =>
    have hsafe : ∀ source, isSafe .amdGpu source = true ↔ ¬ isProduct source = true := by
      intro source
      cases source <;> simp [isSafe, isProduct]
    have hproducts := not_congr (products_iff hes)
    simpa [hsafe, OneLineSignatures] using hproducts
  | metal =>
    have hnone : m.ops = [] ↔ es = [] := by
      rw [← List.length_eq_zero_iff, hes.length_eq, List.length_eq_zero_iff]
    rw [OneLineSignatures, hnone, List.eq_nil_iff_forall_not_mem]
    exact forall₂_congr fun e _ => by simp [isSafe]
  | spirv => exact iff_of_true (fun _ _ => rfl) trivial

theorem flattened_iff (b : BackEnd) (m : OmniModule F) (k : GeneratedKernel) (code : String)
    (h : b.generate m = .ok k) (hcode : k.payload = code.toUTF8) :
    KeepsWellFormed code ↔ OneLineSignatures b m := by
  rw [BackEnd.generate_eq] at h
  obtain ⟨es, hes, rfl⟩ := generate_iff.mp h
  obtain rfl := String.toByteArray_inj.mp hcode
  rw [← safe_iff hes]
  exact code_cases hes (header_keeps b)

theorem flattened_iff_layer : ∃ k code, BackEnd.spirv.generate layer = .ok k ∧
    k.payload = code.toUTF8 ∧ (KeepsWellFormed code ↔ OneLineSignatures .spirv layer) :=
  ⟨_, _, rfl, rfl, flattened_iff .spirv layer _ _ rfl rfl⟩

/-- The two parameter lists of the product and of the Metal activation receive the block. -/
theorem block_among_parameters :
    (∃ k code, BackEnd.amdGpu.generate layer = .ok k ∧ k.payload = code.toUTF8 ∧
      ¬ KeepsWellFormed code) ∧
    ∃ k code, BackEnd.metal.generate lone = .ok k ∧ k.payload = code.toUTF8 ∧
      ¬ KeepsWellFormed code := by
  refine ⟨⟨_, _, rfl, rfl, Spills.not_wellFormed ?_⟩, _, _, rfl, rfl, Spills.not_wellFormed ?_⟩
  · exact .append (.after (header_keeps .amdGpu) (text_spills .amdGpu ⟨0, .matMul _⟩ rfl)) _
  · exact .after (header_keeps .metal) (text_spills .metal ⟨0, .relu "float"⟩ rfl)

end Modules

end ObfuscatedKernels
