import OmniCompute.InsertedBlocks
import OmniCompute.KeywordScan
import Mathlib.Algebra.Group.Prod

/-! The control flow obfuscator: dummy code behind every line that mentions a kernel or `void`.
A line is the list of its characters. Brackets are counted as characters, so this is for texts
with none in comments or strings, as those of the generators are. -/
namespace ControlFlowObfuscator

open InsertedBlocks KeywordScan

abbrev Line := List Char

section Model

/-- A line break may be "\r\n". -/
def stripCarriageReturn (line : Line) : Line :=
  if line.getLast? = some '\r' then line.dropLast else line

/-- What is left behind the last line break is a line unless it is empty. -/
def terminated : List (List Char) → List Line
  | [] => []
  | [last] => if last = [] then [] else [last]
  | piece :: pieces => stripCarriageReturn piece :: terminated pieces

/-- `str::lines` -/
def strLines (text : List Char) : List Line := terminated (text.splitOn '\n')

def marker : Line := "// Flat control flow obfuscated by Omni-Net".toList
def comment : Line := "\t// Opaque predicates for obfuscation".toList
def declaration : Line := "\tint dummy_pred = 0;".toList
def loop : Line :=
  "\tfor(int dummy_i=0; dummy_i < 10; ++dummy_i) \x7b dummy_pred += dummy_i * 3; \x7d".toList

def void : List Char := ['v', 'o', 'i', 'd']
def kernel : List Char := ['k', 'e', 'r', 'n', 'e', 'l']

def mentionsKernel (line : Line) : Bool := void <:+: line || kernel <:+: line

def opaquePredicate : List Line := [comment, declaration, loop]

def flattenControlFlow (code : String) : String :=
  let lines := (strLines code.toList).foldl (fun lines line =>
    lines ++ if mentionsKernel line then line :: opaquePredicate else [line]) [marker]
  String.ofList (['\n'].intercalate lines)

end Model

section Specification

def braces (text : List Char) : ℤ := depth '\x7b' '\x7d' text

def parens (text : List Char) : ℤ := depth '(' ')' text

def outputLines (code : String) : List Line := (flattenControlFlow code).toList.splitOn '\n'

structure KeepsWellFormed (code : String) : Prop where
  /-- A block is inserted at a statement position of a body. -/
  placed : ∀ front back, outputLines code = front ++ opaquePredicate ++ back →
    1 ≤ braces front.flatten ∧ parens front.flatten = 0
  /-- The body around a declaration is closed before the next one. -/
  once : ∀ front middle back,
    outputLines code = front ++ declaration :: (middle ++ declaration :: back) →
      ∃ text, text <+: middle.flatten ∧ braces (front.flatten ++ text) ≤ 0
  restored : (outputLines code).filter (· ∉ marker :: opaquePredicate) = strLines code.toList

end Specification

section Lines

variable {s t : List Char} {line : Line}

@[elab_as_elim]
theorem line_induction {motive : List Char → Prop} (s : List Char)
    (last : ∀ piece, '\n' ∉ piece → motive piece)
    (more : ∀ piece t, '\n' ∉ piece → motive t → motive (piece ++ '\n' :: t)) : motive s := by
  induction hlen : s.length using Nat.strong_induction_on generalizing s with
  | _ n ih =>
    subst hlen
    by_cases hs : '\n' ∈ s
    · obtain ⟨piece, t, rfl, hpiece⟩ := List.eq_append_cons_of_mem hs
      refine more piece t hpiece (ih t.length ?_ t rfl)
      simp only [List.length_append, List.length_cons]
      omega
    · exact last s hs

theorem strLines_last (h : '\n' ∉ line) : strLines line = if line = [] then [] else [line] := by
  unfold strLines
  rw [List.splitOn_eq_singleton h]
  rfl

theorem strLines_more (h : '\n' ∉ line) :
    strLines (line ++ '\n' :: t) = stripCarriageReturn line :: strLines t := by
  obtain ⟨piece, pieces, hpieces⟩ := List.exists_cons_of_ne_nil (List.splitOn_ne_nil '\n' t)
  unfold strLines
  rw [List.splitOn_append_cons_self_of_not_mem h, hpieces]
  rfl

theorem stripped_part (line : Line) : stripCarriageReturn line <+: line := by
  unfold stripCarriageReturn
  split
  · exact List.dropLast_prefix line
  · exact List.prefix_rfl

theorem mem_strLines (h : line ∈ strLines s) : line <:+: s ∧ '\n' ∉ line := by
  induction s using line_induction with
  | last piece hpiece =>
    rw [strLines_last hpiece] at h
    split at h
    · cases h
    · obtain rfl := List.mem_singleton.mp h
      exact ⟨List.infix_rfl, hpiece⟩
  | more piece t hpiece ih =>
    rw [strLines_more hpiece] at h
    rcases List.mem_cons.mp h with rfl | h
    · have hpart := stripped_part piece
      exact ⟨(hpart.trans (List.prefix_append _ _)).isInfix, fun hb => hpiece (hpart.subset hb)⟩
    · obtain ⟨hoccurs, hbreak⟩ := ih h
      have hback : t <:+ piece ++ '\n' :: t :=
        (List.suffix_cons '\n' t).trans (List.suffix_append _ _)
      exact ⟨hoccurs.trans hback.isInfix, hbreak⟩

theorem strLines_append (s t : List Char) :
    strLines (s ++ '\n' :: t) = strLines (s ++ ['\n']) ++ strLines t := by
  induction s using line_induction with
  | last piece hpiece =>
    rw [strLines_more hpiece, strLines_more hpiece]
    rfl
  | more piece s hpiece ih =>
    rw [List.append_assoc, List.append_assoc, List.cons_append, List.cons_append,
      strLines_more hpiece, strLines_more hpiece, ih, List.cons_append]

end Lines

section Depths

variable {s t : List Char} {line : Line} {ls : List Line}

def depths (text : List Char) : ℤ × ℤ := (braces text, parens text)

@[simp] theorem depths_nil : depths [] = 0 := rfl

theorem depths_append : depths (s ++ t) = depths s + depths t :=
  Prod.ext depth_append depth_append

theorem depths_flatten : depths ls.flatten = (ls.map depths).sum := by
  induction ls with
  | nil => rfl
  | cons line ls ih => rw [List.flatten_cons, depths_append, ih, List.map_cons, List.sum_cons]

theorem depths_strip (line : Line) : depths (stripCarriageReturn line) = depths line := by
  unfold stripCarriageReturn
  split
  · rename_i h
    have hline := congrArg depths (List.dropLast_append_getLast? '\r' h)
    rw [depths_append] at hline
    exact (add_zero _).symm.trans hline
  · rfl

theorem depths_strLines (s : List Char) : depths (strLines s).flatten = depths s := by
  induction s using line_induction with
  | last piece hpiece =>
    rw [strLines_last hpiece]
    split
    · rename_i h
      rw [h]
      rfl
    · rw [List.flatten_singleton]
  | more piece t hpiece ih =>
    have hbreak : depths ('\n' :: t) = depths t := by
      have happend : depths (['\n'] ++ t) = depths ['\n'] + depths t := depths_append
      exact happend.trans (zero_add _)
    rw [strLines_more hpiece, List.flatten_cons, depths_append, depths_append, ih, depths_strip,
      hbreak]

end Depths

section Output

variable {code : String} {before after front back post : List Line} {line d : Line}

theorem inserted_depths : ∀ line ∈ marker :: opaquePredicate, depths line = 0 := by
  decide +kernel

theorem inserted_distinct : (marker :: opaquePredicate).Nodup := by
  decide +kernel

theorem outputLines_eq (code : String) : outputLines code =
    marker :: insertBehind mentionsKernel opaquePredicate (strLines code.toList) := by
  have hinserted : ∀ line ∈ marker :: opaquePredicate, '\n' ∉ line := by decide +kernel
  unfold outputLines flattenControlFlow
  rw [String.toList_ofList, foldl_insertBehind, List.singleton_append]
  refine List.splitOn_intercalate '\n' ?_ (List.cons_ne_nil _ _)
  intro line hline
  rcases List.mem_cons.mp hline with rfl | hline
  · exact hinserted _ List.mem_cons_self
  · rcases mem_insertBehind hline with hline | hline
    · exact (mem_strLines hline).2
    · exact hinserted line (List.mem_cons_of_mem _ hline)

theorem depths_insertBehind (ls : List Line) :
    depths (insertBehind mentionsKernel opaquePredicate ls).flatten = depths ls.flatten := by
  have hblock : (opaquePredicate.map depths).sum = 0 := by
    refine List.sum_eq_zero fun w hw => ?_
    obtain ⟨line, hline, rfl⟩ := List.mem_map.mp hw
    exact inserted_depths line (List.mem_cons_of_mem _ hline)
  rw [depths_flatten, depths_flatten, sum_insertBehind hblock]

theorem split_output (pre : List Line) (hblock : opaquePredicate = pre ++ d :: post)
    (hpre : d ∉ pre) (hpost : d ∉ post) (hmarker : marker ≠ d) (hfresh : d ∉ strLines code.toList)
    (h : outputLines code = front ++ d :: back) :
    ∃ before line after, strLines code.toList = before ++ line :: after ∧
      mentionsKernel line = true ∧
      front = marker :: (insertBehind mentionsKernel opaquePredicate before ++ line :: pre) ∧
      back = post ++ insertBehind mentionsKernel opaquePredicate after := by
  rw [outputLines_eq] at h
  cases front with
  | nil => exact absurd (List.cons.inj h).1 hmarker
  | cons first front =>
    obtain ⟨rfl, hrest⟩ := List.cons.inj h
    obtain ⟨before, line, after, hlines, hline, rfl, rfl⟩ :=
      split_insertBehind pre hblock hpre hpost hfresh hrest
    exact ⟨before, line, after, hlines, hline, rfl, rfl⟩

theorem inserted_ne : marker ≠ comment ∧ marker ≠ declaration ∧ comment ≠ declaration ∧
    comment ≠ loop ∧ declaration ≠ loop := by
  have h := inserted_distinct
  simp only [opaquePredicate, List.nodup_cons, List.mem_cons, List.not_mem_nil, or_false,
    not_or, not_false_eq_true, List.nodup_nil, and_true] at h
  exact ⟨h.1.1, h.1.2.1, h.2.1.1, h.2.1.2, h.2.2⟩

/-- A line that mentions a kernel opens a body, and does so at the outer level. -/
def OpensBodies (code : String) : Prop :=
  ∀ before line after, strLines code.toList = before ++ line :: after →
    mentionsKernel line = true → depths before.flatten = 0 ∧ depths line = (1, 0)

theorem comment_depth (hfresh : comment ∉ strLines code.toList) (hopens : OpensBodies code)
    (h : outputLines code = front ++ comment :: back) : depths front.flatten = (1, 0) := by
  have hmarker : depths marker = 0 := inserted_depths _ (by simp)
  obtain ⟨hne, _, hcd, hcl, _⟩ := inserted_ne
  obtain ⟨before, line, after, hcode, hline, rfl, _⟩ :=
    split_output [] rfl List.not_mem_nil (by simp [hcd, hcl]) hne hfresh h
  obtain ⟨hbefore, hopen⟩ := hopens before line after hcode hline
  rw [List.flatten_cons, List.flatten_append, List.flatten_singleton, depths_append,
    depths_append, depths_insertBehind, hmarker, hbefore, hopen]
  rfl

theorem declaration_depth {middle : List Line} (hfresh : declaration ∉ strLines code.toList)
    (hopens : OpensBodies code)
    (h : outputLines code = front ++ declaration :: (middle ++ declaration :: back)) :
    ∃ text, text <+: middle.flatten ∧ depths (front.flatten ++ text) = 0 := by
  have hmarker : depths marker = 0 := inserted_depths _ (by simp)
  have hcomment : depths comment = 0 := inserted_depths _ (by simp [opaquePredicate])
  have hloop : depths loop = 0 := inserted_depths _ (by simp [opaquePredicate])
  obtain ⟨_, hne, hcd, _, hdl⟩ := inserted_ne
  obtain ⟨before, line, after, hcode, hline, rfl, hrest⟩ :=
    split_output [comment] rfl (by simp [Ne.symm hcd]) (by simp [hdl]) hne hfresh h
  cases middle with
  | nil => exact absurd (List.cons.inj hrest).1 hdl
  | cons first middle =>
    obtain ⟨rfl, hafter⟩ := List.cons.inj hrest
    have hnext : declaration ∉ after := by
      intro hmem
      refine hfresh ?_
      rw [hcode]
      exact List.mem_append_right _ (List.mem_cons_of_mem _ hmem)
    obtain ⟨between, line', after', rfl, hline', rfl, _⟩ := split_insertBehind
      [comment] rfl (by simp [Ne.symm hcd]) (by simp [hdl]) hnext hafter.symm
    have hopen := (hopens (before ++ line :: between) line' after' (by rw [hcode]; simp) hline').1
    refine ⟨(loop :: insertBehind mentionsKernel opaquePredicate between).flatten, ?_, ?_⟩
    · rw [← List.cons_append, List.flatten_append]
      exact List.prefix_append _ _
    · rw [← hopen]
      simp only [List.flatten_cons, List.flatten_append, List.flatten_nil, depths_append,
        depths_insertBehind, hmarker, hcomment, hloop, List.append_nil, zero_add, add_zero]
      rw [add_assoc]

/-- Lines that mention a kernel and open a body at the outer level are all it takes. -/
theorem keepsWellFormed_of
    (hfresh : ∀ line ∈ strLines code.toList, line ∉ marker :: opaquePredicate)
    (hopens : OpensBodies code) : KeepsWellFormed code := by
  have hnot : ∀ d ∈ marker :: opaquePredicate, d ∉ strLines code.toList :=
    fun d hd hmem => hfresh d hmem hd
  constructor
  · intro front back h
    have hsplit : outputLines code = front ++ comment :: (declaration :: loop :: back) := by
      rw [h, List.append_assoc]
      rfl
    have hdepth := comment_depth (hnot comment (by simp [opaquePredicate])) hopens hsplit
    exact ⟨(congrArg Prod.fst hdepth).ge, congrArg Prod.snd hdepth⟩
  · intro front middle back h
    obtain ⟨text, hstart, hdepth⟩ :=
      declaration_depth (hnot declaration (by simp [opaquePredicate])) hopens h
    exact ⟨text, hstart, (congrArg Prod.fst hdepth).le⟩
  · have hkept : ∀ line ∈ strLines code.toList, decide (line ∉ marker :: opaquePredicate) = true :=
      fun line hline => decide_eq_true (hfresh line hline)
    have hdropped : ∀ line ∈ opaquePredicate,
        decide (line ∉ marker :: opaquePredicate) = false := by
      intro line hline
      exact decide_eq_false (not_not_intro (List.mem_cons_of_mem _ hline))
    rw [outputLines_eq, List.filter_cons_of_neg, filter_insertBehind _ hdropped hkept]
    simp

theorem not_keepsWellFormed (hcode : strLines code.toList = before ++ line :: after)
    (hline : mentionsKernel line = true) (hparens : parens (before.flatten ++ line) ≠ 0) :
    ¬ KeepsWellFormed code := by
  intro hall
  have hout : outputLines code = marker :: (insertBehind mentionsKernel opaquePredicate before ++
      [line]) ++ opaquePredicate ++ insertBehind mentionsKernel opaquePredicate after := by
    rw [outputLines_eq, hcode, insertBehind_append, insertBehind_cons, if_pos hline]
    simp
  have hplaced := (hall.placed _ _ hout).2
  have hdepth : depths (marker :: (insertBehind mentionsKernel opaquePredicate before ++
      [line])).flatten = depths (before.flatten ++ line) := by
    have hmarker : depths marker = 0 := inserted_depths _ (by simp)
    rw [List.flatten_cons, List.flatten_append, List.flatten_singleton, depths_append,
      depths_append, depths_insertBehind, hmarker, zero_add, depths_append]
  exact hparens ((congrArg Prod.snd hdepth).symm.trans hplaced)

end Output

end ControlFlowObfuscator
