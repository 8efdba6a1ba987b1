import OmniCompute.KeywordScan
import OmniCompute.LaunchShapes

/-! The functions a payload defines. Each kernel text holds one function; its name is the entry
point of the operation in HIP and Metal, and `main` in GLSL. -/
namespace EntryPoints

open RustValues OmniDialect Codegen BackEnds KeywordScan LaunchShapes

section Texts

/-- In all three languages a kernel returns nothing: `void`, then its name and `(`. -/
def returnType : List Char := ['v', 'o', 'i', 'd', ' ']

def definedFunctions (payload : ByteArray) : List String :=
  match String.fromUTF8? payload with
  | some text => (names returnType '(' text.toList).map String.ofList
  | none => []

def Silent (s : String) : Prop := Quiet returnType s.toList

/-- The text defines these functions, wherever it stands. -/
def Declares (found : List String) (s : String) : Prop :=
  Defines returnType '(' (found.map String.toList) s.toList

variable {s t : String} {ts : List String} {l : List Char} {found found' : List String}

theorem definedFunctions_toUTF8 (h : Declares found s) : definedFunctions s.toUTF8 = found := by
  have htext : String.fromUTF8? s.toUTF8 = some s := by
    rw [String.fromUTF8?, String.toUTF8_eq_toByteArray, dif_pos s.isValidUTF8]
    rfl
  rw [definedFunctions, htext]
  change (names returnType '(' s.toList).map String.ofList = found
  rw [h.names_eq, List.map_map]
  simp

theorem silent_literal (hs : s = String.ofList l) (hl : Quiet returnType l) : Silent s := by
  rw [Silent, hs, String.toList_ofList]
  exact hl

theorem Silent.append (hs : Silent s) (ht : Silent t) : Silent (s ++ t) := by
  rw [Silent, String.toList_append]
  exact Quiet.append hs ht

theorem silent_newline : Silent "\n" := silent_literal rfl (by decide)

theorem lines_cons : lines (t :: ts) = t ++ "\n" ++ lines ts := by
  rw [lines, List.map_cons, String.join_cons]
  rfl

theorem silent_lines_nil : Silent (lines []) := silent_literal rfl (by decide)

theorem silent_lines_cons (ht : Silent t) (hts : Silent (lines ts)) : Silent (lines (t :: ts)) := by
  rw [lines_cons]
  exact (ht.append silent_newline).append hts

theorem not_mem_toDigits {b : ℕ} {c : Char} (hb : 1 < b) (hc : ∀ n, Nat.digitChar n ≠ c) (n : ℕ) :
    c ∉ Nat.toDigits b n := by
  induction n using Nat.strong_induction_on with
  | _ n ih =>
    rcases Nat.lt_or_ge n b with hlt | hge
    · rw [Nat.toDigits_of_lt_base hlt, List.mem_singleton]
      exact (hc n).symm
    · rw [Nat.toDigits_of_base_le hb hge, List.mem_append, not_or, List.mem_singleton]
      exact ⟨ih _ (Nat.div_lt_self (by omega) hb), (hc _).symm⟩

theorem silent_digits {b : ℕ} (hb : 1 < b) (n : ℕ) : Quiet returnType (Nat.toDigits b n) :=
  quiet_of_not_mem (not_mem_toDigits hb (fun _ => Nat.digitChar_ne 'v' (by decide)) n)

theorem silent_repr (n : ℕ) : Silent n.repr := by
  rw [Silent, Nat.toList_repr]
  exact silent_digits (by decide) n

theorem silent_int64 (i : Int64) : Silent (toString i) := by
  change Silent (Int.repr i.toInt)
  cases i.toInt with
  | ofNat n => exact silent_repr n
  | negSucc n => exact (silent_literal rfl (by decide)).append (silent_repr _)

theorem silent_uint32 (n : UInt32) : Silent (toString n) := silent_repr n.toNat

theorem silent_lowerHex (w : UInt64) : Silent (lowerHex w) := by
  rw [Silent, lowerHex, String.toList_ofList]
  exact silent_digits (by decide) _

theorem Silent.declares (hs : Silent s) : Declares [] s := Quiet.defines hs

theorem Declares.append (hs : Declares found s) (ht : Declares found' t) :
    Declares (found ++ found') (s ++ t) := by
  rw [Declares, String.toList_append, List.map_append]
  exact Defines.append hs ht

theorem Declares.then (hs : Declares found s) (ht : Silent t) : Declares found (s ++ t) := by
  have h := hs.append ht.declares
  rwa [List.append_nil] at h

theorem Declares.after (ht : Declares found t) (hs : Silent s) : Declares found (s ++ t) :=
  hs.declares.append ht

theorem Declares.head (ht : Declares found t) (hts : Silent (lines ts)) :
    Declares found (lines (t :: ts)) := by
  rw [lines_cons]
  exact (ht.then silent_newline).then hts

theorem Declares.tail (ht : Silent t) (hts : Declares found (lines ts)) :
    Declares found (lines (t :: ts)) := by
  rw [lines_cons]
  exact hts.after (ht.append silent_newline)

def Plain (name : String) : Prop := '(' ∉ name.toList ∧ 'v' ∉ name.toList

theorem declares_name {front name back : String} {A B : List Char} (hname : Plain name)
    (hfront : front = String.ofList A) (hback : back = String.ofList B)
    (hA : returnType <:+ A ∧ Quiet returnType (A.take (A.length - returnType.length)))
    (hB : ['('] <+: B ∧ Quiet returnType B) : Declares [name] (front ++ name ++ back) := by
  obtain ⟨⟨A', rfl⟩, hquiet⟩ := hA
  obtain ⟨⟨B', rfl⟩, hB⟩ := hB
  have hA' : Quiet returnType A' := by simpa using hquiet
  have hplain : Quiet returnType name.toList := quiet_of_not_mem hname.2
  have hB' : Quiet returnType B' := by
    rw [List.singleton_append] at hB
    exact (quiet_cons.mp hB).2
  have hmark : Quiet returnType ['('] := by decide
  have hbefore : Defines returnType '(' [] A' := hA'.defines
  have hmiddle := defines_keyword (by decide) (by decide) hname.1 (hplain.append hmark)
  have h := hbefore.append (hmiddle.append hB'.defines)
  rw [Declares, hfront, hback]
  simpa [String.toList_append] using h

end Texts

section Kernels

variable {name : String}

def SilentTypes : KernelSource → Prop
  | .matMul k => Silent k.datatype
  | .relu datatype => Silent datatype
  | .add datatype => Silent datatype
  | .fallback _ => True

theorem amd_activation (act : String) : Silent (AmdGpuCodegen.activationLine act) := by
  unfold AmdGpuCodegen.activationLine
  split <;> exact silent_literal rfl (by decide +kernel)

theorem metal_activation (act : String) : Silent (MetalCodegen.activationLine act) := by
  unfold MetalCodegen.activationLine
  split <;> exact silent_literal rfl (by decide +kernel)

theorem spirv_activation (act : String) : Silent (SpirvCodegen.activationLine act) := by
  unfold SpirvCodegen.activationLine
  split <;> exact silent_literal rfl (by decide +kernel)

theorem silent_activation {line : String → String} (h : ∀ act, Silent (line act))
    (activation : Option String) : Silent ((activation.map line).getD "") := by
  cases activation with
  | none => exact silent_literal rfl (by decide)
  | some act => exact h act

theorem amd_declares (hname : Plain name) {source : KernelSource} (hdt : SilentTypes source) :
    Declares [name] (AmdGpuCodegen.text name source) := by
  cases source
  case' matMul k =>
    replace hdt : Silent k.datatype := hdt
    rw [AmdGpuCodegen.text, AmdGpuCodegen.matMulText]
    refine .then (.then (.head (declares_name hname rfl rfl (by decide) (by decide)) ?_)
      (silent_activation amd_activation _)) ?_
  case' relu datatype =>
    replace hdt : Silent datatype := hdt
    rw [AmdGpuCodegen.text, AmdGpuCodegen.reluText]
    refine .head (.then (.then (.then (.then (declares_name hname rfl rfl (by decide) (by decide))
      hdt) ?_) hdt) ?_) ?_
  case' add datatype =>
    replace hdt : Silent datatype := hdt
    rw [AmdGpuCodegen.text, AmdGpuCodegen.addText]
    refine .head (.then (.then (.then (.then (.then (.then (declares_name hname rfl rfl (by decide)
      (by decide)) hdt) ?_) hdt) ?_) hdt) ?_) ?_
  case' fallback ptxHash =>
    rw [AmdGpuCodegen.text, AmdGpuCodegen.fallbackText]
    refine .tail (.append ?_ (silent_lowerHex _)) (.head (declares_name hname rfl rfl (by decide)
      (by decide)) ?_)
  all_goals
    repeat' first
      | with_reducible exact hdt
      | with_reducible exact silent_int64 _
      | with_reducible exact silent_lines_nil
      | with_reducible apply silent_lines_cons
      | with_reducible apply Silent.append
      | exact silent_literal (by with_reducible rfl) (by decide +kernel)

theorem metal_declares (hname : Plain name) {source : KernelSource} (hdt : SilentTypes source) :
    Declares [name] (MetalCodegen.text name source) := by
  cases source
  case' matMul k =>
    replace hdt : Silent k.datatype := hdt
    rw [MetalCodegen.text, MetalCodegen.matMulText]
    refine .then (.then (.head (declares_name hname rfl rfl (by decide) (by decide)) ?_)
      (silent_activation metal_activation _)) ?_
  case' relu datatype =>
    replace hdt : Silent datatype := hdt
    rw [MetalCodegen.text, MetalCodegen.reluText]
    refine .head (declares_name hname rfl rfl (by decide) (by decide)) ?_
  case' add datatype =>
    replace hdt : Silent datatype := hdt
    rw [MetalCodegen.text, MetalCodegen.addText]
    refine .head (declares_name hname rfl rfl (by decide) (by decide)) ?_
  case' fallback ptxHash =>
    rw [MetalCodegen.text, MetalCodegen.fallbackText]
    refine .tail (.append ?_ (silent_lowerHex _)) (.head (declares_name hname rfl rfl (by decide)
      (by decide)) ?_)
  all_goals
    repeat' first
      | with_reducible exact hdt
      | with_reducible exact silent_int64 _
      | with_reducible exact silent_lines_nil
      | with_reducible apply silent_lines_cons
      | with_reducible apply Silent.append
      | exact silent_literal (by with_reducible rfl) (by decide +kernel)

theorem declares_main : Declares ["main"] "void main() \x7b" := by
  have hmain : Plain "main" := by
    constructor <;> rw [String.toList_ofList] <;> decide
  exact @declares_name "void " "main" "() \x7b" _ _ hmain rfl rfl (by decide) (by decide)

theorem spirv_declares (name : String) {source : KernelSource} (hdt : SilentTypes source) :
    Declares ["main"] (SpirvCodegen.text name source) := by
  cases source
  case' matMul k =>
    replace hdt : Silent k.datatype := hdt
    rw [SpirvCodegen.text, SpirvCodegen.matMulText]
    refine .then (.then ?_ (silent_activation spirv_activation _)) ?_
  case' relu datatype =>
    replace hdt : Silent datatype := hdt
    rw [SpirvCodegen.text, SpirvCodegen.reluText]
  case' add datatype =>
    replace hdt : Silent datatype := hdt
    rw [SpirvCodegen.text, SpirvCodegen.addText]
  case' fallback ptxHash =>
    rw [SpirvCodegen.text, SpirvCodegen.fallbackText]
  all_goals
    repeat' first
      | with_reducible refine Declares.head declares_main ?_
      | with_reducible apply Declares.tail
      | with_reducible exact hdt
      | with_reducible exact silent_int64 _
      | with_reducible exact silent_uint32 _
      | with_reducible exact silent_lowerHex _
      | with_reducible exact silent_lines_nil
      | with_reducible apply silent_lines_cons
      | with_reducible apply Silent.append
      | exact silent_literal (by with_reducible rfl) (by decide +kernel)

end Kernels

section Names

def functionName : BackEnd → Emission → String
  | .spirv, _ => "main"
  | _, e => e.name

variable {F : Type} [DebugText F] {b : BackEnd} {op : OmniOp F} {e e' : Emission}

theorem name_toList {front : String} {id : UInt64} {letters : List Char}
    (h : front = String.ofList ('o' :: (letters ++ ['_']))) : (front ++ toString id).toList =
      'o' :: (letters ++ '_' :: Nat.toDigits 10 id.toNat) := by
  have hid : (toString id).toList = Nat.toDigits 10 id.toNat := Nat.toList_repr
  rw [String.toList_append, h, String.toList_ofList, hid]
  simp

theorem name_eq (e : Emission) : ∃ letters, e.name.toList =
    'o' :: (letters ++ '_' :: Nat.toDigits 10 e.id.toNat) ∧ '(' ∉ letters ∧ 'v' ∉ letters := by
  rw [Emission.name]
  cases e.source with
  | matMul => exact ⟨['m', 'n', 'i', '_', 'm', 'a', 't', 'm', 'u', 'l'], name_toList rfl, by decide,
      by decide⟩
  | relu => exact ⟨['m', 'n', 'i', '_', 'r', 'e', 'l', 'u'], name_toList rfl, by decide, by decide⟩
  | add => exact ⟨['m', 'n', 'i', '_', 'a', 'd', 'd'], name_toList rfl, by decide, by decide⟩
  | fallback => exact ⟨['m', 'n', 'i', '_', 'f', 'a', 'l', 'l', 'b', 'a', 'c', 'k'],
      name_toList rfl, by decide, by decide⟩

theorem name_plain (e : Emission) : Plain e.name := by
  obtain ⟨letters, heq, hparen, hv⟩ := name_eq e
  have hdigits : ∀ c, (∀ n, Nat.digitChar n ≠ c) → c ∉ Nat.toDigits 10 e.id.toNat := by
    intro c hc
    exact not_mem_toDigits (by decide) hc _
  rw [Plain, heq]
  constructor
  · simpa using ⟨hparen, hdigits _ fun _ => Nat.digitChar_ne '(' (by decide)⟩
  · simpa using ⟨hv, hdigits _ fun _ => Nat.digitChar_ne 'v' (by decide)⟩

theorem name_ne_main (e : Emission) : e.name ≠ "main" := by
  intro h
  obtain ⟨letters, heq, _⟩ := name_eq e
  have hmain : "main".toList = ['m', 'a', 'i', 'n'] := String.toList_ofList
  rw [h, hmain] at heq
  exact absurd (List.cons.inj heq).1 (by decide)

/-- The id stands behind the last underscore, so names of different ids differ. -/
theorem id_of_name (h : e.name = e'.name) : e.id = e'.id := by
  have hlast : ∀ e : Emission,
      e.name.toList.reverse.takeWhile (· ≠ '_') = (Nat.toDigits 10 e.id.toNat).reverse := by
    intro e
    obtain ⟨letters, heq, _⟩ := name_eq e
    rw [heq, ← List.cons_append, List.reverse_append, List.reverse_cons, List.append_assoc,
      List.takeWhile_append_of_pos]
    · simp
    · intro c hc
      rw [decide_eq_true_eq]
      rintro rfl
      exact Nat.underscore_not_in_toDigits (List.mem_reverse.mp hc)
  have hdigits := (hlast e).symm.trans (h ▸ hlast e')
  have hnat := congrArg (fun ds => Nat.ofDigitChars 10 ds 0) (List.reverse_injective hdigits)
  simp only [Nat.ofDigitChars_toDigits (by decide : 1 < 10) (by decide : 10 ≤ 10)] at hnat
  exact UInt64.toNat_inj.mp hnat

end Names

section Payloads

variable {F : Type} [DebugText F] {b : BackEnd} {op : OmniOp F} {ops : List (OmniOp F)}
  {e : Emission} {es : List Emission} {out : Output} {found : List String}

theorem datatype_silent (b : BackEnd) (t : ElementType) : Silent (b.dialect.datatype t) := by
  cases b <;> cases t <;> exact silent_literal rfl (by decide)

theorem header_silent (b : BackEnd) : Silent b.dialect.header := by
  cases b
  case' amdGpu => change Silent AmdGpuCodegen.header; rw [AmdGpuCodegen.header]
  case' metal => change Silent MetalCodegen.header; rw [MetalCodegen.header]
  case' spirv => change Silent SpirvCodegen.header; rw [SpirvCodegen.header]
  all_goals
    repeat' first
      | with_reducible exact silent_lines_nil
      | with_reducible apply silent_lines_cons
      | exact silent_literal (by with_reducible rfl) (by decide +kernel)

theorem silentTypes_of_lowered (h : LoweredTo b.dialect op e) : SilentTypes e.source := by
  have htypes : TypeNames Silent e.source := h.typeNames (datatype_silent b _)
  revert htypes
  cases e.source <;> exact id

theorem text_declares (h : LoweredTo b.dialect op e) :
    Declares [functionName b e] (b.dialect.text e.name e.source) := by
  have htypes := silentTypes_of_lowered h
  cases b with
  | amdGpu => exact amd_declares (name_plain e) htypes
  | metal => exact metal_declares (name_plain e) htypes
  | spirv => exact spirv_declares e.name htypes

/-- The invariant of the loop: one function a kernel, in the order of the operations. -/
theorem code_declares (hes : List.Forall₂ (LoweredTo b.dialect) ops es)
    (hout : Declares found out.code) :
    Declares (found ++ es.map (functionName b))
      (es.foldl (LaunchShapes.append b.dialect) out).code := by
  induction hes generalizing out found with
  | nil => simpa using hout
  | @cons op e ops es he _ ih =>
    have hnext : Declares (found ++ [functionName b e])
        (LaunchShapes.append b.dialect out e).code := hout.append (text_declares he)
    simpa [List.append_assoc] using ih hnext

end Payloads

section Modules

variable {F : Type} [DebugText F] {b : BackEnd} {m : OmniModule F} {k : GeneratedKernel}

theorem lowered_ids {d : Dialect} {ops : List (OmniOp F)} {es : List Emission}
    (h : List.Forall₂ (LoweredTo d) ops es) : es.map Emission.id = ops.map OmniOp.id := by
  induction h with
  | nil => rfl
  | cons he _ ih => rw [List.map_cons, List.map_cons, he.2, ih]

theorem generated_functions (hne : m.ops ≠ []) (h : b.generate m = .ok k) :
    ∃ (es : List Emission) (e : Emission), es.map Emission.id = m.ops.map OmniOp.id ∧ e ∈ es ∧
      k.name = e.name ∧ definedFunctions k.payload = es.map (functionName b) := by
  rw [BackEnd.generate_eq] at h
  obtain ⟨es, hes, rfl⟩ := generate_iff.mp h
  have hids := lowered_ids hes
  have hne' : es ≠ [] := by
    rintro rfl
    exact hne (List.map_eq_nil_iff.mp hids.symm)
  have hstart : Declares [] b.dialect.start.code := (header_silent b).declares
  have hdefs := definedFunctions_toUTF8 (code_declares hes hstart)
  obtain ⟨front, e, rfl⟩ := es.eq_nil_or_concat'.resolve_left hne'
  refine ⟨front ++ [e], e, hids, by simp, ?_, hdefs⟩
  rw [List.foldl_append]
  rfl

theorem entry_point_iff (b : BackEnd) (m : OmniModule F) (k : GeneratedKernel) (hne : m.ops ≠ [])
    (distinct : (m.ops.map OmniOp.id).Nodup) (h : b.generate m = .ok k) :
    ((definedFunctions k.payload).count k.name = 1 ∧ (definedFunctions k.payload).Nodup) ↔
      b ≠ .spirv := by
  obtain ⟨es, e, hids, he, hname, hdefs⟩ := generated_functions hne h
  rw [hdefs, hname]
  have hnames : (es.map Emission.name).Nodup := by
    rw [← hids, List.Nodup, List.pairwise_map] at distinct
    rw [List.Nodup, List.pairwise_map]
    exact distinct.imp fun hid hname => hid (id_of_name hname)
  cases b with
  | amdGpu | metal =>
    refine iff_of_true ⟨?_, hnames⟩ (by decide)
    exact List.count_eq_one_of_mem hnames (List.mem_map_of_mem he)
  | spirv =>
    refine iff_of_false ?_ (by simp)
    rintro ⟨hcount, _⟩
    have hmem : e.name ∈ es.map (functionName .spirv) := List.one_le_count_iff.mp hcount.ge
    obtain ⟨other, _, hother⟩ := List.mem_map.mp hmem
    exact name_ne_main e hother.symm

theorem entry_point_iff_layer : ∃ k, BackEnd.metal.generate layer = .ok k ∧
    (((definedFunctions k.payload).count k.name = 1 ∧ (definedFunctions k.payload).Nodup) ↔
      BackEnd.metal ≠ .spirv) :=
  ⟨_, rfl, entry_point_iff .metal layer _ (List.cons_ne_nil _ _) (by decide) rfl⟩

def lone : OmniModule ℚ := .build [⟨0, .relu, ["x"], "y", ∅, .dynamic 1 .f32⟩]

/-- The GLSL text of it defines `main` and nothing else, but the name returned is another. -/
theorem lone_main : ∃ k, BackEnd.spirv.generate lone = .ok k ∧
    definedFunctions k.payload = ["main"] ∧ (definedFunctions k.payload).count k.name = 0 := by
  have hlower : LoweredTo BackEnd.spirv.dialect
      (⟨0, .relu, ["x"], "y", ∅, .dynamic 1 .f32⟩ : OmniOp ℚ) ⟨0, .relu "float"⟩ := ⟨rfl, rfl⟩
  have hes : List.Forall₂ (LoweredTo BackEnd.spirv.dialect) lone.ops [⟨0, .relu "float"⟩] :=
    .cons hlower .nil
  have hstart : Declares [] BackEnd.spirv.dialect.start.code := (header_silent .spirv).declares
  have hrun : BackEnd.spirv.generate lone = .ok (returned ([⟨0, .relu "float"⟩].foldl
      (LaunchShapes.append BackEnd.spirv.dialect) BackEnd.spirv.dialect.start)) := by
    rw [BackEnd.generate_eq]
    exact generate_iff.mpr ⟨_, hes, rfl⟩
  have hdefs := definedFunctions_toUTF8 (code_declares hes hstart)
  refine ⟨_, hrun, hdefs, ?_⟩
  rw [returned, hdefs, List.count_eq_zero]
  intro hmem
  exact name_ne_main ⟨0, .relu "float"⟩ (List.mem_singleton.mp hmem)

end Modules

end EntryPoints
