import OmniCompute.Protocol
import OmniCompute.Spellings

/-! Which bytes the protocol accepts. Only the attributes of an operation leave a sender a
choice; every other part of a message has one form. -/
namespace MessageForms

open RustValues OmniDialect TaskRouter ByteReaders Bincode Protocol Spellings

section Forms

theorem exact_elementType : Exact elementType := exact_unitVariants (by decide)

theorem exact_unaryFunc : Exact unaryFunc := exact_unitVariants (by decide)

theorem exact_binaryFunc : Exact binaryFunc := exact_unitVariants (by decide)

theorem exact_memoryEncoding : Exact memoryEncoding := by
  refine takes_bind (takes_word 4) fun i front hi => ?_
  obtain ⟨-, rfl⟩ := hi
  split
  · exact takes_pure ⟨trivial, rfl⟩
  · exact takes_pure ⟨trivial, rfl⟩
  · exact takes_map (takes_mono (exact_seq exact_i64) fun _ _ h => ⟨h.1, congrArg _ h.2⟩)
  · exact takes_pure ⟨trivial, rfl⟩
  · exact takes_failure

theorem exact_tensorType : Exact tensorType := by
  refine takes_bind (exact_seq (exact_option exact_i64)) fun shape _ hs => ?_
  refine takes_bind exact_elementType fun elementType _ he => ?_
  refine takes_bind exact_memoryEncoding fun encoding _ hm => takes_pure ?_
  exact ⟨⟨hs.1, hm.1⟩, by rw [hs.2, he.2, hm.2]; rfl⟩

theorem exact_variant {α β : Type} {c : Codec α} (h : Exact c) {wrap : α → β}
    {Fits : β → Prop} {encode : β → List UInt8} {tag : List UInt8}
    (fits : ∀ a, c.Fits a → Fits (wrap a)) (encodes : ∀ a, encode (wrap a) = tag ++ c.encode a) :
    Takes (wrap <$> c.decode) fun b more => Fits b ∧ tag ++ more = encode b :=
  takes_map (takes_mono h fun a _ ha => ⟨fits a ha.1, by rw [ha.2, encodes]⟩)

theorem exact_opKind : Exact opKind := by
  refine takes_bind (takes_word 4) fun i front hi => ?_
  obtain ⟨-, rfl⟩ := hi
  split
  case h_1 | h_2 | h_3 | h_6 | h_9 | h_10 | h_11 | h_12
    | h_15 | h_16 | h_17 | h_18 | h_19 | h_27 | h_31 | h_34 =>
    exact takes_pure ⟨trivial, rfl⟩
  case h_4 | h_5 | h_21 | h_23 | h_35 | h_36 =>
    exact exact_variant exact_u64 (fun _ _ => trivial) fun _ => rfl
  case h_8 => exact exact_variant exact_u32 (fun _ _ => trivial) fun _ => rfl
  case h_20 | h_29 | h_32 | h_33 =>
    exact exact_variant exact_i32 (fun _ _ => trivial) fun _ => rfl
  case h_7 => exact exact_variant exact_bool (fun _ _ => trivial) fun _ => rfl
  case h_13 => exact exact_variant exact_unaryFunc (fun _ _ => trivial) fun _ => rfl
  case h_14 => exact exact_variant exact_binaryFunc (fun _ _ => trivial) fun _ => rfl
  case h_22 =>
    exact exact_variant (exact_pair exact_u32 exact_u64) (fun _ _ => trivial) fun _ => rfl
  case h_24 | h_25 | h_26 =>
    exact exact_variant (exact_pair (exact_seq exact_i32) exact_bool) (fun _ h => h.1) fun _ => rfl
  case h_28 => exact exact_variant (exact_seq exact_u32) (fun _ h => h) fun _ => rfl
  case h_30 =>
    exact exact_variant (exact_pair exact_i32 (exact_seq exact_i64)) (fun _ h => h.2) fun _ => rfl
  case h_37 => exact takes_failure

theorem exact_attrValue : Exact attrValue := by
  refine takes_bind (takes_word 4) fun i front hi => ?_
  obtain ⟨-, rfl⟩ := hi
  split
  · exact exact_variant exact_i64 (fun _ _ => trivial) fun _ => rfl
  · exact exact_variant exact_u64 (fun _ _ => trivial) fun _ => rfl
  · exact exact_variant exact_bool (fun _ _ => trivial) fun _ => rfl
  · exact exact_variant exact_string (fun _ h => h) fun _ => rfl
  · exact exact_variant (exact_seq exact_i64) (fun _ h => h) fun _ => rfl
  · exact takes_failure

theorem exact_workerNode : Exact workerNode := by
  refine takes_bind exact_string fun peerId _ hp => takes_bind exact_u32 fun _ _ hf => ?_
  refine takes_bind exact_u32 fun _ _ hr => takes_bind exact_u64 fun _ _ hv => ?_
  refine takes_bind exact_u32 fun _ _ hc => takes_pure ⟨hp.1, ?_⟩
  rw [hp.2, hf.2, hr.2, hv.2, hc.2]
  rfl

end Forms

section Spelled

/-- The attributes as they stand in the bytes, keys that come again included. -/
abbrev AttrList := List (String × AttrValue UInt64)

def attrList : Codec AttrList := seq (pair string attrValue)

def spellOp (op : OmniOp UInt64) (attrs : AttrList) : List UInt8 :=
  [u64.encode op.id, opKind.encode op.kind, (seq string).encode op.inputs,
    string.encode op.output, attrList.encode attrs, tensorType.encode op.resultType].flatten

def spellTask (t : TaskDispatch UInt64 UInt32) (attrs : AttrList) : List UInt8 :=
  [string.encode t.targetPeerId, u64.encode t.opId, spellOp t.op attrs,
    f32.encode t.priority].flatten

def spell : WireMessage → AttrList → List UInt8
  | .taskRequest task inputData, attrs =>
    variantTag 3 ++ [spellTask task attrs, (seq u8).encode inputData].flatten
  | m, _ => m.encode

def attributesOf : WireMessage → HashMap String (AttrValue UInt64)
  | .taskRequest task _ => task.op.attrs
  | _ => ∅

def SpellsAttrs (m : HashMap String (AttrValue UInt64)) (attrs : AttrList) : Prop :=
  attrList.Fits attrs ∧ collect attrs = m

theorem takes_omniOp : Takes omniOp.decode fun op front =>
    omniOp.Fits op ∧ ∃ attrs, SpellsAttrs op.attrs attrs ∧ front = spellOp op attrs := by
  refine takes_bind exact_u64 fun id _ hid => takes_bind exact_opKind fun kind _ hk => ?_
  refine takes_bind (exact_seq exact_string) fun inputs _ hin => ?_
  refine takes_bind exact_string fun output _ hout => ?_
  refine takes_bind (takes_spelled exact_string exact_attrValue) fun attrs front hattrs => ?_
  refine takes_bind exact_tensorType fun resultType _ ht => takes_pure ?_
  obtain ⟨l, hl, rfl, rfl⟩ := hattrs
  refine ⟨⟨hk.1, hin.1, hout.1, fits_collect hl, ht.1⟩, l, ⟨hl, rfl⟩, ?_⟩
  rw [hid.2, hk.2, hin.2, hout.2, ht.2]
  rfl

theorem takes_taskDispatch : Takes taskDispatch.decode fun t front =>
    taskDispatch.Fits t ∧ ∃ attrs, SpellsAttrs t.op.attrs attrs ∧ front = spellTask t attrs := by
  refine takes_bind exact_string fun target _ hp => takes_bind exact_u64 fun opId _ hid => ?_
  refine takes_bind takes_omniOp fun op _ hop => ?_
  refine takes_bind exact_u32 fun priority _ hq => takes_pure ?_
  obtain ⟨hfits, attrs, hattrs, rfl⟩ := hop
  refine ⟨⟨hp.1, hfits⟩, attrs, hattrs, ?_⟩
  rw [hp.2, hid.2, hq.2]
  rfl

theorem spellsAttrs_none : SpellsAttrs ∅ [] := ⟨⟨by change 0 < 256 ^ 8; decide, nofun⟩, rfl⟩

theorem takes_networkMessage : Takes networkMessage.decode fun m front =>
    networkMessage.Fits m ∧
      ∃ attrs, SpellsAttrs (attributesOf m) attrs ∧ front = spell m attrs := by
  refine takes_bind (takes_word 4) fun i front hi => ?_
  obtain ⟨-, rfl⟩ := hi
  split
  · refine takes_bind exact_u64 fun sentAtNs _ hs => takes_pure ?_
    exact ⟨trivial, [], spellsAttrs_none, by rw [hs.2]; rfl⟩
  · refine takes_bind exact_u64 fun sent _ hs => takes_bind exact_u64 fun got _ hg => ?_
    exact takes_pure ⟨trivial, [], spellsAttrs_none, by rw [hs.2, hg.2]; rfl⟩
  · refine takes_bind exact_workerNode fun profile _ hp => takes_bind exact_u64 fun up _ hu => ?_
    exact takes_pure ⟨hp.1, [], spellsAttrs_none, by rw [hp.2, hu.2]; rfl⟩
  · refine takes_bind takes_taskDispatch fun task _ ht => ?_
    refine takes_bind (exact_seq exact_u8) fun inputData _ hd => takes_pure ?_
    obtain ⟨hfits, attrs, hattrs, rfl⟩ := ht
    exact ⟨⟨hfits, hd.1⟩, attrs, hattrs, by rw [hd.2]; rfl⟩
  · refine takes_bind exact_u64 fun opId _ hid => takes_bind exact_bool fun success _ hs => ?_
    refine takes_bind (exact_seq exact_u8) fun outputData _ ho => ?_
    refine takes_bind (exact_option exact_string) fun err _ he => takes_pure ?_
    exact ⟨⟨ho.1, he.1⟩, [], spellsAttrs_none, by rw [hid.2, hs.2, ho.2, he.2]; rfl⟩
  · exact takes_failure

theorem reads_spellOp {op : OmniOp UInt64} {attrs : AttrList} (fits : omniOp.Fits op)
    (h : SpellsAttrs op.attrs attrs) : Reads omniOp.decode (spellOp op attrs) op := by
  obtain ⟨hk, hin, hout, -, ht⟩ := fits
  obtain ⟨id, kind, inputs, output, _, resultType⟩ := op
  obtain ⟨hl, rfl⟩ := h
  exact reads_bind (u64.reads _ trivial) (reads_bind (opKind.reads _ hk)
    (reads_bind ((seq string).reads _ hin) (reads_bind (string.reads _ hout)
    (reads_bind (reads_spelled hl) (reads_bind (tensorType.reads _ ht) (reads_pure _))))))

theorem reads_spell {m : WireMessage} {attrs : AttrList} (fits : networkMessage.Fits m)
    (h : SpellsAttrs (attributesOf m) attrs) : Reads networkMessage.decode (spell m attrs) m := by
  cases m with
  | taskRequest task inputData =>
    obtain ⟨⟨hpeer, hop⟩, hdata⟩ := fits
    have htask : Reads taskDispatch.decode (spellTask task attrs) task :=
      reads_bind (string.reads _ hpeer) (reads_bind (u64.reads _ trivial)
        (reads_bind (reads_spellOp hop h) (reads_bind (f32.reads _ trivial) (reads_pure task))))
    exact reads_bind (reads_variantTag (by decide)) (reads_bind htask
      (reads_bind ((seq u8).reads _ hdata) (reads_pure _)))
  | _ => exact networkMessage.reads _ fits

theorem attr_solid (p : String × AttrValue UInt64) : (pair string attrValue).encode p ≠ [] := by
  intro h
  have hlen := congrArg List.length h
  simp [pair, string, seq, length_wordBytes] at hlen

theorem spells_encode {m : WireMessage} {attrs : AttrList}
    (h : SpellsAttrs (attributesOf m) attrs) : Spells m.encode (spell m attrs) := by
  cases m with
  | taskRequest task inputData =>
    obtain ⟨-, hcollect⟩ := h
    have hattrs := spells_collect attr_solid attrs
    rw [hcollect] at hattrs
    have hop : Spells (omniOp.encode task.op) (spellOp task.op attrs) :=
      (Spells.refl _).append ((Spells.refl _).append ((Spells.refl _).append
        ((Spells.refl _).append (hattrs.append (.refl _)))))
    have htask : Spells (taskDispatch.encode task) (spellTask task attrs) :=
      (Spells.refl _).append ((Spells.refl _).append (hop.append (.refl _)))
    exact (Spells.refl _).append (htask.append (.refl _))
  | _ => exact .refl _

end Spelled

/-- A byte string is accepted as `m` exactly when it begins with `m`, its attributes written as
some list that collects to them; and the sender's own bytes are the shortest such beginning. -/
theorem accepted_iff (bytes : List UInt8) (m : WireMessage) :
    (NetworkMessage.decode bytes = some m ↔ networkMessage.Fits m ∧
      ∃ attrs rest, SpellsAttrs (attributesOf m) attrs ∧ bytes = spell m attrs ++ rest) ∧
    ∀ attrs, SpellsAttrs (attributesOf m) attrs → Spells m.encode (spell m attrs) := by
  refine ⟨⟨fun h => ?_, ?_⟩, fun attrs => spells_encode⟩
  · obtain ⟨⟨_, rest⟩, hread, rfl⟩ := Option.map_eq_some_iff.1 h
    obtain ⟨_, rfl, fits, attrs, hattrs, rfl⟩ := takes_networkMessage bytes _ rest hread
    exact ⟨fits, attrs, rest, hattrs, rfl⟩
  · rintro ⟨fits, attrs, rest, hattrs, rfl⟩
    exact congrArg (Option.map Prod.fst) (reads_spell fits hattrs rest)

end MessageForms
