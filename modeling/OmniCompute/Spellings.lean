import OmniCompute.Bincode
import Mathlib.Data.List.Flatten
import Mathlib.Data.List.Forall2

/-! What a reader has taken when it succeeds. A codec is exact when it accepts nothing but
its own encodings. A map is the one format that can be written in more than one way, since a
pair may be followed by another one with its key: of all bytes that read as a map, its own
encoding is the shortest. -/
namespace Spellings

open RustValues ByteReaders Bincode

variable {α β : Type}

/-- The reader takes `front` for `a` only if `P a front`. -/
def Takes (r : Reader α) (P : α → List UInt8 → Prop) : Prop :=
  ∀ bytes a rest, r bytes = some (a, rest) → ∃ front, bytes = front ++ rest ∧ P a front

theorem length_wordBytes (width n : ℕ) : (wordBytes width n).length = width := by
  induction width generalizing n with
  | zero => rfl
  | succ width ih => exact congrArg (· + 1) (ih _)

section Rules

variable {r : Reader α} {f : α → Reader β} {P P' : α → List UInt8 → Prop}
  {Q : β → List UInt8 → Prop}

theorem takes_mono (h : Takes r P) (imp : ∀ a front, P a front → P' a front) : Takes r P' := by
  intro bytes a rest hr
  obtain ⟨front, hb, hp⟩ := h bytes a rest hr
  exact ⟨front, hb, imp a front hp⟩

theorem takes_pure {a : α} (h : P a []) : Takes (pure a) P := by
  rintro bytes b rest ⟨⟩
  exact ⟨[], rfl, h⟩

theorem takes_failure : Takes (failure : Reader α) P := by
  intro bytes a rest h
  cases h

theorem takes_bind (hr : Takes r P)
    (hf : ∀ a front, P a front → Takes (f a) fun b more => Q b (front ++ more)) :
    Takes (r >>= f) Q := by
  intro bytes b rest h
  change (r bytes >>= fun p => f p.1 p.2) = some (b, rest) at h
  cases hb : r bytes with
  | none =>
    rw [hb] at h
    cases h
  | some p =>
    rw [hb] at h
    obtain ⟨front, rfl, hp⟩ := hr _ _ _ hb
    obtain ⟨more, hmore, hq⟩ := hf p.1 front hp _ _ _ h
    exact ⟨front ++ more, by rw [hmore, List.append_assoc], hq⟩

theorem takes_map {g : α → β} (hr : Takes r fun a front => Q (g a) front) : Takes (g <$> r) Q :=
  takes_bind hr fun _ front h => takes_pure (by rwa [List.append_nil])

theorem takes_ofOption {x : Option α} (h : ∀ a, x = some a → P a []) : Takes (ofOption x) P := by
  cases x with
  | none => exact takes_failure
  | some a => exact takes_pure (h a rfl)

theorem takes_byte : Takes byte fun b front => front = [b] := by
  intro bytes b rest h
  cases bytes with
  | nil => cases h
  | cons c bytes =>
    cases h
    exact ⟨[b], rfl, rfl⟩

theorem takes_word (width : ℕ) :
    Takes (word width) fun n front => n < 256 ^ width ∧ front = wordBytes width n := by
  induction width with
  | zero => exact takes_pure ⟨by decide, rfl⟩
  | succ width ih =>
    refine takes_bind takes_byte fun low _ hlow => takes_bind ih fun high _ hhigh => takes_pure ?_
    obtain ⟨hlt, rfl⟩ := hhigh
    have hbyte := low.toNat_lt
    have hsplit : (low.toNat + 256 * high) / 256 = high := by omega
    have hlow' : UInt8.ofNat (low.toNat + 256 * high) = low := by
      apply UInt8.toNat_inj.1
      rw [UInt8.toNat_ofNat']
      omega
    refine ⟨?_, ?_⟩
    · rw [pow_succ]
      omega
    · rw [wordBytes, hsplit, hlow', hlow]
      simp

theorem takes_repeated (hr : Takes r P) (n : ℕ) : Takes (repeated r n) fun xs front =>
    xs.length = n ∧ ∃ fronts, List.Forall₂ P xs fronts ∧ front = fronts.flatten := by
  induction n with
  | zero => exact takes_pure ⟨rfl, [], .nil, rfl⟩
  | succ n ih =>
    refine takes_bind hr fun a front ha => takes_bind ih fun xs more hxs => takes_pure ?_
    obtain ⟨hlen, fronts, hall, rfl⟩ := hxs
    exact ⟨congrArg (· + 1) hlen, front :: fronts, .cons ha hall, by simp⟩

end Rules

/-- What it reads fits, and was encoded by it. -/
def Exact (c : Codec α) : Prop :=
  Takes c.decode fun a front => c.Fits a ∧ front = c.encode a

section Exact

variable {c : Codec α} {d : Codec β}

theorem exact_mapped {wrap : α → β} {unwrap : β → α} {inverse : ∀ b, wrap (unwrap b) = b}
    (h : Exact c) (back : ∀ a, unwrap (wrap a) = a) : Exact (mapped c wrap unwrap inverse) := by
  refine takes_map (takes_mono h fun a front ha => ?_)
  simpa only [mapped, back] using ha

theorem exact_u8 : Exact u8 := takes_mono takes_byte fun _ _ h => ⟨trivial, h⟩

theorem exact_u32 : Exact u32 := by
  refine takes_map (takes_mono (takes_word 4) fun n front hn => ⟨trivial, ?_⟩)
  rw [hn.2]
  exact congrArg (wordBytes 4) (UInt32.toNat_ofNat_of_lt' hn.1).symm

theorem exact_u64 : Exact u64 := by
  refine takes_map (takes_mono (takes_word 8) fun n front hn => ⟨trivial, ?_⟩)
  rw [hn.2]
  exact congrArg (wordBytes 8) (UInt64.toNat_ofNat_of_lt' hn.1).symm

theorem exact_i32 : Exact i32 := exact_mapped exact_u32 fun n => UInt32.toUInt32_toInt32 n

theorem exact_i64 : Exact i64 := exact_mapped exact_u64 fun n => UInt64.toUInt64_toInt64 n

theorem exact_unitVariants [DecidableEq α] {variants : List α} {complete : ∀ a, a ∈ variants}
    {few : variants.length < 256 ^ 4} (nodup : variants.Nodup) :
    Exact (unitVariants variants complete few) := by
  refine takes_bind (takes_word 4) fun i front hi => takes_ofOption fun a ha => ⟨trivial, ?_⟩
  obtain ⟨hlt, rfl⟩ := List.getElem?_eq_some_iff.1 ha
  change front ++ [] = variantTag (variants.idxOf variants[i]) ++ []
  rw [hi.2, nodup.idxOf_getElem i hlt, variantTag]

theorem exact_bool : Exact Bincode.bool := by
  refine takes_bind takes_byte fun b front hb => ?_
  subst hb
  split
  · next h => exact takes_pure ⟨trivial, by rw [h]; rfl⟩
  · split
    · next h => exact takes_pure ⟨trivial, by rw [h]; rfl⟩
    · exact takes_failure

theorem exact_option (h : Exact c) : Exact (option c) := by
  refine takes_bind takes_byte fun b front hb => ?_
  subst hb
  split
  · next h0 => exact takes_pure ⟨nofun, by simp [option, h0]⟩
  · split
    · next h1 =>
      refine takes_map (takes_mono h fun a front ha => ⟨?_, by simp [option, h1, ha.2]⟩)
      rintro _ ⟨⟩
      exact ha.1
    · exact takes_failure

theorem forall₂_exact {xs : List α} {fronts : List (List UInt8)}
    (h : List.Forall₂ (fun a front => c.Fits a ∧ front = c.encode a) xs fronts) :
    (∀ a ∈ xs, c.Fits a) ∧ fronts.flatten = xs.flatMap c.encode := by
  induction h with
  | nil => exact ⟨nofun, rfl⟩
  | cons ha _ ih =>
    refine ⟨List.forall_mem_cons.2 ⟨ha.1, ih.1⟩, ?_⟩
    rw [List.flatten_cons, List.flatMap_cons, ih.2, ha.2]

theorem exact_seq (h : Exact c) : Exact (seq c) := by
  refine takes_bind (takes_word 8) fun n front hn => ?_
  refine takes_mono (takes_repeated h n) fun xs more hxs => ?_
  obtain ⟨rfl, fronts, hall, rfl⟩ := hxs
  obtain ⟨hfits, hflat⟩ := forall₂_exact hall
  exact ⟨⟨hn.1, hfits⟩, by rw [hn.2, hflat]; rfl⟩

theorem utf8_fromUTF8 {bytes : List UInt8} {s : String}
    (h : String.fromUTF8? ⟨bytes.toArray⟩ = some s) : utf8 s = bytes := by
  rw [String.fromUTF8?] at h
  split at h
  · cases h
    rfl
  · cases h

theorem exact_string : Exact string := by
  refine takes_bind (exact_seq exact_u8) fun bytes front hb => takes_ofOption fun s hs => ?_
  obtain ⟨⟨hcount, -⟩, rfl⟩ := hb
  obtain rfl := utf8_fromUTF8 hs
  exact ⟨hcount, rfl⟩

theorem exact_pair (hc : Exact c) (hd : Exact d) : Exact (pair c d) := by
  refine takes_bind hc fun a front ha => takes_bind hd fun b more hb => takes_pure ?_
  exact ⟨⟨ha.1, hb.1⟩, by rw [ha.2, hb.2, List.append_nil]; rfl⟩

end Exact

/-- `front` is longer than `short`, or the same bytes. -/
def Spells (short front : List UInt8) : Prop :=
  short.length ≤ front.length ∧ (short.length = front.length → front = short)

theorem Spells.refl (bytes : List UInt8) : Spells bytes bytes := ⟨le_rfl, fun _ => rfl⟩

theorem Spells.append {s f t g : List UInt8} (hs : Spells s f) (ht : Spells t g) :
    Spells (s ++ t) (f ++ g) := by
  obtain ⟨hsf, hs⟩ := hs
  obtain ⟨htg, ht⟩ := ht
  simp only [Spells, List.length_append]
  refine ⟨by omega, fun heq => ?_⟩
  rw [hs (by omega), ht (by omega)]

section Maps

variable {κ ν : Type} [DecidableEq κ]

theorem collect_sublist (l : List (κ × ν)) : (pairs (collect l)).Sublist l := by
  induction l with
  | nil => exact .slnil
  | cons p l ih =>
    rw [collect]
    split
    · exact ih.cons _
    · next hk =>
      rw [pairs, AList.entries_insert_of_notMem hk]
      exact ih.cons_cons _

theorem eq_of_flatMap_length {f : α → List UInt8} (solid : ∀ a, f a ≠ []) {l m : List α}
    (h : l.Sublist m) (hlen : (l.flatMap f).length = (m.flatMap f).length) : l = m := by
  induction h with
  | slnil => rfl
  | @cons l m a hsub ih =>
    have hle := (hsub.flatMap f).length_le
    have hpos := List.length_pos_of_ne_nil (solid a)
    rw [List.flatMap_cons, List.length_append] at hlen
    omega
  | @cons_cons l m a hsub ih =>
    simp only [List.flatMap_cons, List.length_append] at hlen
    rw [ih (by omega)]

variable {key : Codec κ} {value : Codec ν}

theorem reads_spelled {l : List (κ × ν)} (h : (seq (pair key value)).Fits l) :
    Reads (map key value).decode ((seq (pair key value)).encode l) (collect l) :=
  reads_map collect ((seq (pair key value)).reads l h)

theorem takes_spelled (hk : Exact key) (hv : Exact value) :
    Takes (map key value).decode fun m front =>
      ∃ l, (seq (pair key value)).Fits l ∧ collect l = m ∧
        front = (seq (pair key value)).encode l :=
  takes_map (takes_mono (exact_seq (exact_pair hk hv)) fun l _ h => ⟨l, h.1, rfl, h.2⟩)

theorem fits_collect {l : List (κ × ν)} (h : (seq (pair key value)).Fits l) :
    (map key value).Fits (collect l) := by
  have hsub := collect_sublist l
  exact ⟨hsub.length_le.trans_lt h.1, fun p hp => h.2 p (hsub.subset hp)⟩

/-- A map's own encoding drops a pair for every key that comes again. -/
theorem spells_collect (solid : ∀ p, (pair key value).encode p ≠ []) (l : List (κ × ν)) :
    Spells ((map key value).encode (collect l)) ((seq (pair key value)).encode l) := by
  have hsub := collect_sublist l
  have hle := (hsub.flatMap (pair key value).encode).length_le
  change Spells (wordBytes 8 _ ++ (pairs (collect l)).flatMap _) (wordBytes 8 _ ++ l.flatMap _)
  simp only [Spells, List.length_append, length_wordBytes]
  refine ⟨by omega, fun heq => ?_⟩
  rw [eq_of_flatMap_length solid hsub (by omega)]

end Maps

end Spellings
