import OmniCompute.ByteReaders
import OmniCompute.RustValues

/-! The default binary format of `bincode` 1.3 for Rust's primitive types and collections:
fixed-width little-endian integers, `u32` variant tags in declaration order, `u64` lengths,
floats by their bits, maps as counted pairs. Bytes behind a value are left unread. -/
namespace Bincode

open RustValues ByteReaders

section Integers

def mapped {α β : Type} (c : Codec α) (wrap : α → β) (unwrap : β → α)
    (inverse : ∀ b, wrap (unwrap b) = b) : Codec β where
  encode b := c.encode (unwrap b)
  decode := wrap <$> c.decode
  Fits b := c.Fits (unwrap b)
  reads b h := by
    have hr := reads_map wrap (c.reads (unwrap b) h)
    rwa [inverse] at hr
  stable := stable_map wrap c.stable

def u8 : Codec UInt8 where
  encode b := [b]
  decode := byte
  Fits _ := True
  reads b _ := reads_byte b
  stable := stable_byte

def u32 : Codec UInt32 where
  encode n := wordBytes 4 n.toNat
  decode := UInt32.ofNat <$> word 4
  Fits _ := True
  reads n _ := by
    have h := reads_map UInt32.ofNat (reads_word (show n.toNat < 256 ^ 4 from n.toNat_lt))
    rwa [UInt32.ofNat_toNat] at h
  stable := stable_map _ (stable_word 4)

def u64 : Codec UInt64 where
  encode n := wordBytes 8 n.toNat
  decode := UInt64.ofNat <$> word 8
  Fits _ := True
  reads n _ := by
    have h := reads_map UInt64.ofNat (reads_word (show n.toNat < 256 ^ 8 from n.toNat_lt))
    rwa [UInt64.ofNat_toNat] at h
  stable := stable_map _ (stable_word 8)

/-- Two's complement. -/
def i32 : Codec Int32 := mapped u32 UInt32.toInt32 Int32.toUInt32 Int32.toInt32_toUInt32

def i64 : Codec Int64 := mapped u64 UInt64.toInt64 Int64.toUInt64 Int64.toInt64_toUInt64

end Integers

section Tags

def variantTag (i : ℕ) : List UInt8 := wordBytes 4 i

theorem reads_variantTag {i : ℕ} (h : i < 256 ^ 4) : Reads (word 4) (variantTag i) i :=
  reads_word h

def unitVariants {α : Type} [DecidableEq α] (variants : List α) (complete : ∀ a, a ∈ variants)
    (few : variants.length < 256 ^ 4) : Codec α where
  encode a := variantTag (variants.idxOf a) ++ []
  decode := do ofOption variants[← word 4]?
  Fits _ := True
  reads a _ := by
    have hlt := List.idxOf_lt_length_of_mem (complete a)
    apply reads_bind (reads_variantTag (hlt.trans few))
    exact reads_ofOption (List.getElem?_idxOf (complete a))
  stable := stable_bind (stable_word 4) fun _ => stable_ofOption _

def bool : Codec Bool where
  encode b := [if b then 1 else 0]
  decode := do
    let b ← byte
    if b = 0 then return false else if b = 1 then return true else failure
  Fits _ := True
  reads b _ := by cases b <;> exact fun _ => rfl
  stable := stable_bind stable_byte fun b => by
    split
    · exact stable_pure _
    · split
      · exact stable_pure _
      · exact stable_failure

def option {α : Type} (c : Codec α) : Codec (Option α) where
  encode
    | none => [0]
    | some a => 1 :: c.encode a
  decode := do
    let b ← byte
    if b = 0 then return none else if b = 1 then some <$> c.decode else failure
  Fits x := ∀ a, x = some a → c.Fits a
  reads x h := by
    cases x with
    | none => exact fun _ => rfl
    | some a => exact reads_bind (reads_byte 1) (reads_map some (c.reads a (h a rfl)))
  stable := stable_bind stable_byte fun b => by
    split
    · exact stable_pure _
    · split
      · exact stable_map some c.stable
      · exact stable_failure

end Tags

section Collections

def Countable (n : ℕ) : Prop := n < 256 ^ 8

def seq {α : Type} (c : Codec α) : Codec (List α) where
  encode xs := wordBytes 8 xs.length ++ xs.flatMap c.encode
  decode := do repeated c.decode (← word 8)
  Fits xs := Countable xs.length ∧ ∀ a ∈ xs, c.Fits a
  reads _ h := reads_bind (reads_word h.1) (reads_repeated fun a ha => c.reads a (h.2 a ha))
  stable := stable_bind (stable_word 8) fun n => stable_repeated c.stable n

def utf8 (s : String) : List UInt8 := s.toByteArray.data.toList

theorem fromUTF8_utf8 (s : String) : String.fromUTF8? ⟨(utf8 s).toArray⟩ = some s := by
  have h : (⟨(utf8 s).toArray⟩ : ByteArray) = s.toByteArray := by simp [utf8]
  rw [h, String.fromUTF8?, dif_pos s.isValidUTF8]
  rfl

/-- Only valid UTF-8 is read back. -/
def string : Codec String where
  encode s := (seq u8).encode (utf8 s) ++ []
  decode := do ofOption (String.fromUTF8? ⟨(← (seq u8).decode).toArray⟩)
  Fits s := Countable (utf8 s).length
  reads s h := reads_bind ((seq u8).reads (utf8 s) ⟨h, fun _ _ => trivial⟩)
    (reads_ofOption (fromUTF8_utf8 s))
  stable := stable_bind (seq u8).stable fun _ => stable_ofOption _

variable {κ ν : Type} [DecidableEq κ]

/-- The map of a list of pairs, of which a later one replaces an earlier one with its key. -/
def collect : List (κ × ν) → HashMap κ ν
  | [] => ∅
  | (k, v) :: pairs => if k ∈ collect pairs then collect pairs else (collect pairs).insert k v

def pairs (m : HashMap κ ν) : List (κ × ν) := m.entries.map fun e => (e.1, e.2)

theorem collect_pairs (m : HashMap κ ν) : collect (pairs m) = m := by
  induction m using AList.insertRec with
  | H0 => rfl
  | IH k v m hk ih =>
    have hp : pairs (m.insert k v) = (k, v) :: pairs m := by
      rw [pairs, AList.entries_insert_of_notMem hk]
      rfl
    rw [hp, collect, ih, if_neg hk]

/-- Inserting the pairs one by one gives a map with the same entries. -/
theorem collect_lookup (l : List (κ × ν)) (m : HashMap κ ν) (k : κ) :
    (l.foldl (fun m p => m.insert p.1 p.2) m).lookup k =
      ((collect l).lookup k).or (m.lookup k) := by
  induction l generalizing m with
  | nil => simp [collect]
  | cons p l ih =>
    rw [List.foldl_cons, ih, collect]
    by_cases hk : k = p.1
    · subst hk
      by_cases hm : p.1 ∈ collect l
      · obtain ⟨v, hv⟩ := Option.isSome_iff_exists.mp (AList.lookup_isSome.mpr hm)
        simp [hm, hv]
      · simp [hm, AList.lookup_eq_none.mpr hm]
    · by_cases hm : p.1 ∈ collect l <;> simp [hm, AList.lookup_insert_ne hk]

def pair {α β : Type} (left : Codec α) (right : Codec β) : Codec (α × β) where
  encode p := left.encode p.1 ++ right.encode p.2
  decode := do
    let a ← left.decode
    let b ← right.decode
    return (a, b)
  Fits p := left.Fits p.1 ∧ right.Fits p.2
  reads p h := reads_bind (left.reads p.1 h.1)
    (reads_map (fun b => (p.1, b)) (right.reads p.2 h.2))
  stable := stable_bind left.stable fun _ => stable_bind right.stable fun _ => stable_pure _

def map (key : Codec κ) (value : Codec ν) : Codec (HashMap κ ν) :=
  mapped (seq (pair key value)) collect pairs collect_pairs

end Collections

end Bincode
