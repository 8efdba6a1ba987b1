import Mathlib.Data.List.AList
import Mathlib.Data.List.Infix
import Mathlib.Data.Rat.Defs

/-! Rust values shared by the modelled crates: fallible results, keyed maps, byte text.
A `panic` is kept apart from a returned error, since the release profile aborts on it.
Maps are association lists without duplicate keys; no modelled code depends on their order. -/
namespace RustValues

inductive Failure where
  | error (message : String)
  | panic (message : String)
  deriving DecidableEq, Repr

abbrev Result := Except Failure

abbrev HashMap (κ ν : Type) := AList (fun _ : κ => ν)
abbrev BTreeMap (κ ν : Type) := AList (fun _ : κ => ν)

def Result.isOk {α : Type} : Result α → Bool
  | .ok _ => true
  | .error _ => false

/-- `{:?}` of an `f64`. The digits Rust prints play no role in any result below. -/
class DebugText (F : Type) where
  debug : F → String

instance : DebugText ℚ := ⟨fun q => toString q.num ++ "/" ++ toString q.den⟩

def lowerHex (w : UInt64) : String := String.ofList (Nat.toDigits 16 w.toNat)

def debugVec {α : Type} (item : α → String) (items : List α) : String :=
  "[" ++ ", ".intercalate (items.map item) ++ "]"

section Text

def continuation (b : UInt8) : Bool := 0x80 ≤ b && b ≤ 0xBF

def secondOfThree (b₀ b₁ : UInt8) : Bool :=
  (b₀ == 0xE0 && 0xA0 ≤ b₁ && b₁ ≤ 0xBF) ||
  (0xE1 ≤ b₀ && b₀ ≤ 0xEC && continuation b₁) ||
  (b₀ == 0xED && 0x80 ≤ b₁ && b₁ ≤ 0x9F) ||
  (0xEE ≤ b₀ && b₀ ≤ 0xEF && continuation b₁)

def secondOfFour (b₀ b₁ : UInt8) : Bool :=
  (b₀ == 0xF0 && 0x90 ≤ b₁ && b₁ ≤ 0xBF) ||
  (0xF1 ≤ b₀ && b₀ ≤ 0xF3 && continuation b₁) ||
  (b₀ == 0xF4 && 0x80 ≤ b₁ && b₁ ≤ 0x8F)

/-- The byte table of `std::str::from_utf8`: no overlong form, no surrogate. -/
def validUtf8 : List UInt8 → Bool
  | [] => true
  | b₀ :: t₀ =>
    if b₀ < 0x80 then validUtf8 t₀ else
    match t₀ with
    | [] => false
    | b₁ :: t₁ =>
      if 0xC2 ≤ b₀ && b₀ ≤ 0xDF && continuation b₁ then validUtf8 t₁ else
      match t₁ with
      | [] => false
      | b₂ :: t₂ =>
        if secondOfThree b₀ b₁ && continuation b₂ then validUtf8 t₂ else
        match t₂ with
        | [] => false
        | b₃ :: t₃ =>
          secondOfFour b₀ b₁ && continuation b₂ && continuation b₃ && validUtf8 t₃

/-- `std::str::from_utf8`. A `&str` is its bytes. -/
def fromUtf8 (bytes : List UInt8) : Option (List UInt8) :=
  if validUtf8 bytes then some bytes else none

def ascii (s : String) : List UInt8 := s.toList.map fun c => c.toNat.toUInt8

/-- `str::contains` with a literal pattern. -/
def contains (text : List UInt8) (pattern : String) : Bool :=
  decide (ascii pattern <:+: text)

end Text

end RustValues
