import Mathlib.Data.Nat.Init
import Mathlib.Algebra.Group.Basic
import Mathlib.Algebra.Ring.Nat
import Mathlib.Tactic.Ring

/-! Readers that take a value off the front of a byte string. `Reads` says which bytes a
reader turns into a value whatever follows them, `Stable` that bytes behind what it took do
not disturb it; both compose along `>>=`. Together they make a format self-delimiting. -/
namespace ByteReaders

abbrev Reader (α : Type) := StateT (List UInt8) Option α

variable {α β : Type}

def Reads (r : Reader α) (bytes : List UInt8) (a : α) : Prop :=
  ∀ rest, r (bytes ++ rest) = some (a, rest)

def Stable (r : Reader α) : Prop :=
  ∀ bytes a rest suffix, r bytes = some (a, rest) → r (bytes ++ suffix) = some (a, rest ++ suffix)

section Rules

theorem reads_pure (a : α) : Reads (pure a) [] a := fun _ => rfl

theorem reads_bind {r : Reader α} {f : α → Reader β} {bytes more : List UInt8} {a : α} {b : β}
    (hr : Reads r bytes a) (hf : Reads (f a) more b) : Reads (r >>= f) (bytes ++ more) b := by
  intro rest
  have h : r (bytes ++ (more ++ rest)) = some (a, more ++ rest) := hr _
  rw [List.append_assoc]
  change (r (bytes ++ (more ++ rest)) >>= fun p => f p.1 p.2) = some (b, rest)
  rw [h]
  exact hf rest

theorem reads_map {r : Reader α} (f : α → β) {bytes : List UInt8} {a : α}
    (hr : Reads r bytes a) : Reads (f <$> r) bytes (f a) := by
  intro rest
  change (r (bytes ++ rest) >>= fun p => pure (f p.1, p.2)) = some (f a, rest)
  rw [hr rest]
  rfl

theorem stable_pure (a : α) : Stable (pure a : Reader α) := by
  intro bytes b rest suffix h
  cases h
  rfl

theorem stable_failure : Stable (failure : Reader α) := by
  intro bytes b rest suffix h
  cases h

theorem stable_bind {r : Reader α} {f : α → Reader β} (hr : Stable r)
    (hf : ∀ a, Stable (f a)) : Stable (r >>= f) := by
  intro bytes b rest suffix h
  change (r bytes >>= fun p => f p.1 p.2) = some (b, rest) at h
  change (r (bytes ++ suffix) >>= fun p => f p.1 p.2) = some (b, rest ++ suffix)
  cases hb : r bytes with
  | none =>
    rw [hb] at h
    cases h
  | some p =>
    rw [hb] at h
    rw [hr _ _ _ suffix hb]
    exact hf p.1 _ _ _ suffix h

theorem stable_map {r : Reader α} (f : α → β) (hr : Stable r) : Stable (f <$> r) :=
  stable_bind hr fun a => stable_pure (f a)

def ofOption : Option α → Reader α
  | some a => pure a
  | none => failure

theorem reads_ofOption {x : Option α} {a : α} (h : x = some a) : Reads (ofOption x) [] a :=
  h ▸ reads_pure a

theorem stable_ofOption (x : Option α) : Stable (ofOption x) := by
  cases x with
  | none => exact stable_failure
  | some a => exact stable_pure a

theorem strict_prefix_fails {r : Reader α} (hs : Stable r) {bytes front : List UInt8} {a : α}
    (hr : Reads r bytes a) (hp : front <+: bytes) (hne : front ≠ bytes) : r front = none := by
  obtain ⟨back, rfl⟩ := hp
  cases hf : r front with
  | none => rfl
  | some p =>
    have hlong := hs front p.1 p.2 back hf
    have hall := hr []
    rw [List.append_nil, hlong] at hall
    have hback : p.2 ++ back = [] := congrArg Prod.snd (Option.some.inj hall)
    exact absurd (by simp [List.append_eq_nil_iff.mp hback]) hne

end Rules

section Words

def byte : Reader UInt8
  | [] => none
  | b :: rest => some (b, rest)

theorem reads_byte (b : UInt8) : Reads byte [b] b := fun _ => rfl

theorem stable_byte : Stable byte := by
  intro bytes b rest suffix h
  cases bytes with
  | nil => cases h
  | cons c bytes =>
    cases h
    rfl

/-- The low bytes of a number, least significant first. -/
def wordBytes : ℕ → ℕ → List UInt8
  | 0, _ => []
  | width + 1, n => UInt8.ofNat n :: wordBytes width (n / 256)

def word : ℕ → Reader ℕ
  | 0 => pure 0
  | width + 1 => do
    let low ← byte
    let high ← word width
    return low.toNat + 256 * high

theorem reads_word {width n : ℕ} (h : n < 256 ^ width) :
    Reads (word width) (wordBytes width n) n := by
  induction width generalizing n with
  | zero =>
    obtain rfl : n = 0 := by simpa using h
    exact reads_pure 0
  | succ width ih =>
    have hhigh : n / 256 < 256 ^ width := by
      apply Nat.div_lt_of_lt_mul
      rwa [← pow_succ']
    have hn : (UInt8.ofNat n).toNat + 256 * (n / 256) = n := by
      rw [UInt8.toNat_ofNat']
      omega
    have hall : Reads (word (width + 1)) ([UInt8.ofNat n] ++ wordBytes width (n / 256))
        ((UInt8.ofNat n).toNat + 256 * (n / 256)) :=
      reads_bind (reads_byte _)
        (reads_map (fun high => (UInt8.ofNat n).toNat + 256 * high) (ih hhigh))
    rwa [hn] at hall

theorem stable_word (width : ℕ) : Stable (word width) := by
  induction width with
  | zero => exact stable_pure 0
  | succ width ih =>
    exact stable_bind stable_byte fun _ => stable_bind ih fun _ => stable_pure _

def repeated (r : Reader α) : ℕ → Reader (List α)
  | 0 => pure []
  | n + 1 => do
    let a ← r
    let rest ← repeated r n
    return a :: rest

theorem reads_repeated {r : Reader α} {encode : α → List UInt8} {xs : List α}
    (h : ∀ a ∈ xs, Reads r (encode a) a) :
    Reads (repeated r xs.length) (xs.flatMap encode) xs := by
  induction xs with
  | nil => exact reads_pure []
  | cons a xs ih =>
    have hrest := ih fun b hb => h b (List.mem_cons_of_mem _ hb)
    exact reads_bind (h a List.mem_cons_self) (reads_map (a :: ·) hrest)

theorem stable_repeated {r : Reader α} (h : Stable r) (n : ℕ) : Stable (repeated r n) := by
  induction n with
  | zero => exact stable_pure []
  | succ n ih => exact stable_bind h fun _ => stable_bind ih fun _ => stable_pure _

end Words

/-- A format for the values of a type that fit it. -/
structure Codec (α : Type) where
  encode : α → List UInt8
  decode : Reader α
  Fits : α → Prop
  reads : ∀ a, Fits a → Reads decode (encode a) a
  stable : Stable decode

end ByteReaders
