import OmniCompute.RustValues
import Mathlib.Data.List.Basic

/-! The sandbox for confidential computing: attestation reports, and data sealed under the
enclave's key. The cipher is a parameter; what is used of it is that decryption inverts
encryption and accepts nothing that was not encrypted under the key and the nonce. -/
namespace SealedData

open RustValues

inductive TeeType where
  | amdSevSnp
  | intelTdx
  | simulation
  deriving DecidableEq, Repr

abbrev Key := Vector UInt8 32
abbrev Nonce := Vector UInt8 12

structure TeeSandbox where
  teeType : TeeType
  enclaveKey : Key

structure Features where
  teeAmdSev : Bool
  teeIntelTdx : Bool

/-- `key` is what the random generator fills in. -/
def init (features : Features) (key : Key) : Result TeeSandbox :=
  if features.teeAmdSev then .ok ⟨.amdSevSnp, key⟩
  else if features.teeIntelTdx then .ok ⟨.intelTdx, key⟩
  else .ok ⟨.simulation, key⟩

section Attestation

/-- `b"TEE_REPORT_HEADER"` -/
def reportHeader : List UInt8 :=
  [0x54, 0x45, 0x45, 0x5f, 0x52, 0x45, 0x50, 0x4f, 0x52, 0x54, 0x5f, 0x48, 0x45, 0x41, 0x44,
    0x45, 0x52]

def platformId : TeeType → UInt8
  | .amdSevSnp => 0x01
  | .intelTdx => 0x02
  | .simulation => 0x03

def generateAttestationReport (sandbox : TeeSandbox) (userNonce : List UInt8) :
    Result (List UInt8) :=
  .ok (reportHeader ++ [platformId sandbox.teeType] ++ userNonce)

def verifyReport (report : List UInt8) : Result Bool :=
  if report.length < 18 then
    .error (.error "TeeSandbox: invalid attestation report payload size")
  else if report.take 17 ≠ reportHeader then
    .error (.error "TeeSandbox: invalid attestation header signature")
  else
    match (report[17]? : Option UInt8) with
    | some 0x01 => .ok true
    | some 0x02 => .ok true
    | some 0x03 => .ok true
    | _ => .error (.error "TeeSandbox: unknown attestation platform ID")

theorem platformId_inj {t u : TeeType} (h : platformId t = platformId u) : t = u := by
  cases t <;> cases u <;> first | rfl | cases h

theorem platform_check (b : Option UInt8) :
    (match b with
      | some 0x01 => (.ok true : Result Bool)
      | some 0x02 => .ok true
      | some 0x03 => .ok true
      | _ => .error (.error "TeeSandbox: unknown attestation platform ID")) = .ok true ↔
    ∃ t, b = some (platformId t) := by
  constructor
  · intro h
    split at h
    exacts [⟨.amdSevSnp, rfl⟩, ⟨.intelTdx, rfl⟩, ⟨.simulation, rfl⟩, by cases h]
  · rintro ⟨t, rfl⟩
    cases t <;> rfl

theorem verifyReport_iff (report : List UInt8) : verifyReport report = .ok true ↔
    ∃ t userNonce, report = reportHeader ++ [platformId t] ++ userNonce := by
  constructor
  · intro h
    rw [verifyReport] at h
    split at h
    · cases h
    · split at h
      · cases h
      · next hhead =>
        obtain ⟨t, ht⟩ := (platform_check _).1 h
        obtain ⟨hlt, hid⟩ := List.getElem?_eq_some_iff.1 ht
        refine ⟨t, report.drop 18, ?_⟩
        rw [← not_not.1 hhead, ← hid, List.append_assoc, List.singleton_append,
          ← List.drop_eq_getElem_cons, List.take_append_drop]
  · rintro ⟨t, userNonce, rfl⟩
    have hlen : ¬ (reportHeader ++ [platformId t] ++ userNonce).length < 18 := by
      simp [reportHeader]
    rw [verifyReport, if_neg hlen, if_neg (by simp [reportHeader])]
    exact (platform_check _).2 ⟨t, by simp [reportHeader]⟩

theorem generated_inj {t u : TeeType} {m n : List UInt8}
    (h : reportHeader ++ [platformId t] ++ m = reportHeader ++ [platformId u] ++ n) :
    t = u ∧ m = n := by
  rw [List.append_assoc, List.append_assoc] at h
  obtain ⟨hid, hrest⟩ := List.cons.inj (List.append_cancel_left h)
  exact ⟨platformId_inj hid, hrest⟩

end Attestation

/-- A report is accepted exactly when some sandbox of some platform writes it for some nonce,
which the report then determines. No key is involved: whoever knows the header passes. -/
theorem attestation (report : List UInt8) :
    (verifyReport report = .ok true ↔ ∃ sandbox userNonce,
      generateAttestationReport sandbox userNonce = .ok report) ∧
    ∀ s m s' m', generateAttestationReport s m = .ok report →
      (generateAttestationReport s' m' = .ok report ↔ s'.teeType = s.teeType ∧ m' = m) := by
  constructor
  · rw [verifyReport_iff]
    constructor
    · rintro ⟨t, userNonce, rfl⟩
      exact ⟨⟨t, .replicate 32 0⟩, userNonce, rfl⟩
    · rintro ⟨sandbox, userNonce, h⟩
      exact ⟨sandbox.teeType, userNonce, (Except.ok.inj h).symm⟩
  · intro s m s' m' h
    obtain rfl := Except.ok.inj h
    constructor
    · intro h'
      exact generated_inj (Except.ok.inj h')
    · rintro ⟨ht, rfl⟩
      rw [generateAttestationReport, ht]

section Sealing

/-- The cipher of the `aes_gcm` crate under one key; `none` is its error. -/
structure Aes256Gcm where
  encrypt : Key → Nonce → List UInt8 → Option (List UInt8)
  decrypt : Key → Nonce → List UInt8 → Option (List UInt8)

structure Authenticated (cipher : Aes256Gcm) : Prop where
  opens : ∀ key nonce plaintext ciphertext, cipher.encrypt key nonce plaintext = some ciphertext →
    cipher.decrypt key nonce ciphertext = some plaintext
  rejects : ∀ key nonce plaintext ciphertext,
    cipher.decrypt key nonce ciphertext = some plaintext →
    cipher.encrypt key nonce plaintext = some ciphertext

variable (cipher : Aes256Gcm)

def encryptDeviceData (sandbox : TeeSandbox) (nonce : Nonce) (plaintext : List UInt8) :
    Result (List UInt8) :=
  match cipher.encrypt sandbox.enclaveKey nonce plaintext with
  | some ciphertext => .ok (nonce.toList ++ ciphertext)
  | none => .error (.error "TeeSandbox: AES-GCM encryption failed: Error")

def decryptDeviceData (sandbox : TeeSandbox) (payload : List UInt8) : Result (List UInt8) :=
  if h : payload.length < 12 then .error (.error "TeeSandbox: invalid ciphertext payload size")
  else
    let nonce : Nonce := ⟨(payload.take 12).toArray, by simp; omega⟩
    match cipher.decrypt sandbox.enclaveKey nonce (payload.drop 12) with
    | some plaintext => .ok plaintext
    | none => .error (.error "TeeSandbox: AES-GCM decryption failed: Error")

variable {cipher}

theorem decrypt_split (sandbox : TeeSandbox) (nonce : Nonce) (ciphertext : List UInt8) :
    decryptDeviceData cipher sandbox (nonce.toList ++ ciphertext) =
      match cipher.decrypt sandbox.enclaveKey nonce ciphertext with
      | some plaintext => .ok plaintext
      | none => .error (.error "TeeSandbox: AES-GCM decryption failed: Error") := by
  have hlen : nonce.toList.length = 12 := nonce.length_toList
  have hnonce : ∀ h, (⟨((nonce.toList ++ ciphertext).take 12).toArray, h⟩ : Nonce) = nonce := by
    intro h
    apply Vector.toArray_inj.1
    simp only [List.take_left' hlen]
    exact Array.toArray_toList
  rw [decryptDeviceData, dif_neg (by rw [List.length_append]; omega)]
  simp only [hnonce, List.drop_left' hlen]

theorem payload_split {payload : List UInt8} (h : ¬ payload.length < 12) :
    ∃ (nonce : Nonce) (ciphertext : List UInt8), payload = nonce.toList ++ ciphertext :=
  ⟨⟨(payload.take 12).toArray, by simp; omega⟩, payload.drop 12, by simp [Vector.toList]⟩

end Sealing

/-- A payload is opened exactly as what it was sealed from, for every nonce that the generator
may have drawn; anything else, too short or made up, is an error. -/
theorem decrypts_iff (cipher : Aes256Gcm) (laws : Authenticated cipher) (sandbox : TeeSandbox)
    (payload plaintext : List UInt8) :
    decryptDeviceData cipher sandbox payload = .ok plaintext ↔
      ∃ nonce, encryptDeviceData cipher sandbox nonce plaintext = .ok payload := by
  constructor
  · intro h
    by_cases hlen : payload.length < 12
    · rw [decryptDeviceData, dif_pos hlen] at h
      cases h
    · obtain ⟨nonce, ciphertext, rfl⟩ := payload_split hlen
      rw [decrypt_split] at h
      split at h
      · next opened hopened =>
        obtain rfl := Except.ok.inj h
        refine ⟨nonce, ?_⟩
        rw [encryptDeviceData, laws.rejects _ _ _ _ hopened]
      · cases h
  · rintro ⟨nonce, h⟩
    rw [encryptDeviceData] at h
    split at h
    · next ciphertext hsealed =>
      obtain rfl := Except.ok.inj h
      rw [decrypt_split, laws.opens _ _ _ _ hsealed]
    · cases h

/-- What sixteen zero bytes are encrypted to under the zero key and nonce, tag included. -/
def sealedZeros : List UInt8 :=
  [0xce, 0xa7, 0x40, 0x3d, 0x4d, 0x60, 0x6b, 0x6e, 0x07, 0x4e, 0xc5, 0xd3, 0xba, 0xf3, 0x9d, 0x18,
    0xd0, 0xd1, 0xc8, 0xa7, 0x99, 0x99, 0x6b, 0xf0, 0x26, 0x5b, 0x98, 0xb5, 0xd4, 0x8a, 0xb9, 0x19]

def zerosCipher : Aes256Gcm where
  encrypt key nonce plaintext :=
    if key = .replicate 32 0 ∧ nonce = .replicate 12 0 ∧ plaintext = List.replicate 16 0 then
      some sealedZeros
    else none
  decrypt key nonce ciphertext :=
    if key = .replicate 32 0 ∧ nonce = .replicate 12 0 ∧ ciphertext = sealedZeros then
      some (List.replicate 16 0)
    else none

theorem zerosCipher_authenticated : Authenticated zerosCipher := by
  constructor <;>
  · intro key nonce p c h
    simp only [zerosCipher] at h ⊢
    split at h
    · next hzero =>
      obtain ⟨hkey, hnonce, htext⟩ := hzero
      cases h
      rw [if_pos ⟨hkey, hnonce, rfl⟩, htext]
    · cases h

theorem decrypts_zeros :
    decryptDeviceData zerosCipher ⟨.simulation, .replicate 32 0⟩
      (List.replicate 12 0 ++ sealedZeros) = .ok (List.replicate 16 0) :=
  (decrypts_iff zerosCipher zerosCipher_authenticated _ _ _).2
    ⟨.replicate 12 0, by decide +kernel⟩

end SealedData
