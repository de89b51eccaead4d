import Trelis.Lib.FieldCodec
import Trelis.X3dh.Sample

/-!
# Keys, signatures and encapsulations on the wire

`from_bytes` of the hybrid public keys and signatures (`signature.rs`, `kem.rs`).
The decoders of the curve library and of the ML-DSA scheme are parameters,
`KeyDecoders`.

Every value of the source's key and signature types was checked when it was made:
its curve point is one that the library reads, and the response of a signature is
canonical.  `ReadableKey` and `CanonicalSignature` are these types.  With them a
decoder accepts exactly the encodings, which is what the lemmas `fromBytes_eq_ok`
say, with one exception: the all-zero sntrup761 key can be written but not read.
-/

namespace Trelis.X3dh

open Hybrid

/-! ## The component decoders -/

/-- The decoders that the hybrid ones call. -/
structure KeyDecoders (P : HandshakePrimitives) where
  /-- Whether `VerifyingKey::from_bytes` of the curve library reads a point. -/
  acceptsPoint : FixedBytes 57 → Bool
  /-- `MlDsaScheme::verifying_key_from_bytes`. -/
  verifyingKeyFromBytes : Bytes → Result P.VerifyingKey
  /-- `MlDsaScheme::signature_from_bytes`. -/
  signatureFromBytes : Bytes → Result P.Signature

/-- The ML-DSA decoders accept the encodings, and nothing else. -/
structure KeyDecoders.Exact {P : HandshakePrimitives} (D : KeyDecoders P) : Prop where
  verifyingKey : ∀ {b vk}, D.verifyingKeyFromBytes b = .ok vk ↔ b = (P.verifyingKeyToBytes vk).val
  signature : ∀ {b sig}, D.signatureFromBytes b = .ok sig ↔ b = (P.signatureToBytes sig).val

/-- A slice of the right length as an array. -/
def arrayFromBytes (n : Nat) (bytes : Bytes) (e : CryptoError) : Result (FixedBytes n) :=
  if h : bytes.length = n then .ok ⟨bytes, h⟩ else .error e

theorem arrayFromBytes_eq_ok {n : Nat} {bytes : Bytes} {e : CryptoError} {a : FixedBytes n} :
    arrayFromBytes n bytes e = .ok a ↔ bytes = a.val := by
  unfold arrayFromBytes
  by_cases h : bytes.length = n
  · rw [dif_pos h]
    constructor
    · intro ha
      rw [← Except.ok.inj ha]
    · intro ha
      exact congrArg Except.ok (Subtype.ext ha)
  · rw [dif_neg h]
    constructor
    · intro ha
      cases ha
    · intro ha
      exact absurd (ha ▸ a.property) h

variable {P : HandshakePrimitives} (D : KeyDecoders P)

/-! ## Signing keys -/

/-- `HybridSigningPublicKey`, with a point that was read or derived. -/
abbrev ReadableKey := { vk : HybridSigningPublicKey P.toSignaturePrimitives //
  D.acceptsPoint vk.ed448.inner = true }

/-- `Ed448VerifyingKey::from_bytes`. -/
def verifyingKeyFromBytes (bytes : Bytes) :
    Result { vk : Ed448VerifyingKey // D.acceptsPoint vk.inner = true } := do
  let keyBytes ← arrayFromBytes 57 bytes (.invalidKeyLength 57 bytes.length)
  if h : D.acceptsPoint keyBytes = true then .ok ⟨⟨keyBytes⟩, h⟩
  else .error .signatureVerificationFailed

/-- `HybridSigningPublicKey::from_bytes`. -/
def ReadableKey.fromBytes (bytes : Bytes) : Result (ReadableKey D) := do
  rejectIf (bytes.length ≠ 2009) (.invalidKeyLength 2009 bytes.length)
  let ed448 ← verifyingKeyFromBytes D (bytes.take 57)
  let mldsa ← D.verifyingKeyFromBytes (bytes.drop 57)
  pure ⟨⟨ed448.val, mldsa⟩, ed448.property⟩

variable {D}

theorem verifyingKeyFromBytes_eq_ok {bytes : Bytes}
    {vk : { vk : Ed448VerifyingKey // D.acceptsPoint vk.inner = true }} :
    verifyingKeyFromBytes D bytes = .ok vk ↔ bytes = vk.val.inner.val := by
  simp only [verifyingKeyFromBytes, Except.bind_eq_ok, arrayFromBytes_eq_ok]
  constructor
  · intro hex
    rcases hex with ⟨keyBytes, hbytes, h⟩
    split at h
    · cases h
      exact hbytes
    · cases h
  · intro h
    refine ⟨vk.val.inner, h, ?_⟩
    rw [dif_pos vk.property]

theorem ReadableKey.fromBytes_eq_ok (hD : D.Exact) {bytes : Bytes} {vk : ReadableKey D} :
    ReadableKey.fromBytes D bytes = .ok vk ↔ bytes = vk.val.toBytes.val := by
  have hpoint : vk.val.ed448.inner.val.length = 57 := vk.val.ed448.inner.property
  show _ ↔ bytes = vk.val.ed448.inner.val ++ (P.verifyingKeyToBytes vk.val.mldsa).val
  simp only [ReadableKey.fromBytes, Except.bind_eq_ok, rejectIf_eq_ok, not_not,
    verifyingKeyFromBytes_eq_ok, hD.verifyingKey]
  constructor
  · intro hboth
    rcases hboth with ⟨_, _, ed448, hed448, mldsa, hmldsa, hvk⟩
    cases hvk
    rw [← hed448, ← hmldsa, List.take_append_drop]
  · intro h
    have hlength : bytes.length = 2009 := by
      rw [h, List.length_append, hpoint, FixedBytes.length_coe]
    obtain ⟨htake, hdrop⟩ := (eq_append_iff hpoint).mp h
    exact ⟨(), hlength, ⟨vk.val.ed448, vk.property⟩, htake, vk.val.mldsa, hdrop, rfl⟩

/-! ## Signatures -/

/-- `HybridSignature`, with a response that passed the guard. -/
abbrev CanonicalSignature (P : HandshakePrimitives) :=
  { sig : HybridSignature P.toSignaturePrimitives //
    Ed448BopResponse.guardCanonical sig.rsp.bytes = .ok () }

variable (D) in
/-- `HybridSignature::from_bytes`. -/
def CanonicalSignature.fromBytes (bytes : Bytes) : Result (CanonicalSignature P) := do
  rejectIf (bytes.length ≠ 3366) .invalidSignature
  let rsp ← arrayFromBytes 57 (bytes.take 57) .invalidSignature
  if h : Ed448BopResponse.guardCanonical rsp = .ok () then
    let mldsa ← D.signatureFromBytes (bytes.drop 57)
    pure ⟨⟨⟨rsp⟩, mldsa⟩, h⟩
  else .error .invalidSignature

theorem CanonicalSignature.fromBytes_eq_ok (hD : D.Exact) {bytes : Bytes}
    {sig : CanonicalSignature P} :
    CanonicalSignature.fromBytes D bytes = .ok sig ↔ bytes = sig.val.toBytes.val := by
  have hrsp : sig.val.rsp.bytes.val.length = 57 := sig.val.rsp.bytes.property
  show _ ↔ bytes = sig.val.rsp.bytes.val ++ (P.signatureToBytes sig.val.mldsa).val
  simp only [CanonicalSignature.fromBytes, Except.bind_eq_ok, rejectIf_eq_ok, not_not,
    arrayFromBytes_eq_ok]
  constructor
  · intro hboth
    rcases hboth with ⟨_, _, rsp, hrsp', h⟩
    split at h
    · simp only [Except.bind_eq_ok, hD.signature, Except.pure_eq_ok] at h
      obtain ⟨mldsa, hmldsa, hsig⟩ := h
      cases hsig
      rw [← hrsp', ← hmldsa, List.take_append_drop]
    · cases h
  · intro h
    have hlength : bytes.length = 3366 := by
      rw [h, List.length_append, hrsp, FixedBytes.length_coe]
    obtain ⟨htake, hdrop⟩ := (eq_append_iff hrsp).mp h
    refine ⟨(), hlength, sig.val.rsp.bytes, htake, ?_⟩
    rw [dif_pos sig.property]
    exact Except.bind_eq_ok.mpr ⟨sig.val.mldsa, hD.signature.mpr hdrop, rfl⟩

/-- What a key pair signs is canonical. -/
theorem guardCanonical_of_sign {kp : HybridSigningKeypair P.toSignaturePrimitives}
    {message : Bytes} {coins : SigningCoins P.toSignaturePrimitives}
    {sig : HybridSignature P.toSignaturePrimitives} (h : kp.sign message coins = .ok sig) :
    Ed448BopResponse.guardCanonical sig.rsp.bytes = .ok () := by
  simp only [HybridSigningKeypair.sign, HybridSigningKeypair.bopSignCore, Except.bind_eq_ok,
    Except.pure_eq_ok] at h
  obtain ⟨_, _, _, _, rfl⟩ := h
  exact Ed448BopResponse.guardCanonical_fromScalar _

/-- `HybridSigningKeypair::sign`. -/
def CanonicalSignature.sign (kp : HybridSigningKeypair P.toSignaturePrimitives) (message : Bytes)
    (coins : SigningCoins P.toSignaturePrimitives) : Result (CanonicalSignature P) :=
  match h : kp.sign message coins with
  | .ok sig => .ok ⟨sig, guardCanonical_of_sign h⟩
  | .error e => .error e

theorem CanonicalSignature.sign_eq_ok {kp : HybridSigningKeypair P.toSignaturePrimitives}
    {message : Bytes} {coins : SigningCoins P.toSignaturePrimitives}
    {sig : CanonicalSignature P} :
    CanonicalSignature.sign kp message coins = .ok sig ↔ kp.sign message coins = .ok sig.val := by
  unfold CanonicalSignature.sign
  split
  · next s hs =>
    constructor
    · intro h
      rw [hs, ← Except.ok.inj h]
    · intro h
      exact congrArg Except.ok (Subtype.ext (Except.ok.inj (hs.symm.trans h)))
  · next e he =>
    constructor
    · intro h
      cases h
    · intro h
      cases he.symm.trans h

/-! ## KEM keys and encapsulations -/

/-- `Sntrup761PublicKey::from_bytes`. -/
def sntrupPublicKeyFromBytes (bytes : Bytes) : Result (FixedBytes 1158) := do
  let keyBytes ← arrayFromBytes 1158 bytes (.invalidKeyLength 1158 bytes.length)
  rejectIf (keyBytes.val.all (· == 0) = true) .decapsulationFailed
  pure keyBytes

/-- `HybridKemPublicKey::from_bytes`. -/
def HybridKemPublicKey.fromBytes (bytes : Bytes) : Result HybridKemPublicKey := do
  rejectIf (bytes.length ≠ 1214) (.invalidKeyLength 1214 bytes.length)
  let x448 ← arrayFromBytes 56 (bytes.take 56) (.invalidKeyLength 56 (bytes.take 56).length)
  let sntrup ← sntrupPublicKeyFromBytes (bytes.drop 56)
  pure ⟨x448, sntrup⟩

theorem all_zero_iff {n : Nat} (a : FixedBytes n) :
    a.val.all (· == 0) = true ↔ a = FixedBytes.zero n := by
  rw [List.all_eq_true, Subtype.ext_iff]
  show (∀ x ∈ a.val, (x == 0) = true) ↔ a.val = List.replicate n 0
  rw [List.eq_replicate_iff]
  simp

theorem sntrupPublicKeyFromBytes_eq_ok {bytes : Bytes} {pk : FixedBytes 1158} :
    sntrupPublicKeyFromBytes bytes = .ok pk ↔ bytes = pk.val ∧ pk ≠ FixedBytes.zero 1158 := by
  simp only [sntrupPublicKeyFromBytes, Except.bind_eq_ok, arrayFromBytes_eq_ok, rejectIf_eq_ok,
    all_zero_iff, Except.pure_eq_ok]
  constructor
  · intro hex
    rcases hex with ⟨keyBytes, hbytes, _, hzero, hpk⟩
    subst hpk
    exact ⟨hbytes, hzero⟩
  · intro hboth
    rcases hboth with ⟨hbytes, hzero⟩
    exact ⟨pk, hbytes, (), hzero, rfl⟩

theorem HybridKemPublicKey.fromBytes_eq_ok {bytes : Bytes} {pk : HybridKemPublicKey} :
    HybridKemPublicKey.fromBytes bytes = .ok pk ↔
      bytes = pk.toBytes.val ∧ pk.sntrup ≠ FixedBytes.zero 1158 := by
  have hx448 : pk.x448.val.length = 56 := pk.x448.property
  show _ ↔ bytes = pk.x448.val ++ pk.sntrup.val ∧ _
  simp only [HybridKemPublicKey.fromBytes, Except.bind_eq_ok, rejectIf_eq_ok, not_not,
    arrayFromBytes_eq_ok, sntrupPublicKeyFromBytes_eq_ok, Except.pure_eq_ok]
  constructor
  · intro hboth
    rcases hboth with ⟨_, _, x448, htake, sntrup, ⟨hdrop, hzero⟩, hpk⟩
    subst hpk
    exact ⟨by rw [← htake, ← hdrop, List.take_append_drop], hzero⟩
  · intro hboth
    rcases hboth with ⟨h, hzero⟩
    have hlength : bytes.length = 1214 := by
      rw [h, List.length_append, hx448, FixedBytes.length_coe]
    obtain ⟨htake, hdrop⟩ := (eq_append_iff hx448).mp h
    exact ⟨(), hlength, pk.x448, htake, pk.sntrup, ⟨hdrop, hzero⟩, rfl⟩

/-- `HybridEncapsulation`. -/
structure HybridEncapsulation where
  x448Ephemeral : FixedBytes 56
  sntrupCiphertext : FixedBytes 1039
deriving DecidableEq

namespace HybridEncapsulation

/-- `HybridEncapsulation::to_bytes`. -/
def toBytes (e : HybridEncapsulation) : FixedBytes 1095 :=
  ⟨e.x448Ephemeral.val ++ e.sntrupCiphertext.val, by simp⟩

/-- `HybridEncapsulation::from_bytes`. -/
def fromBytes (bytes : Bytes) : Result HybridEncapsulation := do
  rejectIf (bytes.length ≠ 1095) .decapsulationFailed
  let x448Ephemeral ←
    arrayFromBytes 56 (bytes.take 56) (.invalidKeyLength 56 (bytes.take 56).length)
  let sntrupCiphertext ←
    arrayFromBytes 1039 (bytes.drop 56) (.invalidCiphertextLength 1039 (bytes.drop 56).length)
  pure ⟨x448Ephemeral, sntrupCiphertext⟩

theorem fromBytes_eq_ok {bytes : Bytes} {e : HybridEncapsulation} :
    fromBytes bytes = .ok e ↔ bytes = e.toBytes.val := by
  have hx448 : e.x448Ephemeral.val.length = 56 := e.x448Ephemeral.property
  show _ ↔ bytes = e.x448Ephemeral.val ++ e.sntrupCiphertext.val
  simp only [fromBytes, Except.bind_eq_ok, rejectIf_eq_ok, not_not, arrayFromBytes_eq_ok,
    Except.pure_eq_ok]
  constructor
  · intro hboth
    rcases hboth with ⟨_, _, x448, htake, sntrup, hdrop, he⟩
    subst he
    rw [← htake, ← hdrop, List.take_append_drop]
  · intro h
    have hlength : bytes.length = 1095 := by
      rw [h, List.length_append, hx448, FixedBytes.length_coe]
    obtain ⟨htake, hdrop⟩ := (eq_append_iff hx448).mp h
    exact ⟨(), hlength, e.x448Ephemeral, htake, e.sntrupCiphertext, hdrop, rfl⟩

end HybridEncapsulation

/-! ## Sample decoders -/

section Sample

/-- Keys and signatures of the sample scheme are their encodings. -/
def sampleDecoders (C : MontgomeryCurve) : KeyDecoders (samplePrimitives C) where
  acceptsPoint _ := true
  verifyingKeyFromBytes b := arrayFromBytes 1952 b (.invalidKeyLength 1952 b.length)
  signatureFromBytes b := arrayFromBytes 3309 b .invalidSignature

theorem sampleDecoders_exact (C : MontgomeryCurve) : (sampleDecoders C).Exact where
  verifyingKey := arrayFromBytes_eq_ok
  signature := arrayFromBytes_eq_ok

variable {C : MontgomeryCurve}

/-- The response zero with a string of zeros. -/
def blankSignature (C : MontgomeryCurve) : CanonicalSignature (samplePrimitives C) :=
  ⟨⟨.fromScalar 0, FixedBytes.zero 3309⟩, Ed448BopResponse.guardCanonical_fromScalar 0⟩

/-- The signature of a sample key pair. -/
def sampleSigned (C : MontgomeryCurve) (b : UInt8) (message : Bytes) :
    CanonicalSignature (samplePrimitives C) :=
  match CanonicalSignature.sign (sampleKeypair b) message sampleCoins with
  | .ok sig => sig
  | .error _ => blankSignature C

theorem sampleSigned_verifies (b : UInt8) (message : Bytes) :
    (sampleKeypair b).publicKey.verify message (sampleSigned C b message).val = .ok () := by
  obtain ⟨sig, hsig⟩ := sample_signs b message
  have hsign : CanonicalSignature.sign (sampleKeypair b) message sampleCoins
      = .ok (⟨sig, guardCanonical_of_sign (P := samplePrimitives C) hsig⟩ :
        CanonicalSignature (samplePrimitives C)) :=
    CanonicalSignature.sign_eq_ok.mpr hsig
  rw [sampleSigned, hsign]
  exact bopVerifyCore_bopSignCore scalarCurve_rfc8032 transparentMlDsa_correct hsig

theorem transparentSign_of_verify {vk : FixedBytes 1952} {message : Bytes}
    {sig : FixedBytes 3309} (h : sampleScheme.verify vk message sig = .ok ()) :
    transparentSign vk message = .ok sig := transparentVerify_eq_ok.mp h

/-- The blank signature is nobody's. -/
theorem blankSignature_refused (message : Bytes) :
    (sampleKeypair 1).publicKey.verify message
      (⟨.fromScalar 0, FixedBytes.zero 3309⟩ : HybridSignature sampleScheme) ≠ .ok () := by
  intro h
  obtain ⟨_, _, hverify⟩ := (HybridSigningPublicKey.bopVerifyCore_eq_ok _).mp h
  obtain ⟨digest, _, hsig⟩ := transparentSign_eq_ok.mp (transparentSign_of_verify hverify)
  have hhead := congrArg (fun sig => sig.val.head?) hsig
  change some 0 = some 1 at hhead
  exact absurd hhead (by decide)

end Sample

end Trelis.X3dh
