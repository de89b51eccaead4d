import Trelis.MultiDevice.IdentityCert
import Trelis.X3dh.HybridKem

/-!
# Key pairs in storage

The secret forms of the hybrid key pairs, and their generation from a seed
(`signature.rs`, `kem.rs`, `identity.rs`).

Only the secrets are written, and the public key is derived again when they are
read.  A signing key is its 57-byte seed beside the ML-DSA key, and has one
encoding.  The X448 secret is clamped when it is read, so that a KEM key pair has an
encoding for every string that clamps to its secret (`identity_codec`).
-/

namespace Trelis.X3dh

open Hybrid MultiDevice

variable {P : HandshakePrimitives}

/-! ## The components -/

/-- The secrets of ML-DSA and of sntrup761 in storage, and the generators that take a
seed. -/
structure KeyPairCodecs (P : HandshakePrimitives) where
  /-- `MlDsaScheme::signing_key_to_bytes`. -/
  signingKeyToBytes : P.SigningKey → FixedBytes 4032
  /-- `MlDsaScheme::signing_key_from_bytes`. -/
  signingKeyFromBytes : Bytes → Result P.SigningKey
  /-- `MlDsaScheme::generate_from_seed`. -/
  signingKeyFromSeed : Bytes32 → Result P.SigningKey
  /-- `Sntrup761SecretKey::as_bytes`. -/
  sntrupSecretToBytes : P.sntrup.SecretKey → FixedBytes 1763
  /-- `Sntrup761SecretKey::from_bytes`. -/
  sntrupSecretFromBytes : Bytes → Result P.sntrup.SecretKey
  /-- `SeededRng::new(seed, "trelis-sntrup761-keygen")`. -/
  sntrupSeeded : Bytes32 → P.sntrup.Coins

/-- The decoders accept the encodings of the secrets, and nothing else. -/
structure KeyPairCodecs.Exact (S : KeyPairCodecs P) : Prop where
  signingKey : ∀ {b sk}, S.signingKeyFromBytes b = .ok sk ↔ b = (S.signingKeyToBytes sk).val
  sntrupSecret : ∀ {b sk}, S.sntrupSecretFromBytes b = .ok sk ↔ b = (S.sntrupSecretToBytes sk).val

/-- `X448Secret::from_bytes`. -/
def X448Secret.fromBytes (bytes : FixedBytes 56) : X448Secret :=
  ⟨Rfc7748.clamp bytes, clamp_clamp bytes⟩

@[simp] theorem X448Secret.fromBytes_bytes (secret : X448Secret) :
    X448Secret.fromBytes secret.bytes = secret := by
  obtain ⟨bytes, hclamped⟩ := secret
  simp only [fromBytes, hclamped]

/-- `X448Secret::generate_from_seed`. -/
def X448Secret.generateFromSeed (P : HandshakePrimitives) (seed : Bytes32) : X448Secret :=
  let derived := P.deriveKey "trelis-x448-keygen" seed.val
  -- The reader is asked for 56 bytes.
  let bytes := (P.deriveKeyXof "trelis-x448-expand" derived.val).val.take 56
  .fromBytes ⟨bytes, by simp [bytes]⟩

variable (S : KeyPairCodecs P)

/-! ## Signing key pairs -/

section Signing

/-- `HybridSigningKeypair::to_bytes`. -/
def signingToBytes (kp : HybridSigningKeypair P.toSignaturePrimitives) : FixedBytes 4089 :=
  ⟨kp.ed448Secret.seed.val ++ (S.signingKeyToBytes kp.mldsaSecret).val, by simp⟩

/-- `HybridSigningKeypair::from_bytes`. -/
def signingFromBytes (bytes : Bytes) : Result (HybridSigningKeypair P.toSignaturePrimitives) := do
  rejectIf (bytes.length ≠ 4089) (.invalidKeyLength 4089 bytes.length)
  -- The slice has the length of the array, so that the copy does not fail.
  let ed448Seed ← arrayFromBytes 57 (bytes.take 57) .malformedMessage
  let ed448Secret := Ed448SigningKey.fromSeed P.toCurve ed448Seed
  let mldsaSecret ← S.signingKeyFromBytes (bytes.drop 57)
  pure (.fromComponents ed448Secret mldsaSecret)

/-- `HybridSigningKeypair::generate_from_seed`. -/
def signingFromSeed (seed : Bytes32) : Result (HybridSigningKeypair P.toSignaturePrimitives) := do
  let ed448SeedPart1 := P.deriveKey "trelis-hybrid-signing-ed448-v1" seed.val
  let ed448SeedPart2 := P.deriveKey "trelis-hybrid-signing-ed448-v1-2" seed.val
  let ed448Seed : FixedBytes 57 := ⟨ed448SeedPart1.val ++ ed448SeedPart2.val.take 25, by simp⟩
  let mldsaSeed := P.deriveKey "trelis-hybrid-signing-mldsa-v1" seed.val
  let ed448Secret := Ed448SigningKey.fromSeed P.toCurve ed448Seed
  let mldsaSecret ← S.signingKeyFromSeed mldsaSeed
  pure (.fromComponents ed448Secret mldsaSecret)

variable {S}

/-- A key pair is made of its secrets. -/
theorem fromComponents_secrets (kp : HybridSigningKeypair P.toSignaturePrimitives) :
    HybridSigningKeypair.fromComponents (.fromSeed P.toCurve kp.ed448Secret.seed)
      kp.mldsaSecret = kp := by
  obtain ⟨publicKey, ⟨seed, scalar, hscalar⟩, mldsa, hpublic⟩ := kp
  subst hscalar
  subst hpublic
  rfl

theorem signingFromBytes_eq_ok (hS : S.Exact) {bytes : Bytes}
    {kp : HybridSigningKeypair P.toSignaturePrimitives} :
    signingFromBytes S bytes = .ok kp ↔ bytes = (signingToBytes S kp).val := by
  have hseed : kp.ed448Secret.seed.val.length = 57 := FixedBytes.length_coe _
  show _ ↔ bytes = kp.ed448Secret.seed.val ++ (S.signingKeyToBytes kp.mldsaSecret).val
  simp only [signingFromBytes, Except.bind_eq_ok, rejectIf_eq_ok, not_not, arrayFromBytes_eq_ok,
    hS.signingKey, Except.pure_eq_ok]
  constructor
  · intro hex
    rcases hex with ⟨_, _, seed, htake, mldsa, hdrop, hkp⟩
    subst hkp
    show bytes = seed.val ++ (S.signingKeyToBytes mldsa).val
    rw [← htake, ← hdrop, List.take_append_drop]
  · intro h
    have hlength : bytes.length = 4089 := by
      rw [h, List.length_append, hseed, FixedBytes.length_coe]
    obtain ⟨htake, hdrop⟩ := (eq_append_iff hseed).mp h
    exact ⟨(), hlength, kp.ed448Secret.seed, htake, kp.mldsaSecret, hdrop,
      fromComponents_secrets kp⟩

end Signing

/-! ## KEM key pairs -/

namespace HybridKemKeypair

/-- `HybridKemKeypair::to_bytes`. -/
def toBytes (kp : HybridKemKeypair P) : FixedBytes 1819 :=
  ⟨kp.x448Secret.bytes.val ++ (S.sntrupSecretToBytes kp.sntrupSecret).val, by simp⟩

/-- The key pair of two secrets. -/
def ofSecrets (x448Secret : X448Secret) (sntrupSecret : P.sntrup.SecretKey) : HybridKemKeypair P :=
  ⟨⟨P.x448.publicKey x448Secret, P.sntrup.publicKey sntrupSecret⟩, x448Secret, sntrupSecret, rfl⟩

/-- `HybridKemKeypair::from_bytes`. -/
def fromBytes (bytes : Bytes) : Result (HybridKemKeypair P) := do
  rejectIf (bytes.length ≠ 1819) (.invalidKeyLength 1819 bytes.length)
  -- The slice has the length of the array, so that the copy does not fail.
  let x448Bytes ← arrayFromBytes 56 (bytes.take 56) .malformedMessage
  let x448Secret := X448Secret.fromBytes x448Bytes
  let sntrupSecret ← S.sntrupSecretFromBytes (bytes.drop 56)
  pure (ofSecrets x448Secret sntrupSecret)

/-- `HybridKemKeypair::generate_from_seed`. -/
def generateFromSeed (seed : Bytes32) : Result (HybridKemKeypair P) := do
  let x448Seed := P.deriveKey "trelis-hybrid-x448" seed.val
  let sntrupSeed := P.deriveKey "trelis-hybrid-sntrup761" seed.val
  let x448Secret := X448Secret.generateFromSeed P x448Seed
  let sntrupSecret ← P.sntrup.generate (S.sntrupSeeded sntrupSeed)
  pure (ofSecrets x448Secret sntrupSecret)

variable {S}

theorem ofSecrets_secrets (kp : HybridKemKeypair P) :
    ofSecrets kp.x448Secret kp.sntrupSecret = kp := by
  obtain ⟨publicKey, x448Secret, sntrupSecret, hpublic⟩ := kp
  subst hpublic
  rfl

/-- The X448 secret is read from any string that clamps to it. -/
theorem fromBytes_eq_ok (hS : S.Exact) {bytes : Bytes} {kp : HybridKemKeypair P} :
    fromBytes S bytes = .ok kp ↔
      ∃ x448 : FixedBytes 56, Rfc7748.clamp x448 = kp.x448Secret.bytes ∧
        bytes = x448.val ++ (S.sntrupSecretToBytes kp.sntrupSecret).val := by
  simp only [fromBytes, Except.bind_eq_ok, rejectIf_eq_ok, not_not, arrayFromBytes_eq_ok,
    hS.sntrupSecret, Except.pure_eq_ok]
  constructor
  · intro hex
    rcases hex with ⟨_, _, x448, htake, sntrup, hdrop, hkp⟩
    subst hkp
    refine ⟨x448, rfl, ?_⟩
    show bytes = x448.val ++ (S.sntrupSecretToBytes sntrup).val
    rw [← htake, ← hdrop, List.take_append_drop]
  · intro hex
    rcases hex with ⟨x448, hclamp, h⟩
    have hx448 : x448.val.length = 56 := FixedBytes.length_coe _
    have hlength : bytes.length = 1819 := by
      rw [h, List.length_append, hx448, FixedBytes.length_coe]
    obtain ⟨htake, hdrop⟩ := (eq_append_iff hx448).mp h
    refine ⟨(), hlength, x448, htake, kp.sntrupSecret, hdrop, ?_⟩
    have hsecret : X448Secret.fromBytes x448 = kp.x448Secret := by
      rw [← X448Secret.fromBytes_bytes kp.x448Secret]
      simp only [X448Secret.fromBytes, hclamp, kp.x448Secret.clamped]
    rw [hsecret, ofSecrets_secrets]

theorem generated_of_generateFromSeed {seed : Bytes32} {kp : HybridKemKeypair P}
    (h : generateFromSeed S seed = .ok kp) : kp.Generated := by
  simp only [generateFromSeed, Except.bind_eq_ok, Except.pure_eq_ok] at h
  obtain ⟨sntrup, hsntrup, rfl⟩ := h
  exact ⟨_, hsntrup⟩

end HybridKemKeypair

/-! ## Identities -/

namespace HybridIdentityKeypair

/-- `HybridIdentityKeypair::public_key`. -/
def publicKey (kp : HybridIdentityKeypair P) : HybridIdentityPublicKey P :=
  ⟨kp.signing.publicKey, kp.kem.publicKey⟩

/-- `HybridIdentityKeypair::to_bytes`. -/
def toBytes (kp : HybridIdentityKeypair P) : FixedBytes 5908 :=
  ⟨(signingToBytes S kp.signing).val ++ (kp.kem.toBytes S).val, by simp⟩

/-- `HybridIdentityKeypair::from_bytes`. -/
def fromBytes (bytes : Bytes) : Result (HybridIdentityKeypair P) := do
  rejectIf (bytes.length ≠ 5908) (.invalidKeyLength 5908 bytes.length)
  let signing ← signingFromBytes S (bytes.take 4089)
  let kem ← HybridKemKeypair.fromBytes S (bytes.drop 4089)
  pure ⟨signing, kem⟩

/-- `HybridIdentityKeypair::generate_from_seed`. -/
def generateFromSeed (seed : Bytes32) : Result (HybridIdentityKeypair P) := do
  let signingSeed := P.deriveKey "trelis-device-signing-key-v1" seed.val
  let kemSeed := P.deriveKey "trelis-device-identity-key-v1" seed.val
  let signing ← signingFromSeed S signingSeed
  let kem ← HybridKemKeypair.generateFromSeed S kemSeed
  pure ⟨signing, kem⟩

variable {S}

theorem fromBytes_eq_ok (hS : S.Exact) {bytes : Bytes} {kp : HybridIdentityKeypair P} :
    fromBytes S bytes = .ok kp ↔
      ∃ x448 : FixedBytes 56, Rfc7748.clamp x448 = kp.kem.x448Secret.bytes ∧
        bytes = (signingToBytes S kp.signing).val ++
          (x448.val ++ (S.sntrupSecretToBytes kp.kem.sntrupSecret).val) := by
  have hsigning : (signingToBytes S kp.signing).val.length = 4089 := FixedBytes.length_coe _
  simp only [fromBytes, Except.bind_eq_ok, rejectIf_eq_ok, not_not, signingFromBytes_eq_ok hS,
    HybridKemKeypair.fromBytes_eq_ok hS, Except.pure_eq_ok]
  constructor
  · intro hex
    rcases hex with ⟨_, _, signing, htake, kem, ⟨x448, hclamp, hdrop⟩, hkp⟩
    subst hkp
    refine ⟨x448, hclamp, ?_⟩
    rw [← htake, ← hdrop, List.take_append_drop]
  · intro hex
    rcases hex with ⟨x448, hclamp, h⟩
    have hlength : bytes.length = 5908 := by
      rw [h, List.length_append, hsigning, List.length_append]
      simp
    obtain ⟨htake, hdrop⟩ := (eq_append_iff hsigning).mp h
    exact ⟨(), hlength, kp.signing, htake, kp.kem, ⟨x448, hclamp, hdrop⟩, rfl⟩

theorem fromBytes_toBytes (hS : S.Exact) (kp : HybridIdentityKeypair P) :
    fromBytes S (kp.toBytes S).val = .ok kp :=
  (fromBytes_eq_ok hS).mpr ⟨kp.kem.x448Secret.bytes, kp.kem.x448Secret.clamped, rfl⟩

/-- A string after the X448 secret in it is clamped. -/
def clampStored (bytes : Bytes) : Bytes :=
  (bytes.modify 4089 (· &&& 0xFC)).modify 4144 (· ||| 0x80)

theorem clampStored_append (front : FixedBytes 4089) (x448 : FixedBytes 56) {rest : Bytes} :
    clampStored (front.val ++ (x448.val ++ rest)) =
      front.val ++ ((Rfc7748.clamp x448).val ++ rest) := by
  have hfront : front.val.length = 4089 := FixedBytes.length_coe _
  have hx448 : x448.val.length = 56 := FixedBytes.length_coe _
  apply List.ext_getElem?
  intro i
  simp only [clampStored, Rfc7748.clamp, List.getElem?_modify, List.getElem?_append, hfront,
    hx448, List.length_modify]
  by_cases hlow : i < 4089
  · simp [hlow, show 4089 ≠ i by omega, show 4144 ≠ i by omega]
  · by_cases hhigh : i - 4089 < 56
    · have h0 : 4089 = i ↔ 0 = i - 4089 := by omega
      have h55 : 4144 = i ↔ 55 = i - 4089 := by omega
      simp only [hlow, hhigh, h0, h55, if_true, if_false]
    · simp [hlow, hhigh, show 4089 ≠ i by omega, show 4144 ≠ i by omega]

/-- What is read is what the clamped string writes. -/
theorem fromBytes_iff_clampStored (hS : S.Exact) {bytes : Bytes} {kp : HybridIdentityKeypair P} :
    fromBytes S bytes = .ok kp ↔
      bytes.length = 5908 ∧ clampStored bytes = (kp.toBytes S).val := by
  rw [fromBytes_eq_ok hS]
  constructor
  · intro hex
    rcases hex with ⟨x448, hclamp, rfl⟩
    exact ⟨by simp, by rw [clampStored_append, hclamp]; rfl⟩
  · intro hboth
    rcases hboth with ⟨hlength, hclamped⟩
    have hfront : (bytes.take 4089).length = 4089 := by
      rw [List.length_take]
      omega
    have hx448 : (sliceAt bytes 4089 56).length = 56 := length_sliceAt (by omega)
    have hsplit : bytes = bytes.take 4089 ++ (sliceAt bytes 4089 56 ++ bytes.drop 4145) := by
      rw [sliceAt, show 4145 = 4089 + 56 by rfl, ← List.drop_drop, List.take_append_drop,
        List.take_append_drop]
    rw [hsplit] at hclamped
    have hparts := (clampStored_append ⟨_, hfront⟩ ⟨_, hx448⟩).symm.trans hclamped
    obtain ⟨hsigning, hrest⟩ := List.append_inj hparts (by simp [hfront])
    obtain ⟨hsecret, hsntrup⟩ := List.append_inj hrest (by simp)
    refine ⟨⟨_, hx448⟩, Subtype.ext hsecret, ?_⟩
    rw [← hsigning, ← hsntrup]
    exact hsplit

theorem generated_of_generateFromSeed {seed : Bytes32} {kp : HybridIdentityKeypair P}
    (h : generateFromSeed S seed = .ok kp) : kp.kem.Generated := by
  simp only [generateFromSeed, Except.bind_eq_ok, Except.pure_eq_ok] at h
  obtain ⟨signing, _, kem, hkem, rfl⟩ := h
  exact HybridKemKeypair.generated_of_generateFromSeed hkem

/-- An identity is read back from its encoding.  A string is read exactly when, after
clamping, it is the encoding of an identity, which is then the one that is read. -/
theorem identity_codec (hS : S.Exact) :
    (∀ kp : HybridIdentityKeypair P, fromBytes S (kp.toBytes S).val = .ok kp) ∧
    (∀ (bytes : Bytes) (kp : HybridIdentityKeypair P), fromBytes S bytes = .ok kp ↔
      bytes.length = 5908 ∧ clampStored bytes = (kp.toBytes S).val) ∧
    ∀ (seed : Bytes32) (kp : HybridIdentityKeypair P), generateFromSeed S seed = .ok kp →
      kp.kem.Generated ∧ fromBytes S (kp.toBytes S).val = generateFromSeed S seed :=
  ⟨fromBytes_toBytes hS, fun _ _ => fromBytes_iff_clampStored hS, fun _ _ h =>
    ⟨generated_of_generateFromSeed h, (fromBytes_toBytes hS _).trans h.symm⟩⟩

end HybridIdentityKeypair

/-! ## Sample codecs -/

section Sample

theorem length_padded (m n : Nat) (a : FixedBytes m) :
    (a.val ++ List.replicate n 0).length = m + n := by
  rw [List.length_append, a.property, List.length_replicate]

/-- A short array at the front of a long one. -/
def padded (m n : Nat) (a : FixedBytes m) : FixedBytes (m + n) :=
  ⟨a.val ++ List.replicate n 0, length_padded m n a⟩

/-- The short array at the front of zeros. -/
def unpadded (m n : Nat) (bytes : Bytes) : Result (FixedBytes m) :=
  if bytes.drop m = List.replicate n 0 then arrayFromBytes m (bytes.take m) .malformedMessage
  else .error .malformedMessage

theorem unpadded_eq_ok {m n : Nat} {bytes : Bytes} {a : FixedBytes m} :
    unpadded m n bytes = .ok a ↔ bytes = (padded m n a).val := by
  have ha : a.val.length = m := FixedBytes.length_coe _
  show _ ↔ bytes = a.val ++ List.replicate n 0
  unfold unpadded
  split
  · next hrest =>
    rw [arrayFromBytes_eq_ok]
    constructor
    · intro htake
      rw [← htake, ← hrest, List.take_append_drop]
    · intro h
      rw [h, List.take_left' ha]
  · next hrest =>
    constructor
    · intro h
      cases h
    · intro h
      exact absurd (by rw [h, List.drop_left' ha]) hrest

/-- The secrets of the sample primitives with zeros behind them. -/
def sampleCodecs (C : MontgomeryCurve) : KeyPairCodecs (samplePrimitives C) where
  signingKeyToBytes := padded 1952 2080
  signingKeyFromBytes := unpadded 1952 2080
  signingKeyFromSeed seed := .ok ⟨seed.val ++ List.replicate 1920 0, by
    rw [List.length_append, seed.property, List.length_replicate]⟩
  sntrupSecretToBytes := padded 1158 605
  sntrupSecretFromBytes := unpadded 1158 605
  sntrupSeeded := id

theorem sampleCodecs_exact (C : MontgomeryCurve) : (sampleCodecs C).Exact where
  signingKey := unpadded_eq_ok
  sntrupSecret := unpadded_eq_ok

/-- The identity of a seed, read from storage. -/
theorem identity_codec_sample : ∃ kp,
    HybridIdentityKeypair.generateFromSeed (sampleCodecs additiveCurve) zero32 = .ok kp ∧
      HybridIdentityKeypair.fromBytes (sampleCodecs additiveCurve)
        (kp.toBytes (sampleCodecs additiveCurve)).val = .ok kp := by
  obtain ⟨_, _, hseed⟩ := HybridIdentityKeypair.identity_codec (sampleCodecs_exact additiveCurve)
  have hgenerate : ∃ kp,
      HybridIdentityKeypair.generateFromSeed (sampleCodecs additiveCurve) zero32 = .ok kp :=
    ⟨_, rfl⟩
  obtain ⟨kp, hkp⟩ := hgenerate
  exact ⟨kp, hkp, (hseed zero32 kp hkp).2.trans hkp⟩

end Sample

end Trelis.X3dh
