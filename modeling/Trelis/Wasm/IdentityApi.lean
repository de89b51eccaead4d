import Trelis.Wasm.Primitives
import Trelis.X3dh.KeyPairCodec
import Trelis.X3dh.Session

/-!
# Identities as JavaScript uses them

The calls of the WASM crate on signing keys, KEM keys and identities.  JavaScript holds
the secret keys and the public keys as bytes, and every call reads what it is given.

`stored_identity_works` is the law of the bytes of one identity: what its secret bytes
sign verifies under its public bytes, and what anyone encapsulates to the public bytes
comes out with the secret bytes.  The one exception is a key whose sntrup761 half is
zero, which can be written and never read.
-/

namespace Trelis.Wasm

open Hybrid X3dh MultiDevice

variable {P : HandshakePrimitives} (D : KeyDecoders P) (S : KeyPairCodecs P)

/-! ## The calls -/

def hybridVerify (publicKey message signature : Bytes) : Except JsError Bool := do
  let pk ← debugError (ReadableKey.fromBytes D publicKey)
  let sig ← debugError (CanonicalSignature.fromBytes D signature)
  pure (pk.val.verify message sig.val).isOk

/-- The secret and the public bytes of a new key pair. -/
def hybridKemGenerate (x448 : Result (FixedBytes 56)) (sntrup : P.sntrup.Coins) :
    Except JsError (Bytes × Bytes) := do
  let keypair ← debugError (HybridKemKeypair.generate P x448 sntrup)
  pure ((keypair.toBytes S).val, keypair.publicKey.toBytes.val)

/-- The shared secret and the encapsulation. -/
def hybridKemEncapsulate (P : HandshakePrimitives) (publicKey : Bytes)
    (x448 : Result (FixedBytes 56)) (sntrup : P.sntrup.Coins) : Except JsError (Bytes × Bytes) := do
  let pk ← debugError (HybridKemPublicKey.fromBytes publicKey)
  let (sharedSecret, encapsulation) ← debugError (pk.encapsulate P x448 sntrup)
  pure (sharedSecret.val, encapsulation.toBytes.val)

def hybridKemDecapsulate (secretKey encapsulation : Bytes) : Except JsError Bytes := do
  let keypair ← debugError (HybridKemKeypair.fromBytes S secretKey)
  let enc ← debugError (HybridEncapsulation.fromBytes encapsulation)
  let sharedSecret ← debugError (keypair.decapsulate enc)
  pure sharedSecret.val

def hybridIdentitySign (secretKey message : Bytes) (coins : SigningCoins P.toSignaturePrimitives) :
    Except JsError Bytes := do
  let keypair ← debugError (HybridIdentityKeypair.fromBytes S secretKey)
  let signature ← debugError (keypair.signing.sign message coins)
  pure signature.toBytes.val

def hybridIdentityVerify (publicKey message signature : Bytes) : Except JsError Bool := do
  let pk ← debugError (ReadableIdentity.fromBytes D publicKey)
  let sig ← debugError (CanonicalSignature.fromBytes D signature)
  pure (pk.val.signing.verify message sig.val).isOk

def hybridIdentityDecapsulate (secretKey encapsulation : Bytes) : Except JsError Bytes := do
  let keypair ← debugError (HybridIdentityKeypair.fromBytes S secretKey)
  let enc ← debugError (HybridEncapsulation.fromBytes encapsulation)
  let sharedSecret ← debugError (keypair.kem.decapsulate enc)
  pure sharedSecret.val

/-! ## Reading the public bytes -/

/-- The curve library reads the points that it derives. -/
structure ReadsDerived : Prop where
  acceptsPoint : ∀ seed, D.acceptsPoint (P.verifyingKeyOfSeed seed) = true

variable {D S}

theorem ReadsDerived.acceptsPoint_publicKey (hread : ReadsDerived D)
    (kp : HybridSigningKeypair P.toSignaturePrimitives) :
    D.acceptsPoint kp.publicKey.ed448.inner = true := by
  rw [kp.publicKey_eq]
  exact hread.acceptsPoint kp.ed448Secret.seed

theorem readableKey_publicKey (hD : D.Exact) (hread : ReadsDerived D)
    (kp : HybridSigningKeypair P.toSignaturePrimitives) :
    ReadableKey.fromBytes D kp.publicKey.toBytes.val =
      .ok ⟨kp.publicKey, hread.acceptsPoint_publicKey kp⟩ :=
  (ReadableKey.fromBytes_eq_ok hD).mpr rfl

theorem readableIdentity_publicKey (hD : D.Exact) (hread : ReadsDerived D)
    {kp : HybridIdentityKeypair P} (hsntrup : kp.kem.publicKey.sntrup ≠ FixedBytes.zero 1158) :
    ReadableIdentity.fromBytes D kp.publicKey.toBytes =
      .ok ⟨kp.publicKey, hread.acceptsPoint_publicKey kp.signing⟩ :=
  (ReadableIdentity.fromBytes_eq_ok hD).mpr ⟨rfl, hsntrup⟩

/-- A signature that a key pair makes is read back. -/
theorem canonicalSignature_sign (hD : D.Exact) {kp : HybridSigningKeypair P.toSignaturePrimitives}
    {message : Bytes} {coins : SigningCoins P.toSignaturePrimitives}
    {sig : HybridSignature P.toSignaturePrimitives} (h : kp.sign message coins = .ok sig) :
    CanonicalSignature.fromBytes D sig.toBytes.val = .ok ⟨sig, guardCanonical_of_sign h⟩ :=
  (CanonicalSignature.fromBytes_eq_ok hD).mpr rfl

/-! ## One identity -/

section Identity

variable {secretKey : Bytes} {kp : HybridIdentityKeypair P}

theorem hybridIdentitySign_eq_ok (hkp : HybridIdentityKeypair.fromBytes S secretKey = .ok kp)
    {message signature : Bytes} {coins : SigningCoins P.toSignaturePrimitives} :
    hybridIdentitySign S secretKey message coins = .ok signature ↔
      ∃ sig, kp.signing.sign message coins = .ok sig ∧ signature = sig.toBytes.val := by
  simp only [hybridIdentitySign, Except.bind_eq_ok, debugError_eq_ok, Except.pure_eq_ok]
  constructor
  · intro hex
    rcases hex with ⟨kp', hkp', sig, hsign, hsignature⟩
    obtain rfl := Except.ok.inj (hkp.symm.trans hkp')
    exact ⟨sig, hsign, hsignature.symm⟩
  · intro hex
    rcases hex with ⟨sig, hsign, hsignature⟩
    exact ⟨kp, hkp, sig, hsign, hsignature.symm⟩

/-- What the secret bytes of an identity sign verifies under its public bytes, and what
is encapsulated to the public bytes comes out with the secret bytes. -/
theorem stored_identity_works (hcurve : P.Rfc8032) (hmldsa : P.Correct) (hdh : P.x448.Rfc7748)
    (hkem : P.sntrup.Correct) (hS : S.Exact) (hD : D.Exact) (hread : ReadsDerived D)
    (hkp : HybridIdentityKeypair.fromBytes S secretKey = .ok kp) (hgenerated : kp.kem.Generated) :
    (∀ message signature coins, hybridIdentitySign S secretKey message coins = .ok signature →
      hybridVerify D kp.signing.publicKey.toBytes.val message signature = .ok true ∧
      (kp.kem.publicKey.sntrup ≠ FixedBytes.zero 1158 →
        hybridIdentityVerify D kp.publicKey.toBytes message signature = .ok true)) ∧
    ∀ x448 sntrup sharedSecret encapsulation,
      hybridKemEncapsulate P kp.kem.publicKey.toBytes.val x448 sntrup =
        .ok (sharedSecret, encapsulation) →
      hybridIdentityDecapsulate S secretKey encapsulation = .ok sharedSecret ∧
      hybridKemDecapsulate S (kp.kem.toBytes S).val encapsulation = .ok sharedSecret := by
  constructor
  · intro message signature coins hsigned
    obtain ⟨sig, hsign, rfl⟩ := (hybridIdentitySign_eq_ok hkp).mp hsigned
    have hverify : kp.signing.publicKey.verify message sig = .ok () :=
      bopVerifyCore_bopSignCore hcurve hmldsa hsign
    have hsig := canonicalSignature_sign hD hsign
    constructor
    · simp only [hybridVerify, readableKey_publicKey hD hread, hsig, Except.bind_eq_ok,
        debugError_eq_ok, Except.pure_eq_ok]
      exact ⟨_, rfl, _, rfl, by rw [hverify]; rfl⟩
    · intro hsntrup
      simp only [hybridIdentityVerify, readableIdentity_publicKey hD hread hsntrup, hsig,
        Except.bind_eq_ok, debugError_eq_ok, Except.pure_eq_ok]
      exact ⟨_, rfl, _, rfl, by
        show (kp.signing.publicKey.verify message sig).isOk = true
        rw [hverify]
        rfl⟩
  · intro x448 sntrup sharedSecret encapsulation hencapsulated
    simp only [hybridKemEncapsulate, Except.bind_eq_ok, debugError_eq_ok, Except.pure_eq_ok,
      Prod.mk.injEq, HybridKemPublicKey.fromBytes_eq_ok] at hencapsulated
    obtain ⟨pk, ⟨hpk, _⟩, ⟨key, e⟩, hencapsulate, rfl, rfl⟩ := hencapsulated
    obtain rfl : kp.kem.publicKey = pk := HybridKemPublicKey.toBytes_inj (Subtype.ext hpk)
    have hdecapsulate :=
      HybridKemKeypair.decapsulate_of_encapsulate hdh hkem hgenerated hencapsulate
    have henc : HybridEncapsulation.fromBytes e.toBytes.val = .ok e :=
      HybridEncapsulation.fromBytes_eq_ok.mpr rfl
    constructor
    · simp only [hybridIdentityDecapsulate, Except.bind_eq_ok, debugError_eq_ok,
        Except.pure_eq_ok]
      exact ⟨kp, hkp, e, henc, key, hdecapsulate, rfl⟩
    · have hkem' : HybridKemKeypair.fromBytes S (kp.kem.toBytes S).val = .ok kp.kem :=
        (HybridKemKeypair.fromBytes_eq_ok hS).mpr ⟨_, kp.kem.x448Secret.clamped, rfl⟩
      simp only [hybridKemDecapsulate, Except.bind_eq_ok, debugError_eq_ok, Except.pure_eq_ok]
      exact ⟨kp.kem, hkem', e, henc, key, hdecapsulate, rfl⟩

end Identity

/-! ## A sample identity -/

section Sample

theorem sampleDecoders_readsDerived (C : MontgomeryCurve) : ReadsDerived (sampleDecoders C) where
  acceptsPoint _ := rfl

/-- A signing key pair beside a KEM key pair that is generated. -/
def storedSample : HybridIdentityKeypair (samplePrimitives additiveCurve) :=
  ⟨sampleKeypair 1, sampleOtk⟩

theorem storedSample_generated : storedSample.kem.Generated := ⟨filled 32 6, rfl⟩

/-- The bytes in storage. -/
def storedSampleKey : Bytes := (storedSample.toBytes (sampleCodecs additiveCurve)).val

theorem storedSample_read :
    HybridIdentityKeypair.fromBytes (sampleCodecs additiveCurve) storedSampleKey =
      .ok storedSample :=
  HybridIdentityKeypair.fromBytes_toBytes (sampleCodecs_exact additiveCurve) storedSample

theorem stored_identity_works_sample : ∃ signature,
    hybridIdentitySign (sampleCodecs additiveCurve) storedSampleKey [1, 2, 3] sampleCoins =
      .ok signature ∧
    hybridVerify (sampleDecoders additiveCurve) storedSample.signing.publicKey.toBytes.val
      [1, 2, 3] signature = .ok true := by
  obtain ⟨sig, hsig⟩ := sample_signs 1 [1, 2, 3]
  have hsigned : hybridIdentitySign (sampleCodecs additiveCurve) storedSampleKey [1, 2, 3]
      sampleCoins = .ok sig.toBytes.val :=
    (hybridIdentitySign_eq_ok storedSample_read).mpr ⟨sig, hsig, rfl⟩
  obtain ⟨hsigns, _⟩ := stored_identity_works scalarCurve_rfc8032 transparentMlDsa_correct
    additiveCurve_rfc7748 sampleKem_correct (sampleCodecs_exact additiveCurve)
    (sampleDecoders_exact additiveCurve) (sampleDecoders_readsDerived additiveCurve)
    storedSample_read storedSample_generated
  exact ⟨_, hsigned, (hsigns _ _ _ hsigned).1⟩

end Sample

end Trelis.Wasm
