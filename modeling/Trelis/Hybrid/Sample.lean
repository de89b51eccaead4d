import Mathlib.Data.ZMod.Basic
import Trelis.Hybrid.Signature

/-!
# A signature scheme that satisfies the laws

`sampleScheme` is an instance of the signature primitives in which every law of
the combiner can be proved.  The group is the scalars themselves, an ML-DSA
signature is the verifying key beside the digest that was signed, and the hash
is a checksum.  It has no security, and is what concrete runs are made of.
-/

namespace Trelis.Hybrid

theorem scalarOrder_ne_zero : scalarOrder ≠ 0 := scalarOrder_pos.ne'

instance : NeZero scalarOrder := ⟨scalarOrder_ne_zero⟩

/-- A checksum in place of the hash. -/
def checksum (context : String) (input : Bytes) : Bytes32 :=
  ⟨leBytes 32 (leValue (ascii context ++ input) % (2 ^ 255 - 19)), leBytes_length _ _⟩

/-- The encoding of a scalar as a point. -/
def encodePoint (p : ZMod scalarOrder) : FixedBytes 57 := ⟨leBytes 57 p.val, leBytes_length _ _⟩

/-- The decoding of a point, of a canonical encoding only. -/
def decodePoint (b : FixedBytes 57) : Option (ZMod scalarOrder) :=
  if leValue b.val < scalarOrder then some (leValue b.val) else none

theorem decodePoint_encodePoint (p : ZMod scalarOrder) : decodePoint (encodePoint p) = some p := by
  have hlt := ZMod.val_lt p
  have hvalue : leValue (encodePoint p).val = p.val :=
    leValue_leBytes (hlt.trans (scalarOrder_lt.trans (by decide)))
  rw [decodePoint, hvalue, if_pos hlt, ZMod.natCast_zmod_val]

/-- The scalars as a group, before the verifying keys. -/
def scalarGroup : Curve where
  Point := ZMod scalarOrder
  generator := 1
  compress := encodePoint
  decompress := decodePoint
  shake256 b := ⟨leBytes 114 (leValue b), leBytes_length _ _⟩
  verifyingKeyOfSeed seed := seed

/-- The scalars as a group, with the verifying keys of RFC 8032. -/
def scalarCurve : Curve :=
  { scalarGroup with
    verifyingKeyOfSeed := fun seed =>
      scalarGroup.compress ((bopSecretScalar scalarGroup seed).val • scalarGroup.generator) }

theorem scalarCurve_rfc8032 : scalarCurve.Rfc8032 where
  order_nsmul := by
    show scalarOrder • (1 : ZMod scalarOrder) = 0
    rw [nsmul_one, ZMod.natCast_self]
  decompress_compress _ := decodePoint_encodePoint _
  verifyingKey_eq _ := rfl

/-- A signature is the verifying key beside the digest. -/
def transparentSignature (vk : FixedBytes 1952) (digest : Bytes32) : FixedBytes 3309 :=
  ⟨vk.val ++ digest.val ++ List.replicate 1325 0, by
    rw [List.length_append, List.length_append, vk.property, digest.property,
      List.length_replicate]⟩

theorem transparentSignature_inj {vk vk' : FixedBytes 1952} {digest digest' : Bytes32}
    (h : transparentSignature vk digest = transparentSignature vk' digest') :
    vk = vk' ∧ digest = digest' := by
  obtain ⟨hfront, _⟩ := List.append_inj (congrArg Subtype.val h) (by simp)
  obtain ⟨hvk, hdigest⟩ := List.append_inj hfront (by simp)
  exact ⟨Subtype.ext hvk, Subtype.ext hdigest⟩

/-- Signing of a digest; no other message is signed. -/
def transparentSign (vk : FixedBytes 1952) (msg : Bytes) : Result (FixedBytes 3309) :=
  match FixedBytes.ofBytes? 32 msg with
  | some digest => .ok (transparentSignature vk digest)
  | none => .error .invalidSignature

/-- A signature verifies when it is the one that the key makes. -/
def transparentVerify (vk : FixedBytes 1952) (msg : Bytes) (sig : FixedBytes 3309) : Result Unit :=
  if transparentSign vk msg = .ok sig then .ok () else .error .signatureVerificationFailed

theorem transparentSign_digest (vk : FixedBytes 1952) (digest : Bytes32) :
    transparentSign vk digest.val = .ok (transparentSignature vk digest) := by
  rw [transparentSign, FixedBytes.ofBytes?_coe]

theorem transparentSign_eq_ok {vk : FixedBytes 1952} {msg : Bytes} {sig : FixedBytes 3309} :
    transparentSign vk msg = .ok sig ↔
      ∃ digest : Bytes32, msg = digest.val ∧ sig = transparentSignature vk digest := by
  constructor
  · intro h
    unfold transparentSign at h
    split at h
    · next digest hdigest =>
      exact ⟨digest, FixedBytes.ofBytes?_eq_some.mp hdigest, (Except.ok.inj h).symm⟩
    · cases h
  · intro hex
    rcases hex with ⟨digest, hmsg, hsig⟩
    rw [hmsg, hsig, transparentSign_digest]

theorem transparentVerify_eq_ok {vk : FixedBytes 1952} {msg : Bytes} {sig : FixedBytes 3309} :
    transparentVerify vk msg sig = .ok () ↔ transparentSign vk msg = .ok sig := by
  unfold transparentVerify
  split <;> simp [*]

/-- Signatures of digests that anyone can read. -/
def transparentMlDsa : MlDsaScheme where
  SigningKey := FixedBytes 1952
  VerifyingKey := FixedBytes 1952
  Signature := FixedBytes 3309
  Coins := Unit
  verifyingKey := id
  signHedged sk msg _ := transparentSign sk msg
  verify := transparentVerify
  verifyingKeyToBytes := id
  signatureToBytes := id

theorem transparentMlDsa_correct : transparentMlDsa.Correct where
  verify_sign h := transparentVerify_eq_ok.mpr h

theorem transparentMlDsa_binding : transparentMlDsa.Binding where
  verify_unique {vk msg sig vk' msg' sig'} h h' hsig := by
    obtain ⟨digest, rfl, hmade⟩ := transparentSign_eq_ok.mp (transparentVerify_eq_ok.mp h)
    obtain ⟨digest', rfl, hmade'⟩ := transparentSign_eq_ok.mp (transparentVerify_eq_ok.mp h')
    obtain ⟨hvk, hdigest⟩ := transparentSignature_inj (hmade.symm.trans (hsig.trans hmade'))
    exact ⟨hvk, congrArg Subtype.val hdigest⟩

/-- The signature primitives of concrete runs. -/
def sampleScheme : SignaturePrimitives :=
  { scalarCurve, transparentMlDsa with
    deriveKey := checksum
    deriveKeyXof := fun context input =>
      ⟨(checksum context input).val ++ List.replicate 82 0, by simp⟩ }

/-- The array that is filled with the byte `b`. -/
def filled (n : Nat) (b : UInt8) : FixedBytes n := ⟨List.replicate n b, List.length_replicate⟩

/-- The key pair whose two secrets are filled with the byte `b`. -/
def sampleKeypair (b : UInt8) : HybridSigningKeypair sampleScheme :=
  .fromComponents (.fromSeed _ (filled 57 b)) (filled 1952 b)

/-- A draw of the random generator. -/
def sampleCoins : SigningCoins sampleScheme := ⟨some (FixedBytes.zero 114), ()⟩

theorem sampleScheme_signHedged (sk : FixedBytes 1952) (digest : Bytes32) (coins : Unit) :
    sampleScheme.signHedged sk digest.val coins = .ok (transparentSignature sk digest) :=
  transparentSign_digest sk digest

/-- A sample key pair signs every message. -/
theorem sample_signs (b : UInt8) (message : Bytes) :
    ∃ sig, (sampleKeypair b).sign message sampleCoins = .ok sig :=
  ⟨_, HybridSigningKeypair.bopSignCore_of_ok rfl (sampleScheme_signHedged _ _ _)⟩

end Trelis.Hybrid
