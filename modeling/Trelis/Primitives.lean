import Trelis.Error
import Trelis.Lib.Bytes

/-!
# The cryptographic primitives

The protocol code is written over a KEM, a committing AEAD, a signature scheme
and a hash.  `Primitives` is the interface of these, with the types of their
values abstract; every model of this development takes it as a parameter.

A randomised operation takes its random draw as an argument of the type
`Coins`, so that the model is a function.  A draw that the operating system
refuses is a value of `Coins` at which the operation returns an error.

The second half names what the protocol relies on.  Each structure states the
documented behaviour of one primitive, and a theorem that needs it takes it as
a hypothesis:

* `PublicKeyCodec` and `EncapsulationCodec`: what is written can be read back;
* `ExactKeys` and `ExactEncapsulations`: what is read is what was written;
* `IdealKem` and `IdealAead`: opening succeeds exactly with the matching key
  (and the same associated data), and returns what was sealed;
* `SizedAead`: a plaintext is no longer than its ciphertext;
* `InjectiveSeeds`: two seeds that generate the same public key are equal;
* `CorrectSignature`: an honestly made signature verifies.

No law asserts that the hash is injective, which no function into 32 bytes
is.  A theorem that needs two hashed values to differ names the two inputs.
-/

namespace Trelis

/-- The primitives that the protocol code calls. -/
structure Primitives where
  /-- `HybridKemPublicKey`. -/
  PublicKey : Type
  /-- `HybridKemKeypair`. -/
  KeyPair : Type
  /-- `HybridEncapsulation`. -/
  Encapsulation : Type
  /-- `HybridSignature`. -/
  Signature : Type
  /-- `HybridIdentityPublicKey`. -/
  IdentityPublicKey : Type
  /-- `HybridIdentityKeypair`. -/
  IdentityKeyPair : Type
  /-- The random draw of one randomised operation. -/
  Coins : Type
  /-- `blake3::derive_key`, and `Hasher::new_derive_key` fed with the
  concatenation of its updates. -/
  deriveKey : String → Bytes → Bytes32
  /-- `HybridKemKeypair::generate`. -/
  generate : Coins → Result KeyPair
  /-- `HybridKemKeypair::generate_from_seed`. -/
  generateFromSeed : Bytes32 → Result KeyPair
  /-- `HybridKemKeypair::public_key`. -/
  publicKey : KeyPair → PublicKey
  /-- `HybridKemPublicKey::to_bytes`. -/
  publicKeyToBytes : PublicKey → Bytes
  /-- `HybridKemPublicKey::from_bytes`. -/
  publicKeyFromBytes : Bytes → Result PublicKey
  /-- `HybridKemPublicKey::encapsulate`. -/
  encapsulate : PublicKey → Coins → Result (Bytes32 × Encapsulation)
  /-- `HybridKemKeypair::decapsulate`. -/
  decapsulate : KeyPair → Encapsulation → Result Bytes32
  /-- `HybridEncapsulation::to_bytes`. -/
  encapsulationToBytes : Encapsulation → Bytes
  /-- `HybridEncapsulation::from_bytes`. -/
  encapsulationFromBytes : Bytes → Result Encapsulation
  /-- `aead::encrypt_committing`: key, nonce, plaintext, associated data. -/
  encryptCommitting : Bytes32 → FixedBytes 24 → Bytes → Bytes → Result Bytes
  /-- `aead::decrypt_committing`: key, nonce, ciphertext, associated data. -/
  decryptCommitting : Bytes32 → FixedBytes 24 → Bytes → Bytes → Result Bytes
  /-- `HybridIdentityKeypair::public_key`. -/
  identityPublicKey : IdentityKeyPair → IdentityPublicKey
  /-- `HybridIdentityPublicKey::to_bytes`. -/
  identityToBytes : IdentityPublicKey → Bytes
  /-- `HybridIdentityKeypair::sign_with_context`: key, message, context. -/
  signWithContext : IdentityKeyPair → Bytes → Bytes → Coins → Result Signature
  /-- `HybridIdentityPublicKey::verify_with_context`: key, message, context. -/
  verifyWithContext : IdentityPublicKey → Bytes → Bytes → Signature → Result Unit

namespace Primitives

/-! ## What the protocol relies on -/

/-- Public keys of key pairs have one encoded size, and are read back from
their encoding. -/
structure PublicKeyCodec (P : Primitives) (size : Nat) : Prop where
  length_toBytes : ∀ pk, (P.publicKeyToBytes pk).length = size
  fromBytes_toBytes : ∀ kp,
    P.publicKeyFromBytes (P.publicKeyToBytes (P.publicKey kp)) = .ok (P.publicKey kp)

/-- The encoding tells the public keys of two key pairs apart. -/
theorem PublicKeyCodec.publicKey_inj {P : Primitives} {size : Nat} (h : P.PublicKeyCodec size)
    {kp kp' : P.KeyPair}
    (hbytes : P.publicKeyToBytes (P.publicKey kp) = P.publicKeyToBytes (P.publicKey kp')) :
    P.publicKey kp = P.publicKey kp' := by
  have hok := h.fromBytes_toBytes kp
  rw [hbytes, h.fromBytes_toBytes kp', Except.ok.injEq] at hok
  exact hok.symm

/-- A public key is written as the bytes that it was read from. -/
structure ExactKeys (P : Primitives) : Prop where
  toBytes_fromBytes : ∀ {b pk}, P.publicKeyFromBytes b = .ok pk → P.publicKeyToBytes pk = b

/-- An encapsulation is written as the bytes that it was read from. -/
structure ExactEncapsulations (P : Primitives) : Prop where
  toBytes_fromBytes : ∀ {b c}, P.encapsulationFromBytes b = .ok c → P.encapsulationToBytes c = b

/-- An encapsulation is read back from its encoding. -/
structure EncapsulationCodec (P : Primitives) : Prop where
  fromBytes_toBytes : ∀ {pk coins k c}, P.encapsulate pk coins = .ok (k, c) →
    P.encapsulationFromBytes (P.encapsulationToBytes c) = .ok c

/-- An ideal KEM: the encapsulated secret comes out with a key pair of the
same public key, and with no other. -/
structure IdealKem (P : Primitives) : Prop where
  decapsulate_match : ∀ {kp coins k c}, P.encapsulate (P.publicKey kp) coins = .ok (k, c) →
    P.decapsulate kp c = .ok k
  decapsulate_other : ∀ {pk kp coins k c}, P.encapsulate pk coins = .ok (k, c) →
    P.publicKey kp ≠ pk → P.decapsulate kp c ≠ .ok k

/-- An ideal AEAD: a ciphertext opens to its plaintext under its own key and
associated data, and to nothing under any other. -/
structure IdealAead (P : Primitives) : Prop where
  decrypt_match : ∀ {k n pt aad ct}, P.encryptCommitting k n pt aad = .ok ct →
    P.decryptCommitting k n ct aad = .ok pt
  decrypt_other : ∀ {k n pt aad ct k' aad'}, P.encryptCommitting k n pt aad = .ok ct →
    (k', aad') ≠ (k, aad) → ∀ pt', P.decryptCommitting k' n ct aad' ≠ .ok pt'

/-- Whatever key and associated data open a ciphertext, it yields the plaintext
that it was made of. -/
theorem IdealAead.decrypt_eq {P : Primitives} (h : P.IdealAead) {k k' : Bytes32} {n : FixedBytes 24}
    {pt aad ct aad' pt' : Bytes} (henc : P.encryptCommitting k n pt aad = .ok ct)
    (hdec : P.decryptCommitting k' n ct aad' = .ok pt') : pt' = pt := by
  by_cases hpair : (k', aad') = (k, aad)
  · rw [Prod.mk.injEq] at hpair
    rw [hpair.1, hpair.2, h.decrypt_match henc] at hdec
    exact (Except.ok.inj hdec).symm
  · exact absurd hdec (h.decrypt_other henc hpair pt')

/-- An AEAD whose ciphertexts hold their plaintexts. -/
structure SizedAead (P : Primitives) : Prop where
  length_le : ∀ {k n ct aad pt}, P.decryptCommitting k n ct aad = .ok pt → pt.length ≤ ct.length

/-- Key generation from seeds is injective, up to the encoding of the public
key. -/
structure InjectiveSeeds (P : Primitives) : Prop where
  seed_eq : ∀ {a b kp kp'}, P.generateFromSeed a = .ok kp → P.generateFromSeed b = .ok kp' →
    P.publicKeyToBytes (P.publicKey kp) = P.publicKeyToBytes (P.publicKey kp') → a = b

/-- A correct signature scheme: what a key pair signs, its public key
verifies. -/
structure CorrectSignature (P : Primitives) : Prop where
  verify_sign : ∀ {kp msg ctx coins sig}, P.signWithContext kp msg ctx coins = .ok sig →
    P.verifyWithContext (P.identityPublicKey kp) msg ctx sig = .ok ()

end Primitives

/-- What the protocol reads from a `HybridPreKeyBundle`: the KEM key of the
member's identity and the KEM key of its one-time key. -/
structure PreKeyBundle (P : Primitives) where
  identityKem : P.PublicKey
  oneTimeKem : P.PublicKey

end Trelis
