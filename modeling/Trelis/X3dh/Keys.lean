import Trelis.Hybrid.Signature
import Trelis.Lib.Rfc7748

/-!
# Keys of the handshake

The X448 keys (`x448.rs`), the sntrup761 keys and the hybrid KEM keys
(`kem.rs`), as far as the handshake uses them.

The curve library is a parameter, `MontgomeryCurve`.  So is the KEM,
`KemScheme`, up to the last hash of `encapsulate` and `decapsulate`: that hash
covers the ciphertext, and is what a shared secret says about the message that
carried it.  The laws stand below the functions.
-/

namespace Trelis.X3dh

open Hybrid

/-! ## Primitives -/

/-- `MontgomeryPoint` and `Scalar` of `ed448_goldilocks_plus`. -/
structure MontgomeryCurve where
  /-- `MontgomeryPoint::GENERATOR`. -/
  generator : FixedBytes 56
  /-- `&point * &Scalar::from_bytes(scalar)`, the scalar first. -/
  scalarMul : FixedBytes 56 → FixedBytes 56 → FixedBytes 56
  /-- `MontgomeryPoint::is_low_order`. -/
  isLowOrder : FixedBytes 56 → Bool

/-- sntrup761, up to the hash that makes the shared secret. -/
structure KemScheme where
  /-- `Sntrup761SecretKey`. -/
  SecretKey : Type
  /-- The random draw of one operation. -/
  Coins : Type
  /-- `Sntrup761SecretKey::generate`. -/
  generate : Coins → Result SecretKey
  /-- `Sntrup761SecretKey::public_key`. -/
  publicKey : SecretKey → FixedBytes 1158
  /-- The `r_hash` and the ciphertext of `Sntrup761PublicKey::encapsulate`. -/
  encrypt : FixedBytes 1158 → Coins → Result (Bytes32 × FixedBytes 1039)
  /-- What `Sntrup761SecretKey::decapsulate` selects: 1 and `r_hash`, or 0 and
  `rho_hash`. -/
  decrypt : SecretKey → FixedBytes 1039 → UInt8 × Bytes32
  /-- `Sha512`. -/
  sha512 : Bytes → FixedBytes 64

/-- The primitives of the handshake. -/
structure HandshakePrimitives extends SignaturePrimitives where
  /-- `blake3::hash`. -/
  hash : Bytes → Bytes32
  x448 : MontgomeryCurve
  sntrup : KemScheme

variable {P : HandshakePrimitives}

/-! ## X448 -/

/-- `X448Secret`.  Every constructor of the source clamps. -/
structure X448Secret where
  bytes : FixedBytes 56
  clamped : Rfc7748.clamp bytes = bytes

namespace MontgomeryCurve

variable (C : MontgomeryCurve)

/-- `X448Secret::public_key`. -/
def publicKey (secret : X448Secret) : FixedBytes 56 := C.scalarMul secret.bytes C.generator

/-- `X448Secret::diffie_hellman`. -/
def diffieHellman (secret : X448Secret) (theirPublic : FixedBytes 56) :
    Result (FixedBytes 56) :=
  if C.isLowOrder theirPublic then .error .decapsulationFailed
  else
    let sharedPoint := C.scalarMul secret.bytes theirPublic
    if sharedPoint = FixedBytes.zero 56 then .error .decapsulationFailed
    else .ok sharedPoint

/-- The curve computes X448: two parties get one shared point, a point of low
order is sent to zero, and two points that one secret does not tell apart are
told apart by none. -/
structure Rfc7748 : Prop where
  comm : ∀ a b : X448Secret,
    C.scalarMul a.bytes (C.publicKey b) = C.scalarMul b.bytes (C.publicKey a)
  lowOrder : ∀ (a : X448Secret) {u}, C.isLowOrder u = true →
    C.scalarMul a.bytes u = FixedBytes.zero 56
  indistinct : ∀ {a : X448Secret} {u u'}, C.scalarMul a.bytes u = C.scalarMul a.bytes u' →
    C.scalarMul a.bytes u ≠ FixedBytes.zero 56 →
      ∀ b : X448Secret, C.scalarMul b.bytes u = C.scalarMul b.bytes u'

variable {C}

theorem diffieHellman_eq_ok {secret : X448Secret} {u shared : FixedBytes 56} :
    C.diffieHellman secret u = .ok shared ↔
      C.isLowOrder u = false ∧ C.scalarMul secret.bytes u ≠ FixedBytes.zero 56 ∧
        C.scalarMul secret.bytes u = shared := by
  unfold diffieHellman
  by_cases hlow : C.isLowOrder u
  · simp [hlow]
  · by_cases hzero : C.scalarMul secret.bytes u = FixedBytes.zero 56
    · simp [hlow, hzero]
    · simp [hlow, hzero]

/-- What one party computes from the other's public key, the other computes
from its. -/
theorem diffieHellman_comm (h : C.Rfc7748) {a b : X448Secret} {shared : FixedBytes 56}
    (hab : C.diffieHellman a (C.publicKey b) = .ok shared) :
    C.diffieHellman b (C.publicKey a) = .ok shared := by
  obtain ⟨_, hne, hshared⟩ := diffieHellman_eq_ok.mp hab
  have hcomm := h.comm a b
  refine diffieHellman_eq_ok.mpr ⟨?_, hcomm ▸ hne, hcomm ▸ hshared⟩
  by_contra hlow
  rw [Bool.not_eq_false] at hlow
  exact hne (hcomm.trans (h.lowOrder b hlow))

end MontgomeryCurve

/-! ## sntrup761 -/

namespace KemScheme

variable (K : KemScheme)

/-- The bytes that `hash_session` hashes. -/
def sessionFrame (tag : UInt8) (rHash : Bytes32) (ciphertext : FixedBytes 1039) : Bytes :=
  tag :: (rHash.val ++ ciphertext.val)

/-- The first 32 bytes of a digest. -/
def shortHash (b : Bytes) : Bytes32 := ⟨(K.sha512 b).val.take 32, by simp⟩

/-- `hash_session`. -/
def hashSession (tag : UInt8) (rHash : Bytes32) (ciphertext : FixedBytes 1039) : Bytes32 :=
  K.shortHash (sessionFrame tag rHash ciphertext)

/-- `Sntrup761PublicKey::encapsulate`. -/
def encapsulate (pk : FixedBytes 1158) (coins : K.Coins) :
    Result (Bytes32 × FixedBytes 1039) := do
  let (rHash, ciphertext) ← K.encrypt pk coins
  pure (K.hashSession 1 rHash ciphertext, ciphertext)

/-- `Sntrup761SecretKey::decapsulate`. -/
def decapsulate (sk : K.SecretKey) (ciphertext : FixedBytes 1039) : Result Bytes32 :=
  let (tag, rHash) := K.decrypt sk ciphertext
  .ok (K.hashSession tag rHash ciphertext)

/-- What is encapsulated to a generated key is accepted by it, with the same
`r_hash`. -/
structure Correct : Prop where
  decrypt_encrypt : ∀ {coins sk coins' rHash ct}, K.generate coins = .ok sk →
    K.encrypt (K.publicKey sk) coins' = .ok (rHash, ct) → K.decrypt sk ct = (1, rHash)

theorem sessionFrame_inj {tag tag' : UInt8} {rHash rHash' : Bytes32}
    {ct ct' : FixedBytes 1039} (h : sessionFrame tag rHash ct = sessionFrame tag' rHash' ct') :
    tag = tag' ∧ rHash = rHash' ∧ ct = ct' := by
  obtain ⟨htag, hrest⟩ := List.cons.inj h
  obtain ⟨hhash, hct⟩ := List.append_inj hrest (by simp)
  exact ⟨htag, Subtype.ext hhash, Subtype.ext hct⟩

end KemScheme

/-! ## Hybrid KEM keys -/

/-- `HybridKemPublicKey`. -/
structure HybridKemPublicKey where
  x448 : FixedBytes 56
  sntrup : FixedBytes 1158
deriving DecidableEq

/-- `HybridKemPublicKey::to_bytes`. -/
def HybridKemPublicKey.toBytes (pk : HybridKemPublicKey) : FixedBytes 1214 :=
  ⟨pk.x448.val ++ pk.sntrup.val, by simp⟩

theorem HybridKemPublicKey.toBytes_inj {pk pk' : HybridKemPublicKey}
    (h : pk.toBytes = pk'.toBytes) : pk = pk' := by
  obtain ⟨hx448, hsntrup⟩ := List.append_inj (congrArg Subtype.val h) (by simp)
  cases pk
  cases pk'
  rw [HybridKemPublicKey.mk.injEq]
  exact ⟨Subtype.ext hx448, Subtype.ext hsntrup⟩

/-- `HybridKemKeypair`.  Every constructor of the source derives the public key
from the two secrets. -/
structure HybridKemKeypair (P : HandshakePrimitives) where
  publicKey : HybridKemPublicKey
  x448Secret : X448Secret
  sntrupSecret : P.sntrup.SecretKey
  publicKey_eq : publicKey = ⟨P.x448.publicKey x448Secret, P.sntrup.publicKey sntrupSecret⟩

theorem clamp_clamp (k : FixedBytes 56) :
    Rfc7748.clamp (Rfc7748.clamp k) = Rfc7748.clamp k := by
  have hand : ∀ b : UInt8, b &&& 0xFC &&& 0xFC = b &&& 0xFC := by
    intro b
    rw [UInt8.and_assoc]
    rfl
  have hor : ∀ b : UInt8, b ||| 0x80 ||| 0x80 = b ||| 0x80 := by
    intro b
    rw [UInt8.or_assoc]
    rfl
  apply Subtype.ext
  apply List.ext_getElem?
  intro i
  simp only [Rfc7748.clamp, List.getElem?_modify]
  by_cases h0 : i = 0
  · subst h0
    cases k.val[0]? <;> simp [hand]
  · by_cases h55 : i = 55
    · subst h55
      cases k.val[55]? <;> simp [hor]
    · simp [Ne.symm h0, Ne.symm h55]

namespace HybridKemKeypair

/-- `HybridKemKeypair::generate_inner`, with `X448Secret::generate` written
out: the bytes are drawn and clamped. -/
def generate (P : HandshakePrimitives) (x448 : Result (FixedBytes 56))
    (sntrup : P.sntrup.Coins) : Result (HybridKemKeypair P) := do
  let bytes ← x448
  let x448Secret : X448Secret := ⟨Rfc7748.clamp bytes, clamp_clamp bytes⟩
  let sntrupSecret ← P.sntrup.generate sntrup
  pure ⟨⟨P.x448.publicKey x448Secret, P.sntrup.publicKey sntrupSecret⟩, x448Secret,
    sntrupSecret, rfl⟩

variable (kp : HybridKemKeypair P)

/-- `HybridKemKeypair::x448_dh`. -/
def x448Dh (theirPublic : FixedBytes 56) : Result (FixedBytes 56) :=
  P.x448.diffieHellman kp.x448Secret theirPublic

/-- `HybridKemKeypair::sntrup_decapsulate`. -/
def sntrupDecapsulate (ciphertext : FixedBytes 1039) : Result Bytes32 :=
  P.sntrup.decapsulate kp.sntrupSecret ciphertext

variable {kp} in
/-- The two ends of a Diffie-Hellman exchange. -/
theorem x448Dh_comm (h : P.x448.Rfc7748) {kp' : HybridKemKeypair P} {shared : FixedBytes 56}
    (hdh : kp.x448Dh kp'.publicKey.x448 = .ok shared) :
    kp'.x448Dh kp.publicKey.x448 = .ok shared := by
  rw [kp'.publicKey_eq] at hdh
  rw [kp.publicKey_eq]
  exact MontgomeryCurve.diffieHellman_comm h hdh

end HybridKemKeypair

/-- `HybridKemPublicKey::sntrup_encapsulate`. -/
def HybridKemPublicKey.sntrupEncapsulate (P : HandshakePrimitives) (pk : HybridKemPublicKey)
    (coins : P.sntrup.Coins) : Result (Bytes32 × FixedBytes 1039) :=
  P.sntrup.encapsulate pk.sntrup coins

/-- `HybridIdentityPublicKey`. -/
structure HybridIdentityPublicKey (P : HandshakePrimitives) where
  signing : HybridSigningPublicKey P.toSignaturePrimitives
  kem : HybridKemPublicKey

/-- `HybridIdentityPublicKey::to_bytes`. -/
def HybridIdentityPublicKey.toBytes (pk : HybridIdentityPublicKey P) : Bytes :=
  pk.signing.toBytes.val ++ pk.kem.toBytes.val

theorem HybridIdentityPublicKey.length_toBytes (pk : HybridIdentityPublicKey P) :
    pk.toBytes.length = 3223 := by
  simp [toBytes]

/-- `HybridIdentityKeypair`. -/
structure HybridIdentityKeypair (P : HandshakePrimitives) where
  signing : HybridSigningKeypair P.toSignaturePrimitives
  kem : HybridKemKeypair P

end Trelis.X3dh
