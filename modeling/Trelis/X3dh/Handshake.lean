import Trelis.X3dh.Keys

/-!
# The X3DH-PQ handshake

The prekey bundle, the transcript, the session keys, and the two sides that
establish a session (the `trelis-x3dh-pq` crate).

The initiator verifies a bundle, draws an ephemeral key and encapsulates to the
one-time key of the bundle.  The responder works from the message that carries
the ephemeral key and the ciphertext; it verifies nothing, and takes the bundle
and both identities from its caller.
-/

namespace Trelis.X3dh

open Hybrid

variable {P : HandshakePrimitives}

/-! ## Prekey bundles -/

def bundleDomain : Bytes := ascii "trelis-prekey-bundle-v1"

/-- `PreKeyBundle`. -/
structure PreKeyBundle (P : HandshakePrimitives) where
  identitySigning : HybridSigningPublicKey P.toSignaturePrimitives
  identityKem : HybridKemPublicKey
  oneTimeKey : HybridKemPublicKey
  otkKeyId : UInt64
  timestamp : UInt64
  expiration : UInt64

/-- `PreKeyBundle::signing_data`. -/
def PreKeyBundle.signingData (b : PreKeyBundle P) : Bytes :=
  bundleDomain ++ b.identitySigning.toBytes.val ++ b.identityKem.toBytes.val ++
    b.oneTimeKey.toBytes.val ++ leBytes 8 b.otkKeyId.toNat ++ leBytes 8 b.timestamp.toNat ++
    leBytes 8 b.expiration.toNat

/-- `SignedPreKeyBundle`. -/
structure SignedPreKeyBundle (P : HandshakePrimitives) where
  bundle : PreKeyBundle P
  signature : HybridSignature P.toSignaturePrimitives

/-- `PreKeyBundle::sign`. -/
def PreKeyBundle.sign (b : PreKeyBundle P) (keypair : HybridSigningKeypair P.toSignaturePrimitives)
    (coins : SigningCoins P.toSignaturePrimitives) : Result (SignedPreKeyBundle P) := do
  let signature ← keypair.sign b.signingData coins
  pure ⟨b, signature⟩

namespace SignedPreKeyBundle

/-- `SignedPreKeyBundle::verify`. -/
def verify (b : SignedPreKeyBundle P) : Result Unit :=
  match b.bundle.identitySigning.verify b.bundle.signingData b.signature with
  | .ok () => .ok ()
  | .error _ => .error .invalidBundleSignature

theorem verify_eq_ok {b : SignedPreKeyBundle P} : b.verify = .ok () ↔
    b.bundle.identitySigning.verify b.bundle.signingData b.signature = .ok () := by
  unfold verify
  split
  · next h => simp [h]
  · next h => simp [h]

/-- `SignedPreKeyBundle::validate_timestamps`. -/
def validateTimestamps (b : SignedPreKeyBundle P) (now : UInt64) : Result Unit :=
  if b.bundle.timestamp > now then .error .bundleTimestampInFuture
  else if b.bundle.expiration < now then .error .bundleExpired
  else .ok ()

end SignedPreKeyBundle

/-! ## The transcript -/

def sessionV2Context : String := "trelis-session-v2"
def protocolVersion : UInt8 := 1
def cipherSuite : UInt8 := 1

/-- `SessionFlags`. -/
structure SessionFlags where
  liCapable : Bool
deriving DecidableEq

/-- `SessionFlags::to_transcript_bytes`. -/
def SessionFlags.toTranscriptBytes (flags : SessionFlags) : Bytes :=
  [if flags.liCapable then 1 else 0]

/-- `Transcript`. -/
structure Transcript where
  aliceIdentityHash : Bytes32
  bobIdentityHash : Bytes32
  bundleHash : Bytes32
  dh1 : FixedBytes 56
  dh2 : FixedBytes 56
  dh3 : FixedBytes 56
  pqSs : Bytes32
  flags : SessionFlags
deriving DecidableEq

/-- `hash_identity`. -/
def hashIdentity (identity : HybridSigningPublicKey P.toSignaturePrimitives) : Bytes32 :=
  P.hash identity.toBytes.val

/-- `hash_bundle`. -/
def hashBundle (b : SignedPreKeyBundle P) : Bytes32 := P.hash b.bundle.signingData

namespace Transcript

/-- `Transcript::new`. -/
def new (aliceIdentity bobIdentity : HybridSigningPublicKey P.toSignaturePrimitives)
    (bundle : SignedPreKeyBundle P) (dh1 dh2 dh3 : FixedBytes 56) (pqSs : Bytes32)
    (flags : SessionFlags) : Transcript where
  aliceIdentityHash := hashIdentity aliceIdentity
  bobIdentityHash := hashIdentity bobIdentity
  bundleHash := hashBundle bundle
  dh1 := dh1
  dh2 := dh2
  dh3 := dh3
  pqSs := pqSs
  flags := flags

/-- `Transcript::to_bytes`. -/
def toBytes (t : Transcript) : Bytes :=
  t.aliceIdentityHash.val ++ t.bobIdentityHash.val ++ t.bundleHash.val ++ t.dh1.val ++
    t.dh2.val ++ t.dh3.val ++ t.pqSs.val ++ [protocolVersion] ++ [cipherSuite] ++
    t.flags.toTranscriptBytes

/-- `Transcript::derive_shared_secret`. -/
def deriveSharedSecret (P : HandshakePrimitives) (t : Transcript) : Bytes32 :=
  P.deriveKey sessionV2Context t.toBytes

theorem toBytes_inj {t t' : Transcript} (h : t.toBytes = t'.toBytes) : t = t' := by
  unfold toBytes at h
  obtain ⟨h, hflags⟩ := List.append_inj' h rfl
  obtain ⟨h, _⟩ := List.append_inj' h rfl
  obtain ⟨h, _⟩ := List.append_inj' h rfl
  obtain ⟨h, hpq⟩ := List.append_inj' h (by simp)
  obtain ⟨h, hdh3⟩ := List.append_inj' h (by simp)
  obtain ⟨h, hdh2⟩ := List.append_inj' h (by simp)
  obtain ⟨h, hdh1⟩ := List.append_inj' h (by simp)
  obtain ⟨h, hbundle⟩ := List.append_inj' h (by simp)
  obtain ⟨halice, hbob⟩ := List.append_inj' h (by simp)
  have hbit : t.flags = t'.flags := by
    revert hflags
    cases t.flags with
    | mk b =>
      cases t'.flags with
      | mk b' => cases b <;> cases b' <;> decide
  cases t
  cases t'
  simp only [mk.injEq]
  exact ⟨Subtype.ext halice, Subtype.ext hbob, Subtype.ext hbundle, Subtype.ext hdh1,
    Subtype.ext hdh2, Subtype.ext hdh3, Subtype.ext hpq, hbit⟩

end Transcript

/-! ## Session keys -/

def rootKeyContext : String := "trelis-session-root-v1"
def sendChainContext : String := "trelis-session-send-v1"
def recvChainContext : String := "trelis-session-recv-v1"

/-- `SessionKeys`. -/
structure SessionKeys where
  rootKey : Bytes32
  sendChainKey : Bytes32
  recvChainKey : Bytes32
deriving DecidableEq

namespace SessionKeys

/-- `SessionKeys::derive`. -/
def derive (P : HandshakePrimitives) (sharedSecret : Bytes32) : SessionKeys where
  rootKey := P.deriveKey rootKeyContext sharedSecret.val
  sendChainKey := P.deriveKey sendChainContext sharedSecret.val
  recvChainKey := P.deriveKey recvChainContext sharedSecret.val

/-- `SessionKeys::swap_directions`. -/
def swapDirections (k : SessionKeys) : SessionKeys where
  rootKey := k.rootKey
  sendChainKey := k.recvChainKey
  recvChainKey := k.sendChainKey

end SessionKeys

/-! ## The initiator -/

/-- `InitialMessage`. -/
structure InitialMessage where
  ephemeralPublic : FixedBytes 56
  pqCiphertext : FixedBytes 1039
deriving DecidableEq

/-- `InitialMessage::to_bytes`. -/
def InitialMessage.toBytes (m : InitialMessage) : Bytes :=
  m.ephemeralPublic.val ++ m.pqCiphertext.val

/-- `InitiatorResult`. -/
structure InitiatorResult where
  sessionKeys : SessionKeys
  initialMessage : InitialMessage

/-- The random draws of an initiator. -/
structure InitiatorDraws (P : HandshakePrimitives) where
  ephemeralX448 : Result (FixedBytes 56)
  ephemeralSntrup : P.sntrup.Coins
  encapsulation : P.sntrup.Coins

/-- `Initiator::establish`. -/
def Initiator.establish (ourIdentity : HybridIdentityKeypair P)
    (theirBundle : SignedPreKeyBundle P) (currentTime : UInt64) (flags : SessionFlags)
    (draws : InitiatorDraws P) : Result InitiatorResult := do
  theirBundle.verify
  theirBundle.validateTimestamps currentTime
  let ephemeral ← HybridKemKeypair.generate P draws.ephemeralX448 draws.ephemeralSntrup
  let dh1 ← ourIdentity.kem.x448Dh theirBundle.bundle.oneTimeKey.x448
  let dh2 ← ephemeral.x448Dh theirBundle.bundle.identityKem.x448
  let dh3 ← ephemeral.x448Dh theirBundle.bundle.oneTimeKey.x448
  let (pqSs, pqCt) ← theirBundle.bundle.oneTimeKey.sntrupEncapsulate P draws.encapsulation
  let transcript := Transcript.new ourIdentity.signing.publicKey
    theirBundle.bundle.identitySigning theirBundle dh1 dh2 dh3 pqSs flags
  let sharedSecret := transcript.deriveSharedSecret P
  let sessionKeys := SessionKeys.derive P sharedSecret
  pure ⟨sessionKeys, ⟨ephemeral.publicKey.x448, pqCt⟩⟩

/-! ## The responder -/

/-- `Responder::establish`. -/
def Responder.establish (ourIdentity : HybridIdentityKeypair P) (ourOtk : HybridKemKeypair P)
    (theirIdentitySigning : HybridSigningPublicKey P.toSignaturePrimitives)
    (theirIdentityKemX448 : FixedBytes 56) (ourBundle : SignedPreKeyBundle P)
    (initialMessage : InitialMessage) (flags : SessionFlags) : Result SessionKeys := do
  let theirEphemeral := initialMessage.ephemeralPublic
  let pqCiphertext := initialMessage.pqCiphertext
  let dh1 ← ourOtk.x448Dh theirIdentityKemX448
  let dh2 ← ourIdentity.kem.x448Dh theirEphemeral
  let dh3 ← ourOtk.x448Dh theirEphemeral
  let pqSs ← ourOtk.sntrupDecapsulate pqCiphertext
  let transcript := Transcript.new theirIdentitySigning ourIdentity.signing.publicKey ourBundle
    dh1 dh2 dh3 pqSs flags
  let sharedSecret := transcript.deriveSharedSecret P
  pure (SessionKeys.derive P sharedSecret).swapDirections

end Trelis.X3dh
