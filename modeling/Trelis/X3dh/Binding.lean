import Trelis.X3dh.Handshake

/-!
# Agreement and transcript binding

What a root key says about the handshake it comes from.

`responder_agrees` is the agreement of one handshake: the responder gets the
keys of the initiator, with the directions swapped.  `sameHandshake_of_rootKey`
is the converse over any two establishments, of either side: with no collision
among the values that they hash, one root key comes from one handshake.

The ephemeral key itself is not part of the transcript.  What binds it are the
shared points that X448 computes from it, and X448 does not tell every two byte
strings apart.
-/

namespace Trelis.X3dh

open Hybrid

variable {P : HandshakePrimitives}

/-! ## Agreement -/

/-- The bundle publishes the identity of its owner and the one-time key. -/
structure PreKeyBundle.Publishes (b : PreKeyBundle P) (owner : HybridIdentityKeypair P)
    (otk : HybridKemKeypair P) : Prop where
  identitySigning_eq : b.identitySigning = owner.signing.publicKey
  identityKem_eq : b.identityKem = owner.kem.publicKey
  oneTimeKey_eq : b.oneTimeKey = otk.publicKey

/-- The responder to an initiator's message gets the same keys, with the
directions swapped. -/
theorem responder_agrees (hdh : P.x448.Rfc7748) (hkem : P.sntrup.Correct)
    {alice bob : HybridIdentityKeypair P} {otk : HybridKemKeypair P}
    {otkCoins : P.sntrup.Coins} {signed : SignedPreKeyBundle P} {now : UInt64}
    {flags : SessionFlags} {draws : InitiatorDraws P} {result : InitiatorResult}
    (hotk : P.sntrup.generate otkCoins = .ok otk.sntrupSecret)
    (hpublishes : signed.bundle.Publishes bob otk)
    (h : Initiator.establish alice signed now flags draws = .ok result) :
    Responder.establish bob otk alice.signing.publicKey alice.kem.publicKey.x448 signed
      result.initialMessage flags = .ok result.sessionKeys.swapDirections := by
  simp only [Initiator.establish, HybridKemPublicKey.sntrupEncapsulate, KemScheme.encapsulate,
    Except.bind_eq_ok, Except.pure_eq_ok] at h
  obtain ⟨_, _, _, _, ephemeral, _, dh1, hdh1, dh2, hdh2, dh3, hdh3, _,
    ⟨⟨rHash, ct⟩, hencrypt, rfl⟩, rfl⟩ := h
  rw [hpublishes.oneTimeKey_eq] at hdh1 hdh3 hencrypt
  rw [hpublishes.identityKem_eq] at hdh2
  have hdecrypt : P.sntrup.decrypt otk.sntrupSecret ct = (1, rHash) := by
    rw [otk.publicKey_eq] at hencrypt
    exact hkem.decrypt_encrypt hotk hencrypt
  simp only [Responder.establish, HybridKemKeypair.sntrupDecapsulate, KemScheme.decapsulate,
    HybridKemKeypair.x448Dh_comm hdh hdh1, HybridKemKeypair.x448Dh_comm hdh hdh2,
    HybridKemKeypair.x448Dh_comm hdh hdh3, hdecrypt, hpublishes.identitySigning_eq]
  rfl

/-! ## Establishments -/

/-- A call that establishes a session, on either side. -/
inductive Establishment (P : HandshakePrimitives) where
  | initiator (ourIdentity : HybridIdentityKeypair P) (theirBundle : SignedPreKeyBundle P)
      (currentTime : UInt64) (flags : SessionFlags) (draws : InitiatorDraws P)
  | responder (ourIdentity : HybridIdentityKeypair P) (ourOtk : HybridKemKeypair P)
      (theirIdentitySigning : HybridSigningPublicKey P.toSignaturePrimitives)
      (theirIdentityKemX448 : FixedBytes 56) (ourBundle : SignedPreKeyBundle P)
      (initialMessage : InitialMessage) (flags : SessionFlags)

/-- What an establishment puts into its transcript, the shared secret of the KEM
by what it is the hash of. -/
structure Handshake (P : HandshakePrimitives) where
  initiator : HybridSigningPublicKey P.toSignaturePrimitives
  responder : HybridSigningPublicKey P.toSignaturePrimitives
  bundle : SignedPreKeyBundle P
  flags : SessionFlags
  dh1 : FixedBytes 56
  dh2 : FixedBytes 56
  dh3 : FixedBytes 56
  tag : UInt8
  rHash : Bytes32
  message : InitialMessage

namespace Handshake

variable (h : Handshake P)

def pqSs : Bytes32 := P.sntrup.hashSession h.tag h.rHash h.message.pqCiphertext

def transcript : Transcript :=
  Transcript.new h.initiator h.responder h.bundle h.dh1 h.dh2 h.dh3 h.pqSs h.flags

def sharedSecret : Bytes32 := h.transcript.deriveSharedSecret P

def sessionKeys : SessionKeys := SessionKeys.derive P h.sharedSecret

end Handshake

namespace Establishment

/-- The call itself, with the message that it sends or has received. -/
def run : Establishment P → Result (SessionKeys × InitialMessage)
  | initiator ourIdentity theirBundle currentTime flags draws => do
    let result ← Initiator.establish ourIdentity theirBundle currentTime flags draws
    pure (result.sessionKeys, result.initialMessage)
  | responder ourIdentity ourOtk theirIdentitySigning theirIdentityKemX448 ourBundle
      initialMessage flags => do
    let keys ← Responder.establish ourIdentity ourOtk theirIdentitySigning theirIdentityKemX448
      ourBundle initialMessage flags
    pure (keys, initialMessage)

/-- The initiator's identity key. -/
def initiatorIdentity : Establishment P → HybridSigningPublicKey P.toSignaturePrimitives
  | initiator ourIdentity _ _ _ _ => ourIdentity.signing.publicKey
  | responder _ _ theirIdentitySigning _ _ _ _ => theirIdentitySigning

/-- The responder's identity key. -/
def responderIdentity : Establishment P → HybridSigningPublicKey P.toSignaturePrimitives
  | initiator _ theirBundle _ _ _ => theirBundle.bundle.identitySigning
  | responder ourIdentity _ _ _ _ _ _ => ourIdentity.signing.publicKey

def bundle : Establishment P → SignedPreKeyBundle P
  | initiator _ theirBundle _ _ _ => theirBundle
  | responder _ _ _ _ ourBundle _ _ => ourBundle

def flags : Establishment P → SessionFlags
  | initiator _ _ _ flags _ => flags
  | responder _ _ _ _ _ _ flags => flags

/-- The one-time secret of a responder. -/
def oneTimeSecret : Establishment P → Option X448Secret
  | initiator .. => none
  | responder _ ourOtk _ _ _ _ _ => some ourOtk.x448Secret

/-- The handshake that the call computes. -/
def handshake : Establishment P → Result (Handshake P)
  | initiator ourIdentity theirBundle currentTime flags draws => do
    theirBundle.verify
    theirBundle.validateTimestamps currentTime
    let ephemeral ← HybridKemKeypair.generate P draws.ephemeralX448 draws.ephemeralSntrup
    let dh1 ← ourIdentity.kem.x448Dh theirBundle.bundle.oneTimeKey.x448
    let dh2 ← ephemeral.x448Dh theirBundle.bundle.identityKem.x448
    let dh3 ← ephemeral.x448Dh theirBundle.bundle.oneTimeKey.x448
    let (rHash, ct) ← P.sntrup.encrypt theirBundle.bundle.oneTimeKey.sntrup draws.encapsulation
    pure ⟨ourIdentity.signing.publicKey, theirBundle.bundle.identitySigning, theirBundle, flags,
      dh1, dh2, dh3, 1, rHash, ⟨ephemeral.publicKey.x448, ct⟩⟩
  | responder ourIdentity ourOtk theirIdentitySigning theirIdentityKemX448 ourBundle
      initialMessage flags => do
    let dh1 ← ourOtk.x448Dh theirIdentityKemX448
    let dh2 ← ourIdentity.kem.x448Dh initialMessage.ephemeralPublic
    let dh3 ← ourOtk.x448Dh initialMessage.ephemeralPublic
    let (tag, rHash) := P.sntrup.decrypt ourOtk.sntrupSecret initialMessage.pqCiphertext
    pure ⟨theirIdentitySigning, ourIdentity.signing.publicKey, ourBundle, flags, dh1, dh2, dh3,
      tag, rHash, initialMessage⟩

/-- The three shared points of the call. -/
def sharedPoints (e : Establishment P) : Result (FixedBytes 56 × FixedBytes 56 × FixedBytes 56) :=
  do
    let h ← e.handshake
    pure (h.dh1, h.dh2, h.dh3)

/-- A call takes what it puts into its transcript from its arguments. -/
structure Computes (e : Establishment P) (h : Handshake P) : Prop where
  initiator_eq : h.initiator = e.initiatorIdentity
  responder_eq : h.responder = e.responderIdentity
  bundle_eq : h.bundle = e.bundle
  flags_eq : h.flags = e.flags
  dh3_eq : ∀ otk, e.oneTimeSecret = some otk →
    P.x448.diffieHellman otk h.message.ephemeralPublic = .ok h.dh3

/-- A call that succeeds has computed a handshake: its root key and its message
are the handshake's. -/
theorem run_eq_ok {e : Establishment P} {keys : SessionKeys} {message : InitialMessage}
    (hrun : e.run = .ok (keys, message)) :
    ∃ h, e.handshake = .ok h ∧ e.Computes h ∧ keys.rootKey = h.sessionKeys.rootKey ∧
      message = h.message := by
  cases e with
  | initiator ourIdentity theirBundle currentTime flags draws =>
    simp only [run, Initiator.establish, HybridKemPublicKey.sntrupEncapsulate,
      KemScheme.encapsulate, Except.bind_eq_ok, Except.pure_eq_ok, Prod.mk.injEq] at hrun
    obtain ⟨_, ⟨_, hverify, _, htime, ephemeral, hgenerate, dh1, hdh1, dh2, hdh2, dh3, hdh3, _,
      ⟨⟨rHash, ct⟩, hencrypt, rfl⟩, rfl⟩, rfl, rfl⟩ := hrun
    have hhandshake : (initiator ourIdentity theirBundle currentTime flags draws).handshake =
        .ok ⟨ourIdentity.signing.publicKey, theirBundle.bundle.identitySigning, theirBundle, flags,
          dh1, dh2, dh3, 1, rHash, ⟨ephemeral.publicKey.x448, ct⟩⟩ := by
      simp only [handshake, Except.bind_eq_ok]
      exact ⟨_, hverify, _, htime, ephemeral, hgenerate, dh1, hdh1, dh2, hdh2, dh3, hdh3,
        (rHash, ct), hencrypt, rfl⟩
    refine ⟨_, hhandshake, ⟨rfl, rfl, rfl, rfl, ?_⟩, rfl, rfl⟩
    intro _ hotk
    exact absurd hotk.symm (Option.some_ne_none _)
  | responder ourIdentity ourOtk theirIdentitySigning theirIdentityKemX448 ourBundle
      initialMessage flags =>
    simp only [run, Responder.establish, HybridKemKeypair.sntrupDecapsulate,
      KemScheme.decapsulate, Except.bind_eq_ok, Except.pure_eq_ok, Prod.mk.injEq,
      Except.ok.injEq] at hrun
    obtain ⟨_, ⟨dh1, hdh1, dh2, hdh2, dh3, hdh3, _, rfl, rfl⟩, rfl, rfl⟩ := hrun
    have hhandshake : (responder ourIdentity ourOtk theirIdentitySigning theirIdentityKemX448
          ourBundle initialMessage flags).handshake =
        .ok ⟨theirIdentitySigning, ourIdentity.signing.publicKey, ourBundle, flags, dh1, dh2, dh3,
          (P.sntrup.decrypt ourOtk.sntrupSecret initialMessage.pqCiphertext).1,
          (P.sntrup.decrypt ourOtk.sntrupSecret initialMessage.pqCiphertext).2,
          initialMessage⟩ := by
      simp only [handshake, Except.bind_eq_ok]
      exact ⟨dh1, hdh1, dh2, hdh2, dh3, hdh3, rfl⟩
    refine ⟨_, hhandshake, ⟨rfl, rfl, rfl, rfl, ?_⟩, rfl, rfl⟩
    intro otk hotk
    rw [oneTimeSecret, Option.some.injEq] at hotk
    rw [← hotk]
    exact hdh3

end Establishment

/-! ## Binding -/

namespace Handshake

variable (h : Handshake P)

/-- The inputs of `blake3::hash`. -/
def hashInputs : List Bytes :=
  [h.initiator.toBytes.val, h.responder.toBytes.val, h.bundle.bundle.signingData]

/-- The inputs of `blake3::derive_key`, on the way to the root key. -/
def deriveKeyInputs : List (String × Bytes) :=
  [(sessionV2Context, h.transcript.toBytes), (rootKeyContext, h.sharedSecret.val)]

/-- What `hash_session` hashes. -/
def sessionInput : Bytes := KemScheme.sessionFrame h.tag h.rHash h.message.pqCiphertext

/-- No two values that the two handshakes hash collide. -/
structure CollisionFree (h h' : Handshake P) : Prop where
  hash : Set.InjOn P.hash {b | b ∈ h.hashInputs ++ h'.hashInputs}
  deriveKey : Set.InjOn (fun input => P.deriveKey input.1 input.2)
    {input | input ∈ h.deriveKeyInputs ++ h'.deriveKeyInputs}
  session : Set.InjOn P.sntrup.shortHash {b | b ∈ [h.sessionInput, h'.sessionInput]}

variable {h}

/-- One root key has one transcript. -/
theorem transcript_eq_of_rootKey {h' : Handshake P} (hfree : h.CollisionFree h')
    (hroot : h.sessionKeys.rootKey = h'.sessionKeys.rootKey) : h.transcript = h'.transcript := by
  have hsecret := hfree.deriveKey
    (show (rootKeyContext, h.sharedSecret.val) ∈ _ by simp [deriveKeyInputs])
    (show (rootKeyContext, h'.sharedSecret.val) ∈ _ by simp [deriveKeyInputs]) hroot
  have hbytes := hfree.deriveKey
    (show (sessionV2Context, h.transcript.toBytes) ∈ _ by simp [deriveKeyInputs])
    (show (sessionV2Context, h'.transcript.toBytes) ∈ _ by simp [deriveKeyInputs])
    (Subtype.ext (Prod.mk.inj hsecret).2)
  exact Transcript.toBytes_inj (Prod.mk.inj hbytes).2

end Handshake

/-- The verifying key of an identity has one encoding. -/
theorem signingPublicKey_toBytes_inj (hkeys : Function.Injective P.verifyingKeyToBytes)
    {vk vk' : HybridSigningPublicKey P.toSignaturePrimitives}
    (h : vk.toBytes.val = vk'.toBytes.val) : vk = vk' := by
  obtain ⟨hed448, hmldsa⟩ := List.append_inj h (by simp)
  rcases vk with ⟨⟨inner⟩, mldsa⟩
  rcases vk' with ⟨⟨inner'⟩, mldsa'⟩
  rw [show inner = inner' from Subtype.ext hed448,
    show mldsa = mldsa' from hkeys (Subtype.ext hmldsa)]

/-- The public keys of an identity have one encoding. -/
theorem HybridIdentityPublicKey.toBytes_inj (hkeys : Function.Injective P.verifyingKeyToBytes)
    {pk pk' : HybridIdentityPublicKey P} (h : pk.toBytes = pk'.toBytes) : pk = pk' := by
  obtain ⟨hsigning, hkem⟩ := List.append_inj h (by simp)
  cases pk
  cases pk'
  rw [mk.injEq]
  exact ⟨signingPublicKey_toBytes_inj hkeys hsigning,
    HybridKemPublicKey.toBytes_inj (Subtype.ext hkem)⟩

/-- Two establishments of one handshake: the same identities, bundle contents,
flags and shared points, and messages with one ciphertext.  Under one one-time
secret, the ephemeral keys are the same to X448. -/
structure SameHandshake (e e' : Establishment P) (m m' : InitialMessage) : Prop where
  initiatorIdentity : e.initiatorIdentity = e'.initiatorIdentity
  responderIdentity : e.responderIdentity = e'.responderIdentity
  signingData : e.bundle.bundle.signingData = e'.bundle.bundle.signingData
  flags : e.flags = e'.flags
  sharedPoints : e.sharedPoints = e'.sharedPoints
  pqCiphertext : m.pqCiphertext = m'.pqCiphertext
  ephemeral : ∀ otk, e.oneTimeSecret = some otk → e'.oneTimeSecret = some otk →
    ∀ secret : X448Secret, P.x448.scalarMul secret.bytes m.ephemeralPublic =
      P.x448.scalarMul secret.bytes m'.ephemeralPublic

/-- The hashes of two establishments do not collide. -/
def CollisionFree (e e' : Establishment P) : Prop :=
  ∀ h h', e.handshake = .ok h → e'.handshake = .ok h' → h.CollisionFree h'

/-- One root key comes from one handshake. -/
theorem sameHandshake_of_rootKey (hdh : P.x448.Rfc7748)
    (hkeys : Function.Injective P.verifyingKeyToBytes) {e e' : Establishment P}
    {keys keys' : SessionKeys} {m m' : InitialMessage} (hrun : e.run = .ok (keys, m))
    (hrun' : e'.run = .ok (keys', m')) (hfree : CollisionFree e e')
    (hroot : keys.rootKey = keys'.rootKey) : SameHandshake e e' m m' := by
  obtain ⟨h, hh, hcomputes, hkey, rfl⟩ := Establishment.run_eq_ok hrun
  obtain ⟨h', hh', hcomputes', hkey', rfl⟩ := Establishment.run_eq_ok hrun'
  have hfree := hfree h h' hh hh'
  have htranscript := Handshake.transcript_eq_of_rootKey hfree (hkey ▸ hkey' ▸ hroot)
  simp only [Handshake.transcript, Transcript.new, Transcript.mk.injEq] at htranscript
  obtain ⟨halice, hbob, hbundle, hdh1, hdh2, hdh3, hpq, hflags⟩ := htranscript
  have hsession := hfree.session (show h.sessionInput ∈ _ by simp)
    (show h'.sessionInput ∈ _ by simp) hpq
  obtain ⟨_, _, hct⟩ := KemScheme.sessionFrame_inj hsession
  have halice := hfree.hash (show h.initiator.toBytes.val ∈ _ by simp [Handshake.hashInputs])
    (show h'.initiator.toBytes.val ∈ _ by simp [Handshake.hashInputs]) halice
  have hbob := hfree.hash (show h.responder.toBytes.val ∈ _ by simp [Handshake.hashInputs])
    (show h'.responder.toBytes.val ∈ _ by simp [Handshake.hashInputs]) hbob
  have hbundle := hfree.hash
    (show h.bundle.bundle.signingData ∈ _ by simp [Handshake.hashInputs])
    (show h'.bundle.bundle.signingData ∈ _ by simp [Handshake.hashInputs]) hbundle
  refine ⟨?_, ?_, ?_, ?_, ?_, hct, ?_⟩
  · rw [← hcomputes.initiator_eq, ← hcomputes'.initiator_eq]
    exact signingPublicKey_toBytes_inj hkeys halice
  · rw [← hcomputes.responder_eq, ← hcomputes'.responder_eq]
    exact signingPublicKey_toBytes_inj hkeys hbob
  · rw [← hcomputes.bundle_eq, ← hcomputes'.bundle_eq]
    exact hbundle
  · rw [← hcomputes.flags_eq, ← hcomputes'.flags_eq]
    exact hflags
  · rw [Establishment.sharedPoints, Establishment.sharedPoints, hh, hh']
    show Except.ok (h.dh1, h.dh2, h.dh3) = Except.ok (h'.dh1, h'.dh2, h'.dh3)
    rw [hdh1, hdh2, hdh3]
  · intro otk hotk hotk'
    obtain ⟨_, hne, hpoint⟩ := MontgomeryCurve.diffieHellman_eq_ok.mp (hcomputes.dh3_eq otk hotk)
    obtain ⟨_, _, hpoint'⟩ := MontgomeryCurve.diffieHellman_eq_ok.mp (hcomputes'.dh3_eq otk hotk')
    exact hdh.indistinct (hpoint.trans (hdh3.trans hpoint'.symm)) hne

end Trelis.X3dh
