import Trelis.X3dh.Sample

/-!
# One root key, one handshake

The two halves of what the handshake promises, over every initiator, bundle and
time, and over any two establishments: both sides of a handshake get the same
keys, and two sessions with one root key come from one handshake.

The second half stops short of the bytes of the ephemeral key.  A responder
that receives the base point of X448, and then the same coordinate with the
field prime added to it, gets one root key twice.
-/

namespace Trelis.X3dh

open Hybrid

variable {P : HandshakePrimitives}

/-- The responder to an initiator's message gets the initiator's keys, swapped.
Two establishments with one root key, and no collision among what they hash,
are of one handshake. -/
theorem establish_agrees_and_binds (hdh : P.x448.Rfc7748) (hkem : P.sntrup.Correct)
    (hkeys : Function.Injective P.verifyingKeyToBytes) :
    (∀ (alice bob : HybridIdentityKeypair P) (otk : HybridKemKeypair P)
        (otkCoins : P.sntrup.Coins) (signed : SignedPreKeyBundle P) (now : UInt64)
        (flags : SessionFlags) (draws : InitiatorDraws P) (result : InitiatorResult),
      P.sntrup.generate otkCoins = .ok otk.sntrupSecret → signed.bundle.Publishes bob otk →
      Initiator.establish alice signed now flags draws = .ok result →
        Responder.establish bob otk alice.signing.publicKey alice.kem.publicKey.x448 signed
          result.initialMessage flags = .ok result.sessionKeys.swapDirections) ∧
    ∀ (e e' : Establishment P) (keys keys' : SessionKeys) (m m' : InitialMessage),
      e.run = .ok (keys, m) → e'.run = .ok (keys', m') → CollisionFree e e' →
      keys.rootKey = keys'.rootKey → SameHandshake e e' m m' := by
  constructor
  · intro alice bob otk otkCoins signed now flags draws result hotk hpublishes h
    exact responder_agrees hdh hkem hotk hpublishes h
  · intro e e' keys keys' m m' hrun hrun' hfree hroot
    exact sameHandshake_of_rootKey hdh hkeys hrun hrun' hfree hroot

/-! ## A run on X448 -/

/-- The secret whose scalar is `2 ^ 447`. -/
def topSecret : X448Secret := ⟨Rfc7748.clamp (FixedBytes.zero 56), clamp_clamp _⟩

/-- A KEM key pair with that secret. -/
def topKem (C : MontgomeryCurve) : HybridKemKeypair (samplePrimitives C) :=
  ⟨_, topSecret, filled 1158 7, rfl⟩

/-- An identity whose signing secrets are filled with `b`. -/
def sampleIdentity (C : MontgomeryCurve) (b : UInt8) : HybridIdentityKeypair (samplePrimitives C) :=
  ⟨sampleKeypair b, topKem C⟩

/-- The bundle of the second identity. -/
def sampleBundle {C : MontgomeryCurve} (otk : HybridKemKeypair (samplePrimitives C)) :
    PreKeyBundle (samplePrimitives C) where
  identitySigning := (sampleIdentity C 2).signing.publicKey
  identityKem := (sampleIdentity C 2).kem.publicKey
  oneTimeKey := otk.publicKey
  otkKeyId := 1
  timestamp := 1000
  expiration := 2000

/-- The bundle beside a signature, which a responder does not verify. -/
def bundleInHand (C : MontgomeryCurve) : SignedPreKeyBundle (samplePrimitives C) :=
  ⟨sampleBundle (topKem C), ⟨⟨filled 57 0⟩, filled 3309 0⟩⟩

/-- The base point. -/
def basePoint : FixedBytes 56 := Rfc7748.encodeUCoordinate 5

/-- The base point again, with its coordinate not reduced. -/
def unreducedBasePoint : FixedBytes 56 := Rfc7748.encodeUCoordinate (5 + Rfc7748.p)

/-- A message that carries a point. -/
def messageOf (point : FixedBytes 56) : InitialMessage := ⟨point, filled 1039 9⟩

/-- The second identity receives the message. -/
def receive (point : FixedBytes 56) : Establishment (samplePrimitives rfc7748Curve) :=
  .responder (sampleIdentity rfc7748Curve 2) (topKem rfc7748Curve)
    (sampleIdentity rfc7748Curve 1).signing.publicKey basePoint (bundleInHand rfc7748Curve)
    (messageOf point) ⟨false⟩

/-- What X448 makes of the base point. -/
def topPoint : FixedBytes 56 := Rfc7748.x448 topSecret.bytes basePoint

/-- No point of the run is refused, and the two messages carry one point as
bytes that are not the same. -/
theorem basePoint_checks :
    rfc7748Curve.isLowOrder basePoint = false ∧
    rfc7748Curve.isLowOrder unreducedBasePoint = false ∧
    topPoint ≠ FixedBytes.zero 56 ∧
    Rfc7748.decodeUCoordinate unreducedBasePoint = Rfc7748.decodeUCoordinate basePoint ∧
    (messageOf basePoint).toBytes ≠ (messageOf unreducedBasePoint).toBytes := by
  decide +kernel

/-- The handshake of the run. -/
def received (point : FixedBytes 56) : Handshake (samplePrimitives rfc7748Curve) where
  initiator := (sampleIdentity rfc7748Curve 1).signing.publicKey
  responder := (sampleIdentity rfc7748Curve 2).signing.publicKey
  bundle := bundleInHand rfc7748Curve
  flags := ⟨false⟩
  dh1 := topPoint
  dh2 := topPoint
  dh3 := topPoint
  tag := 0
  rHash := zero32
  message := messageOf point

theorem dh_basePoint : rfc7748Curve.diffieHellman topSecret basePoint = .ok topPoint := by
  obtain ⟨horder, _, hne, _⟩ := basePoint_checks
  exact MontgomeryCurve.diffieHellman_eq_ok.mpr ⟨horder, hne, rfl⟩

theorem dh_unreducedBasePoint :
    rfc7748Curve.diffieHellman topSecret unreducedBasePoint = .ok topPoint := by
  obtain ⟨_, horder, hne, hdecode, _⟩ := basePoint_checks
  have hsame : Rfc7748.x448 topSecret.bytes unreducedBasePoint = topPoint :=
    Rfc7748.x448_congr hdecode _
  refine MontgomeryCurve.diffieHellman_eq_ok.mpr ⟨horder, ?_, hsame⟩
  show Rfc7748.x448 topSecret.bytes unreducedBasePoint ≠ _
  rw [hsame]
  exact hne

/-- The ciphertext is for another key. -/
theorem decrypt_topKem : (samplePrimitives rfc7748Curve).sntrup.decrypt
    (topKem rfc7748Curve).sntrupSecret (filled 1039 9) = (0, zero32) := by
  show sampleDecrypt (filled 1158 7) (filled 1039 9) = _
  decide +kernel

theorem handshake_receive {point : FixedBytes 56}
    (hdh : rfc7748Curve.diffieHellman topSecret point = .ok topPoint) :
    (receive point).handshake = .ok (received point) := by
  simp only [receive, Establishment.handshake, Except.bind_eq_ok]
  refine ⟨topPoint, dh_basePoint, topPoint, hdh, topPoint, hdh, ?_⟩
  simp only [messageOf, decrypt_topKem]
  rfl

theorem run_receive {point : FixedBytes 56}
    (hdh : rfc7748Curve.diffieHellman topSecret point = .ok topPoint) :
    (receive point).run = .ok ((received point).sessionKeys.swapDirections, messageOf point) := by
  have hpq : (topKem rfc7748Curve).sntrupDecapsulate (messageOf point).pqCiphertext =
      .ok (received point).pqSs := by
    simp only [HybridKemKeypair.sntrupDecapsulate, KemScheme.decapsulate, messageOf,
      decrypt_topKem]
    rfl
  simp only [receive, Establishment.run, Responder.establish, Except.bind_eq_ok,
    Except.pure_eq_ok]
  exact ⟨_, ⟨topPoint, dh_basePoint, topPoint, hdh, topPoint, hdh, _, hpq, rfl⟩, rfl⟩

theorem nodup_inputs :
    ((received basePoint).hashInputs.map sampleHash).Nodup ∧
    ((received basePoint).deriveKeyInputs.map fun input => checksum input.1 input.2).Nodup := by
  decide +kernel

/-- The two runs hash the same values, and these do not collide. -/
theorem collisionFree_received (point point' : FixedBytes 56) :
    (received point).CollisionFree (received point') where
  hash b hb b' hb' h := by
    have hmem : ∀ {b}, b ∈ (received point).hashInputs ++ (received point').hashInputs →
        b ∈ (received basePoint).hashInputs := fun hb => (List.mem_append.mp hb).elim id id
    exact List.inj_on_of_nodup_map nodup_inputs.1 (hmem hb) (hmem hb') h
  deriveKey i hi i' hi' h := by
    have hmem : ∀ {i}, i ∈ (received point).deriveKeyInputs ++ (received point').deriveKeyInputs →
        i ∈ (received basePoint).deriveKeyInputs := fun hi => (List.mem_append.mp hi).elim id id
    exact List.inj_on_of_nodup_map nodup_inputs.2 (hmem hi) (hmem hi') h
  session b hb b' hb' _ := by
    have hmem : ∀ {b}, b ∈ [(received point).sessionInput, (received point').sessionInput] →
        b = (received basePoint).sessionInput := by
      intro b hb
      obtain h | h := List.mem_pair.mp hb
      · exact h
      · exact h
    rw [hmem hb, hmem hb']

/-- On X448 as it is, a responder gets one root key from two messages that are
not the same bytes. -/
theorem unreduced_ephemeral_same_root :
    ∃ keys, (receive basePoint).run = .ok (keys, messageOf basePoint) ∧
      (receive unreducedBasePoint).run = .ok (keys, messageOf unreducedBasePoint) ∧
      CollisionFree (receive basePoint) (receive unreducedBasePoint) ∧
      (messageOf basePoint).toBytes ≠ (messageOf unreducedBasePoint).toBytes := by
  obtain ⟨_, _, _, _, hbytes⟩ := basePoint_checks
  refine ⟨_, run_receive dh_basePoint, run_receive dh_unreducedBasePoint, ?_, hbytes⟩
  intro h h' hh hh'
  rw [handshake_receive dh_basePoint, Except.ok.injEq] at hh
  rw [handshake_receive dh_unreducedBasePoint, Except.ok.injEq] at hh'
  rw [← hh, ← hh']
  exact collisionFree_received _ _

/-! ## A session on the additive curve -/

/-- The draws of the initiator. -/
def sampleDraws : InitiatorDraws (samplePrimitives additiveCurve) where
  ephemeralX448 := .ok (filled 56 5)
  ephemeralSntrup := filled 32 3
  encapsulation := filled 32 4

/-- The one-time key, which is generated. -/
def sampleOtk : HybridKemKeypair (samplePrimitives additiveCurve) :=
  ⟨_, topSecret, ⟨(filled 32 6).val ++ List.replicate 1126 0, by
    rw [List.length_append, (filled 32 6).property, List.length_replicate]⟩, rfl⟩

/-- The first identity establishes a session with the second, over a bundle that
the second has signed. -/
theorem initiator_establishes : ∃ signed result, signed.bundle = sampleBundle sampleOtk ∧
    Initiator.establish (sampleIdentity additiveCurve 1) signed 1500 ⟨false⟩ sampleDraws =
      .ok result := by
  obtain ⟨sig, hsign⟩ := sample_signs 2 (sampleBundle sampleOtk).signingData
  have hstatement : (sampleKeypair 2).signStatement
      (.plain (sampleBundle sampleOtk).signingData) sampleCoins = .ok sig := hsign
  have hverify : SignedPreKeyBundle.verify ⟨sampleBundle sampleOtk, sig⟩ = .ok () :=
    SignedPreKeyBundle.verify_eq_ok.mpr
      (sign_verifies scalarCurve_rfc8032 transparentMlDsa_correct hstatement)
  have hdh : ∀ a b : X448Secret, additiveCurve.isLowOrder (additiveCurve.publicKey b) = false →
      additiveCurve.scalarMul a.bytes (additiveCurve.publicKey b) ≠ FixedBytes.zero 56 →
      additiveCurve.diffieHellman a (additiveCurve.publicKey b) =
        .ok (additiveCurve.scalarMul a.bytes (additiveCurve.publicKey b)) :=
    fun a b hlow hne => MontgomeryCurve.diffieHellman_eq_ok.mpr ⟨hlow, hne, rfl⟩
  have hrun : ∃ result, Initiator.establish (sampleIdentity additiveCurve 1)
      ⟨sampleBundle sampleOtk, sig⟩ 1500 ⟨false⟩ sampleDraws = .ok result := by
    simp only [Initiator.establish, Except.bind_eq_ok]
    exact ⟨_, (), hverify, (), rfl, _, rfl,
      _, hdh topSecret topSecret (by decide +kernel) (by decide +kernel),
      _, hdh ⟨Rfc7748.clamp (filled 56 5), clamp_clamp _⟩ topSecret (by decide +kernel)
        (by decide +kernel),
      _, hdh ⟨Rfc7748.clamp (filled 56 5), clamp_clamp _⟩ topSecret (by decide +kernel)
        (by decide +kernel), _, rfl, rfl⟩
  obtain ⟨result, hresult⟩ := hrun
  exact ⟨_, result, rfl, hresult⟩

/-- The second identity gets the keys of the first, and no other establishment
gets the root key without a collision. -/
theorem establish_agrees_and_binds_sample : ∃ signed result,
    Initiator.establish (sampleIdentity additiveCurve 1) signed 1500 ⟨false⟩ sampleDraws =
      .ok result ∧
    Responder.establish (sampleIdentity additiveCurve 2) sampleOtk
      (sampleIdentity additiveCurve 1).signing.publicKey
      (sampleIdentity additiveCurve 1).kem.publicKey.x448 signed result.initialMessage ⟨false⟩ =
        .ok result.sessionKeys.swapDirections ∧
    ∀ e keys m, e.run = .ok (keys, m) →
      CollisionFree (.initiator (sampleIdentity additiveCurve 1) signed 1500 ⟨false⟩ sampleDraws)
        e →
      result.sessionKeys.rootKey = keys.rootKey →
        SameHandshake
          (.initiator (sampleIdentity additiveCurve 1) signed 1500 ⟨false⟩ sampleDraws) e
          result.initialMessage m := by
  obtain ⟨signed, result, hbundle, h⟩ := initiator_establishes
  obtain ⟨hagrees, hbinds⟩ := establish_agrees_and_binds (P := samplePrimitives additiveCurve)
    additiveCurve_rfc7748 sampleKem_correct (samplePrimitives_keys _)
  refine ⟨signed, result, h, ?_, ?_⟩
  · refine hagrees _ _ sampleOtk (filled 32 6) signed 1500 _ _ result rfl ?_ h
    rw [hbundle]
    exact ⟨rfl, rfl, rfl⟩
  · intro e keys m hrun hfree hroot
    have hinitiator : Establishment.run (.initiator (sampleIdentity additiveCurve 1) signed 1500
        ⟨false⟩ sampleDraws) = .ok (result.sessionKeys, result.initialMessage) := by
      simp only [Establishment.run, h]
      rfl
    exact hbinds _ e _ keys _ m hinitiator hrun hfree hroot

end Trelis.X3dh
