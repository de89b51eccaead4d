import Trelis.Wasm.IdentityApi

/-!
# The handshake as JavaScript calls it

The `x3dh_` calls of the WASM crate.  A bundle is the row of its fields, and a signed
bundle has the signature behind it.  `x3dh_sign_bundle` signs whatever bytes it is given,
whereas the initiator reads the fields, and verifies what they are written as.

`parseSignedBundle_eq_ok` says that these are the same bytes.  From it come the two laws:
what the initiator accepts is signed as it was received and is in its time
(`initiator_accepts_signed`), and the calls on both sides produce one session
(`handshake_calls_agree`).
-/

namespace Trelis.X3dh

/-- `InitialMessage::from_bytes`. -/
def InitialMessage.fromBytes (bytes : Bytes) : Result InitialMessage := do
  rejectIf (bytes.length ≠ 1095) .malformedMessage
  -- The slices have the lengths of the arrays, so that the copies do not fail.
  let ephemeralPublic ← arrayFromBytes 56 (bytes.take 56) .malformedMessage
  let pqCiphertext ← arrayFromBytes 1039 (bytes.drop 56) .malformedMessage
  pure ⟨ephemeralPublic, pqCiphertext⟩

theorem InitialMessage.fromBytes_eq_ok {bytes : Bytes} {m : InitialMessage} :
    InitialMessage.fromBytes bytes = .ok m ↔ bytes = m.toBytes := by
  have hephemeral : m.ephemeralPublic.val.length = 56 := FixedBytes.length_coe _
  show _ ↔ bytes = m.ephemeralPublic.val ++ m.pqCiphertext.val
  simp only [fromBytes, Except.bind_eq_ok, rejectIf_eq_ok, not_not, arrayFromBytes_eq_ok,
    Except.pure_eq_ok]
  constructor
  · intro hex
    rcases hex with ⟨_, _, ephemeral, htake, ct, hdrop, hm⟩
    subst hm
    rw [← htake, ← hdrop, List.take_append_drop]
  · intro h
    have hlength : bytes.length = 1095 := by
      rw [h, List.length_append, hephemeral, FixedBytes.length_coe]
    obtain ⟨htake, hdrop⟩ := (eq_append_iff hephemeral).mp h
    exact ⟨(), hlength, m.ephemeralPublic, htake, m.pqCiphertext, hdrop, rfl⟩

end Trelis.X3dh

namespace Trelis.Wasm

open Hybrid X3dh MultiDevice

variable {P : HandshakePrimitives} (D : KeyDecoders P) (S : KeyPairCodecs P)

/-! ## The calls -/

def x3dhCreateBundle (identitySigningPublic identityKemPublic oneTimeKeyPublic : Bytes)
    (otkKeyId timestamp expiration : UInt64) : Except JsError Bytes := do
  let idSign ← debugError (ReadableKey.fromBytes D identitySigningPublic)
  let idKem ← debugError (HybridKemPublicKey.fromBytes identityKemPublic)
  let otk ← debugError (HybridKemPublicKey.fromBytes oneTimeKeyPublic)
  pure (idSign.val.toBytes.val ++ (idKem.toBytes.val ++ (otk.toBytes.val ++
    (leBytes 8 otkKeyId.toNat ++ (leBytes 8 timestamp.toNat ++ leBytes 8 expiration.toNat)))))

def x3dhSignBundle (bundle signingSecret : Bytes) (coins : SigningCoins P.toSignaturePrimitives) :
    Except JsError Bytes := do
  let keypair ← debugError (signingFromBytes S signingSecret)
  let signature ← debugError (keypair.sign (ascii "trelis-prekey-bundle-v1" ++ bundle) coins)
  pure (bundle ++ signature.toBytes.val)

/-- The fields of a bundle. -/
structure BundleFields where
  identitySigning : Bytes
  identityKem : Bytes
  oneTimeKey : Bytes
  otkKeyId : JsNumber
  timestamp : JsNumber
  expiration : JsNumber

/-- The slices of the bytes in front of the signature. -/
def BundleFields.ofBytes (bundleBytes : Bytes) : BundleFields where
  identitySigning := bundleBytes.take 2009
  identityKem := sliceAt bundleBytes 2009 1214
  oneTimeKey := sliceAt bundleBytes 3223 1214
  otkKeyId := asF64 (readUInt64 (sliceAt bundleBytes 4437 8)).toNat
  timestamp := asF64 (readUInt64 (sliceAt bundleBytes 4445 8)).toNat
  expiration := asF64 (readUInt64 (sliceAt bundleBytes 4453 8)).toNat

def x3dhVerifyBundle (signedBundle : Bytes) : Except JsError BundleFields := do
  rejectIf (signedBundle.length ≠ 4461 + 3366) (.text "Invalid signed bundle size")
  let bundleBytes := signedBundle.take 4461
  let sigBytes := signedBundle.drop 4461
  let idSign ← debugError (ReadableKey.fromBytes D (bundleBytes.take 2009))
  let signature ← debugError (CanonicalSignature.fromBytes D sigBytes)
  rejectIf (idSign.val.verify (ascii "trelis-prekey-bundle-v1" ++ bundleBytes)
      signature.val ≠ .ok ()) (.text "Bundle signature invalid")
  pure (.ofBytes bundleBytes)

def parseSignedBundle (bytes : Bytes) : Except JsError (SignedPreKeyBundle P) := do
  rejectIf (bytes.length ≠ 4461 + 3366) (.text "Invalid signed bundle size")
  let bundleBytes := bytes.take 4461
  let sigBytes := bytes.drop 4461
  let idSign ← debugError (ReadableKey.fromBytes D (bundleBytes.take 2009))
  let idKem ← debugError (HybridKemPublicKey.fromBytes (sliceAt bundleBytes 2009 1214))
  let otk ← debugError (HybridKemPublicKey.fromBytes (sliceAt bundleBytes 3223 1214))
  let otkKeyId := readUInt64 (sliceAt bundleBytes 4437 8)
  let timestamp := readUInt64 (sliceAt bundleBytes 4445 8)
  let expiration := readUInt64 (sliceAt bundleBytes 4453 8)
  let signature ← debugError (CanonicalSignature.fromBytes D sigBytes)
  pure ⟨⟨idSign.val, idKem, otk, otkKeyId, timestamp, expiration⟩, signature.val⟩

/-- The session keys and the initial message. -/
def x3dhInitiatorEstablish (ourIdentitySecret theirSignedBundle : Bytes) (currentTime : UInt64)
    (liCapable : Bool) (draws : InitiatorDraws P) : Except JsError (SessionKeys × Bytes) := do
  let ourIdentity ← debugError (HybridIdentityKeypair.fromBytes S ourIdentitySecret)
  let signedBundle ← parseSignedBundle D theirSignedBundle
  let result ← debugError
    (Initiator.establish ourIdentity signedBundle currentTime ⟨liCapable⟩ draws)
  pure (result.sessionKeys, result.initialMessage.toBytes)

def x3dhResponderEstablish (ourIdentitySecret ourOtkSecret theirIdentitySigning
    theirIdentityKemX448 ourSignedBundle initialMessage : Bytes) (liCapable : Bool) :
    Except JsError SessionKeys := do
  let ourIdentity ← debugError (HybridIdentityKeypair.fromBytes S ourIdentitySecret)
  let ourOtk ← debugError (HybridKemKeypair.fromBytes S ourOtkSecret)
  let theirIdSigning ← debugError (ReadableKey.fromBytes D theirIdentitySigning)
  rejectIf (theirIdentityKemX448.length ≠ 56) (.text "X448 public key must be 56 bytes")
  let theirX448 ← debugError (arrayFromBytes 56 theirIdentityKemX448
    (.invalidKeyLength 56 theirIdentityKemX448.length))
  let ourBundle ← parseSignedBundle D ourSignedBundle
  let initMsg ← debugError (InitialMessage.fromBytes initialMessage)
  debugError (Responder.establish ourIdentity ourOtk theirIdSigning.val theirX448 ourBundle
    initMsg ⟨liCapable⟩)

/-! ## The bytes of a bundle -/

/-- The row of the fields. -/
def bundleWire (b : X3dh.PreKeyBundle P) : Bytes :=
  b.identitySigning.toBytes.val ++ (b.identityKem.toBytes.val ++ (b.oneTimeKey.toBytes.val ++
    (leBytes 8 b.otkKeyId.toNat ++ (leBytes 8 b.timestamp.toNat ++ leBytes 8 b.expiration.toNat))))

theorem signingData_eq (b : X3dh.PreKeyBundle P) :
    b.signingData = ascii "trelis-prekey-bundle-v1" ++ bundleWire b := by
  simp only [X3dh.PreKeyBundle.signingData, bundleDomain, bundleWire, List.append_assoc]

@[simp] theorem length_bundleWire (b : X3dh.PreKeyBundle P) : (bundleWire b).length = 4461 := by
  simp [bundleWire]

/-- The keys and the signature of a bundle pass the checks of their decoders. -/
structure Readable (b : SignedPreKeyBundle P) : Prop where
  identitySigning : D.acceptsPoint b.bundle.identitySigning.ed448.inner = true
  identityKem : b.bundle.identityKem.sntrup ≠ FixedBytes.zero 1158
  oneTimeKey : b.bundle.oneTimeKey.sntrup ≠ FixedBytes.zero 1158
  signature : Ed448BopResponse.guardCanonical b.signature.rsp.bytes = .ok ()

variable {D S}

/-- The fields of the bytes in front of a signature. -/
theorem eq_bundleWire_iff {bytes : Bytes} (hlength : bytes.length = 4461)
    {b : X3dh.PreKeyBundle P} :
    bytes = bundleWire b ↔ bytes.take 2009 = b.identitySigning.toBytes.val ∧
      sliceAt bytes 2009 1214 = b.identityKem.toBytes.val ∧
      sliceAt bytes 3223 1214 = b.oneTimeKey.toBytes.val ∧
      readUInt64 (sliceAt bytes 4437 8) = b.otkKeyId ∧
      readUInt64 (sliceAt bytes 4445 8) = b.timestamp ∧
      readUInt64 (sliceAt bytes 4453 8) = b.expiration := by
  have hlast : sliceAt bytes 4453 8 = bytes.drop 4453 := sliceAt_eq_drop hlength
  rw [bundleWire, eq_append_iff (FixedBytes.length_coe _),
    drop_eq_append_iff (FixedBytes.length_coe _), drop_eq_append_iff (FixedBytes.length_coe _),
    drop_eq_append_iff (leBytes_length 8 _), drop_eq_append_iff (leBytes_length 8 _),
    readUInt64_sliceAt (by omega), readUInt64_sliceAt (by omega), readUInt64_sliceAt (by omega),
    hlast]
  rfl

/-- The bundles that are read are the readable ones, from the row of their fields and
the signature. -/
theorem parseSignedBundle_eq_ok (hD : D.Exact) {bytes : Bytes} {b : SignedPreKeyBundle P} :
    parseSignedBundle D bytes = .ok b ↔
      bytes = bundleWire b.bundle ++ b.signature.toBytes.val ∧ Readable D b := by
  simp only [parseSignedBundle, Except.bind_eq_ok, rejectIf_eq_ok, not_not, debugError_eq_ok,
    ReadableKey.fromBytes_eq_ok hD, HybridKemPublicKey.fromBytes_eq_ok,
    CanonicalSignature.fromBytes_eq_ok hD, Except.pure_eq_ok]
  constructor
  · intro hex
    rcases hex with ⟨_, hlength, vk, hvk, kem, ⟨hkem, hkem0⟩, otk, ⟨hotk, hotk0⟩, sig, hsig, hb⟩
    subst hb
    have hfront : (bytes.take 4461).length = 4461 := by
      rw [List.length_take]
      omega
    refine ⟨?_, ⟨vk.property, hkem0, hotk0, sig.property⟩⟩
    rw [← (eq_bundleWire_iff hfront).mpr ⟨hvk, hkem, hotk, rfl, rfl, rfl⟩, ← hsig,
      List.take_append_drop]
  · intro hboth
    rcases hboth with ⟨hbytes, hreadable⟩
    obtain ⟨htake, hdrop⟩ := (eq_append_iff (length_bundleWire b.bundle)).mp hbytes
    have hlength : bytes.length = 4461 + 3366 := by
      rw [hbytes, List.length_append, length_bundleWire, FixedBytes.length_coe]
    have hfront : (bytes.take 4461).length = 4461 := by
      rw [List.length_take]
      omega
    obtain ⟨hvk, hkem, hotk, hid, htimestamp, hexpiration⟩ :=
      (eq_bundleWire_iff hfront).mp htake
    refine ⟨(), hlength, ⟨_, hreadable.identitySigning⟩, hvk, _, ⟨hkem, hreadable.identityKem⟩, _,
      ⟨hotk, hreadable.oneTimeKey⟩, ⟨_, hreadable.signature⟩, hdrop, ?_⟩
    rw [hid, htimestamp, hexpiration]

/-! ## What the initiator accepts -/

theorem validateTimestamps_eq_ok {b : SignedPreKeyBundle P} {now : UInt64} :
    b.validateTimestamps now = .ok () ↔ b.bundle.timestamp ≤ now ∧ now ≤ b.bundle.expiration := by
  unfold SignedPreKeyBundle.validateTimestamps
  split
  · next h => simp [UInt64.not_le.mpr h]
  · next h =>
    have hpast := UInt64.not_lt.mp h
    split
    · next h' => simp [UInt64.not_le.mpr h']
    · next h' => simp [hpast, UInt64.not_lt.mp h']

theorem x3dhInitiatorEstablish_eq_ok {secret wire : Bytes} {now : UInt64} {li : Bool}
    {draws : InitiatorDraws P} {keys : SessionKeys} {message : Bytes} :
    x3dhInitiatorEstablish D S secret wire now li draws = .ok (keys, message) ↔
      ∃ ours signed result, HybridIdentityKeypair.fromBytes S secret = .ok ours ∧
        parseSignedBundle D wire = .ok signed ∧
        Initiator.establish ours signed now ⟨li⟩ draws = .ok result ∧
        keys = result.sessionKeys ∧ message = result.initialMessage.toBytes := by
  simp only [x3dhInitiatorEstablish, Except.bind_eq_ok, debugError_eq_ok, Except.pure_eq_ok,
    Prod.mk.injEq]
  constructor
  · intro hex
    rcases hex with ⟨ours, hours, signed, hsigned, result, hresult, hkeys, hmessage⟩
    exact ⟨ours, signed, result, hours, hsigned, hresult, hkeys.symm, hmessage.symm⟩
  · intro hex
    rcases hex with ⟨ours, signed, result, hours, hsigned, hresult, hkeys, hmessage⟩
    exact ⟨ours, hours, signed, hsigned, result, hresult, hkeys.symm, hmessage.symm⟩

/-- An initiator gets as far as drawing its keys only with a bundle that is signed and in
its time. -/
theorem establish_checks {ours : HybridIdentityKeypair P} {b : SignedPreKeyBundle P} {now : UInt64}
    {flags : SessionFlags} {draws : InitiatorDraws P} {result : InitiatorResult}
    (h : Initiator.establish ours b now flags draws = .ok result) :
    b.bundle.identitySigning.verify b.bundle.signingData b.signature = .ok () ∧
      b.bundle.timestamp ≤ now ∧ now ≤ b.bundle.expiration := by
  simp only [Initiator.establish, Except.bind_eq_ok] at h
  obtain ⟨_, hverify, _, htime, _⟩ := h
  exact ⟨SignedPreKeyBundle.verify_eq_ok.mp hverify, validateTimestamps_eq_ok.mp htime⟩

/-- Whatever bytes the initiator accepts, `x3dh_verify_bundle` accepts them too.  The key in
front of them verifies the signature at their end over the bytes between, as received,
and the time lies in the window of the bytes, which the caller is told as doubles. -/
theorem initiator_accepts_signed (hD : D.Exact) {secret wire : Bytes} {now : UInt64} {li : Bool}
    {draws : InitiatorDraws P} {keys : SessionKeys} {message : Bytes}
    (h : x3dhInitiatorEstablish D S secret wire now li draws = .ok (keys, message)) :
    ∃ vk sig fields, ReadableKey.fromBytes D (wire.take 2009) = .ok vk ∧
      CanonicalSignature.fromBytes D (wire.drop 4461) = .ok sig ∧
      vk.val.verify (ascii "trelis-prekey-bundle-v1" ++ wire.take 4461) sig.val = .ok () ∧
      x3dhVerifyBundle D wire = .ok fields ∧
      ∃ timestamp expiration : UInt64, timestamp = readUInt64 (sliceAt (wire.take 4461) 4445 8) ∧
        expiration = readUInt64 (sliceAt (wire.take 4461) 4453 8) ∧
        timestamp ≤ now ∧ now ≤ expiration ∧
        fields.timestamp = asF64 timestamp.toNat ∧ fields.expiration = asF64 expiration.toNat := by
  obtain ⟨ours, signed, result, _, hparse, hresult, _⟩ := x3dhInitiatorEstablish_eq_ok.mp h
  obtain ⟨hbytes, hreadable⟩ := (parseSignedBundle_eq_ok hD).mp hparse
  obtain ⟨hverify, hstart, hend⟩ := establish_checks hresult
  obtain ⟨htake, hdrop⟩ := (eq_append_iff (length_bundleWire signed.bundle)).mp hbytes
  have htake : wire.take 4461 = bundleWire signed.bundle := htake
  have hlength : wire.length = 4461 + 3366 := by
    rw [hbytes, List.length_append, length_bundleWire, FixedBytes.length_coe]
  have hfront : (wire.take 4461).length = 4461 := by
    rw [htake, length_bundleWire]
  obtain ⟨hvk, _, _, _, htimestamp, hexpiration⟩ := (eq_bundleWire_iff hfront).mp htake
  have hkey : ReadableKey.fromBytes D (wire.take 2009) =
      .ok ⟨signed.bundle.identitySigning, hreadable.identitySigning⟩ := by
    rw [List.take_take] at hvk
    exact (ReadableKey.fromBytes_eq_ok hD).mpr hvk
  have hsig : CanonicalSignature.fromBytes D (wire.drop 4461) =
      .ok ⟨signed.signature, hreadable.signature⟩ :=
    (CanonicalSignature.fromBytes_eq_ok hD).mpr hdrop
  rw [signingData_eq, ← htake] at hverify
  have hfront' : (wire.take 4461).take 2009 = wire.take 2009 := by rw [List.take_take]; rfl
  refine ⟨_, _, .ofBytes (wire.take 4461), hkey, hsig, hverify, ?_, _, _, rfl, rfl,
    ?_, ?_, rfl, rfl⟩
  · simp only [x3dhVerifyBundle, Except.bind_eq_ok, rejectIf_eq_ok, not_not, debugError_eq_ok,
      Except.pure_eq_ok, hfront']
    exact ⟨(), hlength, _, hkey, _, hsig, (), hverify, trivial⟩
  · rwa [htimestamp]
  · rwa [hexpiration]

/-! ## Both sides -/

section Calls

variable {alice bob : HybridIdentityKeypair P} {otk : HybridKemKeypair P}
  {otkKeyId timestamp expiration now : UInt64} {bundle wire message : Bytes} {li : Bool}
  {coins : SigningCoins P.toSignaturePrimitives} {draws : InitiatorDraws P} {keys : SessionKeys}

/-- What an owner publishes. -/
def publishedBundle (owner : HybridIdentityKeypair P) (otk : HybridKemKeypair P)
    (otkKeyId timestamp expiration : UInt64) : X3dh.PreKeyBundle P where
  identitySigning := owner.signing.publicKey
  identityKem := owner.kem.publicKey
  oneTimeKey := otk.publicKey
  otkKeyId := otkKeyId
  timestamp := timestamp
  expiration := expiration

/-- The bytes that the calls of the owner make are read as what the owner publishes. -/
theorem parseSignedBundle_signed (hS : S.Exact) (hD : D.Exact) (hread : ReadsDerived D)
    (hcreate : x3dhCreateBundle D bob.signing.publicKey.toBytes.val bob.kem.publicKey.toBytes.val
      otk.publicKey.toBytes.val otkKeyId timestamp expiration = .ok bundle)
    (hsign : x3dhSignBundle S bundle (signingToBytes S bob.signing).val coins = .ok wire) :
    ∃ sig, parseSignedBundle D wire =
      .ok ⟨publishedBundle bob otk otkKeyId timestamp expiration, sig⟩ := by
  simp only [x3dhCreateBundle, Except.bind_eq_ok, debugError_eq_ok, Except.pure_eq_ok,
    HybridKemPublicKey.fromBytes_eq_ok, readableKey_publicKey hD hread] at hcreate
  obtain ⟨vk, hvk, kem, ⟨hkem, hkem0⟩, key, ⟨hkey, hkey0⟩, hbundle⟩ := hcreate
  obtain rfl := Except.ok.inj hvk
  obtain rfl : bob.kem.publicKey = kem := HybridKemPublicKey.toBytes_inj (Subtype.ext hkem)
  obtain rfl : otk.publicKey = key := HybridKemPublicKey.toBytes_inj (Subtype.ext hkey)
  simp only [x3dhSignBundle, Except.bind_eq_ok, debugError_eq_ok, Except.pure_eq_ok,
    signingFromBytes_eq_ok hS] at hsign
  obtain ⟨keypair, hkeypair, sig, hsig, hwire⟩ := hsign
  refine ⟨sig, (parseSignedBundle_eq_ok hD).mpr ⟨?_, ?_⟩⟩
  · rw [← hwire, ← hbundle]
    rfl
  · exact ⟨hread.acceptsPoint_publicKey bob.signing, hkem0, hkey0, guardCanonical_of_sign hsig⟩

/-- Both sides work from bytes: stored secrets, a bundle that the owner creates and signs,
and the message of the initiator.  If the initiator's call succeeds, so does the
responder's, with the same keys in the other direction. -/
theorem handshake_calls_agree (hdh : P.x448.Rfc7748) (hkem : P.sntrup.Correct) (hS : S.Exact)
    (hD : D.Exact) (hread : ReadsDerived D) {aliceSecret bobSecret otkSecret : Bytes}
    (halice : HybridIdentityKeypair.fromBytes S aliceSecret = .ok alice)
    (hbob : HybridIdentityKeypair.fromBytes S bobSecret = .ok bob)
    (hotk : HybridKemKeypair.fromBytes S otkSecret = .ok otk) (hgenerated : otk.Generated)
    (hcreate : x3dhCreateBundle D bob.signing.publicKey.toBytes.val bob.kem.publicKey.toBytes.val
      otk.publicKey.toBytes.val otkKeyId timestamp expiration = .ok bundle)
    (hsign : x3dhSignBundle S bundle (signingToBytes S bob.signing).val coins = .ok wire)
    (hinitiator : x3dhInitiatorEstablish D S aliceSecret wire now li draws =
      .ok (keys, message)) :
    x3dhResponderEstablish D S bobSecret otkSecret alice.signing.publicKey.toBytes.val
      alice.kem.publicKey.x448.val wire message li = .ok keys.swapDirections := by
  obtain ⟨sig, hparse⟩ := parseSignedBundle_signed hS hD hread hcreate hsign
  obtain ⟨ours, signed, result, hours, hsigned, hresult, rfl, rfl⟩ :=
    x3dhInitiatorEstablish_eq_ok.mp hinitiator
  obtain rfl := Except.ok.inj (halice.symm.trans hours)
  obtain rfl := Except.ok.inj (hparse.symm.trans hsigned)
  obtain ⟨otkCoins, hcoins⟩ := hgenerated
  have hpublishes : (publishedBundle bob otk otkKeyId timestamp expiration).Publishes bob otk :=
    ⟨rfl, rfl, rfl⟩
  have hresponder := responder_agrees hdh hkem hcoins hpublishes hresult
  have hx448 : arrayFromBytes 56 alice.kem.publicKey.x448.val (.invalidKeyLength 56
      alice.kem.publicKey.x448.val.length) = .ok alice.kem.publicKey.x448 :=
    arrayFromBytes_eq_ok.mpr rfl
  simp only [x3dhResponderEstablish, Except.bind_eq_ok, debugError_eq_ok, rejectIf_eq_ok, not_not]
  exact ⟨bob, hbob, otk, hotk, _, readableKey_publicKey hD hread alice.signing, (),
    FixedBytes.length_coe _, _, hx448, _, hparse, _, InitialMessage.fromBytes_eq_ok.mpr rfl,
    hresponder⟩

end Calls

/-! ## A sample handshake -/

section Sample

theorem additive_diffieHellman (a b : X448Secret)
    (hlow : additiveCurve.isLowOrder (additiveCurve.publicKey b) = false)
    (hne : additiveCurve.scalarMul a.bytes (additiveCurve.publicKey b) ≠ FixedBytes.zero 56) :
    additiveCurve.diffieHellman a (additiveCurve.publicKey b) =
      .ok (additiveCurve.scalarMul a.bytes (additiveCurve.publicKey b)) :=
  MontgomeryCurve.diffieHellman_eq_ok.mpr ⟨hlow, hne, rfl⟩

/-- The first identity accepts any bundle that the second has signed. -/
theorem sample_establishes
    {sig : HybridSignature (samplePrimitives additiveCurve).toSignaturePrimitives}
    (hverify : SignedPreKeyBundle.verify ⟨sampleBundle sampleOtk, sig⟩ = .ok ()) :
    ∃ result, Initiator.establish (sampleIdentity additiveCurve 1) ⟨sampleBundle sampleOtk, sig⟩
      1500 ⟨false⟩ sampleDraws = .ok result := by
  simp only [Initiator.establish, Except.bind_eq_ok]
  exact ⟨_, (), hverify, (), rfl, _, rfl,
    _, additive_diffieHellman topSecret topSecret (by decide +kernel) (by decide +kernel),
    _, additive_diffieHellman (sampleSecret 5) topSecret (by decide +kernel) (by decide +kernel),
    _, additive_diffieHellman (sampleSecret 5) topSecret (by decide +kernel) (by decide +kernel),
    _, rfl, rfl⟩

/-- The stored secrets of an identity. -/
def sampleStored (b : UInt8) : Bytes :=
  ((sampleIdentity additiveCurve b).toBytes (sampleCodecs additiveCurve)).val

theorem sampleStored_read (b : UInt8) :
    HybridIdentityKeypair.fromBytes (sampleCodecs additiveCurve) (sampleStored b) =
      .ok (sampleIdentity additiveCurve b) :=
  HybridIdentityKeypair.fromBytes_toBytes (sampleCodecs_exact additiveCurve) _

theorem sampleBundle_kem :
    (sampleBundle sampleOtk).identityKem.sntrup ≠ FixedBytes.zero 1158 := by
  show filled 1158 7 ≠ _
  decide +kernel

theorem sampleBundle_oneTimeKey :
    (sampleBundle sampleOtk).oneTimeKey.sntrup ≠ FixedBytes.zero 1158 := by decide +kernel

theorem sample_creates : x3dhCreateBundle (sampleDecoders additiveCurve)
    (sampleIdentity additiveCurve 2).signing.publicKey.toBytes.val
    (sampleIdentity additiveCurve 2).kem.publicKey.toBytes.val sampleOtk.publicKey.toBytes.val
    1 1000 2000 = .ok (bundleWire (sampleBundle sampleOtk)) := by
  simp only [x3dhCreateBundle, Except.bind_eq_ok, debugError_eq_ok, Except.pure_eq_ok,
    HybridKemPublicKey.fromBytes_eq_ok, readableKey_publicKey (sampleDecoders_exact additiveCurve)
      (sampleDecoders_readsDerived additiveCurve)]
  exact ⟨_, rfl, _, ⟨rfl, sampleBundle_kem⟩, _, ⟨rfl, sampleBundle_oneTimeKey⟩, rfl⟩

/-- The second identity signs the bundle, and the first accepts it. -/
theorem sample_handshake : ∃ wire keys message,
    x3dhSignBundle (sampleCodecs additiveCurve) (bundleWire (sampleBundle sampleOtk))
      (signingToBytes (sampleCodecs additiveCurve) (sampleIdentity additiveCurve 2).signing).val
      sampleCoins = .ok wire ∧
    x3dhInitiatorEstablish (sampleDecoders additiveCurve) (sampleCodecs additiveCurve)
      (sampleStored 1) wire 1500 false sampleDraws = .ok (keys, message) := by
  obtain ⟨sig, hsig⟩ := sample_signs 2 (sampleBundle sampleOtk).signingData
  have hverify : SignedPreKeyBundle.verify ⟨sampleBundle sampleOtk, sig⟩ = .ok () :=
    SignedPreKeyBundle.verify_eq_ok.mpr
      (bopVerifyCore_bopSignCore scalarCurve_rfc8032 transparentMlDsa_correct hsig)
  obtain ⟨result, hresult⟩ := sample_establishes hverify
  have hsign : x3dhSignBundle (sampleCodecs additiveCurve) (bundleWire (sampleBundle sampleOtk))
      (signingToBytes (sampleCodecs additiveCurve) (sampleIdentity additiveCurve 2).signing).val
      sampleCoins = .ok (bundleWire (sampleBundle sampleOtk) ++ sig.toBytes.val) := by
    rw [signingData_eq] at hsig
    simp only [x3dhSignBundle, Except.bind_eq_ok, debugError_eq_ok, Except.pure_eq_ok,
      signingFromBytes_eq_ok (sampleCodecs_exact additiveCurve)]
    exact ⟨_, rfl, sig, hsig, rfl⟩
  have hparse : parseSignedBundle (sampleDecoders additiveCurve)
      (bundleWire (sampleBundle sampleOtk) ++ sig.toBytes.val) =
      .ok ⟨sampleBundle sampleOtk, sig⟩ :=
    (parseSignedBundle_eq_ok (sampleDecoders_exact additiveCurve)).mpr
      ⟨rfl, ⟨rfl, sampleBundle_kem, sampleBundle_oneTimeKey, guardCanonical_of_sign hsig⟩⟩
  exact ⟨_, _, _, hsign, x3dhInitiatorEstablish_eq_ok.mpr
    ⟨_, _, result, sampleStored_read 1, hparse, hresult, rfl, rfl⟩⟩

theorem initiator_accepts_signed_sample : ∃ wire fields,
    x3dhVerifyBundle (sampleDecoders additiveCurve) wire = .ok fields ∧
      ∃ timestamp expiration : UInt64, timestamp ≤ 1500 ∧ 1500 ≤ expiration ∧
        fields.timestamp = asF64 timestamp.toNat ∧ fields.expiration = asF64 expiration.toNat := by
  obtain ⟨wire, keys, message, _, hinitiator⟩ := sample_handshake
  obtain ⟨_, _, fields, _, _, _, hfields, timestamp, expiration, _, _, hwindow⟩ :=
    initiator_accepts_signed (sampleDecoders_exact additiveCurve) hinitiator
  exact ⟨wire, fields, hfields, timestamp, expiration, hwindow⟩

theorem handshake_calls_agree_sample : ∃ wire keys message,
    x3dhInitiatorEstablish (sampleDecoders additiveCurve) (sampleCodecs additiveCurve)
      (sampleStored 1) wire 1500 false sampleDraws = .ok (keys, message) ∧
    x3dhResponderEstablish (sampleDecoders additiveCurve) (sampleCodecs additiveCurve)
      (sampleStored 2) (sampleOtk.toBytes (sampleCodecs additiveCurve)).val
      (sampleIdentity additiveCurve 1).signing.publicKey.toBytes.val
      (sampleIdentity additiveCurve 1).kem.publicKey.x448.val wire message false =
        .ok keys.swapDirections := by
  obtain ⟨wire, keys, message, hsign, hinitiator⟩ := sample_handshake
  have hotk : HybridKemKeypair.fromBytes (sampleCodecs additiveCurve)
      (sampleOtk.toBytes (sampleCodecs additiveCurve)).val = .ok sampleOtk :=
    (HybridKemKeypair.fromBytes_eq_ok (sampleCodecs_exact additiveCurve)).mpr
      ⟨_, sampleOtk.x448Secret.clamped, rfl⟩
  exact ⟨wire, keys, message, hinitiator, handshake_calls_agree additiveCurve_rfc7748
    sampleKem_correct (sampleCodecs_exact additiveCurve) (sampleDecoders_exact additiveCurve)
    (sampleDecoders_readsDerived additiveCurve) (sampleStored_read 1) (sampleStored_read 2) hotk
    ⟨filled 32 6, rfl⟩ sample_creates hsign hinitiator⟩

end Sample

end Trelis.Wasm
