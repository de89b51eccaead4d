import Trelis.MultiDevice.DeviceCertificates
import Trelis.Wasm.IdentityApi

/-!
# Devices as JavaScript approves and revokes them

The `device_` calls of the WASM crate on fingerprints, approvals and revocations.

An approval or a revocation that was created is always read by the call that verifies
it, and what that call returns is determined: the fields that went in, times as doubles,
and the first check that fails (`approval_calls`, `revocation_calls`).
-/

namespace Trelis.Wasm

open Hybrid X3dh MultiDevice

variable {P : HandshakePrimitives} (D : KeyDecoders P) (S : KeyPairCodecs P)

/-! ## The calls -/

def deviceFingerprint (publicKey : Bytes) : Except JsError Bytes := do
  let pk ← debugError (ReadableKey.fromBytes D publicKey)
  pure (P.hash pk.val.toBytes.val).val

def deviceApprovalCreate (approvingDeviceId userId newDeviceFingerprint serverNonce
    accountIdentityPk : Bytes) (approvedAt : UInt64) (signingSecret : Bytes)
    (coins : SigningCoins P.toSignaturePrimitives) : Except JsError Bytes := do
  rejectIf (approvingDeviceId.length ≠ 16) (.text "Device ID must be 16 bytes")
  rejectIf (userId.length ≠ 32) (.text "User ID must be 32 bytes")
  rejectIf (newDeviceFingerprint.length ≠ 32) (.text "Fingerprint must be 32 bytes")
  rejectIf (serverNonce.length ≠ 32) (.text "Server nonce must be 32 bytes")
  rejectIf (accountIdentityPk.length ≠ 2009)
    (.text "Account identity public key must be 2009 bytes")
  -- The slices have the lengths of the arrays, so that the copies do not fail.
  let deviceId ← debugError (arrayFromBytes 16 approvingDeviceId .malformedMessage)
  let uid ← debugError (arrayFromBytes 32 userId .malformedMessage)
  let fingerprint ← debugError (arrayFromBytes 32 newDeviceFingerprint .malformedMessage)
  let nonce ← debugError (arrayFromBytes 32 serverNonce .malformedMessage)
  let accountIdentity ← debugError (ReadableKey.fromBytes D accountIdentityPk)
  let keypair ← debugError (signingFromBytes S signingSecret)
  let cert ← debugError (DeviceApprovalCertificate.new deviceId uid fingerprint nonce
    accountIdentity.val approvedAt.toNat keypair coins)
  pure cert.toBytes

/-- The result of a verification. -/
structure ApprovalInfo where
  valid : Bool
  error : Option CryptoError
  approvingDeviceId : FixedBytes 16
  userId : Bytes32
  newDeviceFingerprint : Bytes32
  serverNonce : Bytes32
  approvingDevicePk : FixedBytes 2009
  accountIdentityPk : FixedBytes 2009
  approvedAt : JsNumber

/-- The error of a check, if there is one. -/
def errorOf : Result Unit → Option CryptoError
  | .ok () => none
  | .error e => some e

/-- The result for a certificate. -/
def ApprovalInfo.of (cert : DeviceApprovalCertificate P.toSignaturePrimitives)
    (verifyResult : Result Unit) : ApprovalInfo where
  valid := verifyResult.isOk
  error := errorOf verifyResult
  approvingDeviceId := cert.approvingDeviceId
  userId := cert.userId
  newDeviceFingerprint := cert.newDeviceFingerprint
  serverNonce := cert.serverNonce
  approvingDevicePk := cert.approvingDevicePk.toBytes
  accountIdentityPk := cert.accountIdentityPk.toBytes
  approvedAt := asF64 cert.approvedAt

def deviceApprovalVerify (certificateBytes expectedAccountIdentityPk : Bytes)
    (now windowSeconds : UInt64) : Except JsError ApprovalInfo := do
  let cert ← debugError (DeviceApprovalCertificate.fromBytes D certificateBytes)
  let expectedAccountIdentity ← debugError (ReadableKey.fromBytes D expectedAccountIdentityPk)
  let window : NonceWindow := ⟨windowSeconds.toNat⟩
  let verifyResult := cert.verify expectedAccountIdentity.val now.toNat window
  pure (.of cert verifyResult)

def deviceRevocationCreate (deviceId : Bytes) (reason : UInt8) (revokedAt : UInt64)
    (signingSecret : Bytes) (coins : SigningCoins P.toSignaturePrimitives) :
    Except JsError Bytes := do
  rejectIf (deviceId.length ≠ 16) (.text "Device ID must be 16 bytes")
  let devId ← debugError (arrayFromBytes 16 deviceId .malformedMessage)
  let reason ← (DeviceRevocation.reasonOf (some reason)).mapError
    fun _ => .text "Invalid revocation reason"
  let keypair ← debugError (signingFromBytes S signingSecret)
  let revocation ← debugError (DeviceRevocation.new devId reason revokedAt keypair coins)
  pure revocation.toBytes

/-- The result of a verification. -/
structure RevocationInfo where
  valid : Bool
  deviceId : FixedBytes 16
  reason : JsNumber
  revokedAt : JsNumber

def deviceRevocationVerify (revocationBytes userPublic : Bytes) :
    Except JsError RevocationInfo := do
  let revocation ← debugError (DeviceRevocation.fromBytes D revocationBytes)
  let userPk ← debugError (ReadableKey.fromBytes D userPublic)
  let valid := (revocation.verify userPk.val).isOk
  pure { valid, deviceId := revocation.deviceId, reason := asF64 revocation.reason.toByte.toNat,
         revokedAt := asF64 revocation.revokedAt.toNat }

variable {D S}

/-- Two keys with one fingerprint are one, or their encodings collide. -/
theorem deviceFingerprint_inj (hD : D.Exact) {publicKey publicKey' fingerprint : Bytes}
    (h : deviceFingerprint D publicKey = .ok fingerprint)
    (h' : deviceFingerprint D publicKey' = .ok fingerprint)
    (hfree : P.hash publicKey = P.hash publicKey' → publicKey = publicKey') :
    publicKey = publicKey' := by
  simp only [deviceFingerprint, Except.bind_eq_ok, debugError_eq_ok,
    ReadableKey.fromBytes_eq_ok hD, Except.pure_eq_ok] at h h'
  obtain ⟨pk, rfl, hfingerprint⟩ := h
  obtain ⟨pk', rfl, hfingerprint'⟩ := h'
  exact hfree (Subtype.ext (hfingerprint.trans hfingerprint'.symm))

/-! ## Approvals -/

theorem deviceApprovalCreate_eq_ok (hS : S.Exact) (hD : D.Exact) {id : FixedBytes 16}
    {userId fingerprint nonce : Bytes32} {account : ReadableKey D} {approvedAt : UInt64}
    {kp : HybridSigningKeypair P.toSignaturePrimitives}
    {coins : SigningCoins P.toSignaturePrimitives} {bytes : Bytes} :
    deviceApprovalCreate D S id.val userId.val fingerprint.val nonce.val account.val.toBytes.val
        approvedAt (signingToBytes S kp).val coins = .ok bytes ↔
      ∃ cert, DeviceApprovalCertificate.new id userId fingerprint nonce account.val
        approvedAt.toNat kp coins = .ok cert ∧ bytes = cert.toBytes := by
  have hid : arrayFromBytes 16 id.val .malformedMessage = .ok id := arrayFromBytes_eq_ok.mpr rfl
  have harray (a : Bytes32) : arrayFromBytes 32 a.val .malformedMessage = .ok a :=
    arrayFromBytes_eq_ok.mpr rfl
  have haccount : ReadableKey.fromBytes D account.val.toBytes.val = .ok account :=
    (ReadableKey.fromBytes_eq_ok hD).mpr rfl
  have hkeypair : signingFromBytes S (signingToBytes S kp).val = .ok kp :=
    (signingFromBytes_eq_ok hS).mpr rfl
  simp only [deviceApprovalCreate, Except.bind_eq_ok, rejectIf_eq_ok, not_not, debugError_eq_ok,
    hid, harray, haccount, hkeypair, Except.pure_eq_ok, FixedBytes.length_coe, Except.ok.injEq,
    exists_eq_left', exists_const, true_and]
  exact exists_congr fun cert => and_congr_right fun _ => eq_comm

/-- What the verification of a new certificate comes to: first the window, then the account
key; the signature holds. -/
theorem verify_created (hcurve : P.Rfc8032) (hmldsa : P.Correct) {id : FixedBytes 16}
    {userId fingerprint nonce : Bytes32} {account : HybridSigningPublicKey P.toSignaturePrimitives}
    {approvedAt : Nat} {kp : HybridSigningKeypair P.toSignaturePrimitives}
    {coins : SigningCoins P.toSignaturePrimitives}
    {cert : DeviceApprovalCertificate P.toSignaturePrimitives}
    (hnew : DeviceApprovalCertificate.new id userId fingerprint nonce account approvedAt kp coins =
      .ok cert) (expected : HybridSigningPublicKey P.toSignaturePrimitives) (now : Nat)
    (window : NonceWindow) :
    cert.verify expected now window =
      if (now - approvedAt) + (approvedAt - now) > window.seconds then .error .nonceExpired
      else if account.toBytes ≠ expected.toBytes then .error .identityKeyMismatch
      else .ok () := by
  simp only [DeviceApprovalCertificate.new, Except.bind_eq_ok, Except.pure_eq_ok] at hnew
  obtain ⟨sig, hsign, rfl⟩ := hnew
  have hverify := bopVerifyCore_bopSignCore hcurve hmldsa hsign
  simp only [DeviceApprovalCertificate.verify, rejectIf]
  by_cases htime : (now - approvedAt) + (approvedAt - now) > window.seconds
  · rw [if_pos htime, if_pos htime]
    rfl
  · rw [if_neg htime, if_neg htime]
    by_cases hkey : account.toBytes ≠ expected.toBytes
    · rw [if_pos hkey]
      rfl
    · rw [if_neg hkey]
      exact hverify

theorem readable_created (hread : ReadsDerived D) {id : FixedBytes 16}
    {userId fingerprint nonce : Bytes32} {account : ReadableKey D} {approvedAt : UInt64}
    {kp : HybridSigningKeypair P.toSignaturePrimitives}
    {coins : SigningCoins P.toSignaturePrimitives}
    {cert : DeviceApprovalCertificate P.toSignaturePrimitives}
    (hnew : DeviceApprovalCertificate.new id userId fingerprint nonce account.val approvedAt.toNat
      kp coins = .ok cert) : cert.Readable D := by
  simp only [DeviceApprovalCertificate.new, Except.bind_eq_ok, Except.pure_eq_ok] at hnew
  obtain ⟨sig, hsign, rfl⟩ := hnew
  have hcanonical := guardCanonical_of_sign (P := P) hsign
  exact ⟨hread.acceptsPoint_publicKey kp, account.property, approvedAt.toNat_lt, hcanonical⟩

/-- Whoever verifies a new approval, against any account key and at any time, gets the fields
that it was made of, and an error that the window and the account key determine.  The time
is exact as far as doubles are. -/
theorem approval_calls (hcurve : P.Rfc8032) (hmldsa : P.Correct) (hS : S.Exact) (hD : D.Exact)
    (hread : ReadsDerived D) {id : FixedBytes 16} {userId fingerprint nonce : Bytes32}
    {account : ReadableKey D} {approvedAt : UInt64}
    {kp : HybridSigningKeypair P.toSignaturePrimitives}
    {coins : SigningCoins P.toSignaturePrimitives} {bytes : Bytes}
    (hcreate : deviceApprovalCreate D S id.val userId.val fingerprint.val nonce.val
      account.val.toBytes.val approvedAt (signingToBytes S kp).val coins = .ok bytes)
    (expected : ReadableKey D) (now window : UInt64) :
    ∃ info, deviceApprovalVerify D bytes expected.val.toBytes.val now window = .ok info ∧
      info.error =
        (if (now.toNat - approvedAt.toNat) + (approvedAt.toNat - now.toNat) > window.toNat then
          some .nonceExpired
        else if account.val.toBytes ≠ expected.val.toBytes then some .identityKeyMismatch
        else none) ∧
      info.valid = info.error.isNone ∧ info.approvingDeviceId = id ∧ info.userId = userId ∧
      info.newDeviceFingerprint = fingerprint ∧ info.serverNonce = nonce ∧
      info.approvingDevicePk = kp.publicKey.toBytes ∧
      info.accountIdentityPk = account.val.toBytes ∧ info.approvedAt = asF64 approvedAt.toNat ∧
      (approvedAt.toNat ≤ 2 ^ 53 → info.approvedAt.value = approvedAt.toNat) := by
  obtain ⟨cert, hnew, rfl⟩ := (deviceApprovalCreate_eq_ok hS hD).mp hcreate
  have hverify := verify_created hcurve hmldsa hnew expected.val now.toNat ⟨window.toNat⟩
  have hcert : DeviceApprovalCertificate.fromBytes D cert.toBytes = .ok cert :=
    (DeviceApprovalCertificate.fromBytes_eq_ok hD).mpr ⟨rfl, readable_created hread hnew⟩
  have hexpected : ReadableKey.fromBytes D expected.val.toBytes.val = .ok expected :=
    (ReadableKey.fromBytes_eq_ok hD).mpr rfl
  have hcall : deviceApprovalVerify D cert.toBytes expected.val.toBytes.val now window =
      .ok (.of cert (cert.verify expected.val now.toNat ⟨window.toNat⟩)) := by
    simp only [deviceApprovalVerify, Except.bind_eq_ok, debugError_eq_ok, Except.pure_eq_ok]
    exact ⟨cert, hcert, expected, hexpected, rfl⟩
  simp only [DeviceApprovalCertificate.new, Except.bind_eq_ok, Except.pure_eq_ok] at hnew
  obtain ⟨sig, _, rfl⟩ := hnew
  refine ⟨_, hcall, ?_, ?_, rfl, rfl, rfl, rfl, rfl, rfl, rfl, asF64_value⟩
  · show errorOf _ = _
    rw [hverify]
    split
    · rfl
    · split <;> rfl
  · show Except.isOk _ = (errorOf _).isNone
    rw [hverify]
    split
    · rfl
    · split <;> rfl

/-! ## Revocations -/

theorem deviceRevocationCreate_eq_ok (hS : S.Exact) {id : FixedBytes 16} {reason : UInt8}
    {revokedAt : UInt64} {kp : HybridSigningKeypair P.toSignaturePrimitives}
    {coins : SigningCoins P.toSignaturePrimitives} {bytes : Bytes} :
    deviceRevocationCreate S id.val reason revokedAt (signingToBytes S kp).val coins = .ok bytes ↔
      ∃ r : DeviceRevocation P, DeviceRevocation.new id r.reason revokedAt kp coins = .ok r ∧
        reason = r.reason.toByte ∧ bytes = r.toBytes := by
  have hid : arrayFromBytes 16 id.val .malformedMessage = .ok id := arrayFromBytes_eq_ok.mpr rfl
  have hkeypair : signingFromBytes S (signingToBytes S kp).val = .ok kp :=
    (signingFromBytes_eq_ok hS).mpr rfl
  simp only [deviceRevocationCreate, Except.bind_eq_ok, rejectIf_eq_ok, not_not, debugError_eq_ok,
    Except.mapError_eq_ok, DeviceRevocation.reasonOf_eq_ok, hid, hkeypair, Except.pure_eq_ok,
    FixedBytes.length_coe, Except.ok.injEq, exists_eq_left', exists_const, true_and]
  constructor
  · intro hex
    rcases hex with ⟨reason', hreason, r, hr, hbytes⟩
    obtain ⟨_, _, _, rfl⟩ := DeviceRevocation.new_eq_ok.mp hr
    exact ⟨r, hr, Option.some.inj hreason, hbytes.symm⟩
  · intro hex
    rcases hex with ⟨r, hr, hreason, hbytes⟩
    exact ⟨r.reason, congrArg some hreason, r, hr, hbytes.symm⟩

/-- A new revocation verifies under the key of the user who made it, and everyone reads the
fields that it was made of, the time as exact as doubles are. -/
theorem revocation_calls (hcurve : P.Rfc8032) (hmldsa : P.Correct) (hS : S.Exact) (hD : D.Exact)
    (hread : ReadsDerived D) {id : FixedBytes 16} {reason : UInt8} {revokedAt : UInt64}
    {kp : HybridSigningKeypair P.toSignaturePrimitives}
    {coins : SigningCoins P.toSignaturePrimitives} {bytes : Bytes}
    (hcreate : deviceRevocationCreate S id.val reason revokedAt (signingToBytes S kp).val coins =
      .ok bytes) :
    deviceRevocationVerify D bytes kp.publicKey.toBytes.val =
      .ok ⟨true, id, asF64 reason.toNat, asF64 revokedAt.toNat⟩ ∧
    (∀ user : ReadableKey D, ∃ valid, deviceRevocationVerify D bytes user.val.toBytes.val =
      .ok ⟨valid, id, asF64 reason.toNat, asF64 revokedAt.toNat⟩) ∧
    (asF64 reason.toNat).value = reason.toNat ∧
    (revokedAt.toNat ≤ 2 ^ 53 → (asF64 revokedAt.toNat).value = revokedAt.toNat) := by
  obtain ⟨r, hnew, rfl, rfl⟩ := (deviceRevocationCreate_eq_ok hS).mp hcreate
  obtain ⟨hsign, hid, hat, _⟩ := DeviceRevocation.new_eq_ok.mp hnew
  have hr : DeviceRevocation.fromBytes D r.toBytes = .ok r :=
    (DeviceRevocation.fromBytes_eq_ok hD).mpr rfl
  have hcall (user : ReadableKey D) : deviceRevocationVerify D r.toBytes user.val.toBytes.val =
      .ok ⟨(r.verify user.val).isOk, id, asF64 r.reason.toByte.toNat, asF64 revokedAt.toNat⟩ := by
    have huser : ReadableKey.fromBytes D user.val.toBytes.val = .ok user :=
      (ReadableKey.fromBytes_eq_ok hD).mpr rfl
    simp only [deviceRevocationVerify, Except.bind_eq_ok, debugError_eq_ok, Except.pure_eq_ok]
    exact ⟨r, hr, user, huser, by rw [hid, hat]⟩
  have hreason : r.reason.toByte.toNat ≤ 2 ^ 53 :=
    Nat.le_trans r.reason.toByte.toNat_lt.le (show 2 ^ 8 ≤ 2 ^ 53 by decide)
  refine ⟨?_, fun user => ⟨_, hcall user⟩, asF64_value hreason, asF64_value⟩
  have hverify : r.verify kp.publicKey = .ok () := by
    rw [DeviceRevocation.verify, hid, hat]
    exact bopVerifyCore_bopSignCore hcurve hmldsa hsign
  have hown := hcall ⟨kp.publicKey, hread.acceptsPoint_publicKey kp⟩
  rw [hverify] at hown
  exact hown

/-! ## A sample device -/

section Sample

/-- The account key of the samples. -/
def sampleAccount : ReadableKey (sampleDecoders additiveCurve) := ⟨(sampleKeypair 2).publicKey, rfl⟩

/-- An approval is rejected a second after its window. -/
theorem approval_calls_late : ∃ bytes info,
    deviceApprovalCreate (sampleDecoders additiveCurve) (sampleCodecs additiveCurve)
      (filled 16 1).val zero32.val zero32.val zero32.val sampleAccount.val.toBytes.val 1000
      (signingToBytes (sampleCodecs additiveCurve) (sampleKeypair 1)).val sampleCoins = .ok bytes ∧
    deviceApprovalVerify (sampleDecoders additiveCurve) bytes sampleAccount.val.toBytes.val 1301
      300 = .ok info ∧ info.error = some .nonceExpired := by
  obtain ⟨sig, hsig⟩ := sample_signs 1 (DeviceApprovalCertificate.signingData (filled 16 1) zero32
    zero32 zero32 (sampleKeypair 1).publicKey sampleAccount.val 1000)
  have hnew : DeviceApprovalCertificate.new
      (P := (samplePrimitives additiveCurve).toSignaturePrimitives)
      (filled 16 1) zero32 zero32 zero32 sampleAccount.val (1000 : UInt64).toNat (sampleKeypair 1)
      sampleCoins = .ok ⟨filled 16 1, zero32, zero32, zero32, (sampleKeypair 1).publicKey,
        sampleAccount.val, 1000, sig⟩ := Except.bind_eq_ok.mpr ⟨sig, hsig, rfl⟩
  have hcreate := (deviceApprovalCreate_eq_ok (sampleCodecs_exact additiveCurve)
    (sampleDecoders_exact additiveCurve)).mpr ⟨_, hnew, rfl⟩
  obtain ⟨info, hverify, herror, _⟩ := approval_calls scalarCurve_rfc8032 transparentMlDsa_correct
    (sampleCodecs_exact additiveCurve) (sampleDecoders_exact additiveCurve)
    (sampleDecoders_readsDerived additiveCurve) hcreate sampleAccount 1301 300
  exact ⟨_, info, hcreate, hverify, herror⟩

theorem revocation_calls_lost : ∃ bytes,
    deviceRevocationCreate (sampleCodecs additiveCurve) (filled 16 1).val 1 5
      (signingToBytes (sampleCodecs additiveCurve) (sampleKeypair 1)).val sampleCoins = .ok bytes ∧
    deviceRevocationVerify (sampleDecoders additiveCurve) bytes
      (sampleKeypair 1).publicKey.toBytes.val = .ok ⟨true, filled 16 1, asF64 1, asF64 5⟩ := by
  obtain ⟨sig, hsig⟩ := sample_signs 1 (DeviceRevocation.signingData (filled 16 1) 5 .deviceLost)
  have hcanonical := guardCanonical_of_sign (P := samplePrimitives additiveCurve) hsig
  have hcreate := (deviceRevocationCreate_eq_ok (sampleCodecs_exact additiveCurve)).mpr
    ⟨⟨filled 16 1, 5, .deviceLost, ⟨sig, hcanonical⟩⟩,
      DeviceRevocation.new_eq_ok.mpr ⟨hsig, rfl, rfl, rfl⟩, rfl, rfl⟩
  exact ⟨_, hcreate, (revocation_calls scalarCurve_rfc8032 transparentMlDsa_correct
    (sampleCodecs_exact additiveCurve) (sampleDecoders_exact additiveCurve)
    (sampleDecoders_readsDerived additiveCurve) hcreate).1⟩

end Sample

end Trelis.Wasm
