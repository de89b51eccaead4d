import Trelis.MultiDevice.SignedStatements
import Trelis.X3dh.KeyCodec

/-!
# Device certificates on the wire

The wire forms of approvals and of revocations (`approval.rs`, `revocation.rs`).  Both
are rows of fields with a signature at the end, and the decoders look at the length of
the row only; the signature takes what is left, and has one length.

A certificate that was read has keys that were checked, a canonical signature and a
time of 64 bits.  The decoders accept the encodings of these, and nothing else
(`DeviceApprovalCertificate.fromBytes_eq_ok`, `DeviceRevocation.fromBytes_eq_ok`).
-/

namespace Trelis.MultiDevice

open Hybrid X3dh

variable {P : HandshakePrimitives}

/-! ## Approvals -/

namespace DeviceApprovalCertificate

/-- The fields in front of the signature. -/
def body (cert : DeviceApprovalCertificate P.toSignaturePrimitives) : Bytes :=
  cert.approvingDeviceId.val ++ (cert.userId.val ++ (cert.newDeviceFingerprint.val ++
    (cert.serverNonce.val ++ (cert.approvingDevicePk.toBytes.val ++
      (cert.accountIdentityPk.toBytes.val ++ leBytes 8 cert.approvedAt)))))

/-- `DeviceApprovalCertificate::to_bytes`. -/
def toBytes (cert : DeviceApprovalCertificate P.toSignaturePrimitives) : Bytes :=
  cert.body ++ cert.signature.toBytes.val

/-- `BODY_SIZE`. -/
def bodySize : Nat := 16 + 32 + 32 + 32 + 2009 + 2009 + 8

/-- `DeviceApprovalCertificate::from_bytes`. -/
def fromBytes (D : KeyDecoders P) (bytes : Bytes) :
    Result (DeviceApprovalCertificate P.toSignaturePrimitives) := do
  rejectIf (bytes.length < bodySize) .malformedMessage
  -- The slices have the lengths of the arrays, so that the copies do not fail.
  let approvingDeviceId ← arrayFromBytes 16 (sliceAt bytes 0 16) .malformedMessage
  let userId ← arrayFromBytes 32 (sliceAt bytes 16 32) .malformedMessage
  let newDeviceFingerprint ← arrayFromBytes 32 (sliceAt bytes 48 32) .malformedMessage
  let serverNonce ← arrayFromBytes 32 (sliceAt bytes 80 32) .malformedMessage
  let approvingDevicePk ←
    (ReadableKey.fromBytes D (sliceAt bytes 112 2009)).mapError fun _ => .malformedMessage
  let accountIdentityPk ←
    (ReadableKey.fromBytes D (sliceAt bytes 2121 2009)).mapError fun _ => .malformedMessage
  let approvedAt := leValue (sliceAt bytes 4130 8)
  let signature ←
    (CanonicalSignature.fromBytes D (bytes.drop 4138)).mapError fun _ => .malformedMessage
  pure { approvingDeviceId, userId, newDeviceFingerprint, serverNonce,
         approvingDevicePk := approvingDevicePk.val, accountIdentityPk := accountIdentityPk.val,
         approvedAt, signature := signature.val }

/-- The fields pass the checks of their decoders. -/
structure Readable (D : KeyDecoders P)
    (cert : DeviceApprovalCertificate P.toSignaturePrimitives) : Prop where
  approvingDevicePk : D.acceptsPoint cert.approvingDevicePk.ed448.inner = true
  accountIdentityPk : D.acceptsPoint cert.accountIdentityPk.ed448.inner = true
  approvedAt : cert.approvedAt < 2 ^ 64
  signature : Ed448BopResponse.guardCanonical cert.signature.rsp.bytes = .ok ()

variable {D : KeyDecoders P} {cert : DeviceApprovalCertificate P.toSignaturePrimitives}
  {bytes : Bytes}

@[simp] theorem length_body (cert : DeviceApprovalCertificate P.toSignaturePrimitives) :
    cert.body.length = 4138 := by
  simp [body]

/-- The fields of an encoding. -/
theorem eq_toBytes_iff : bytes = cert.toBytes ↔
    sliceAt bytes 0 16 = cert.approvingDeviceId.val ∧ sliceAt bytes 16 32 = cert.userId.val ∧
      sliceAt bytes 48 32 = cert.newDeviceFingerprint.val ∧
      sliceAt bytes 80 32 = cert.serverNonce.val ∧
      sliceAt bytes 112 2009 = cert.approvingDevicePk.toBytes.val ∧
      sliceAt bytes 2121 2009 = cert.accountIdentityPk.toBytes.val ∧
      sliceAt bytes 4130 8 = leBytes 8 cert.approvedAt ∧
      bytes.drop 4138 = cert.signature.toBytes.val := by
  simp only [toBytes, body, List.append_assoc]
  rw [eq_append_iff (FixedBytes.length_coe _), drop_eq_append_iff (FixedBytes.length_coe _),
    drop_eq_append_iff (FixedBytes.length_coe _), drop_eq_append_iff (FixedBytes.length_coe _),
    drop_eq_append_iff (FixedBytes.length_coe _), drop_eq_append_iff (FixedBytes.length_coe _),
    drop_eq_append_iff (leBytes_length 8 _)]

theorem leValue_sliceAt {start n : Nat} (h : start + 8 ≤ bytes.length) (hn : n < 2 ^ 64) :
    leValue (sliceAt bytes start 8) = n ↔ sliceAt bytes start 8 = leBytes 8 n := by
  have hlength : (sliceAt bytes start 8).length = 8 := length_sliceAt h
  constructor
  · intro hvalue
    have hbytes := leBytes_leValue (sliceAt bytes start 8)
    rw [hlength, hvalue] at hbytes
    exact hbytes.symm
  · intro hbytes
    rw [hbytes, leValue_leBytes (lt_word8 hn)]

/-- Approvals are read from their encodings. -/
theorem fromBytes_eq_ok (hD : D.Exact) :
    fromBytes D bytes = .ok cert ↔ bytes = cert.toBytes ∧ Readable D cert := by
  simp only [fromBytes, Except.bind_eq_ok, rejectIf_eq_ok, Except.mapError_eq_ok,
    arrayFromBytes_eq_ok, ReadableKey.fromBytes_eq_ok hD, CanonicalSignature.fromBytes_eq_ok hD,
    Except.pure_eq_ok]
  constructor
  · intro hex
    rcases hex with ⟨_, hlong, id, hid, user, huser, fingerprint, hfingerprint, nonce, hnonce,
      device, hdevice, account, haccount, sig, hsig, hcert⟩
    have hlength : 4138 ≤ bytes.length := Nat.not_lt.mp hlong
    have hword : (sliceAt bytes 4130 8).length = 8 := length_sliceAt (by omega)
    have hlt : leValue (sliceAt bytes 4130 8) < 2 ^ 64 := by
      have hvalue := leValue_lt (sliceAt bytes 4130 8)
      rwa [hword] at hvalue
    subst hcert
    refine ⟨eq_toBytes_iff.mpr ⟨hid, huser, hfingerprint, hnonce, hdevice, haccount, ?_, hsig⟩,
      ⟨device.property, account.property, hlt, sig.property⟩⟩
    exact (leValue_sliceAt (by omega) hlt).mp rfl
  · intro hboth
    rcases hboth with ⟨hbytes, hreadable⟩
    have hlength : bytes.length = 4138 + 3366 := by
      rw [hbytes, toBytes, List.length_append, length_body, FixedBytes.length_coe]
    obtain ⟨hid, huser, hfingerprint, hnonce, hdevice, haccount, hat, hsig⟩ :=
      eq_toBytes_iff.mp hbytes
    refine ⟨(), ?_, _, hid, _, huser, _, hfingerprint, _, hnonce,
      ⟨_, hreadable.approvingDevicePk⟩, hdevice, ⟨_, hreadable.accountIdentityPk⟩, haccount,
      ⟨_, hreadable.signature⟩, hsig, ?_⟩
    · rw [hlength]
      decide
    · rw [(leValue_sliceAt (by omega) hreadable.approvedAt).mpr hat]

end DeviceApprovalCertificate

/-! ## Revocations -/

/-- `RevocationReason::from_byte`. -/
def RevocationReason.fromByte : UInt8 → Option RevocationReason
  | 0 => some userInitiated
  | 1 => some deviceLost
  | 2 => some deviceCompromised
  | 3 => some deviceReplaced
  | _ => none

theorem RevocationReason.fromByte_eq_some {b : UInt8} {reason : RevocationReason} :
    fromByte b = some reason ↔ b = reason.toByte := by
  constructor
  · intro h
    unfold fromByte at h
    split at h <;> cases h <;> rfl
  · intro h
    rw [h]
    cases reason <;> rfl

/-- `DeviceRevocation`. -/
structure DeviceRevocation (P : HandshakePrimitives) where
  deviceId : FixedBytes 16
  revokedAt : UInt64
  reason : RevocationReason
  signature : CanonicalSignature P

namespace DeviceRevocation

/-- `DeviceRevocation::new`. -/
def new (deviceId : FixedBytes 16) (reason : RevocationReason) (revokedAt : UInt64)
    (signingKey : HybridSigningKeypair P.toSignaturePrimitives)
    (coins : SigningCoins P.toSignaturePrimitives) : Result (DeviceRevocation P) := do
  let sigData := signingData deviceId revokedAt reason
  let signature ← CanonicalSignature.sign signingKey sigData coins
  pure { deviceId, revokedAt, reason, signature }

/-- `DeviceRevocation::verify`. -/
def verify (r : DeviceRevocation P) (userKey : HybridSigningPublicKey P.toSignaturePrimitives) :
    Result Unit :=
  userKey.verify (signingData r.deviceId r.revokedAt r.reason) r.signature.val

/-- `DeviceRevocation::to_bytes`. -/
def toBytes (r : DeviceRevocation P) : Bytes :=
  r.deviceId.val ++ (leBytes 8 r.revokedAt.toNat ++ ([r.reason.toByte] ++
    r.signature.val.toBytes.val))

/-- `from_byte` with the error of the `ok_or` behind it. -/
def reasonOf (b : Option UInt8) : Result RevocationReason :=
  match b.bind RevocationReason.fromByte with
  | some reason => .ok reason
  | none => .error .malformedMessage

/-- `DeviceRevocation::from_bytes`. -/
def fromBytes (D : KeyDecoders P) (bytes : Bytes) : Result (DeviceRevocation P) := do
  rejectIf (bytes.length < 25) .malformedMessage
  -- The slice has the length of the array, so that the copy does not fail.
  let deviceId ← arrayFromBytes 16 (sliceAt bytes 0 16) .malformedMessage
  let revokedAt := readUInt64 (sliceAt bytes 16 8)
  let reason ← reasonOf bytes[24]?
  let signature ←
    (CanonicalSignature.fromBytes D (bytes.drop 25)).mapError fun _ => .malformedMessage
  pure { deviceId, revokedAt, reason, signature }

variable {D : KeyDecoders P} {r : DeviceRevocation P} {bytes : Bytes}

theorem new_eq_ok {deviceId : FixedBytes 16} {reason : RevocationReason} {revokedAt : UInt64}
    {signingKey : HybridSigningKeypair P.toSignaturePrimitives}
    {coins : SigningCoins P.toSignaturePrimitives} :
    new deviceId reason revokedAt signingKey coins = .ok r ↔
      signingKey.sign (signingData deviceId revokedAt reason) coins = .ok r.signature.val ∧
        r.deviceId = deviceId ∧ r.revokedAt = revokedAt ∧ r.reason = reason := by
  simp only [new, Except.bind_eq_ok, CanonicalSignature.sign_eq_ok, Except.pure_eq_ok]
  constructor
  · intro hex
    rcases hex with ⟨signature, hsign, rfl⟩
    exact ⟨hsign, rfl, rfl, rfl⟩
  · intro hboth
    rcases hboth with ⟨hsign, rfl, rfl, rfl⟩
    exact ⟨r.signature, hsign, rfl⟩

theorem reasonOf_eq_ok {b : Option UInt8} {reason : RevocationReason} :
    reasonOf b = .ok reason ↔ b = some reason.toByte := by
  unfold reasonOf
  constructor
  · intro h
    split at h
    · next found hfound =>
      obtain rfl : found = reason := Except.ok.inj h
      obtain ⟨byte, hb, hbyte⟩ := Option.bind_eq_some_iff.mp hfound
      rw [hb, RevocationReason.fromByte_eq_some.mp hbyte]
    · cases h
  · intro h
    rw [h, Option.bind_some, RevocationReason.fromByte_eq_some.mpr rfl]

/-- One byte of a string, as a field. -/
theorem sliceAt_one {start : Nat} {b : UInt8} (h : start < bytes.length) :
    sliceAt bytes start 1 = [b] ↔ bytes[start]? = some b := by
  rw [sliceAt, List.drop_eq_getElem_cons h, List.take_succ_cons, List.take_zero,
    List.getElem?_eq_getElem h]
  simp

/-- Revocations are read from their encodings. -/
theorem fromBytes_eq_ok (hD : D.Exact) : fromBytes D bytes = .ok r ↔ bytes = r.toBytes := by
  have hfields : bytes = r.toBytes ↔ sliceAt bytes 0 16 = r.deviceId.val ∧
      sliceAt bytes 16 8 = leBytes 8 r.revokedAt.toNat ∧ sliceAt bytes 24 1 = [r.reason.toByte] ∧
      bytes.drop 25 = r.signature.val.toBytes.val := by
    rw [toBytes, eq_append_iff (FixedBytes.length_coe _), drop_eq_append_iff (leBytes_length 8 _),
      drop_eq_append_iff (List.length_singleton)]
  simp only [fromBytes, Except.bind_eq_ok, rejectIf_eq_ok, arrayFromBytes_eq_ok,
    reasonOf_eq_ok, Except.mapError_eq_ok, CanonicalSignature.fromBytes_eq_ok hD,
    Except.pure_eq_ok]
  constructor
  · intro hex
    rcases hex with ⟨_, hlong, id, hid, reason, hreason, sig, hsig, hr⟩
    subst hr
    have hlength : 25 ≤ bytes.length := Nat.not_lt.mp hlong
    exact hfields.mpr ⟨hid, (readUInt64_sliceAt (by omega)).mp rfl,
      (sliceAt_one (by omega)).mpr hreason, hsig⟩
  · intro hbytes
    have hlength : bytes.length = 25 + 3366 := by
      rw [hbytes]
      simp [toBytes]
    obtain ⟨hid, hat, hreason, hsig⟩ := hfields.mp hbytes
    refine ⟨(), by omega, _, hid, r.reason, (sliceAt_one (by omega)).mp hreason, _, hsig, ?_⟩
    rw [(readUInt64_sliceAt (by omega)).mpr hat]

end DeviceRevocation

/-! ## Rekeying -/

/-- `RevocationRekeyEvent`. -/
structure RevocationRekeyEvent where
  deviceId : FixedBytes 16
  reason : RevocationReason
  revokedAt : UInt64

namespace RevocationRekeyEvent

/-- `RevocationRekeyEvent::from_revocation`. -/
def fromRevocation (r : DeviceRevocation P) : RevocationRekeyEvent :=
  ⟨r.deviceId, r.reason, r.revokedAt⟩

/-- `requires_immediate_rekey`. -/
def requiresImmediateRekey (e : RevocationRekeyEvent) : Bool := e.reason = .deviceCompromised

end RevocationRekeyEvent

/-! ## The codecs -/

/-- A certificate whose fields were checked is read back, and what is read re-encodes to the
bytes that it was read from.  Of the revocations that are read, those with the byte 2 in
the place of the reason ask for new keys at once. -/
theorem device_certificate_codec {D : KeyDecoders P} (hD : D.Exact) :
    (∀ cert : DeviceApprovalCertificate P.toSignaturePrimitives, cert.Readable D →
      DeviceApprovalCertificate.fromBytes D cert.toBytes = .ok cert) ∧
    (∀ bytes cert, DeviceApprovalCertificate.fromBytes D bytes = .ok cert →
      cert.toBytes = bytes ∧ bytes.length = 7504 ∧ cert.Readable D) ∧
    (∀ r : DeviceRevocation P, DeviceRevocation.fromBytes D r.toBytes = .ok r) ∧
    ∀ bytes r, DeviceRevocation.fromBytes D bytes = .ok r →
      r.toBytes = bytes ∧ bytes.length = 3391 ∧
        ((RevocationRekeyEvent.fromRevocation r).requiresImmediateRekey = true ↔
          bytes[24]? = some 2) := by
  refine ⟨?_, ?_, ?_, ?_⟩
  · intro cert hreadable
    exact (DeviceApprovalCertificate.fromBytes_eq_ok hD).mpr ⟨rfl, hreadable⟩
  · intro bytes cert h
    obtain ⟨rfl, hreadable⟩ := (DeviceApprovalCertificate.fromBytes_eq_ok hD).mp h
    refine ⟨rfl, ?_, hreadable⟩
    rw [DeviceApprovalCertificate.toBytes, List.length_append,
      DeviceApprovalCertificate.length_body, FixedBytes.length_coe]
  · intro r
    exact (DeviceRevocation.fromBytes_eq_ok hD).mpr rfl
  · intro bytes r h
    obtain rfl := (DeviceRevocation.fromBytes_eq_ok hD).mp h
    have hlength : r.toBytes.length = 3391 := by simp [DeviceRevocation.toBytes]
    have hbyte : r.toBytes[24]? = some r.reason.toByte := by
      rw [DeviceRevocation.toBytes, List.getElem?_append_right (by simp),
        List.getElem?_append_right (by simp)]
      simp
    refine ⟨rfl, hlength, ?_⟩
    rw [hbyte]
    cases hreason : r.reason <;>
      simp [RevocationRekeyEvent.requiresImmediateRekey, RevocationRekeyEvent.fromRevocation,
        RevocationReason.toByte, hreason]

/-- A revocation with the blank signature. -/
def sampleRevocation (C : MontgomeryCurve) : DeviceRevocation (samplePrimitives C) where
  deviceId := filled 16 1
  revokedAt := 2
  reason := .deviceCompromised
  signature := blankSignature C

theorem device_certificate_codec_sample :
    DeviceRevocation.fromBytes (sampleDecoders rfc7748Curve)
      (sampleRevocation rfc7748Curve).toBytes = .ok (sampleRevocation rfc7748Curve) ∧
      (sampleRevocation rfc7748Curve).toBytes[24]? = some 2 := by
  obtain ⟨_, _, hback, hread⟩ := device_certificate_codec (sampleDecoders_exact rfc7748Curve)
  have hr := hback (sampleRevocation rfc7748Curve)
  exact ⟨hr, (hread _ _ hr).2.2.mp (by decide)⟩

end Trelis.MultiDevice
