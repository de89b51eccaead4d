import Trelis.Hybrid.SafetyNumber
import Trelis.Lib.Slices
import Trelis.MultiDevice.Approval

/-!
# Signed statements

What identity and device keys sign in plain mode: the nine statements of the
multidevice, hybrid and handshake crates, and the bytes that each is signed as.

Every statement is a row of fields of fixed sizes, eight of them behind a context
string.  The nine rows have nine different sizes, so signed bytes tell which
statement they are, and then what its fields are (`signingData_inj`).
-/

namespace Trelis.MultiDevice

open Hybrid X3dh

variable {P : HandshakePrimitives}

/-! ## Fields -/

theorem leBytes_uint64_inj {a b : UInt64} (h : leBytes 8 a.toNat = leBytes 8 b.toNat) : a = b :=
  UInt64.toNat_inj.mp (leBytes_inj (lt_word8 a.toNat_lt) (lt_word8 b.toNat_lt) h)

/-! ## Revocation -/

/-- `RevocationReason`. -/
inductive RevocationReason where
  | userInitiated
  | deviceLost
  | deviceCompromised
  | deviceReplaced
deriving DecidableEq

def RevocationReason.toByte : RevocationReason → UInt8
  | userInitiated => 0
  | deviceLost => 1
  | deviceCompromised => 2
  | deviceReplaced => 3

def revocationContext : Bytes := ascii "trelis-device-revocation-v1"

/-- `DeviceRevocation::signing_data`. -/
def DeviceRevocation.signingData (deviceId : FixedBytes 16) (revokedAt : UInt64)
    (reason : RevocationReason) : Bytes :=
  revocationContext ++ deviceId.val ++ leBytes 8 revokedAt.toNat ++ [reason.toByte]

theorem RevocationReason.toByte_inj {r r' : RevocationReason} (h : r.toByte = r'.toByte) :
    r = r' := by
  revert h
  cases r <;> cases r' <;> decide

theorem DeviceRevocation.signingData_inj {deviceId deviceId' : FixedBytes 16}
    {revokedAt revokedAt' : UInt64} {reason reason' : RevocationReason}
    (h : signingData deviceId revokedAt reason = signingData deviceId' revokedAt' reason') :
    deviceId = deviceId' ∧ revokedAt = revokedAt' ∧ reason = reason' := by
  have hfields := flatten_inj
    (l := [revocationContext, deviceId.val, leBytes 8 revokedAt.toNat, [reason.toByte]])
    (m := [revocationContext, deviceId'.val, leBytes 8 revokedAt'.toNat, [reason'.toByte]])
    (by simp) (by simpa [signingData] using h)
  simp only [List.cons.injEq, true_and, and_true] at hfields
  obtain ⟨hid, hat, hreason⟩ := hfields
  exact ⟨Subtype.ext hid, leBytes_uint64_inj hat, RevocationReason.toByte_inj hreason⟩

/-! ## History shares -/

/-- `RetainedKey`. -/
structure RetainedKey where
  messageId : Bytes32
  messageKey : Bytes32
  sequence : UInt64
  timestamp : UInt64
deriving DecidableEq

/-- `RetainedKey::to_bytes`. -/
def RetainedKey.toBytes (key : RetainedKey) : Bytes :=
  key.messageId.val ++ key.messageKey.val ++ leBytes 8 key.sequence.toNat ++
    leBytes 8 key.timestamp.toNat

def historyKeyShareContext : Bytes := ascii "trelis-history-key-share-v1"

/-- The keys as they are hashed. -/
def hashedKeys (keys : List RetainedKey) : Bytes := keys.flatMap RetainedKey.toBytes

theorem RetainedKey.selfDelimiting : SelfDelimiting (fun _ => True) RetainedKey.toBytes := by
  refine SelfDelimiting.ofLength 80 (fun key _ => by simp [toBytes]) ?_
  intro a b _ _ h
  have hfields := flatten_inj
    (l := [a.messageId.val, a.messageKey.val, leBytes 8 a.sequence.toNat,
      leBytes 8 a.timestamp.toNat])
    (m := [b.messageId.val, b.messageKey.val, leBytes 8 b.sequence.toNat,
      leBytes 8 b.timestamp.toNat])
    (by simp) (by simpa [toBytes] using h)
  simp only [List.cons.injEq, and_true] at hfields
  obtain ⟨hid, hkey, hsequence, htimestamp⟩ := hfields
  cases a
  cases b
  rw [mk.injEq]
  exact ⟨Subtype.ext hid, Subtype.ext hkey, leBytes_uint64_inj hsequence,
    leBytes_uint64_inj htimestamp⟩

theorem hashedKeys_inj {keys keys' : List RetainedKey} (h : hashedKeys keys = hashedKeys keys') :
    keys = keys' := by
  apply RetainedKey.selfDelimiting.flatMap_inj _ (fun _ _ => trivial) (fun _ _ => trivial) h
  intro key _ hempty
  have hlen := congrArg List.length hempty
  simp [RetainedKey.toBytes] at hlen

/-- `HistoryKeyShareMessage::signing_data`. -/
def HistoryKeyShareMessage.signingData (P : HandshakePrimitives) (threadId : Bytes32)
    (keys : List RetainedKey) (sharedAt : UInt64) : Bytes :=
  historyKeyShareContext ++ threadId.val ++ leBytes 8 keys.length ++ leBytes 8 sharedAt.toNat ++
    (P.hash (hashedKeys keys)).val

/-- The signed bytes of a history share determine it, up to a collision of the
hash. -/
theorem HistoryKeyShareMessage.signingData_inj {threadId threadId' : Bytes32}
    {keys keys' : List RetainedKey} {sharedAt sharedAt' : UInt64}
    (hfree : P.hash (hashedKeys keys) = P.hash (hashedKeys keys') →
      hashedKeys keys = hashedKeys keys')
    (h : signingData P threadId keys sharedAt = signingData P threadId' keys' sharedAt') :
    threadId = threadId' ∧ keys = keys' ∧ sharedAt = sharedAt' := by
  have hfields := flatten_inj
    (l := [historyKeyShareContext, threadId.val, leBytes 8 keys.length, leBytes 8 sharedAt.toNat,
      (P.hash (hashedKeys keys)).val])
    (m := [historyKeyShareContext, threadId'.val, leBytes 8 keys'.length,
      leBytes 8 sharedAt'.toNat, (P.hash (hashedKeys keys')).val])
    (by simp) (by simpa [signingData] using h)
  simp only [List.cons.injEq, true_and, and_true] at hfields
  obtain ⟨hthread, _, hat, hhash⟩ := hfields
  exact ⟨Subtype.ext hthread, hashedKeys_inj (hfree (Subtype.ext hhash)), leBytes_uint64_inj hat⟩

/-! ## One-time keys -/

/-- `HybridOneTimeKey`. -/
structure HybridOneTimeKey where
  kem : HybridKemPublicKey
  keyId : FixedBytes 8
deriving DecidableEq

/-- `HybridOneTimeKey::to_bytes`, which is also what is signed. -/
def HybridOneTimeKey.toBytes (otk : HybridOneTimeKey) : Bytes :=
  otk.keyId.val ++ otk.kem.toBytes.val

theorem HybridOneTimeKey.toBytes_inj {otk otk' : HybridOneTimeKey}
    (h : otk.toBytes = otk'.toBytes) : otk = otk' := by
  obtain ⟨hid, hkem⟩ := List.append_inj h (by simp)
  cases otk
  cases otk'
  rw [mk.injEq]
  exact ⟨HybridKemPublicKey.toBytes_inj (Subtype.ext hkem), Subtype.ext hid⟩

/-! ## Compromise and recovery -/

/-- `CompromiseReason`. -/
inductive CompromiseReason where
  | keyExfiltration
  | deviceTheft
  | malwareExposure
  | backupCompromise
  | serverBreach
  | unknown
deriving DecidableEq

def CompromiseReason.toByte : CompromiseReason → UInt8
  | keyExfiltration => 0
  | deviceTheft => 1
  | malwareExposure => 2
  | backupCompromise => 3
  | serverBreach => 4
  | unknown => 255

def compromiseNoticeContext : Bytes := ascii "trelis-compromise-notice-v1"

/-- `CompromiseNotice::signing_data`. -/
def CompromiseNotice.signingData (compromisedFingerprint : Bytes32) (compromisedAt : UInt64)
    (reason : CompromiseReason) (signerFingerprint : Bytes32) : Bytes :=
  compromiseNoticeContext ++ compromisedFingerprint.val ++ leBytes 8 compromisedAt.toNat ++
    [reason.toByte] ++ signerFingerprint.val

theorem CompromiseReason.toByte_inj {r r' : CompromiseReason} (h : r.toByte = r'.toByte) :
    r = r' := by
  revert h
  cases r <;> cases r' <;> decide

theorem CompromiseNotice.signingData_inj {fingerprint fingerprint' signer signer' : Bytes32}
    {compromisedAt compromisedAt' : UInt64} {reason reason' : CompromiseReason}
    (h : signingData fingerprint compromisedAt reason signer =
      signingData fingerprint' compromisedAt' reason' signer') :
    fingerprint = fingerprint' ∧ compromisedAt = compromisedAt' ∧ reason = reason' ∧
      signer = signer' := by
  have hfields := flatten_inj
    (l := [compromiseNoticeContext, fingerprint.val, leBytes 8 compromisedAt.toNat,
      [reason.toByte], signer.val])
    (m := [compromiseNoticeContext, fingerprint'.val, leBytes 8 compromisedAt'.toNat,
      [reason'.toByte], signer'.val])
    (by simp) (by simpa [signingData] using h)
  simp only [List.cons.injEq, true_and, and_true] at hfields
  obtain ⟨hfingerprint, hat, hreason, hsigner⟩ := hfields
  exact ⟨Subtype.ext hfingerprint, leBytes_uint64_inj hat, CompromiseReason.toByte_inj hreason,
    Subtype.ext hsigner⟩

def recoveryKeyAttestContext : Bytes := ascii "trelis-recovery-key-attest-v1"

/-- `RecoveryKeyAttestation::signing_data`. -/
def RecoveryKeyAttestation.signingData
    (oldPk newPk : HybridSigningPublicKey P.toSignaturePrimitives)
    (userId : Bytes32) (registeredAt : UInt64) : Bytes :=
  recoveryKeyAttestContext ++ oldPk.toBytes.val ++ newPk.toBytes.val ++ userId.val ++
    leBytes 8 registeredAt.toNat

theorem RecoveryKeyAttestation.signingData_inj (hkeys : Function.Injective P.verifyingKeyToBytes)
    {oldPk oldPk' newPk newPk' : HybridSigningPublicKey P.toSignaturePrimitives}
    {userId userId' : Bytes32} {registeredAt registeredAt' : UInt64}
    (h : signingData oldPk newPk userId registeredAt =
      signingData oldPk' newPk' userId' registeredAt') :
    oldPk = oldPk' ∧ newPk = newPk' ∧ userId = userId' ∧ registeredAt = registeredAt' := by
  have hfields := flatten_inj
    (l := [recoveryKeyAttestContext, oldPk.toBytes.val, newPk.toBytes.val, userId.val,
      leBytes 8 registeredAt.toNat])
    (m := [recoveryKeyAttestContext, oldPk'.toBytes.val, newPk'.toBytes.val, userId'.val,
      leBytes 8 registeredAt'.toNat])
    (by simp) (by simpa [signingData] using h)
  simp only [List.cons.injEq, true_and, and_true] at hfields
  obtain ⟨hold, hnew, huser, hat⟩ := hfields
  exact ⟨signingPublicKey_toBytes_inj hkeys hold, signingPublicKey_toBytes_inj hkeys hnew,
    Subtype.ext huser, leBytes_uint64_inj hat⟩

/-! ## Identity certificates -/

def identityCertContext : Bytes := ascii "trelis-identity-cert-v1"

/-- `IdentityCertificate::signing_data`. -/
def IdentityCertificate.signingData (subjectIdentity : HybridIdentityPublicKey P)
    (issuedAt expiresAt : UInt64) : Bytes :=
  identityCertContext ++ subjectIdentity.toBytes ++ leBytes 8 issuedAt.toNat ++
    leBytes 8 expiresAt.toNat

theorem IdentityCertificate.signingData_inj (hkeys : Function.Injective P.verifyingKeyToBytes)
    {subject subject' : HybridIdentityPublicKey P}
    {issuedAt issuedAt' expiresAt expiresAt' : UInt64}
    (h : signingData subject issuedAt expiresAt = signingData subject' issuedAt' expiresAt') :
    subject = subject' ∧ issuedAt = issuedAt' ∧ expiresAt = expiresAt' := by
  have hfields := flatten_inj
    (l := [identityCertContext, subject.toBytes, leBytes 8 issuedAt.toNat,
      leBytes 8 expiresAt.toNat])
    (m := [identityCertContext, subject'.toBytes, leBytes 8 issuedAt'.toNat,
      leBytes 8 expiresAt'.toNat])
    (by simp [HybridIdentityPublicKey.length_toBytes]) (by simpa [signingData] using h)
  simp only [List.cons.injEq, true_and, and_true] at hfields
  obtain ⟨hsubject, hissued, hexpires⟩ := hfields
  exact ⟨HybridIdentityPublicKey.toBytes_inj hkeys hsubject, leBytes_uint64_inj hissued,
    leBytes_uint64_inj hexpires⟩

def certifiedSafetyNumberContext : Bytes := ascii "trelis-certified-safety-number-v1"

/-- `CertifiedSafetyNumber::signing_data`. -/
def CertifiedSafetyNumber.signingData (safetyNumber : SafetyNumber) : Bytes :=
  certifiedSafetyNumberContext ++ safetyNumber.fingerprint.val

theorem CertifiedSafetyNumber.signingData_inj {n n' : SafetyNumber}
    (h : signingData n = signingData n') : n = n' := by
  cases n
  cases n'
  rw [SafetyNumber.mk.injEq]
  exact Subtype.ext (List.append_cancel_left h)

/-! ## The statements of other crates -/

theorem DeviceApprovalCertificate.signingData_inj
    (hkeys : Function.Injective P.verifyingKeyToBytes) {id id' : FixedBytes 16}
    {userId userId' fingerprint fingerprint' nonce nonce' : Bytes32}
    {devicePk devicePk' accountPk accountPk' : HybridSigningPublicKey P.toSignaturePrimitives}
    {approvedAt approvedAt' : UInt64}
    (h : signingData id userId fingerprint nonce devicePk accountPk approvedAt.toNat =
      signingData id' userId' fingerprint' nonce' devicePk' accountPk' approvedAt'.toNat) :
    id = id' ∧ userId = userId' ∧ fingerprint = fingerprint' ∧ nonce = nonce' ∧
      devicePk = devicePk' ∧ accountPk = accountPk' ∧ approvedAt = approvedAt' := by
  have hfields := flatten_inj
    (l := [ascii "trelis-device-approval-v1", id.val, userId.val, fingerprint.val, nonce.val,
      devicePk.toBytes.val, accountPk.toBytes.val, leBytes 8 approvedAt.toNat])
    (m := [ascii "trelis-device-approval-v1", id'.val, userId'.val, fingerprint'.val, nonce'.val,
      devicePk'.toBytes.val, accountPk'.toBytes.val, leBytes 8 approvedAt'.toNat])
    (by simp) (by simpa [signingData] using h)
  simp only [List.cons.injEq, true_and, and_true] at hfields
  obtain ⟨hid, huser, hfingerprint, hnonce, hdevice, haccount, hat⟩ := hfields
  exact ⟨Subtype.ext hid, Subtype.ext huser, Subtype.ext hfingerprint, Subtype.ext hnonce,
    signingPublicKey_toBytes_inj hkeys hdevice, signingPublicKey_toBytes_inj hkeys haccount,
    leBytes_uint64_inj hat⟩

theorem preKeyBundle_signingData_inj (hkeys : Function.Injective P.verifyingKeyToBytes)
    {b b' : X3dh.PreKeyBundle P} (h : b.signingData = b'.signingData) : b = b' := by
  have hfields := flatten_inj
    (l := [bundleDomain, b.identitySigning.toBytes.val, b.identityKem.toBytes.val,
      b.oneTimeKey.toBytes.val, leBytes 8 b.otkKeyId.toNat, leBytes 8 b.timestamp.toNat,
      leBytes 8 b.expiration.toNat])
    (m := [bundleDomain, b'.identitySigning.toBytes.val, b'.identityKem.toBytes.val,
      b'.oneTimeKey.toBytes.val, leBytes 8 b'.otkKeyId.toNat, leBytes 8 b'.timestamp.toNat,
      leBytes 8 b'.expiration.toNat])
    (by simp) (by simpa [X3dh.PreKeyBundle.signingData] using h)
  simp only [List.cons.injEq, true_and, and_true] at hfields
  obtain ⟨hsigning, hkem, hotk, hid, htimestamp, hexpiration⟩ := hfields
  cases b
  cases b'
  rw [X3dh.PreKeyBundle.mk.injEq]
  exact ⟨signingPublicKey_toBytes_inj hkeys hsigning,
    HybridKemPublicKey.toBytes_inj (Subtype.ext hkem),
    HybridKemPublicKey.toBytes_inj (Subtype.ext hotk), leBytes_uint64_inj hid,
    leBytes_uint64_inj htimestamp, leBytes_uint64_inj hexpiration⟩

/-! ## The nine statements -/

/-- The types of the statements. -/
inductive StatementKind where
  | deviceApproval
  | deviceRevocation
  | historyShare
  | preKeyBundle
  | oneTimeKey
  | compromiseNotice
  | recoveryKeyAttestation
  | identityCertificate
  | certifiedSafetyNumber
deriving DecidableEq

/-- A statement and its fields. -/
inductive Statement (P : HandshakePrimitives) where
  | deviceApproval (approvingDeviceId : FixedBytes 16)
      (userId newDeviceFingerprint serverNonce : Bytes32)
      (approvingDevicePk accountIdentityPk : HybridSigningPublicKey P.toSignaturePrimitives)
      (approvedAt : UInt64)
  | deviceRevocation (deviceId : FixedBytes 16) (revokedAt : UInt64) (reason : RevocationReason)
  | historyShare (threadId : Bytes32) (keys : List RetainedKey) (sharedAt : UInt64)
  | preKeyBundle (bundle : X3dh.PreKeyBundle P)
  | oneTimeKey (otk : HybridOneTimeKey)
  | compromiseNotice (compromisedFingerprint : Bytes32) (compromisedAt : UInt64)
      (reason : CompromiseReason) (signerFingerprint : Bytes32)
  | recoveryKeyAttestation (oldPk newPk : HybridSigningPublicKey P.toSignaturePrimitives)
      (userId : Bytes32) (registeredAt : UInt64)
  | identityCertificate (subjectIdentity : HybridIdentityPublicKey P)
      (issuedAt expiresAt : UInt64)
  | certifiedSafetyNumber (safetyNumber : SafetyNumber)

namespace Statement

def kind : Statement P → StatementKind
  | deviceApproval .. => .deviceApproval
  | deviceRevocation .. => .deviceRevocation
  | historyShare .. => .historyShare
  | preKeyBundle .. => .preKeyBundle
  | oneTimeKey .. => .oneTimeKey
  | compromiseNotice .. => .compromiseNotice
  | recoveryKeyAttestation .. => .recoveryKeyAttestation
  | identityCertificate .. => .identityCertificate
  | certifiedSafetyNumber .. => .certifiedSafetyNumber

/-- The bytes that are signed. -/
def signingData : Statement P → Bytes
  | deviceApproval id userId fingerprint nonce devicePk accountPk approvedAt =>
    DeviceApprovalCertificate.signingData id userId fingerprint nonce devicePk accountPk
      approvedAt.toNat
  | deviceRevocation deviceId revokedAt reason =>
    DeviceRevocation.signingData deviceId revokedAt reason
  | historyShare threadId keys sharedAt =>
    HistoryKeyShareMessage.signingData P threadId keys sharedAt
  | preKeyBundle bundle => bundle.signingData
  | oneTimeKey otk => otk.toBytes
  | compromiseNotice fingerprint compromisedAt reason signer =>
    CompromiseNotice.signingData fingerprint compromisedAt reason signer
  | recoveryKeyAttestation oldPk newPk userId registeredAt =>
    RecoveryKeyAttestation.signingData oldPk newPk userId registeredAt
  | identityCertificate subject issuedAt expiresAt =>
    IdentityCertificate.signingData subject issuedAt expiresAt
  | certifiedSafetyNumber safetyNumber => CertifiedSafetyNumber.signingData safetyNumber

/-- What a statement is hashed to before it is signed. -/
def hashed : Statement P → List Bytes
  | historyShare _ keys _ => [hashedKeys keys]
  | _ => []

end Statement

/-- The size of the signed bytes. -/
def StatementKind.size : StatementKind → Nat
  | deviceApproval => 4163
  | deviceRevocation => 52
  | historyShare => 107
  | preKeyBundle => 4484
  | oneTimeKey => 1222
  | compromiseNotice => 100
  | recoveryKeyAttestation => 4087
  | identityCertificate => 3262
  | certifiedSafetyNumber => 65

theorem StatementKind.size_inj {k k' : StatementKind} (h : k.size = k'.size) : k = k' := by
  revert h
  cases k <;> cases k' <;> decide

namespace Statement

theorem length_contexts :
    (ascii "trelis-device-approval-v1").length = 25 ∧ revocationContext.length = 27 ∧
      historyKeyShareContext.length = 27 ∧ bundleDomain.length = 23 ∧
      compromiseNoticeContext.length = 27 ∧ recoveryKeyAttestContext.length = 29 ∧
      identityCertContext.length = 23 ∧ certifiedSafetyNumberContext.length = 33 := by
  decide +kernel

theorem length_signingData (s : Statement P) : s.signingData.length = s.kind.size := by
  obtain ⟨happroval, hrevocation, hhistory, hbundle, hnotice, hattest, hcert, hnumber⟩ :=
    length_contexts
  cases s with
  | deviceApproval =>
    simp [signingData, DeviceApprovalCertificate.signingData, happroval, kind, StatementKind.size]
  | deviceRevocation =>
    simp [signingData, DeviceRevocation.signingData, hrevocation, kind, StatementKind.size]
  | historyShare =>
    simp [signingData, HistoryKeyShareMessage.signingData, hhistory, kind, StatementKind.size]
  | preKeyBundle =>
    simp [signingData, X3dh.PreKeyBundle.signingData, hbundle, kind, StatementKind.size]
  | oneTimeKey =>
    simp [signingData, HybridOneTimeKey.toBytes, kind, StatementKind.size]
  | compromiseNotice =>
    simp [signingData, CompromiseNotice.signingData, hnotice, kind, StatementKind.size]
  | recoveryKeyAttestation =>
    simp [signingData, RecoveryKeyAttestation.signingData, hattest, kind, StatementKind.size]
  | identityCertificate =>
    simp [signingData, IdentityCertificate.signingData, HybridIdentityPublicKey.length_toBytes,
      hcert, kind, StatementKind.size]
  | certifiedSafetyNumber =>
    simp [signingData, CertifiedSafetyNumber.signingData, hnumber, kind, StatementKind.size]

/-- Statements of two types are never signed as the same bytes. -/
theorem kind_eq_of_signingData {s s' : Statement P} (h : s.signingData = s'.signingData) :
    s.kind = s'.kind := by
  apply StatementKind.size_inj
  rw [← length_signingData, ← length_signingData, h]

end Statement

/-- The context string.  A one-time key has none. -/
def StatementKind.context : StatementKind → Option Bytes
  | deviceApproval => some (ascii "trelis-device-approval-v1")
  | deviceRevocation => some revocationContext
  | historyShare => some historyKeyShareContext
  | preKeyBundle => some bundleDomain
  | oneTimeKey => none
  | compromiseNotice => some compromiseNoticeContext
  | recoveryKeyAttestation => some recoveryKeyAttestContext
  | identityCertificate => some identityCertContext
  | certifiedSafetyNumber => some certifiedSafetyNumberContext

/-- No context is the beginning of another. -/
theorem StatementKind.leading_context_unique {k k' : StatementKind} {c c' : Bytes}
    (hc : k.context = some c) (hc' : k'.context = some c') (h : c <+: c') : k = k' := by
  have hfree : ∀ k ∈ [deviceApproval, deviceRevocation, historyShare, preKeyBundle, oneTimeKey,
      compromiseNotice, recoveryKeyAttestation, identityCertificate, certifiedSafetyNumber],
      ∀ k' ∈ [deviceApproval, deviceRevocation, historyShare, preKeyBundle, oneTimeKey,
        compromiseNotice, recoveryKeyAttestation, identityCertificate, certifiedSafetyNumber],
      k.context.isSome → k'.context.isSome → k.context.getD [] <+: k'.context.getD [] →
        k = k' := by
    decide +kernel
  refine hfree k ?_ k' ?_ (by rw [hc]; rfl) (by rw [hc']; rfl) (by rw [hc, hc']; exact h)
  · cases k <;> decide
  · cases k' <;> decide

namespace Statement

theorem leading_context {s : Statement P} {c : Bytes} (h : s.kind.context = some c) :
    c <+: s.signingData := by
  cases s with
  | oneTimeKey => cases h
  | _ =>
    cases h
    simp only [signingData, DeviceApprovalCertificate.signingData, DeviceRevocation.signingData,
      HistoryKeyShareMessage.signingData, X3dh.PreKeyBundle.signingData,
      CompromiseNotice.signingData,
      RecoveryKeyAttestation.signingData, IdentityCertificate.signingData,
      CertifiedSafetyNumber.signingData, List.append_assoc]
    exact List.prefix_append _ _

/-- Behind two context strings, whatever follows, stand statements of one type. -/
theorem kind_eq_of_append {s s' : Statement P} {c c' : Bytes} (hc : s.kind.context = some c)
    (hc' : s'.kind.context = some c') {r r' : Bytes}
    (h : s.signingData ++ r = s'.signingData ++ r') : s.kind = s'.kind := by
  have hpre : c <+: s.signingData ++ r := (leading_context hc).trans (List.prefix_append _ _)
  have hpre' : c' <+: s.signingData ++ r := by
    rw [h]
    exact (leading_context hc').trans (List.prefix_append _ _)
  obtain hle | hle := Nat.le_total c.length c'.length
  · exact StatementKind.leading_context_unique hc hc'
      (List.prefix_of_prefix_length_le hpre hpre' hle)
  · exact (StatementKind.leading_context_unique hc' hc
      (List.prefix_of_prefix_length_le hpre' hpre hle)).symm

/-- Signed bytes determine the statement.  For history shares the hash must not
collide on the two lists of keys. -/
theorem eq_of_signingData (hkeys : Function.Injective P.verifyingKeyToBytes) {s s' : Statement P}
    (hfree : ∀ b ∈ s.hashed, ∀ b' ∈ s'.hashed, P.hash b = P.hash b' → b = b')
    (h : s.signingData = s'.signingData) : s = s' := by
  have hkind := kind_eq_of_signingData h
  cases s with
  | deviceApproval =>
    cases s' with
    | deviceApproval =>
      obtain ⟨rfl, rfl, rfl, rfl, rfl, rfl, rfl⟩ :=
        DeviceApprovalCertificate.signingData_inj hkeys h
      rfl
    | _ => cases hkind
  | deviceRevocation =>
    cases s' with
    | deviceRevocation =>
      obtain ⟨rfl, rfl, rfl⟩ := DeviceRevocation.signingData_inj h
      rfl
    | _ => cases hkind
  | historyShare _ keys =>
    cases s' with
    | historyShare _ keys' =>
      have hcontent := hfree _ List.mem_cons_self _ List.mem_cons_self
      obtain ⟨rfl, rfl, rfl⟩ := HistoryKeyShareMessage.signingData_inj hcontent h
      rfl
    | _ => cases hkind
  | preKeyBundle =>
    cases s' with
    | preKeyBundle => rw [preKeyBundle_signingData_inj hkeys h]
    | _ => cases hkind
  | oneTimeKey =>
    cases s' with
    | oneTimeKey => rw [HybridOneTimeKey.toBytes_inj h]
    | _ => cases hkind
  | compromiseNotice =>
    cases s' with
    | compromiseNotice =>
      obtain ⟨rfl, rfl, rfl, rfl⟩ := CompromiseNotice.signingData_inj h
      rfl
    | _ => cases hkind
  | recoveryKeyAttestation =>
    cases s' with
    | recoveryKeyAttestation =>
      obtain ⟨rfl, rfl, rfl, rfl⟩ := RecoveryKeyAttestation.signingData_inj hkeys h
      rfl
    | _ => cases hkind
  | identityCertificate =>
    cases s' with
    | identityCertificate =>
      obtain ⟨rfl, rfl, rfl⟩ := IdentityCertificate.signingData_inj hkeys h
      rfl
    | _ => cases hkind
  | certifiedSafetyNumber =>
    cases s' with
    | certifiedSafetyNumber => rw [CertifiedSafetyNumber.signingData_inj h]
    | _ => cases hkind

end Statement

/-- Statements of two types are signed as different bytes, also when more bytes
follow behind their contexts.  Within a type the signed bytes determine the fields,
so a signature on one message authenticates one statement. -/
theorem signed_statements_separate (hkeys : Function.Injective P.verifyingKeyToBytes)
    (s s' : Statement P) :
    (s.kind ≠ s'.kind → s.signingData ≠ s'.signingData) ∧
    (s.kind ≠ s'.kind → s.kind.context.isSome → s'.kind.context.isSome →
      ∀ r r', s.signingData ++ r ≠ s'.signingData ++ r') ∧
    ((∀ b ∈ s.hashed, ∀ b' ∈ s'.hashed, P.hash b = P.hash b' → b = b') →
      (s.signingData = s'.signingData → s = s') ∧
      ∀ {Sig : Type} (authenticates : Sig → Bytes → Prop) (sig : Sig),
        (∀ m m', authenticates sig m → authenticates sig m' → m = m') →
          authenticates sig s.signingData → authenticates sig s'.signingData → s = s') := by
  refine ⟨?_, ?_, ?_⟩
  · intro hne h
    exact hne (Statement.kind_eq_of_signingData h)
  · intro hne hc hc' r r' h
    obtain ⟨c, hc⟩ := Option.isSome_iff_exists.mp hc
    obtain ⟨c', hc'⟩ := Option.isSome_iff_exists.mp hc'
    exact hne (Statement.kind_eq_of_append hc hc' h)
  · intro hfree
    refine ⟨Statement.eq_of_signingData hkeys hfree, ?_⟩
    intro Sig authenticates sig hone hs hs'
    exact Statement.eq_of_signingData hkeys hfree (hone _ _ hs hs')

section Sample

/-- The revocation of a device, at some time. -/
def lostDevice (revokedAt : UInt64) : Statement (samplePrimitives rfc7748Curve) :=
  .deviceRevocation (FixedBytes.zero 16) revokedAt .deviceLost

/-- Two revocations at different times, and a revocation and a history share. -/
theorem signed_statements_separate_sample :
    (lostDevice 1).signingData ≠ (lostDevice 2).signingData ∧
      (lostDevice 1).signingData ≠
        (Statement.historyShare (P := samplePrimitives rfc7748Curve) zero32 [] 1).signingData := by
  have hkeys := samplePrimitives_keys rfc7748Curve
  constructor
  · intro h
    have heq := ((signed_statements_separate hkeys _ _).2.2
      (by simp [lostDevice, Statement.hashed])).1 h
    rw [lostDevice, lostDevice, Statement.deviceRevocation.injEq] at heq
    exact absurd heq.2.1 (by decide)
  · exact (signed_statements_separate hkeys _ _).1 (by simp [lostDevice, Statement.kind])

end Sample

end Trelis.MultiDevice
