import Mathlib.Logic.Relation
import Trelis.Hybrid.Sample

/-!
# Device approval

The certificate with which a device approves a new one.  It names the account
identity key, carries the key of the approving device, and is signed with that
key.  `verify` compares the account key with the one that the relying party
trusts, and checks the signature under the embedded device key.

Nothing links the two keys: whom the account trusts to approve is not for this
check to say.  A certificate is rooted when its approving key is the account key,
or is linked to it by signed statements, each of a key that is linked already
(`Rooted`).  `approval_law` says exactly which certificates are accepted, and
that whoever has a key pair outside the account makes certificates for any device
that every relying party accepts.
-/

namespace Trelis.MultiDevice

open Hybrid

variable {P : SignaturePrimitives}

/-- `NonceWindow`. -/
structure NonceWindow where
  seconds : Nat

/-- `NonceWindow::DEFAULT`. -/
def NonceWindow.standard : NonceWindow := ⟨300⟩

/-- `DeviceApprovalCertificate`. -/
structure DeviceApprovalCertificate (P : SignaturePrimitives) where
  approvingDeviceId : FixedBytes 16
  userId : Bytes32
  newDeviceFingerprint : Bytes32
  serverNonce : Bytes32
  approvingDevicePk : HybridSigningPublicKey P
  accountIdentityPk : HybridSigningPublicKey P
  approvedAt : Nat
  signature : HybridSignature P

namespace DeviceApprovalCertificate

/-- `DeviceApprovalCertificate::signing_data`. -/
def signingData (approvingDeviceId : FixedBytes 16)
    (userId newDeviceFingerprint serverNonce : Bytes32)
    (approvingDevicePk accountIdentityPk : HybridSigningPublicKey P) (approvedAt : Nat) : Bytes :=
  ascii "trelis-device-approval-v1" ++ approvingDeviceId.val ++ userId.val ++
    newDeviceFingerprint.val ++ serverNonce.val ++ approvingDevicePk.toBytes.val ++
    accountIdentityPk.toBytes.val ++ leBytes 8 approvedAt

/-- `DeviceApprovalCertificate::new`. -/
def new (approvingDeviceId : FixedBytes 16) (userId newDeviceFingerprint serverNonce : Bytes32)
    (accountIdentityPk : HybridSigningPublicKey P) (approvedAt : Nat)
    (signingKey : HybridSigningKeypair P) (coins : SigningCoins P) :
    Result (DeviceApprovalCertificate P) := do
  let approvingDevicePk := signingKey.publicKey
  let sigData := signingData approvingDeviceId userId newDeviceFingerprint serverNonce
    approvingDevicePk accountIdentityPk approvedAt
  let signature ← signingKey.sign sigData coins
  pure { approvingDeviceId, userId, newDeviceFingerprint, serverNonce, approvingDevicePk,
         accountIdentityPk, approvedAt, signature }

/-- `DeviceApprovalCertificate::verify`. -/
def verify (cert : DeviceApprovalCertificate P)
    (expectedAccountIdentityPk : HybridSigningPublicKey P) (now : Nat) (window : NonceWindow) :
    Result Unit := do
  let elapsed := (now - cert.approvedAt) + (cert.approvedAt - now)
  rejectIf (elapsed > window.seconds) .nonceExpired
  rejectIf (cert.accountIdentityPk.toBytes ≠ expectedAccountIdentityPk.toBytes)
    .identityKeyMismatch
  let sigData := signingData cert.approvingDeviceId cert.userId cert.newDeviceFingerprint
    cert.serverNonce cert.approvingDevicePk cert.accountIdentityPk cert.approvedAt
  cert.approvingDevicePk.verify sigData cert.signature

/-- Accepting compares the account key, and checks the signature under the key
that the certificate carries. -/
theorem verify_eq_ok {cert : DeviceApprovalCertificate P} {account : HybridSigningPublicKey P}
    {now : Nat} {window : NonceWindow} :
    cert.verify account now window = .ok () ↔
      now ≤ cert.approvedAt + window.seconds ∧ cert.approvedAt ≤ now + window.seconds ∧
        cert.accountIdentityPk.toBytes = account.toBytes ∧
        cert.approvingDevicePk.verify (signingData cert.approvingDeviceId cert.userId
          cert.newDeviceFingerprint cert.serverNonce cert.approvingDevicePk cert.accountIdentityPk
          cert.approvedAt) cert.signature = .ok () := by
  simp only [verify, Except.bind_eq_ok, rejectIf_eq_ok, ne_eq, not_not, exists_and_left,
    exists_const]
  constructor
  · intro h
    rcases h with ⟨htime, hrest⟩
    exact ⟨by omega, by omega, hrest⟩
  · intro h
    rcases h with ⟨hlate, hearly, hrest⟩
    exact ⟨by omega, hrest⟩

/-- A certificate that a key pair makes is accepted for the account that it
names, throughout the window. -/
theorem verify_new (hcurve : P.Rfc8032) (hcorrect : P.Correct) {deviceId : FixedBytes 16}
    {userId fingerprint serverNonce : Bytes32} {account : HybridSigningPublicKey P}
    {approvedAt : Nat} {kp : HybridSigningKeypair P} {coins : SigningCoins P}
    {cert : DeviceApprovalCertificate P}
    (h : new deviceId userId fingerprint serverNonce account approvedAt kp coins = .ok cert)
    {now : Nat} {window : NonceWindow} (hlate : now ≤ approvedAt + window.seconds)
    (hearly : approvedAt ≤ now + window.seconds) :
    cert.verify account now window = .ok () := by
  simp only [new, Except.bind_eq_ok, Except.pure_eq_ok] at h
  obtain ⟨signature, hsign, rfl⟩ := h
  have hverify : kp.publicKey.verifyStatement (.plain (signingData deviceId userId fingerprint
      serverNonce kp.publicKey account approvedAt)) signature = .ok () :=
    sign_verifies hcurve hcorrect hsign
  exact verify_eq_ok.mpr ⟨hlate, hearly, rfl, hverify⟩

/-! ## Rooting -/

/-- `signed a b` says that the key `a` signed a statement about the key `b`.
Every accepted certificate is rooted when its approving key is the account key,
or is reached from it by such statements. -/
def Rooted (account : HybridSigningPublicKey P)
    (signed : HybridSigningPublicKey P → HybridSigningPublicKey P → Prop) : Prop :=
  ∀ (cert : DeviceApprovalCertificate P) (now : Nat) (window : NonceWindow),
    cert.verify account now window = .ok () →
      Relation.ReflTransGen signed account cert.approvingDevicePk

/-- A key pair outside the account approves any new device: its certificate is
accepted, and is not rooted. -/
theorem outsider_approval_accepted (hcurve : P.Rfc8032) (hcorrect : P.Correct)
    {account : HybridSigningPublicKey P}
    {signed : HybridSigningPublicKey P → HybridSigningPublicKey P → Prop}
    {outsider : HybridSigningKeypair P}
    (hout : ¬ Relation.ReflTransGen signed account outsider.publicKey)
    {deviceId : FixedBytes 16} {userId fingerprint serverNonce : Bytes32} {approvedAt : Nat}
    {coins : SigningCoins P} {cert : DeviceApprovalCertificate P}
    (hnew : new deviceId userId fingerprint serverNonce account approvedAt outsider coins =
      .ok cert) :
    cert.newDeviceFingerprint = fingerprint ∧
      (∀ (now : Nat) (window : NonceWindow), now ≤ approvedAt + window.seconds →
        approvedAt ≤ now + window.seconds → cert.verify account now window = .ok ()) ∧
      ¬ Rooted account signed := by
  have haccept : ∀ (now : Nat) (window : NonceWindow), now ≤ approvedAt + window.seconds →
      approvedAt ≤ now + window.seconds → cert.verify account now window = .ok () :=
    fun _ _ => verify_new hcurve hcorrect hnew
  have hmade := hnew
  simp only [new, Except.bind_eq_ok, Except.pure_eq_ok] at hmade
  obtain ⟨signature, _, hcert⟩ := hmade
  refine ⟨by rw [← hcert], haccept, ?_⟩
  intro hrooted
  have hlinked := hrooted cert approvedAt .standard
    (haccept _ _ (Nat.le_add_right _ _) (Nat.le_add_right _ _))
  rw [← hcert] at hlinked
  exact hout hlinked

/-- A certificate is accepted exactly when its time is near, it names the account,
and the key that it carries signed it.  So a key pair approves any new device of
an account, whether or not statements link it to the account. -/
theorem approval_law (hcurve : P.Rfc8032) (hcorrect : P.Correct)
    (account : HybridSigningPublicKey P) :
    (∀ (cert : DeviceApprovalCertificate P) (now : Nat) (window : NonceWindow),
      cert.verify account now window = .ok () ↔
        now ≤ cert.approvedAt + window.seconds ∧ cert.approvedAt ≤ now + window.seconds ∧
          cert.accountIdentityPk.toBytes = account.toBytes ∧
          cert.approvingDevicePk.verify (signingData cert.approvingDeviceId cert.userId
            cert.newDeviceFingerprint cert.serverNonce cert.approvingDevicePk
            cert.accountIdentityPk cert.approvedAt) cert.signature = .ok ()) ∧
      ∀ (signed : HybridSigningPublicKey P → HybridSigningPublicKey P → Prop)
        (outsider : HybridSigningKeypair P),
        ¬ Relation.ReflTransGen signed account outsider.publicKey →
        ∀ deviceId userId fingerprint serverNonce approvedAt coins cert,
          new deviceId userId fingerprint serverNonce account approvedAt outsider coins =
            .ok cert →
          cert.newDeviceFingerprint = fingerprint ∧
            (∀ (now : Nat) (window : NonceWindow), now ≤ approvedAt + window.seconds →
              approvedAt ≤ now + window.seconds → cert.verify account now window = .ok ()) ∧
            ¬ Rooted account signed := by
  constructor
  · intro cert now window
    exact verify_eq_ok
  · intro signed outsider hout deviceId userId fingerprint serverNonce approvedAt coins cert hnew
    exact outsider_approval_accepted hcurve hcorrect hout hnew

end DeviceApprovalCertificate

/-! ## A run -/

section Sample

/-- The account and the outsider of the sample have different keys. -/
theorem sample_outsider_ne : (sampleKeypair 2).publicKey ≠ (sampleKeypair 1).publicKey := by
  intro h
  have hkeys : (filled 1952 2).val = (filled 1952 1).val :=
    congrArg Subtype.val (congrArg HybridSigningPublicKey.mldsa h)
  exact absurd (congrArg List.head? hkeys) (by decide)

/-- Only the outsider signs statements. -/
def outsiderSigned (a _b : HybridSigningPublicKey sampleScheme) : Prop :=
  a = (sampleKeypair 2).publicKey

private theorem sample_outsider_unlinked :
    ¬ Relation.ReflTransGen outsiderSigned (sampleKeypair 1).publicKey
      (sampleKeypair 2).publicKey := by
  intro h
  rcases h.cases_head with heq | ⟨_, hsigned, _⟩
  · exact sample_outsider_ne heq.symm
  · exact sample_outsider_ne hsigned.symm

private theorem sample_approval :
    ∃ cert, DeviceApprovalCertificate.new (filled 16 7) zero32 (filled 32 9) zero32
      (sampleKeypair 1).publicKey 1000 (sampleKeypair 2) sampleCoins = .ok cert := by
  obtain ⟨sig, hsign⟩ := sample_signs 2 (DeviceApprovalCertificate.signingData (filled 16 7) zero32
    (filled 32 9) zero32 (sampleKeypair 2).publicKey (sampleKeypair 1).publicKey 1000)
  simp only [DeviceApprovalCertificate.new, hsign]
  exact ⟨_, rfl⟩

/-- The outsider of the sample approves a device of the account, for 300 seconds
and not for longer. -/
theorem approval_law_outsider :
    ∃ cert : DeviceApprovalCertificate sampleScheme, cert.newDeviceFingerprint = filled 32 9 ∧
      cert.verify (sampleKeypair 1).publicKey 1300 .standard = .ok () ∧
      cert.verify (sampleKeypair 1).publicKey 1301 .standard ≠ .ok () ∧
      ¬ DeviceApprovalCertificate.Rooted (sampleKeypair 1).publicKey outsiderSigned := by
  obtain ⟨cert, hnew⟩ := sample_approval
  obtain ⟨hchecks, houtside⟩ := DeviceApprovalCertificate.approval_law scalarCurve_rfc8032
    transparentMlDsa_correct (sampleKeypair 1).publicKey
  obtain ⟨hfingerprint, haccept, hroot⟩ :=
    houtside outsiderSigned (sampleKeypair 2) sample_outsider_unlinked _ _ _ _ _ _ _ hnew
  refine ⟨cert, hfingerprint, haccept 1300 .standard (by decide) (by decide), ?_, hroot⟩
  intro hlate
  have hmade := ((hchecks cert 1301 .standard).mp hlate).1
  simp only [DeviceApprovalCertificate.new, Except.bind_eq_ok, Except.pure_eq_ok] at hnew
  obtain ⟨_, _, rfl⟩ := hnew
  exact absurd hmade (show ¬ 1301 ≤ 1000 + 300 by decide)

/-- An accepted certificate whose approving key signed every statement that
there is, and that no statement of the account links. -/
theorem unlinked_approval_accepted :
    ∃ cert : DeviceApprovalCertificate sampleScheme,
      cert.approvingDevicePk = (sampleKeypair 2).publicKey ∧
      cert.verify (sampleKeypair 1).publicKey 1000 .standard = .ok () ∧
      ¬ Relation.ReflTransGen outsiderSigned (sampleKeypair 1).publicKey
        cert.approvingDevicePk := by
  obtain ⟨cert, hnew⟩ := sample_approval
  have haccept := DeviceApprovalCertificate.verify_new scalarCurve_rfc8032
    transparentMlDsa_correct hnew (show 1000 ≤ 1000 + NonceWindow.standard.seconds by decide)
    (show 1000 ≤ 1000 + NonceWindow.standard.seconds by decide)
  simp only [DeviceApprovalCertificate.new, Except.bind_eq_ok, Except.pure_eq_ok] at hnew
  obtain ⟨signature, _, rfl⟩ := hnew
  exact ⟨_, rfl, haccept, sample_outsider_unlinked⟩

end Sample

end Trelis.MultiDevice
