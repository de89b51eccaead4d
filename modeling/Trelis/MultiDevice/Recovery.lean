import Trelis.MultiDevice.SignedStatements
import Trelis.X3dh.KeyCodec

/-!
# Compromise notices and recovery attestations

The two statements of `recovery.rs`: how they are made and verified, and their
wire forms.

The reason of a notice is one byte, and every byte that is not the code of a
reason is read as `unknown`, which is written as 255.  So an accepted notice is
written as the bytes that it was read from exactly when its reason byte is a code
(`CompromiseNotice.fromBytes_eq_ok`).  Attestations have no such field.
-/

namespace Trelis.MultiDevice

open Hybrid X3dh

variable {P : HandshakePrimitives} {D : KeyDecoders P}

/-- Keys are told apart by their encodings. -/
theorem verifyingKeyToBytes_injective (hD : D.Exact) :
    Function.Injective P.verifyingKeyToBytes := by
  intro vk vk' h
  have hread : D.verifyingKeyFromBytes (P.verifyingKeyToBytes vk).val = .ok vk :=
    hD.verifyingKey.mpr rfl
  have hread' : D.verifyingKeyFromBytes (P.verifyingKeyToBytes vk).val = .ok vk' :=
    hD.verifyingKey.mpr (congrArg Subtype.val h)
  exact Except.ok.inj (hread.symm.trans hread')

/-- `key_fingerprint`. -/
def keyFingerprint (publicKey : HybridSigningPublicKey P.toSignaturePrimitives) : Bytes32 :=
  P.hash publicKey.toBytes.val

/-! ## Reasons -/

/-- `CompromiseReason::from_byte`. -/
def CompromiseReason.fromByte (b : UInt8) : CompromiseReason :=
  match b with
  | 0 => keyExfiltration
  | 1 => deviceTheft
  | 2 => malwareExposure
  | 3 => backupCompromise
  | 4 => serverBreach
  | _ => unknown

theorem CompromiseReason.fromByte_toByte (r : CompromiseReason) : fromByte r.toByte = r := by
  cases r <;> rfl

/-! ## Notices -/

/-- `CompromiseNotice`. -/
structure CompromiseNotice (P : HandshakePrimitives) where
  compromisedFingerprint : Bytes32
  compromisedAt : UInt64
  reason : CompromiseReason
  signerFingerprint : Bytes32
  signature : CanonicalSignature P

namespace CompromiseNotice

/-- `FIXED_SIZE`. -/
def fixedSize : Nat := 32 + 8 + 1 + 32

/-- `CompromiseNotice::new`. -/
def new (compromisedFingerprint : Bytes32) (reason : CompromiseReason) (compromisedAt : UInt64)
    (signingKey : HybridSigningKeypair P.toSignaturePrimitives)
    (coins : SigningCoins P.toSignaturePrimitives) : Result (CompromiseNotice P) := do
  let signerFingerprint := keyFingerprint signingKey.publicKey
  let sigData := signingData compromisedFingerprint compromisedAt reason signerFingerprint
  let signature ← CanonicalSignature.sign signingKey sigData coins
  pure { compromisedFingerprint, compromisedAt, reason, signerFingerprint, signature }

variable (n : CompromiseNotice P)

/-- The bytes that a notice is signed as. -/
def body : Bytes :=
  signingData n.compromisedFingerprint n.compromisedAt n.reason n.signerFingerprint

/-- `CompromiseNotice::verify`. -/
def verify (signerKey : HybridSigningPublicKey P.toSignaturePrimitives) : Result Unit := do
  rejectIf (keyFingerprint signerKey ≠ n.signerFingerprint) .signatureVerificationFailed
  signerKey.verify n.body n.signature.val

/-- The fields of a notice around a reason byte. -/
def encodeWith (reason : UInt8) : Bytes :=
  n.compromisedFingerprint.val ++ (leBytes 8 n.compromisedAt.toNat ++ ([reason] ++
    (n.signerFingerprint.val ++ n.signature.val.toBytes.val)))

/-- `CompromiseNotice::to_bytes`. -/
def toBytes : Bytes := n.encodeWith n.reason.toByte

variable (D) in
/-- `CompromiseNotice::from_bytes`. -/
def fromBytes (bytes : Bytes) : Result (CompromiseNotice P) :=
  if h : bytes.length < fixedSize then .error .malformedMessage
  else do
    let compromisedFingerprint ← arrayFromBytes 32 (sliceAt bytes 0 32) .malformedMessage
    let compromisedAt := readUInt64 (sliceAt bytes 32 8)
    let reason := CompromiseReason.fromByte
      (byteAt bytes 40 (Nat.le_trans (by decide) (Nat.le_of_not_lt h)))
    let signerFingerprint ← arrayFromBytes 32 (sliceAt bytes 41 32) .malformedMessage
    let signature ←
      (CanonicalSignature.fromBytes D (bytes.drop 73)).mapError fun _ => .malformedMessage
    pure { compromisedFingerprint, compromisedAt, reason, signerFingerprint, signature }

variable {n}

@[simp] theorem length_encodeWith (b : UInt8) : (n.encodeWith b).length = 3439 := by
  simp [encodeWith]

/-- A notice is read from its fields around any byte that stands for its reason. -/
theorem fromBytes_eq_ok (hD : D.Exact) {bytes : Bytes} :
    fromBytes D bytes = .ok n ↔
      ∃ b, CompromiseReason.fromByte b = n.reason ∧ bytes = n.encodeWith b := by
  have hfingerprint : n.compromisedFingerprint.val.length = 32 := FixedBytes.length_coe _
  have hat : (leBytes 8 n.compromisedAt.toNat).length = 8 := leBytes_length _ _
  have hreason (b : UInt8) : [b].length = 1 := List.length_singleton
  have hsigner : n.signerFingerprint.val.length = 32 := FixedBytes.length_coe _
  unfold fromBytes
  constructor
  · intro h
    split at h
    · cases h
    · next hlength =>
      have hlength : 73 ≤ bytes.length := Nat.le_of_not_lt hlength
      simp only [Except.bind_eq_ok, arrayFromBytes_eq_ok, Except.mapError_eq_ok,
        CanonicalSignature.fromBytes_eq_ok hD, Except.pure_eq_ok] at h
      obtain ⟨fingerprint, h1, signer, h4, signature, h5, hn⟩ := h
      subst hn
      refine ⟨_, rfl, (eq_append_iff hfingerprint).mpr ⟨h1, ?_⟩⟩
      refine (drop_eq_append_iff hat).mpr ⟨(readUInt64_sliceAt (by omega)).mp rfl, ?_⟩
      refine (drop_eq_append_iff (hreason _)).mpr ⟨(singleton_byteAt _).symm, ?_⟩
      exact (drop_eq_append_iff hsigner).mpr ⟨h4, h5⟩
  · intro hex
    rcases hex with ⟨b, hb, h⟩
    have hlength : bytes.length = 3439 := h ▸ length_encodeWith b
    obtain ⟨h1, hrest⟩ := (eq_append_iff hfingerprint).mp h
    obtain ⟨h2, hrest⟩ := (drop_eq_append_iff hat).mp hrest
    obtain ⟨h3, hrest⟩ := (drop_eq_append_iff (hreason b)).mp hrest
    obtain ⟨h4, h5⟩ := (drop_eq_append_iff hsigner).mp hrest
    have hlong : ¬bytes.length < fixedSize := by
      rw [hlength]
      decide
    have hbyte : byteAt bytes 40 (Nat.le_trans (by decide) (Nat.le_of_not_lt hlong)) = b := by
      rw [← List.singleton_inj, singleton_byteAt]
      exact h3
    rw [dif_neg hlong]
    simp only [Except.bind_eq_ok, arrayFromBytes_eq_ok, Except.mapError_eq_ok,
      CanonicalSignature.fromBytes_eq_ok hD, Except.pure_eq_ok]
    refine ⟨n.compromisedFingerprint, h1, n.signerFingerprint, h4, n.signature, h5, ?_⟩
    rw [hbyte, hb, (readUInt64_sliceAt (by omega)).mpr h2]

/-- The reason byte of an encoding. -/
theorem getElem?_encodeWith (b : UInt8) : (n.encodeWith b)[40]? = some b := by
  have hsplit : n.encodeWith b = (n.compromisedFingerprint.val ++
      leBytes 8 n.compromisedAt.toNat) ++ b :: (n.signerFingerprint.val ++
        n.signature.val.toBytes.val) := by
    simp [encodeWith]
  rw [hsplit, List.getElem?_append_right (by simp)]
  simp

/-- The byte at the place of the reason is the code of one. -/
def ReasonCode (bytes : Bytes) : Prop := ∃ r : CompromiseReason, bytes[40]? = some r.toByte

/-- What is accepted is written as it was read exactly when its reason byte is a code. -/
theorem toBytes_eq_iff (hD : D.Exact) {bytes : Bytes} (h : fromBytes D bytes = .ok n) :
    n.toBytes = bytes ↔ ReasonCode bytes := by
  obtain ⟨b, hb, hbytes⟩ := (fromBytes_eq_ok hD).mp h
  subst hbytes
  constructor
  · intro hsame
    exact ⟨n.reason, by rw [← hsame, toBytes, getElem?_encodeWith]⟩
  · intro hex
    rcases hex with ⟨r, hr⟩
    rw [getElem?_encodeWith, Option.some.injEq] at hr
    rw [toBytes, ← hb, hr, CompromiseReason.fromByte_toByte]

theorem fromBytes_toBytes (hD : D.Exact) : fromBytes D n.toBytes = .ok n :=
  (fromBytes_eq_ok hD).mpr ⟨_, CompromiseReason.fromByte_toByte _, rfl⟩

theorem verify_eq_ok {signerKey : HybridSigningPublicKey P.toSignaturePrimitives} :
    n.verify signerKey = .ok () ↔
      keyFingerprint signerKey = n.signerFingerprint ∧
        signerKey.verify n.body n.signature.val = .ok () := by
  rw [verify, Except.check_bind_eq_ok, rejectIf_eq_ok, not_not]

end CompromiseNotice

/-! ## Attestations -/

/-- A signing key pair, with a point that was derived by the curve library. -/
abbrev ReadableKeypair (D : KeyDecoders P) :=
  { kp : HybridSigningKeypair P.toSignaturePrimitives //
    D.acceptsPoint kp.publicKey.ed448.inner = true }

def ReadableKeypair.publicKey (kp : ReadableKeypair D) : ReadableKey D :=
  ⟨kp.val.publicKey, kp.property⟩

/-- `RecoveryKeyAttestation`. -/
structure RecoveryKeyAttestation (D : KeyDecoders P) where
  oldIdentityPk : ReadableKey D
  newIdentityPk : ReadableKey D
  userId : Bytes32
  registeredAt : UInt64
  sigOld : CanonicalSignature P
  sigNew : CanonicalSignature P

namespace RecoveryKeyAttestation

/-- `WIRE_SIZE`. -/
def wireSize : Nat := 2009 + 2009 + 32 + 8 + 3366 + 3366

/-- `RecoveryKeyAttestation::create`.  Two keys are equal when their encodings are. -/
def create (oldIdentityKeypair newIdentityKeypair : ReadableKeypair D) (userId : Bytes32)
    (registeredAt : UInt64) (oldCoins newCoins : SigningCoins P.toSignaturePrimitives) :
    Result (RecoveryKeyAttestation D) := do
  let oldIdentityPk := oldIdentityKeypair.publicKey
  let newIdentityPk := newIdentityKeypair.publicKey
  rejectIf (oldIdentityPk.val.toBytes = newIdentityPk.val.toBytes) .malformedMessage
  let body := signingData oldIdentityPk.val newIdentityPk.val userId registeredAt
  let sigOld ← CanonicalSignature.sign oldIdentityKeypair.val body oldCoins
  let sigNew ← CanonicalSignature.sign newIdentityKeypair.val body newCoins
  pure { oldIdentityPk, newIdentityPk, userId, registeredAt, sigOld, sigNew }

variable (a : RecoveryKeyAttestation D)

/-- The bytes that both keys sign. -/
def body : Bytes := signingData a.oldIdentityPk.val a.newIdentityPk.val a.userId a.registeredAt

/-- `RecoveryKeyAttestation::verify`. -/
def verify : Result Unit := do
  a.oldIdentityPk.val.verify a.body a.sigOld.val
  a.newIdentityPk.val.verify a.body a.sigNew.val

/-- `RecoveryKeyAttestation::to_bytes`. -/
def toBytes : Bytes :=
  a.oldIdentityPk.val.toBytes.val ++ (a.newIdentityPk.val.toBytes.val ++ (a.userId.val ++
    (leBytes 8 a.registeredAt.toNat ++ (a.sigOld.val.toBytes.val ++ a.sigNew.val.toBytes.val))))

variable (D) in
/-- `RecoveryKeyAttestation::from_bytes`. -/
def fromBytes (bytes : Bytes) : Result (RecoveryKeyAttestation D) := do
  rejectIf (bytes.length ≠ wireSize) .malformedMessage
  let oldIdentityPk ←
    (ReadableKey.fromBytes D (sliceAt bytes 0 2009)).mapError fun _ => .malformedMessage
  let newIdentityPk ←
    (ReadableKey.fromBytes D (sliceAt bytes 2009 2009)).mapError fun _ => .malformedMessage
  let userId ← arrayFromBytes 32 (sliceAt bytes 4018 32) .malformedMessage
  let registeredAt := readUInt64 (sliceAt bytes 4050 8)
  let sigOld ←
    (CanonicalSignature.fromBytes D (sliceAt bytes 4058 3366)).mapError fun _ => .malformedMessage
  let sigNew ←
    (CanonicalSignature.fromBytes D (sliceAt bytes 7424 3366)).mapError fun _ => .malformedMessage
  pure { oldIdentityPk, newIdentityPk, userId, registeredAt, sigOld, sigNew }

@[simp] theorem length_toBytes : a.toBytes.length = 10790 := by simp [toBytes]

variable {a}

/-- An attestation is read from its encoding and from no other byte string. -/
theorem fromBytes_eq_ok (hD : D.Exact) {bytes : Bytes} :
    fromBytes D bytes = .ok a ↔ bytes = a.toBytes := by
  have hold : a.oldIdentityPk.val.toBytes.val.length = 2009 := FixedBytes.length_coe _
  have hnew : a.newIdentityPk.val.toBytes.val.length = 2009 := FixedBytes.length_coe _
  have huser : a.userId.val.length = 32 := FixedBytes.length_coe _
  have hat : (leBytes 8 a.registeredAt.toNat).length = 8 := leBytes_length _ _
  have hsigOld : a.sigOld.val.toBytes.val.length = 3366 := FixedBytes.length_coe _
  have hlast (h : bytes.length = 10790) : sliceAt bytes 7424 3366 = bytes.drop 7424 :=
    sliceAt_eq_drop h
  simp only [fromBytes, Except.bind_eq_ok, rejectIf_eq_ok, not_not, Except.mapError_eq_ok,
    ReadableKey.fromBytes_eq_ok hD, arrayFromBytes_eq_ok, CanonicalSignature.fromBytes_eq_ok hD,
    Except.pure_eq_ok]
  constructor
  · intro hboth
    rcases hboth with ⟨_, hlength, old, h1, new, h2, user, h3, sigOld, h5, sigNew, h6, ha⟩
    have hlength' : bytes.length = 10790 := hlength
    subst ha
    refine (eq_append_iff hold).mpr ⟨h1, ?_⟩
    refine (drop_eq_append_iff hnew).mpr ⟨h2, ?_⟩
    refine (drop_eq_append_iff huser).mpr ⟨h3, ?_⟩
    refine (drop_eq_append_iff hat).mpr ⟨(readUInt64_sliceAt (by omega)).mp rfl, ?_⟩
    exact (drop_eq_append_iff hsigOld).mpr ⟨h5, (hlast hlength').symm.trans h6⟩
  · intro h
    have hlength : bytes.length = 10790 := h ▸ length_toBytes a
    obtain ⟨h1, hrest⟩ := (eq_append_iff hold).mp h
    obtain ⟨h2, hrest⟩ := (drop_eq_append_iff hnew).mp hrest
    obtain ⟨h3, hrest⟩ := (drop_eq_append_iff huser).mp hrest
    obtain ⟨h4, hrest⟩ := (drop_eq_append_iff hat).mp hrest
    obtain ⟨h5, h6⟩ := (drop_eq_append_iff hsigOld).mp hrest
    refine ⟨(), hlength, a.oldIdentityPk, h1, a.newIdentityPk, h2, a.userId, h3, a.sigOld, h5,
      a.sigNew, (hlast hlength).trans h6, ?_⟩
    rw [(readUInt64_sliceAt (by omega)).mpr h4]

theorem verify_eq_ok :
    a.verify = .ok () ↔ a.oldIdentityPk.val.verify a.body a.sigOld.val = .ok () ∧
      a.newIdentityPk.val.verify a.body a.sigNew.val = .ok () := by
  rw [verify, Except.check_bind_eq_ok]

/-- No attestation is made of one key. -/
theorem create_ne {old new : ReadableKeypair D} {userId : Bytes32} {registeredAt : UInt64}
    {oldCoins newCoins : SigningCoins P.toSignaturePrimitives}
    (h : create old new userId registeredAt oldCoins newCoins = .ok a) :
    a.oldIdentityPk ≠ a.newIdentityPk := by
  simp only [create, Except.bind_eq_ok, rejectIf_eq_ok, Except.pure_eq_ok] at h
  obtain ⟨_, hne, _, _, _, _, rfl⟩ := h
  intro hsame
  exact hne (congrArg (fun pk : ReadableKey D => pk.val.toBytes) hsame)

end RecoveryKeyAttestation

/-! ## The law -/

/-- Both statements are read back from their encodings.  Attestations are written as they
were read, and notices are when their reason byte is the code of a reason.  What verifies
is signed as its body, and the body determines the fields. -/
theorem recovery_statements (hD : D.Exact) :
    (∀ n : CompromiseNotice P, CompromiseNotice.fromBytes D n.toBytes = .ok n) ∧
    (∀ a : RecoveryKeyAttestation D, RecoveryKeyAttestation.fromBytes D a.toBytes = .ok a) ∧
    (∀ bytes n, CompromiseNotice.fromBytes D bytes = .ok n →
      (n.toBytes = bytes ↔ CompromiseNotice.ReasonCode bytes)) ∧
    (∀ bytes (a : RecoveryKeyAttestation D),
      RecoveryKeyAttestation.fromBytes D bytes = .ok a → a.toBytes = bytes) ∧
    (∀ (n n' : CompromiseNotice P) key key', n.verify key = .ok () → n'.verify key' = .ok () →
      key.verify n.body n.signature.val = .ok () ∧
        (n.body = n'.body → n.compromisedFingerprint = n'.compromisedFingerprint ∧
          n.compromisedAt = n'.compromisedAt ∧ n.reason = n'.reason ∧
            n.signerFingerprint = n'.signerFingerprint ∧
              keyFingerprint key = keyFingerprint key')) ∧
    (∀ a a' : RecoveryKeyAttestation D, a.verify = .ok () → a'.verify = .ok () →
      (a.oldIdentityPk.val.verify a.body a.sigOld.val = .ok () ∧
        a.newIdentityPk.val.verify a.body a.sigNew.val = .ok ()) ∧
        (a.body = a'.body → a.oldIdentityPk = a'.oldIdentityPk ∧
          a.newIdentityPk = a'.newIdentityPk ∧ a.userId = a'.userId ∧
            a.registeredAt = a'.registeredAt)) ∧
    ∀ (old new : ReadableKeypair D) userId registeredAt oldCoins newCoins a,
      RecoveryKeyAttestation.create old new userId registeredAt oldCoins newCoins = .ok a →
        a.oldIdentityPk ≠ a.newIdentityPk := by
  refine ⟨fun n => CompromiseNotice.fromBytes_toBytes hD,
    fun a => (RecoveryKeyAttestation.fromBytes_eq_ok hD).mpr rfl,
    fun bytes n h => CompromiseNotice.toBytes_eq_iff hD h,
    fun bytes a h => ((RecoveryKeyAttestation.fromBytes_eq_ok hD).mp h).symm, ?_, ?_,
    fun old new userId registeredAt oldCoins newCoins a h => RecoveryKeyAttestation.create_ne h⟩
  · intro n n' key key' h h'
    obtain ⟨hsigner, hsigned⟩ := CompromiseNotice.verify_eq_ok.mp h
    obtain ⟨hsigner', _⟩ := CompromiseNotice.verify_eq_ok.mp h'
    refine ⟨hsigned, ?_⟩
    intro hbody
    obtain ⟨hfingerprint, hat, hreason, hsame⟩ := CompromiseNotice.signingData_inj hbody
    exact ⟨hfingerprint, hat, hreason, hsame, hsigner.trans (hsame.trans hsigner'.symm)⟩
  · intro a a' h _
    refine ⟨RecoveryKeyAttestation.verify_eq_ok.mp h, ?_⟩
    intro hbody
    obtain ⟨hold, hnew, huser, hat⟩ :=
      RecoveryKeyAttestation.signingData_inj (verifyingKeyToBytes_injective hD) hbody
    exact ⟨Subtype.ext hold, Subtype.ext hnew, huser, hat⟩

/-! ## Samples -/

section Sample

/-- A notice with no known reason. -/
def sampleNotice (C : MontgomeryCurve) : CompromiseNotice (samplePrimitives C) where
  compromisedFingerprint := filled 32 1
  compromisedAt := 2
  reason := .unknown
  signerFingerprint := filled 32 3
  signature := blankSignature C

theorem recovery_statements_sample :
    CompromiseNotice.fromBytes (sampleDecoders rfc7748Curve) (sampleNotice rfc7748Curve).toBytes
      = .ok (sampleNotice rfc7748Curve) :=
  (recovery_statements (sampleDecoders_exact rfc7748Curve)).1 _

/-- The byte 7 is read as an unknown reason, and written as 255. -/
theorem reason_folded :
    CompromiseNotice.fromBytes (sampleDecoders rfc7748Curve)
        ((sampleNotice rfc7748Curve).encodeWith 7) = .ok (sampleNotice rfc7748Curve) ∧
      (sampleNotice rfc7748Curve).toBytes ≠ (sampleNotice rfc7748Curve).encodeWith 7 := by
  have hread : CompromiseNotice.fromBytes (sampleDecoders rfc7748Curve)
      ((sampleNotice rfc7748Curve).encodeWith 7) = .ok (sampleNotice rfc7748Curve) :=
    (CompromiseNotice.fromBytes_eq_ok (sampleDecoders_exact rfc7748Curve)).mpr ⟨7, rfl, rfl⟩
  refine ⟨hread, ?_⟩
  intro hsame
  obtain ⟨r, hr⟩ :=
    (CompromiseNotice.toBytes_eq_iff (sampleDecoders_exact rfc7748Curve) hread).mp hsame
  rw [CompromiseNotice.getElem?_encodeWith, Option.some.injEq] at hr
  revert hr
  cases r <;> decide

end Sample

end Trelis.MultiDevice
