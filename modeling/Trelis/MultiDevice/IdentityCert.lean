import Trelis.MultiDevice.SignedStatements
import Trelis.X3dh.KeyCodec

/-!
# Identity certificates and certified safety numbers

The wire forms of a certificate and of a certified safety number, and their
verification (`identity_cert.rs`).

The certificate and the signature of the peer are two optional fields, and they
count when both are there.  A value that has one of them is written, and verified,
as if it had none.  The codec is exact on all other values (`fromBytes_toBytes_iff`),
and everything that is accepted from the wire is one of these.
-/

namespace Trelis.MultiDevice

open Hybrid X3dh

variable {P : HandshakePrimitives}

/-! ## Identities -/

/-- `HybridIdentityPublicKey`, with a point that was read or derived. -/
abbrev ReadableIdentity (D : KeyDecoders P) :=
  { pk : HybridIdentityPublicKey P // D.acceptsPoint pk.signing.ed448.inner = true }

/-- `HybridIdentityPublicKey::from_bytes`. -/
def ReadableIdentity.fromBytes (D : KeyDecoders P) (bytes : Bytes) :
    Result (ReadableIdentity D) := do
  rejectIf (bytes.length ≠ 3223) (.invalidKeyLength 3223 bytes.length)
  let signing ← ReadableKey.fromBytes D (bytes.take 2009)
  let kem ← HybridKemPublicKey.fromBytes (bytes.drop 2009)
  pure ⟨⟨signing.val, kem⟩, signing.property⟩

variable {D : KeyDecoders P}

/-- The all-zero sntrup761 key is the one that `from_bytes` turns down. -/
def HasKemKey (pk : ReadableIdentity D) : Prop := pk.val.kem.sntrup ≠ FixedBytes.zero 1158

theorem ReadableIdentity.fromBytes_eq_ok (hD : D.Exact) {bytes : Bytes}
    {pk : ReadableIdentity D} :
    ReadableIdentity.fromBytes D bytes = .ok pk ↔ bytes = pk.val.toBytes ∧ HasKemKey pk := by
  have hsigning : pk.val.signing.toBytes.val.length = 2009 := pk.val.signing.toBytes.property
  show _ ↔ bytes = pk.val.signing.toBytes.val ++ pk.val.kem.toBytes.val ∧ _
  simp only [ReadableIdentity.fromBytes, Except.bind_eq_ok, rejectIf_eq_ok, not_not,
    ReadableKey.fromBytes_eq_ok hD, HybridKemPublicKey.fromBytes_eq_ok]
  constructor
  · intro hboth
    rcases hboth with ⟨_, _, signing, htake, kem, ⟨hdrop, hzero⟩, hpk⟩
    cases hpk
    exact ⟨by rw [← htake, ← hdrop, List.take_append_drop], hzero⟩
  · intro hboth
    rcases hboth with ⟨h, hzero⟩
    have hlength : bytes.length = 3223 := by
      rw [h, List.length_append, hsigning, FixedBytes.length_coe]
    obtain ⟨htake, hdrop⟩ := (eq_append_iff hsigning).mp h
    exact ⟨(), hlength, ⟨pk.val.signing, pk.property⟩, htake, pk.val.kem, ⟨hdrop, hzero⟩, rfl⟩

/-! ## Certificates -/

/-- `IdentityCertificate`. -/
structure IdentityCertificate (D : KeyDecoders P) where
  subjectIdentity : ReadableIdentity D
  issuerSigningPk : ReadableKey D
  issuedAt : UInt64
  expiresAt : UInt64
  signature : CanonicalSignature P

def certificateWireSize : Nat := 3223 + 2009 + 8 + 8 + 3366

namespace IdentityCertificate

variable (c : IdentityCertificate D)

/-- `IdentityCertificate::verify`. -/
def verify : Result Unit :=
  c.issuerSigningPk.val.verify (signingData c.subjectIdentity.val c.issuedAt c.expiresAt)
    c.signature.val

/-- `IdentityCertificate::to_bytes`. -/
def toBytes : Bytes :=
  c.subjectIdentity.val.toBytes ++ (c.issuerSigningPk.val.toBytes.val ++
    (leBytes 8 c.issuedAt.toNat ++ (leBytes 8 c.expiresAt.toNat ++ c.signature.val.toBytes.val)))

variable (D) in
/-- `IdentityCertificate::from_bytes`. -/
def fromBytes (bytes : Bytes) : Result (IdentityCertificate D) := do
  rejectIf (bytes.length ≠ certificateWireSize) .malformedMessage
  let subjectIdentity ←
    (ReadableIdentity.fromBytes D (sliceAt bytes 0 3223)).mapError fun _ => .malformedMessage
  let issuerSigningPk ←
    (ReadableKey.fromBytes D (sliceAt bytes 3223 2009)).mapError fun _ => .malformedMessage
  let issuedAt := readUInt64 (sliceAt bytes 5232 8)
  let expiresAt := readUInt64 (sliceAt bytes 5240 8)
  let signature ←
    (CanonicalSignature.fromBytes D (bytes.drop 5248)).mapError fun _ => .malformedMessage
  pure { subjectIdentity, issuerSigningPk, issuedAt, expiresAt, signature }

@[simp] theorem length_toBytes : c.toBytes.length = 8614 := by
  simp [toBytes, HybridIdentityPublicKey.length_toBytes]

variable {c}

/-- A certificate is read from its encoding and from no other byte string. -/
theorem fromBytes_eq_ok (hD : D.Exact) {bytes : Bytes} :
    fromBytes D bytes = .ok c ↔ bytes = c.toBytes ∧ HasKemKey c.subjectIdentity := by
  have hsubject : c.subjectIdentity.val.toBytes.length = 3223 :=
    HybridIdentityPublicKey.length_toBytes _
  have hissuer : c.issuerSigningPk.val.toBytes.val.length = 2009 := FixedBytes.length_coe _
  have hissued : (leBytes 8 c.issuedAt.toNat).length = 8 := leBytes_length _ _
  have hexpires : (leBytes 8 c.expiresAt.toNat).length = 8 := leBytes_length _ _
  simp only [fromBytes, Except.bind_eq_ok, rejectIf_eq_ok, not_not, Except.mapError_eq_ok,
    ReadableIdentity.fromBytes_eq_ok hD, ReadableKey.fromBytes_eq_ok hD,
    CanonicalSignature.fromBytes_eq_ok hD, Except.pure_eq_ok]
  constructor
  · intro hboth
    rcases hboth with ⟨_, hlength, subject, ⟨hfirst, hkem⟩, issuer, hsecond, signature, hlast, hc⟩
    have hlength' : bytes.length = 8614 := hlength
    subst hc
    refine ⟨(eq_append_iff hsubject).mpr ⟨hfirst, ?_⟩, hkem⟩
    refine (drop_eq_append_iff hissuer).mpr ⟨hsecond, ?_⟩
    refine (drop_eq_append_iff hissued).mpr ⟨(readUInt64_sliceAt (by omega)).mp rfl, ?_⟩
    exact (drop_eq_append_iff hexpires).mpr ⟨(readUInt64_sliceAt (by omega)).mp rfl, hlast⟩
  · intro hboth
    rcases hboth with ⟨h, hkem⟩
    have hlength : bytes.length = 8614 := h ▸ length_toBytes c
    obtain ⟨hfirst, hrest⟩ := (eq_append_iff hsubject).mp h
    obtain ⟨hsecond, hrest⟩ := (drop_eq_append_iff hissuer).mp hrest
    obtain ⟨hthird, hrest⟩ := (drop_eq_append_iff hissued).mp hrest
    obtain ⟨hfourth, hlast⟩ := (drop_eq_append_iff hexpires).mp hrest
    refine ⟨(), hlength, c.subjectIdentity, ⟨hfirst, hkem⟩, c.issuerSigningPk, hsecond,
      c.signature, hlast, ?_⟩
    rw [(readUInt64_sliceAt (by omega)).mpr hthird, (readUInt64_sliceAt (by omega)).mpr hfourth]

end IdentityCertificate

/-! ## Certified safety numbers -/

/-- `CertifiedSafetyNumber`. -/
structure CertifiedSafetyNumber (D : KeyDecoders P) where
  safetyNumber : SafetyNumber
  ourCertificate : IdentityCertificate D
  ourSignature : CanonicalSignature P
  theirCertificate : Option (IdentityCertificate D)
  theirSignature : Option (CanonicalSignature P)

namespace CertifiedSafetyNumber

/-- `CertifiedSafetyNumber::create_one_sided`. -/
def createOneSided (safetyNumber : SafetyNumber)
    (ourKeypair : HybridSigningKeypair P.toSignaturePrimitives)
    (ourCertificate : IdentityCertificate D) (coins : SigningCoins P.toSignaturePrimitives) :
    Result (CertifiedSafetyNumber D) := do
  let ourSignature ← CanonicalSignature.sign ourKeypair (signingData safetyNumber) coins
  pure { safetyNumber, ourCertificate, ourSignature, theirCertificate := none
         theirSignature := none }

variable (x : CertifiedSafetyNumber D)

/-- `CertifiedSafetyNumber::attach_their_side`. -/
def attachTheirSide (theirCertificate : IdentityCertificate D)
    (theirSignature : CanonicalSignature P) : CertifiedSafetyNumber D :=
  { x with theirCertificate := some theirCertificate, theirSignature := some theirSignature }

/-- `CertifiedSafetyNumber::verify`. -/
def verify : Result Unit := do
  let body := signingData x.safetyNumber
  x.ourCertificate.verify
  x.ourCertificate.subjectIdentity.val.signing.verify body x.ourSignature.val
  match x.theirCertificate, x.theirSignature with
  | some theirCert, some theirSig =>
    theirCert.verify
    theirCert.subjectIdentity.val.signing.verify body theirSig.val
  | _, _ => pure ()

/-- `CertifiedSafetyNumber::to_bytes`. -/
def toBytes : Bytes :=
  match x.theirCertificate, x.theirSignature with
  | some theirCert, some theirSig =>
    x.safetyNumber.fingerprint.val ++ ([1] ++ (x.ourCertificate.toBytes ++
      (x.ourSignature.val.toBytes.val ++ (theirCert.toBytes ++ theirSig.val.toBytes.val))))
  | _, _ =>
    x.safetyNumber.fingerprint.val ++ ([0] ++ (x.ourCertificate.toBytes ++
      x.ourSignature.val.toBytes.val))

def header : Nat := 32 + 1
def oneSidedSize : Nat := header + certificateWireSize + 3366
def twoSidedSize : Nat := header + 2 * (certificateWireSize + 3366)

variable (D) in
/-- `CertifiedSafetyNumber::from_bytes`. -/
def fromBytes (bytes : Bytes) : Result (CertifiedSafetyNumber D) := do
  rejectIf (bytes.length ≠ oneSidedSize ∧ bytes.length ≠ twoSidedSize) .malformedMessage
  -- The slice has the length of the array, so that the copy does not fail.
  let fingerprint ← arrayFromBytes 32 (sliceAt bytes 0 32) .malformedMessage
  let presence := sliceAt bytes 32 1
  let ourCertificate ← IdentityCertificate.fromBytes D (sliceAt bytes 33 8614)
  let ourSignature ←
    (CanonicalSignature.fromBytes D (sliceAt bytes 8647 3366)).mapError fun _ => .malformedMessage
  if presence = [0] then
    rejectIf (bytes.length ≠ oneSidedSize) .malformedMessage
    pure ⟨⟨fingerprint⟩, ourCertificate, ourSignature, none, none⟩
  else if presence = [1] then
    rejectIf (bytes.length ≠ twoSidedSize) .malformedMessage
    let theirCert ← IdentityCertificate.fromBytes D (sliceAt bytes 12013 8614)
    let theirSig ← (CanonicalSignature.fromBytes D (sliceAt bytes 20627 3366)).mapError
      fun _ => .malformedMessage
    pure ⟨⟨fingerprint⟩, ourCertificate, ourSignature, some theirCert, some theirSig⟩
  else .error .malformedMessage

/-- The peer's certificate and signature are both there, or neither is. -/
def Paired : Prop := x.theirCertificate.isSome = x.theirSignature.isSome

/-- No certificate has the all-zero KEM key. -/
def HasKemKeys : Prop :=
  HasKemKey x.ourCertificate.subjectIdentity ∧
    ∀ c ∈ x.theirCertificate, HasKemKey c.subjectIdentity

/-- A party's certificate and signature hold up for a safety number. -/
def SideChecked (n : SafetyNumber) (c : IdentityCertificate D) (sig : CanonicalSignature P) :
    Prop :=
  c.verify = .ok () ∧ c.subjectIdentity.val.signing.verify (signingData n) sig.val = .ok ()

variable {x}

theorem verify_eq_ok :
    x.verify = .ok () ↔ SideChecked x.safetyNumber x.ourCertificate x.ourSignature ∧
      ∀ c ∈ x.theirCertificate, ∀ sig ∈ x.theirSignature, SideChecked x.safetyNumber c sig := by
  rw [verify, Except.check_bind_eq_ok, Except.check_bind_eq_ok, ← and_assoc]
  refine and_congr_right fun _ => ?_
  cases x.theirCertificate with
  | none => simp
  | some c =>
    cases x.theirSignature with
    | none => simp
    | some sig =>
      show (c.verify >>= fun _ => _) = .ok () ↔ _
      rw [Except.check_bind_eq_ok]
      simp [SideChecked]

theorem verify_of_not_paired (h : ¬x.Paired) :
    x.verify = { x with theirCertificate := none, theirSignature := none }.verify ∧
      x.toBytes = { x with theirCertificate := none, theirSignature := none }.toBytes := by
  rw [Paired] at h
  unfold verify toBytes
  cases hc : x.theirCertificate with
  | none => exact ⟨rfl, rfl⟩
  | some c =>
    cases hs : x.theirSignature with
    | none => exact ⟨rfl, rfl⟩
    | some sig =>
      rw [hc, hs] at h
      exact absurd rfl h

/-- The four fields in front, and what stands behind them. -/
theorem front_iff {bytes rest : Bytes} {n : SafetyNumber} {presence : UInt8}
    {c : IdentityCertificate D} {sig : CanonicalSignature P} :
    bytes = n.fingerprint.val ++ ([presence] ++ (c.toBytes ++ (sig.val.toBytes.val ++ rest))) ↔
      sliceAt bytes 0 32 = n.fingerprint.val ∧ sliceAt bytes 32 1 = [presence] ∧
        sliceAt bytes 33 8614 = c.toBytes ∧ sliceAt bytes 8647 3366 = sig.val.toBytes.val ∧
          bytes.drop 12013 = rest := by
  have hpresence : [presence].length = 1 := List.length_singleton
  rw [eq_append_iff n.fingerprint.property, drop_eq_append_iff hpresence,
    drop_eq_append_iff c.length_toBytes, drop_eq_append_iff sig.val.toBytes.property]

theorem oneSided_iff {bytes : Bytes} {n : SafetyNumber} {c : IdentityCertificate D}
    {sig : CanonicalSignature P} :
    bytes = toBytes ⟨n, c, sig, none, none⟩ ↔
      bytes.length = oneSidedSize ∧ sliceAt bytes 0 32 = n.fingerprint.val ∧
        sliceAt bytes 32 1 = [0] ∧ sliceAt bytes 33 8614 = c.toBytes ∧
          sliceAt bytes 8647 3366 = sig.val.toBytes.val := by
  have hbytes : toBytes ⟨n, c, sig, none, none⟩
      = n.fingerprint.val ++ ([0] ++ (c.toBytes ++ (sig.val.toBytes.val ++ []))) := by
    rw [List.append_nil]
    rfl
  rw [hbytes, front_iff, List.drop_eq_nil_iff]
  constructor
  · intro hboth
    rcases hboth with ⟨hfirst, hpresence, hcert, hsig, hlength⟩
    have hlast : (sliceAt bytes 8647 3366).length = 3366 := by rw [hsig, FixedBytes.length_coe]
    rw [sliceAt, List.length_take, List.length_drop] at hlast
    exact ⟨show bytes.length = 12013 by omega, hfirst, hpresence, hcert, hsig⟩
  · intro hboth
    rcases hboth with ⟨hlength, hfirst, hpresence, hcert, hsig⟩
    exact ⟨hfirst, hpresence, hcert, hsig, Nat.le_of_eq hlength⟩

theorem twoSided_iff {bytes : Bytes} {n : SafetyNumber} {c theirCert : IdentityCertificate D}
    {sig theirSig : CanonicalSignature P} :
    bytes = toBytes ⟨n, c, sig, some theirCert, some theirSig⟩ ↔
      bytes.length = twoSidedSize ∧ sliceAt bytes 0 32 = n.fingerprint.val ∧
        sliceAt bytes 32 1 = [1] ∧ sliceAt bytes 33 8614 = c.toBytes ∧
          sliceAt bytes 8647 3366 = sig.val.toBytes.val ∧
            sliceAt bytes 12013 8614 = theirCert.toBytes ∧
              sliceAt bytes 20627 3366 = theirSig.val.toBytes.val := by
  have hbytes : toBytes ⟨n, c, sig, some theirCert, some theirSig⟩
      = n.fingerprint.val ++ ([1] ++ (c.toBytes ++ (sig.val.toBytes.val ++
        (theirCert.toBytes ++ (theirSig.val.toBytes.val ++ []))))) := by
    rw [List.append_nil]
    rfl
  rw [hbytes, front_iff, drop_eq_append_iff theirCert.length_toBytes,
    drop_eq_append_iff theirSig.val.toBytes.property, List.drop_eq_nil_iff]
  constructor
  · intro hboth
    rcases hboth with ⟨hfirst, hpresence, hcert, hsig, hcert', hsig', hlength⟩
    have hlength' : bytes.length ≤ 23993 := hlength
    have hlast : (sliceAt bytes 20627 3366).length = 3366 := by
      rw [show sliceAt bytes 20627 3366 = theirSig.val.toBytes.val from hsig',
        FixedBytes.length_coe]
    rw [sliceAt, List.length_take, List.length_drop] at hlast
    exact ⟨show bytes.length = 23993 by omega, hfirst, hpresence, hcert, hsig, hcert', hsig'⟩
  · intro hboth
    rcases hboth with ⟨hlength, hfirst, hpresence, hcert, hsig, hcert', hsig'⟩
    exact ⟨hfirst, hpresence, hcert, hsig, hcert', hsig', Nat.le_of_eq hlength⟩

/-- A number is read from its encoding and from no other byte string. -/
theorem fromBytes_eq_ok (hD : D.Exact) {bytes : Bytes} :
    fromBytes D bytes = .ok x ↔ bytes = x.toBytes ∧ x.Paired ∧ x.HasKemKeys := by
  simp only [fromBytes, Except.bind_eq_ok, rejectIf_eq_ok, arrayFromBytes_eq_ok,
    IdentityCertificate.fromBytes_eq_ok hD, Except.mapError_eq_ok,
    CanonicalSignature.fromBytes_eq_ok hD]
  constructor
  · intro hboth
    rcases hboth with ⟨_, _, fingerprint, hfirst, cert, ⟨hcert, hkem⟩, sig, hsig, h⟩
    split at h
    · next hpresence =>
      simp only [Except.bind_eq_ok, rejectIf_eq_ok, not_not, Except.pure_eq_ok] at h
      obtain ⟨_, hlength, hx⟩ := h
      subst hx
      exact ⟨oneSided_iff.mpr ⟨hlength, hfirst, hpresence, hcert, hsig⟩, rfl, hkem, by simp⟩
    · split at h
      · next hpresence =>
        simp only [Except.bind_eq_ok, rejectIf_eq_ok, not_not, Except.pure_eq_ok,
          IdentityCertificate.fromBytes_eq_ok hD, Except.mapError_eq_ok,
          CanonicalSignature.fromBytes_eq_ok hD] at h
        obtain ⟨_, hlength, theirCert, ⟨hcert', hkem'⟩, theirSig, hsig', hx⟩ := h
        subst hx
        exact ⟨twoSided_iff.mpr ⟨hlength, hfirst, hpresence, hcert, hsig, hcert', hsig'⟩, rfl,
          hkem, by simpa using hkem'⟩
      · cases h
  · intro hboth
    rcases hboth with ⟨hbytes, hpaired, hkem, hkem'⟩
    obtain ⟨n, cert, sig, theirCert, theirSig⟩ := x
    cases theirCert with
    | none =>
      cases theirSig with
      | none =>
        obtain ⟨hlength, hfirst, hpresence, hcert, hsig⟩ := oneSided_iff.mp hbytes
        refine ⟨(), fun h => h.1 hlength, n.fingerprint, hfirst, cert, ⟨hcert, hkem⟩, sig, hsig, ?_⟩
        rw [if_pos hpresence]
        exact Except.bind_eq_ok.mpr ⟨(), rejectIf_eq_ok.mpr (not_not.mpr hlength), rfl⟩
      | some theirSig => exact absurd hpaired (by simp [Paired])
    | some theirCert =>
      cases theirSig with
      | none => exact absurd hpaired (by simp [Paired])
      | some theirSig =>
        obtain ⟨hlength, hfirst, hpresence, hcert, hsig, hcert', hsig'⟩ := twoSided_iff.mp hbytes
        have hother : sliceAt bytes 32 1 ≠ [0] := by
          rw [hpresence]
          decide
        refine ⟨(), fun h => h.2 hlength, n.fingerprint, hfirst, cert, ⟨hcert, hkem⟩, sig, hsig, ?_⟩
        rw [if_neg hother, if_pos hpresence]
        simp only [Except.bind_eq_ok, rejectIf_eq_ok, not_not, Except.pure_eq_ok,
          IdentityCertificate.fromBytes_eq_ok hD, Except.mapError_eq_ok,
          CanonicalSignature.fromBytes_eq_ok hD]
        exact ⟨(), hlength, theirCert, ⟨hcert', hkem' theirCert rfl⟩, theirSig, hsig', rfl⟩

theorem createOneSided_paired {n : SafetyNumber} {kp : HybridSigningKeypair P.toSignaturePrimitives}
    {c : IdentityCertificate D} {coins : SigningCoins P.toSignaturePrimitives}
    (h : createOneSided n kp c coins = .ok x) : x.Paired := by
  simp only [createOneSided, Except.bind_eq_ok, Except.pure_eq_ok] at h
  obtain ⟨_, _, rfl⟩ := h
  rfl

theorem attachTheirSide_paired (c : IdentityCertificate D) (sig : CanonicalSignature P) :
    (x.attachTheirSide c sig).Paired := rfl

/-- The codec is exact on the values whose two peer fields are both there or both
missing, and whose certificates have a KEM key that can be read.  Every side that is
complete is checked, and half a side is left out by the encoder and the verifier. -/
theorem codec_and_verification (hD : D.Exact) :
    (∀ x : CertifiedSafetyNumber D,
      fromBytes D x.toBytes = .ok x ↔ x.Paired ∧ x.HasKemKeys) ∧
    (∀ bytes, ∀ x : CertifiedSafetyNumber D, fromBytes D bytes = .ok x →
      x.toBytes = bytes ∧ x.Paired) ∧
    (∀ x : CertifiedSafetyNumber D, x.verify = .ok () ↔
      SideChecked x.safetyNumber x.ourCertificate x.ourSignature ∧
        ∀ c ∈ x.theirCertificate, ∀ sig ∈ x.theirSignature,
          SideChecked x.safetyNumber c sig) ∧
    (∀ x : CertifiedSafetyNumber D, x.Paired → x.verify = .ok () →
      (∀ c ∈ x.theirCertificate, ∃ sig ∈ x.theirSignature, SideChecked x.safetyNumber c sig) ∧
        ∀ sig ∈ x.theirSignature, ∃ c ∈ x.theirCertificate, SideChecked x.safetyNumber c sig) ∧
    ∀ x : CertifiedSafetyNumber D, ¬x.Paired →
      x.verify = { x with theirCertificate := none, theirSignature := none }.verify ∧
        x.toBytes = { x with theirCertificate := none, theirSignature := none }.toBytes := by
  refine ⟨?_, ?_, fun x => verify_eq_ok, ?_, fun x => verify_of_not_paired⟩
  · intro x
    rw [fromBytes_eq_ok hD, eq_self, true_and]
  · intro bytes x h
    obtain ⟨hbytes, hpaired, _⟩ := (fromBytes_eq_ok hD).mp h
    exact ⟨hbytes.symm, hpaired⟩
  · intro x hpaired hverify
    obtain ⟨_, hall⟩ := verify_eq_ok.mp hverify
    rw [Paired] at hpaired
    constructor
    · intro c hc
      rw [Option.mem_def.mp hc, Option.isSome_some, eq_comm, Option.isSome_iff_exists] at hpaired
      obtain ⟨sig, hsig⟩ := hpaired
      exact ⟨sig, hsig, hall c hc sig hsig⟩
    · intro sig hsig
      rw [Option.mem_def.mp hsig, Option.isSome_some, Option.isSome_iff_exists] at hpaired
      obtain ⟨c, hc⟩ := hpaired
      exact ⟨c, hc, hall c hc sig hsig⟩

end CertifiedSafetyNumber

/-! ## Samples -/

section Sample

variable (C : MontgomeryCurve)

/-- The identity of the first sample key pair. -/
def sampleIdentity : ReadableIdentity (sampleDecoders C) :=
  ⟨⟨(sampleKeypair 1).publicKey, ⟨FixedBytes.zero 56, filled 1158 1⟩⟩, rfl⟩

/-- A certificate for that identity, with a given signature. -/
def sampleCertificate (signature : CanonicalSignature (samplePrimitives C)) :
    IdentityCertificate (sampleDecoders C) where
  subjectIdentity := sampleIdentity C
  issuerSigningPk := ⟨(sampleKeypair 1).publicKey, rfl⟩
  issuedAt := 0
  expiresAt := 1
  signature := signature

def sampleNumber : SafetyNumber := ⟨FixedBytes.zero 32⟩

/-- Our side is complete.  Of the peer's there is a certificate, which its issuer
did not sign. -/
def halfPresent : CertifiedSafetyNumber (sampleDecoders C) where
  safetyNumber := sampleNumber
  ourCertificate := sampleCertificate C (sampleSigned C 1
    (IdentityCertificate.signingData (sampleIdentity C).val 0 1))
  ourSignature := sampleSigned C 1 (CertifiedSafetyNumber.signingData sampleNumber)
  theirCertificate := some (sampleCertificate C (blankSignature C))
  theirSignature := none

theorem sampleIdentity_hasKemKey : HasKemKey (sampleIdentity C) := by
  intro h
  have hhead := congrArg (fun pk => pk.val.head?) h
  change (some 1 : Option UInt8) = some 0 at hhead
  exact absurd hhead (by decide)

theorem halfPresent_verify : (halfPresent C).verify = .ok () := by
  refine CertifiedSafetyNumber.verify_eq_ok.mpr ⟨⟨?_, ?_⟩, ?_⟩
  · exact sampleSigned_verifies 1 _
  · exact sampleSigned_verifies 1 _
  · intro c _ sig hsig
    cases hsig

/-- The value verifies with a certificate that nobody signed, and without this
certificate it comes back from its encoding. -/
theorem halfPresent_unverified :
    (halfPresent rfc7748Curve).verify = .ok () ∧
      (∃ c ∈ (halfPresent rfc7748Curve).theirCertificate, c.verify ≠ .ok ()) ∧
      CertifiedSafetyNumber.fromBytes (sampleDecoders rfc7748Curve)
          (halfPresent rfc7748Curve).toBytes
        = .ok { halfPresent rfc7748Curve with theirCertificate := none } ∧
      CertifiedSafetyNumber.fromBytes (sampleDecoders rfc7748Curve)
          (halfPresent rfc7748Curve).toBytes
        ≠ .ok (halfPresent rfc7748Curve) := by
  refine ⟨halfPresent_verify _, ⟨_, rfl, blankSignature_refused _⟩, ?_, ?_⟩
  · refine (CertifiedSafetyNumber.fromBytes_eq_ok (sampleDecoders_exact _)).mpr ⟨rfl, rfl, ?_⟩
    exact ⟨sampleIdentity_hasKemKey _, by simp⟩
  · intro h
    obtain ⟨_, hpaired, _⟩ :=
      (CertifiedSafetyNumber.fromBytes_eq_ok (sampleDecoders_exact _)).mp h
    change true = false at hpaired
    cases hpaired

/-- The same number without the peer's certificate. -/
theorem codec_and_verification_sample :
    CertifiedSafetyNumber.fromBytes (sampleDecoders rfc7748Curve)
        ({ halfPresent rfc7748Curve with theirCertificate := none } :
          CertifiedSafetyNumber (sampleDecoders rfc7748Curve)).toBytes
      = .ok { halfPresent rfc7748Curve with theirCertificate := none } := by
  obtain ⟨hcodec, _⟩ :=
    CertifiedSafetyNumber.codec_and_verification (sampleDecoders_exact rfc7748Curve)
  exact (hcodec _).mpr ⟨rfl, sampleIdentity_hasKemKey _, by simp⟩

end Sample

end Trelis.MultiDevice
