import Trelis.Hybrid.CommittingAead
import Trelis.MultiDevice.SignedStatements
import Trelis.X3dh.HybridKem

/-!
# Device key wraps

`device_key_wrap.rs`: a secret is sealed for one device, under a key that is
encapsulated to the device and with the place that it belongs to as associated
data.

One wrap opens for one device and in one place.  The links of that chain are the
committing AEAD, which binds the wrapping key and the associated data; the
derivation of the wrapping key from the shared secret; the combiner, which binds
the public key of the device (`combineV2_inj`); and the layout of the associated
data (`WrapContext.toAad_inj`).
-/

namespace Trelis.MultiDevice

open Hybrid X3dh

/-- The primitives of the wraps. -/
structure WrapPrimitives extends HandshakePrimitives, AeadPrimitives

/-! ## Contexts -/

/-- `WrapPurpose`. -/
inductive WrapPurpose where
  | bundleKey
  | sessionSeed
  | historyKey
deriving DecidableEq

def WrapPurpose.toByte : WrapPurpose → UInt8
  | bundleKey => 0x01
  | sessionSeed => 0x02
  | historyKey => 0x03

theorem WrapPurpose.toByte_inj {p p' : WrapPurpose} (h : p.toByte = p'.toByte) : p = p' := by
  revert h
  cases p <;> cases p' <;> decide

/-- `WrapContext`. -/
structure WrapContext where
  recipientKeyId : FixedBytes 8
  purpose : WrapPurpose
  threadId : Bytes32
  bundleId : Bytes32
  epoch : UInt64

/-- `WrapContext::to_aad`. -/
def WrapContext.toAad (c : WrapContext) : Bytes :=
  c.recipientKeyId.val ++ [c.purpose.toByte] ++ c.threadId.val ++ c.bundleId.val ++
    leBytes 8 c.epoch.toNat

/-- The associated data tell every field of the context. -/
theorem WrapContext.toAad_inj {c c' : WrapContext} (h : c.toAad = c'.toAad) : c = c' := by
  have hfields := flatten_inj
    (l := [c.recipientKeyId.val, [c.purpose.toByte], c.threadId.val, c.bundleId.val,
      leBytes 8 c.epoch.toNat])
    (m := [c'.recipientKeyId.val, [c'.purpose.toByte], c'.threadId.val, c'.bundleId.val,
      leBytes 8 c'.epoch.toNat])
    (by simp) (by simpa [toAad] using h)
  simp only [List.cons.injEq, and_true] at hfields
  obtain ⟨hid, hpurpose, hthread, hbundle, hepoch⟩ := hfields
  cases c
  cases c'
  rw [mk.injEq]
  exact ⟨Subtype.ext hid, WrapPurpose.toByte_inj hpurpose, Subtype.ext hthread,
    Subtype.ext hbundle, leBytes_uint64_inj hepoch⟩

/-! ## The wire form -/

/-- `DeviceKeyWrap`. -/
structure DeviceKeyWrap where
  recipientKeyId : FixedBytes 8
  x448Ephemeral : FixedBytes 56
  sntrupCiphertext : FixedBytes 1039
  nonce : FixedBytes 24
  encryptedPayload : FixedBytes 80

def deviceKeyWrapSize : Nat := 8 + 56 + 1039 + 24 + 80

namespace DeviceKeyWrap

/-- `DeviceKeyWrap::to_bytes`. -/
def toBytes (w : DeviceKeyWrap) : Bytes :=
  w.recipientKeyId.val ++ (w.x448Ephemeral.val ++ (w.sntrupCiphertext.val ++
    (w.nonce.val ++ w.encryptedPayload.val)))

/-- `DeviceKeyWrap::from_bytes`. -/
def fromBytes (bytes : Bytes) : Result DeviceKeyWrap := do
  rejectIf (bytes.length ≠ deviceKeyWrapSize) .malformedMessage
  -- The slices have the lengths of the arrays, so that the copies do not fail.
  let recipientKeyId ← arrayFromBytes 8 (sliceAt bytes 0 8) .malformedMessage
  let x448Ephemeral ← arrayFromBytes 56 (sliceAt bytes 8 56) .malformedMessage
  let sntrupCiphertext ← arrayFromBytes 1039 (sliceAt bytes 64 1039) .malformedMessage
  let nonce ← arrayFromBytes 24 (sliceAt bytes 1103 24) .malformedMessage
  let encryptedPayload ← arrayFromBytes 80 (sliceAt bytes 1127 80) .malformedMessage
  pure { recipientKeyId, x448Ephemeral, sntrupCiphertext, nonce, encryptedPayload }

@[simp] theorem length_toBytes (w : DeviceKeyWrap) : w.toBytes.length = 1207 := by
  simp [toBytes]

/-- A wrap is read from its encoding and from no other byte string. -/
theorem fromBytes_eq_ok {bytes : Bytes} {w : DeviceKeyWrap} :
    fromBytes bytes = .ok w ↔ bytes = w.toBytes := by
  have hid : w.recipientKeyId.val.length = 8 := FixedBytes.length_coe _
  have heph : w.x448Ephemeral.val.length = 56 := FixedBytes.length_coe _
  have hct : w.sntrupCiphertext.val.length = 1039 := FixedBytes.length_coe _
  have hnonce : w.nonce.val.length = 24 := FixedBytes.length_coe _
  have hpayload : w.encryptedPayload.val.length = 80 := FixedBytes.length_coe _
  have hlast (h : bytes.length = 1207) : sliceAt bytes 1127 80 = bytes.drop 1127 :=
    sliceAt_eq_drop h
  simp only [fromBytes, Except.bind_eq_ok, rejectIf_eq_ok, not_not, arrayFromBytes_eq_ok,
    Except.pure_eq_ok]
  constructor
  · intro hboth
    rcases hboth with ⟨_, hlength, id, h1, eph, h2, ct, h3, nonce, h4, payload, h5, hw⟩
    subst hw
    refine (eq_append_iff hid).mpr ⟨h1, ?_⟩
    refine (drop_eq_append_iff heph).mpr ⟨h2, ?_⟩
    refine (drop_eq_append_iff hct).mpr ⟨h3, ?_⟩
    exact (drop_eq_append_iff hnonce).mpr ⟨h4, (hlast hlength).symm.trans h5⟩
  · intro h
    have hlength : bytes.length = 1207 := h ▸ length_toBytes w
    obtain ⟨h1, hrest⟩ := (eq_append_iff hid).mp h
    obtain ⟨h2, hrest⟩ := (drop_eq_append_iff heph).mp hrest
    obtain ⟨h3, hrest⟩ := (drop_eq_append_iff hct).mp hrest
    obtain ⟨h4, h5⟩ := (drop_eq_append_iff hnonce).mp hrest
    exact ⟨(), hlength, w.recipientKeyId, h1, w.x448Ephemeral, h2, w.sntrupCiphertext, h3,
      w.nonce, h4, w.encryptedPayload, (hlast hlength).trans h5, rfl⟩

/-! ## Wrapping and unwrapping -/

def wrapContext : String := "trelis-bundle-wrap-v1"

/-- `derive_wrapping_key`. -/
def deriveWrappingKey (P : WrapPrimitives) (sharedSecret : Bytes32) : Bytes32 :=
  P.deriveKey wrapContext sharedSecret.val

/-- `DeviceKeyWrap::wrap`. -/
def wrap (P : WrapPrimitives) (secret : Bytes32) (recipientPk : HybridKemPublicKey)
    (context : WrapContext) (x448 : Result (FixedBytes 56)) (sntrup : P.sntrup.Coins)
    (nonce : FixedBytes 24) : Result DeviceKeyWrap := do
  let (sharedSecret, encapsulation) ←
    recipientPk.encapsulate P.toHandshakePrimitives x448 sntrup
  let wrappingKey := deriveWrappingKey P sharedSecret
  let ciphertext ←
    P.toAeadPrimitives.encryptCommitting wrappingKey nonce secret.val context.toAad
  let encryptedPayload ← arrayFromBytes 80 ciphertext .malformedMessage
  let x448Ephemeral ← arrayFromBytes 56 (encapsulation.toBytes.val.take 56) .malformedMessage
  let sntrupCiphertext ← arrayFromBytes 1039 (encapsulation.toBytes.val.drop 56) .malformedMessage
  pure { recipientKeyId := context.recipientKeyId, x448Ephemeral, sntrupCiphertext, nonce
         encryptedPayload }

/-- `DeviceKeyWrap::unwrap`. -/
def unwrap (P : WrapPrimitives) (w : DeviceKeyWrap)
    (recipientKeypair : HybridKemKeypair P.toHandshakePrimitives) (context : WrapContext) :
    Result Bytes32 := do
  rejectIf (w.recipientKeyId ≠ context.recipientKeyId) .decryptionFailed
  let encapsulation ←
    HybridEncapsulation.fromBytes (w.x448Ephemeral.val ++ w.sntrupCiphertext.val)
  let sharedSecret ← recipientKeypair.decapsulate encapsulation
  let wrappingKey := deriveWrappingKey P sharedSecret
  let plaintext ← P.toAeadPrimitives.decryptCommitting wrappingKey w.nonce
    w.encryptedPayload.val context.toAad
  arrayFromBytes 32 plaintext .decryptionFailed

/-- The encapsulation inside a wrap. -/
def encapsulation (w : DeviceKeyWrap) : HybridEncapsulation :=
  ⟨w.x448Ephemeral, w.sntrupCiphertext⟩

variable {P : WrapPrimitives} {w : DeviceKeyWrap} {context context' : WrapContext}
  {kp kp' : HybridKemKeypair P.toHandshakePrimitives} {secret secret' : Bytes32}

/-- What a wrap is made of. -/
theorem wrap_eq_ok {pk : HybridKemPublicKey} {x448 : Result (FixedBytes 56)}
    {sntrup : P.sntrup.Coins} {nonce : FixedBytes 24} :
    wrap P secret pk context x448 sntrup nonce = .ok w ↔
      ∃ sharedSecret,
        pk.encapsulate P.toHandshakePrimitives x448 sntrup = .ok (sharedSecret, w.encapsulation) ∧
        P.toAeadPrimitives.encryptCommitting (deriveWrappingKey P sharedSecret) nonce secret.val
          context.toAad = .ok w.encryptedPayload.val ∧
        w.recipientKeyId = context.recipientKeyId ∧ w.nonce = nonce := by
  simp only [wrap, Except.bind_eq_ok, arrayFromBytes_eq_ok, Except.pure_eq_ok]
  constructor
  · intro hex
    obtain ⟨⟨sharedSecret, e⟩, he, ciphertext, hct, payload, hpayload, eph, heph,
      ct, hsntrup, hw⟩ := hex
    subst hw
    have hsame : e = ⟨eph, ct⟩ := by
      obtain ⟨hfirst, hsecond⟩ := List.append_inj
        (show e.x448Ephemeral.val ++ e.sntrupCiphertext.val = eph.val ++ ct.val by
          rw [← heph, ← hsntrup, List.take_append_drop]
          rfl) (by simp)
      cases e
      rw [HybridEncapsulation.mk.injEq]
      exact ⟨Subtype.ext hfirst, Subtype.ext hsecond⟩
    rw [hsame] at he
    exact ⟨sharedSecret, he, hpayload ▸ hct, rfl, rfl⟩
  · intro hex
    rcases hex with ⟨sharedSecret, he, hct, hid, hnonce⟩
    refine ⟨_, he, _, hct, w.encryptedPayload, rfl, w.x448Ephemeral, ?_, w.sntrupCiphertext, ?_, ?_⟩
    · exact List.take_left' (FixedBytes.length_coe _)
    · exact List.drop_left' (FixedBytes.length_coe _)
    · rw [← hid, ← hnonce]

/-- What unwraps, and to what. -/
theorem unwrap_eq_ok :
    w.unwrap P kp context = .ok secret ↔
      w.recipientKeyId = context.recipientKeyId ∧
        ∃ t, kp.decapsulateInput w.encapsulation = .ok t ∧
          P.toAeadPrimitives.decryptCommitting
            (deriveWrappingKey P (combineV2 P.toHandshakePrimitives t)) w.nonce
            w.encryptedPayload.val context.toAad = .ok secret.val := by
  have hparse : HybridEncapsulation.fromBytes (w.x448Ephemeral.val ++ w.sntrupCiphertext.val)
      = .ok w.encapsulation := HybridEncapsulation.fromBytes_eq_ok.mpr rfl
  simp only [unwrap, Except.bind_eq_ok, rejectIf_eq_ok, not_not, hparse,
    HybridKemKeypair.decapsulate_eq_ok, arrayFromBytes_eq_ok]
  constructor
  · intro hboth
    rcases hboth with ⟨_, hid, _, he, sharedSecret, ⟨t, ht, hkey⟩, plaintext, hplaintext, hsecret⟩
    cases he
    subst hkey
    subst hsecret
    exact ⟨hid, t, ht, hplaintext⟩
  · intro hboth
    rcases hboth with ⟨hid, t, ht, hplaintext⟩
    exact ⟨(), hid, _, rfl, _, ⟨t, ht, rfl⟩, secret.val, hplaintext, rfl⟩

/-- The owner opens what was wrapped for it, after a trip over the wire. -/
theorem unwrap_of_wrap (hcurve : P.x448.Rfc7748) (hkem : P.sntrup.Correct)
    (haead : P.toAeadPrimitives.Ideal) (hkp : kp.Generated) {x448 : Result (FixedBytes 56)}
    {sntrup : P.sntrup.Coins} {nonce : FixedBytes 24}
    (h : wrap P secret kp.publicKey context x448 sntrup nonce = .ok w) :
    (fromBytes w.toBytes >>= fun w' => w'.unwrap P kp context) = .ok secret := by
  obtain ⟨sharedSecret, he, hct, hid, hnonce⟩ := wrap_eq_ok.mp h
  obtain ⟨t, ht, hkey⟩ := HybridKemPublicKey.encapsulate_eq_ok.mp he
  refine Except.bind_eq_ok.mpr ⟨w, fromBytes_eq_ok.mpr rfl, unwrap_eq_ok.mpr ⟨hid, t, ?_, ?_⟩⟩
  · exact HybridKemKeypair.decapsulateInput_of_encapsulateInput hcurve hkem hkp ht
  · rw [hkey, hnonce]
    exact (AeadPrimitives.decryptCommitting_iff haead).mpr hct

/-- Two runs of `unwrap` that feed `t` and `t'` to the combiner do not collide. -/
structure NoCollision (P : WrapPrimitives) (w : DeviceKeyWrap) (context context' : WrapContext)
    (t t' : CombinerInput) : Prop where
  combiner : t.NoCollision P.toHandshakePrimitives t'
  derive :
    deriveWrappingKey P (combineV2 P.toHandshakePrimitives t) =
        deriveWrappingKey P (combineV2 P.toHandshakePrimitives t') →
      combineV2 P.toHandshakePrimitives t = combineV2 P.toHandshakePrimitives t'
  commitment : P.toAeadPrimitives.NoCollision
    (deriveWrappingKey P (combineV2 P.toHandshakePrimitives t))
    (deriveWrappingKey P (combineV2 P.toHandshakePrimitives t'))
    (commitmentFrame w.nonce context.toAad (AeadPrimitives.body w.encryptedPayload.val))
    (commitmentFrame w.nonce context'.toAad (AeadPrimitives.body w.encryptedPayload.val))

/-- What opens a wrap twice is one device, in one place, and finds one secret. -/
theorem unwrap_unique
    (hfree : ∀ t t', kp.decapsulateInput w.encapsulation = .ok t →
      kp'.decapsulateInput w.encapsulation = .ok t' → NoCollision P w context context' t t')
    (h : w.unwrap P kp context = .ok secret) (h' : w.unwrap P kp' context' = .ok secret') :
    kp.publicKey = kp'.publicKey ∧ context = context' ∧ secret = secret' := by
  obtain ⟨_, t, ht, hopened⟩ := unwrap_eq_ok.mp h
  obtain ⟨_, t', ht', hopened'⟩ := unwrap_eq_ok.mp h'
  have hfree := hfree t t' ht ht'
  obtain ⟨hkey, _, haad⟩ :=
    AeadPrimitives.decryptCommitting_binds hfree.commitment hopened hopened'
  have htuple := combineV2_inj hfree.combiner (hfree.derive hkey)
  subst htuple
  have hpk := ((Feeds.decapsulated ht).unique (.decapsulated ht')).2
  rw [haad, hopened'] at hopened
  exact ⟨hpk, WrapContext.toAad_inj haad, Subtype.ext (Except.ok.inj hopened).symm⟩

/-- A wrap opens for the device and in the place that it was made for, and for no other
device and in no other place. -/
theorem wrap_binding (hcurve : P.x448.Rfc7748) (hkem : P.sntrup.Correct)
    (haead : P.toAeadPrimitives.Ideal) :
    (∀ (secret : Bytes32) (kp : HybridKemKeypair P.toHandshakePrimitives) (context : WrapContext)
        x448 sntrup nonce w, kp.Generated →
      wrap P secret kp.publicKey context x448 sntrup nonce = .ok w →
        (fromBytes w.toBytes >>= fun w' => w'.unwrap P kp context) = .ok secret) ∧
    ∀ (bytes : Bytes) (w : DeviceKeyWrap) (kp kp' : HybridKemKeypair P.toHandshakePrimitives)
        (context context' : WrapContext) (secret secret' : Bytes32),
      fromBytes bytes = .ok w →
      (∀ t t', kp.decapsulateInput w.encapsulation = .ok t →
        kp'.decapsulateInput w.encapsulation = .ok t' → NoCollision P w context context' t t') →
      w.unwrap P kp context = .ok secret → w.unwrap P kp' context' = .ok secret' →
        kp.publicKey = kp'.publicKey ∧ context = context' ∧ secret = secret' := by
  constructor
  · intro secret kp context x448 sntrup nonce w hkp h
    exact unwrap_of_wrap hcurve hkem haead hkp h
  · intro bytes w kp kp' context context' secret secret' _ hfree h h'
    exact unwrap_unique hfree h h'

end DeviceKeyWrap

/-! ## A sample wrap -/

section Sample

/-- The primitives of concrete wraps. -/
def sampleWrapPrimitives : WrapPrimitives :=
  { sampleHybridKem, sampleAead with }

/-- A place for a wrap. -/
def sampleContext : WrapContext where
  recipientKeyId := filled 8 1
  purpose := .bundleKey
  threadId := filled 32 2
  bundleId := filled 32 3
  epoch := 4

/-- A device opens what was wrapped for it. -/
theorem wrap_binding_sample :
    ∃ kp w, HybridKemKeypair.generate sampleHybridKem (sampleDraw 1) () = .ok kp ∧
      DeviceKeyWrap.wrap sampleWrapPrimitives (filled 32 7) kp.publicKey sampleContext
        (sampleDraw 2) () (filled 24 5) = .ok w ∧
      (DeviceKeyWrap.fromBytes w.toBytes >>= fun w' =>
        w'.unwrap sampleWrapPrimitives kp sampleContext) = .ok (filled 32 7) := by
  obtain ⟨hopens, _⟩ := DeviceKeyWrap.wrap_binding (P := sampleWrapPrimitives)
    additiveCurve_rfc7748 sampleHybridKem_correct sampleAead_ideal
  obtain ⟨kp, hkp, hpk⟩ := sampleHybridKem_generates
  obtain ⟨key, e, he⟩ := sampleHybridKem_encapsulates hpk
  obtain ⟨ct, hct⟩ : ∃ ct, sampleAead.encryptCommitting
      (DeviceKeyWrap.deriveWrappingKey sampleWrapPrimitives key) (filled 24 5) (filled 32 7).val
      sampleContext.toAad = .ok ct := ⟨_, rfl⟩
  obtain ⟨body, hbody, hsplit⟩ := AeadPrimitives.encryptCommitting_eq_ok.mp hct
  have hlength : ct.length = 80 := by
    rw [hsplit, List.length_append, sampleAead_ideal.length_eq hbody, FixedBytes.length_coe,
      FixedBytes.length_coe]
  have hwrap : DeviceKeyWrap.wrap sampleWrapPrimitives (filled 32 7) kp.publicKey sampleContext
      (sampleDraw 2) () (filled 24 5) = .ok
        ⟨sampleContext.recipientKeyId, e.x448Ephemeral, e.sntrupCiphertext, filled 24 5,
          ⟨ct, hlength⟩⟩ :=
    DeviceKeyWrap.wrap_eq_ok.mpr ⟨key, he, hct, rfl, rfl⟩
  exact ⟨kp, _, hkp, hwrap, hopens _ kp _ _ _ _ _
    (HybridKemKeypair.generated_of_generate hkp) hwrap⟩

end Sample

end Trelis.MultiDevice
