import Trelis.Hybrid.Combiner
import Trelis.Lib.FieldCodec
import Trelis.Lib.Panic

/-!
# Ed448 with BLAKE3

`ed448b.rs`: Schnorr signatures over Ed448, in which BLAKE3 expands the seed and draws the
nonce and the challenge.  A signature is the compressed commitment `R` and the response `s`.

The scheme is the one of RFC 8032 up to the hash, so that the laws of `Lib.Schnorr` are all
that is behind it.  A message that is signed verifies; `R` and the message determine `s`;
and a signature is good for two messages only where their challenges agree, if the point
of the key has the order `L`.  No function checks that it has: the neutral point is read
as a key, and under it one signature is good for every message.
-/

namespace Trelis.Hybrid

/-- The curve and the hash of Ed448-B. -/
structure Ed448BPrimitives extends Curve where
  [pointEq : DecidableEq Point]
  /-- The first 114 bytes of BLAKE3 in the mode for deriving keys. -/
  deriveKeyXof : String → Bytes → FixedBytes 114

attribute [instance] Ed448BPrimitives.pointEq

variable {P : Ed448BPrimitives}

namespace Ed448B

def contextExpand : String := "Ed448-B-expand"
def contextNonce : String := "Ed448-B-nonce"
def contextChallenge : String := "Ed448-B-challenge"

/-- `u8::try_from(ctx.len())`, with the `expect` behind it. -/
def ctxLenByte (ctx : Bytes) : Option UInt8 :=
  if ctx.length ≤ 255 then some (UInt8.ofNat ctx.length) else none

theorem ctxLenByte_of_le {ctx : Bytes} (h : ctx.length ≤ 255) :
    ctxLenByte ctx = some (UInt8.ofNat ctx.length) := if_pos h

end Ed448B

open Ed448B

/-! ## Keys and signatures -/

/-- `Ed448BVerifyingKey`. -/
structure Ed448BVerifyingKey (P : Ed448BPrimitives) where
  compressed : FixedBytes 57
  point : P.Point

/-- `ExpandedSecretKey`. -/
structure ExpandedSecretKey (P : Ed448BPrimitives) where
  scalar : Scalar
  hashPrefix : FixedBytes 57
  publicKey : Ed448BVerifyingKey P

/-- `Ed448BSigningKey`. -/
structure Ed448BSigningKey where
  seed : FixedBytes 57

/-- `Ed448BSignature`. -/
structure Ed448BSignature where
  r : FixedBytes 57
  s : FixedBytes 57
deriving DecidableEq

namespace Ed448BSignature

/-- `Ed448BSignature::new`.  The scalar is written as the response of a combiner is. -/
def new (r : FixedBytes 57) (s : Scalar) : Ed448BSignature :=
  ⟨r, (Ed448BopResponse.fromScalar s).bytes⟩

/-- `Ed448BSignature::to_bytes`. -/
def toBytes (sig : Ed448BSignature) : FixedBytes 114 := ⟨sig.r.val ++ sig.s.val, by simp⟩

/-- `Ed448BSignature::from_bytes`.  The checks on `s` are those of a response. -/
def fromBytes (bytes : Bytes) : Result Ed448BSignature :=
  if h : bytes.length = 114 then do
    let r : FixedBytes 57 := ⟨bytes.take 57, by simp [h]⟩
    let s : FixedBytes 57 := ⟨bytes.drop 57, by simp [h]⟩
    Ed448BopResponse.guardCanonical s
    pure ⟨r, s⟩
  else .error .invalidSignature

/-- The scalar of a signature, where `s` is canonical. -/
def scalar (sig : Ed448BSignature) : Result Scalar := (Ed448BopResponse.mk sig.s).toScalar

@[simp] theorem scalar_new (r : FixedBytes 57) (s : Scalar) : (new r s).scalar = .ok s :=
  Ed448BopResponse.toScalar_fromScalar s

/-- A byte string is read as the signature that it encodes, if that one is canonical. -/
theorem fromBytes_eq_ok {bytes : Bytes} {sig : Ed448BSignature} :
    fromBytes bytes = .ok sig ↔ bytes = sig.toBytes.val ∧ ∃ s, sig.scalar = .ok s := by
  have hr : sig.r.val.length = 57 := FixedBytes.length_coe _
  have hcanonical : (∃ s, sig.scalar = .ok s) ↔ Ed448BopResponse.guardCanonical sig.s = .ok () := by
    simp only [scalar, Ed448BopResponse.toScalar_eq_ok, Ed448BopResponse.guardCanonical_eq_ok]
    constructor
    · intro hex
      rcases hex with ⟨s, hlast, hvalue⟩
      exact ⟨hlast, hvalue ▸ s.isLt⟩
    · intro hboth
      exact ⟨⟨_, hboth.2⟩, hboth.1, rfl⟩
  rw [hcanonical]
  unfold fromBytes
  split
  · next hlength =>
    simp only [Except.bind_eq_ok, Except.pure_eq_ok]
    constructor
    · intro hex
      rcases hex with ⟨_, hguard, rfl⟩
      exact ⟨(List.take_append_drop 57 bytes).symm, hguard⟩
    · intro hboth
      rcases hboth with ⟨hbytes, hguard⟩
      obtain ⟨htake, hdrop⟩ := (eq_append_iff hr).mp hbytes
      have hs : (⟨bytes.drop 57, by simp [hlength]⟩ : FixedBytes 57) = sig.s := Subtype.ext hdrop
      refine ⟨(), hs ▸ hguard, ?_⟩
      cases sig
      rw [mk.injEq]
      exact ⟨Subtype.ext htake, hs⟩
  · next hlength =>
    constructor
    · intro h
      cases h
    · intro hboth
      exact absurd (hboth.1 ▸ FixedBytes.length_coe _) hlength

end Ed448BSignature

/-! ## Signing -/

/-- `ExpandedSecretKey::from_seed`. -/
def ExpandedSecretKey.fromSeed (P : Ed448BPrimitives) (seed : FixedBytes 57) :
    ExpandedSecretKey P :=
  let output := (P.deriveKeyXof contextExpand seed.val).val
  let scalarBytes := output.take 57
  let scalarBytes := scalarBytes.modify 0 (· &&& 0xFC)
  let scalarBytes := scalarBytes.set 56 0
  let scalarBytes := scalarBytes.modify 55 (· ||| 0x80)
  let scalar := scalarOfBytesModOrder scalarBytes
  let hashPrefix : FixedBytes 57 := ⟨output.drop 57, by simp [output]⟩
  let point := scalar.val • P.generator
  { scalar, hashPrefix, publicKey := ⟨P.compress point, point⟩ }

namespace Ed448B

/-- What the challenge hashes. -/
def challengeInput (phflag : UInt8) (ctx : Bytes) (r a : FixedBytes 57) (message : Bytes) : Bytes :=
  [phflag] ++ [UInt8.ofNat ctx.length] ++ ctx ++ r.val ++ a.val ++ message

/-- The challenge, as a scalar. -/
def challenge (P : Ed448BPrimitives) (input : Bytes) : Scalar :=
  scalarOfBytesModOrder (P.deriveKeyXof contextChallenge input).val

/-- The challenge tells the context and the message, up to a collision. -/
theorem challengeInput_inj {phflag : UInt8} {ctx ctx' : Bytes} {r a : FixedBytes 57}
    {message message' : Bytes} (hctx : ctx.length ≤ 255) (hctx' : ctx'.length ≤ 255)
    (h : challengeInput phflag ctx r a message = challengeInput phflag ctx' r a message') :
    ctx = ctx' ∧ message = message' := by
  simp only [challengeInput, List.append_assoc, List.cons_append, List.nil_append,
    List.cons.injEq, true_and] at h
  obtain ⟨hlength, hrest⟩ := h
  have hlength : ctx.length = ctx'.length := by
    have hnat := congrArg UInt8.toNat hlength
    simp only [UInt8.toNat_ofNat'] at hnat
    omega
  obtain ⟨hctx, hrest⟩ := List.append_inj hrest hlength
  exact ⟨hctx, List.append_cancel_left (List.append_cancel_left hrest)⟩

end Ed448B

/-- `ExpandedSecretKey::sign_inner`. -/
def ExpandedSecretKey.signInner (sk : ExpandedSecretKey P) (phflag : UInt8) (ctx message : Bytes) :
    Option Ed448BSignature := do
  let ctxLen ← ctxLenByte ctx
  let rBytes := P.deriveKeyXof contextNonce
    ([phflag] ++ [ctxLen] ++ ctx ++ sk.hashPrefix.val ++ message)
  let r := scalarOfBytesModOrder rBytes.val
  let compressedR := P.compress (r.val • P.generator)
  let kBytes := P.deriveKeyXof contextChallenge
    ([phflag] ++ [ctxLen] ++ ctx ++ compressedR.val ++ sk.publicKey.compressed.val ++ message)
  let k := scalarOfBytesModOrder kBytes.val
  let s := r + k * sk.scalar
  pure (.new compressedR s)

namespace Ed448BSigningKey

/-- `Ed448BSigningKey::verifying_key`. -/
def verifyingKey (P : Ed448BPrimitives) (sk : Ed448BSigningKey) : Ed448BVerifyingKey P :=
  (ExpandedSecretKey.fromSeed P sk.seed).publicKey

/-- `Ed448BSigningKey::sign`. -/
def sign (P : Ed448BPrimitives) (sk : Ed448BSigningKey) (message : Bytes) :
    Option Ed448BSignature :=
  (ExpandedSecretKey.fromSeed P sk.seed).signInner 0 [] message

/-- `Ed448BSigningKey::sign_with_context`. -/
def signWithContext (P : Ed448BPrimitives) (sk : Ed448BSigningKey) (message context : Bytes) :
    MachineM CryptoError Ed448BSignature := do
  .returns (rejectIf (255 < context.length) (.invalidContextLength context.length 255))
  .arith ((ExpandedSecretKey.fromSeed P sk.seed).signInner 0 context message)

/-- Signing without a context is signing in the empty one. -/
theorem signWithContext_nil (sk : Ed448BSigningKey) (message : Bytes) :
    sk.signWithContext P message [] = .arith (sk.sign P message) := rfl

end Ed448BSigningKey

/-! ## Verification -/

namespace Ed448BVerifyingKey

/-- `Ed448BVerifyingKey::to_bytes`. -/
def toBytes (vk : Ed448BVerifyingKey P) : FixedBytes 57 := vk.compressed

/-- `Ed448BVerifyingKey::from_bytes`. -/
def fromBytes (P : Ed448BPrimitives) (bytes : Bytes) : Result (Ed448BVerifyingKey P) :=
  if h : bytes.length = 57 then
    match P.decompress ⟨bytes, h⟩ with
    | some point => .ok ⟨⟨bytes, h⟩, point⟩
    | none => .error .signatureVerificationFailed
  else .error (.invalidKeyLength 57 bytes.length)

/-- `Ed448BVerifyingKey::verify_inner`. -/
def verifyInner (vk : Ed448BVerifyingKey P) (phflag : UInt8) (ctx message : Bytes)
    (signature : Ed448BSignature) : MachineM CryptoError Unit :=
  match P.decompress signature.r with
  | none => .returns (.error .signatureVerificationFailed)
  | some rPoint => do
    let ctxLen ← .arith (ctxLenByte ctx)
    let kBytes := P.deriveKeyXof contextChallenge
      ([phflag] ++ [ctxLen] ++ ctx ++ signature.r.val ++ vk.compressed.val ++ message)
    let k := scalarOfBytesModOrder kBytes.val
    .returns (rejectIf (signature.s.val[56]? ≠ some 0) .signatureVerificationFailed)
    match scalarOfCanonicalBytes signature.s with
    | none => .returns (.error .signatureVerificationFailed)
    | some s =>
      .returns (rejectIf (s.val • P.generator ≠ rPoint + k.val • vk.point)
        .signatureVerificationFailed)

/-- `Ed448BVerifyingKey::verify`. -/
def verify (vk : Ed448BVerifyingKey P) (message : Bytes) (signature : Ed448BSignature) :
    MachineM CryptoError Unit :=
  vk.verifyInner 0 [] message signature

/-- `Ed448BVerifyingKey::verify_with_context`. -/
def verifyWithContext (vk : Ed448BVerifyingKey P) (message context : Bytes)
    (signature : Ed448BSignature) : MachineM CryptoError Unit := do
  .returns (rejectIf (255 < context.length) (.invalidContextLength context.length 255))
  vk.verifyInner 0 context message signature

theorem verifyWithContext_nil (vk : Ed448BVerifyingKey P) (message : Bytes)
    (signature : Ed448BSignature) :
    vk.verifyWithContext message [] signature = vk.verify message signature := rfl

variable {vk : Ed448BVerifyingKey P} {phflag : UInt8} {ctx message : Bytes}
  {sig : Ed448BSignature}

/-- What is checked of a signature whose context is short enough. -/
theorem verifyInner_eq_ok (hctx : ctx.length ≤ 255) :
    vk.verifyInner phflag ctx message sig = .returns (.ok ()) ↔
      ∃ rPoint s, P.decompress sig.r = some rPoint ∧ sig.scalar = .ok s ∧
        s.val • P.generator = rPoint +
          (challenge P (challengeInput phflag ctx sig.r vk.compressed message)).val • vk.point := by
  have hscalar (s : Scalar) : sig.scalar = .ok s ↔
      sig.s.val[56]? = some 0 ∧ scalarOfCanonicalBytes sig.s = some s := by
    rw [Ed448BSignature.scalar, Ed448BopResponse.toScalar_eq_ok, scalarOfCanonicalBytes]
    simp only [Option.dite_none_right_eq_some, Option.some.injEq, Fin.ext_iff]
    constructor
    · intro hboth
      exact ⟨hboth.1, hboth.2 ▸ s.isLt, hboth.2⟩
    · intro hboth
      exact ⟨hboth.1, hboth.2.2⟩
  simp only [hscalar]
  unfold verifyInner
  cases hr : P.decompress sig.r with
  | none => simp [MachineM.returns_inj]
  | some rPoint =>
    simp only [ctxLenByte_of_le hctx, MachineM.arith_some, MachineM.returns_ok_bind,
      MachineM.returns_bind_eq_ok, rejectIf_eq_ok, not_not, Option.some.injEq,
      exists_and_left, exists_eq_left', exists_const]
    cases hs : scalarOfCanonicalBytes sig.s with
    | none => simp [MachineM.returns_inj]
    | some s => simp [MachineM.returns_inj, challenge, challengeInput, and_assoc]

theorem verifyWithContext_eq_ok :
    vk.verifyWithContext message ctx sig = .returns (.ok ()) ↔
      ctx.length ≤ 255 ∧ ∃ rPoint s, P.decompress sig.r = some rPoint ∧ sig.scalar = .ok s ∧
        s.val • P.generator = rPoint +
          (challenge P (challengeInput 0 ctx sig.r vk.compressed message)).val • vk.point := by
  simp only [verifyWithContext, MachineM.returns_bind_eq_ok, rejectIf_eq_ok, Nat.not_lt]
  constructor
  · intro hex
    rcases hex with ⟨_, hctx, h⟩
    exact ⟨hctx, (verifyInner_eq_ok hctx).mp h⟩
  · intro hboth
    rcases hboth with ⟨hctx, h⟩
    exact ⟨(), hctx, (verifyInner_eq_ok hctx).mpr h⟩

/-- A commitment, a message and a context have one response. -/
theorem signature_eq (horder : addOrderOf P.generator = scalarOrder) {sig' : Ed448BSignature}
    (hr : sig.r = sig'.r) (h : vk.verifyWithContext message ctx sig = .returns (.ok ()))
    (h' : vk.verifyWithContext message ctx sig' = .returns (.ok ())) : sig = sig' := by
  obtain ⟨_, rPoint, s, hpoint, hs, heq⟩ := verifyWithContext_eq_ok.mp h
  obtain ⟨_, rPoint', s', hpoint', hs', heq'⟩ := verifyWithContext_eq_ok.mp h'
  rw [← hr] at hpoint' heq'
  obtain rfl : rPoint = rPoint' := Option.some.inj (hpoint.symm.trans hpoint')
  obtain rfl : s = s' := Schnorr.nsmul_val_inj horder (heq.trans heq'.symm)
  have hbytes := congrArg Ed448BopResponse.bytes (Ed448BopResponse.toScalar_inj hs hs')
  cases sig
  cases sig'
  rw [Ed448BSignature.mk.injEq]
  exact ⟨hr, hbytes⟩

/-- A signature that is good for two messages has one challenge for both, where the point
of the key has the order `L`. -/
theorem challenge_eq (horder : addOrderOf vk.point = scalarOrder) {message' ctx' : Bytes}
    (h : vk.verifyWithContext message ctx sig = .returns (.ok ()))
    (h' : vk.verifyWithContext message' ctx' sig = .returns (.ok ())) :
    challenge P (challengeInput 0 ctx sig.r vk.compressed message) =
      challenge P (challengeInput 0 ctx' sig.r vk.compressed message') := by
  obtain ⟨_, rPoint, s, hpoint, hs, heq⟩ := verifyWithContext_eq_ok.mp h
  obtain ⟨_, rPoint', s', hpoint', hs', heq'⟩ := verifyWithContext_eq_ok.mp h'
  obtain rfl : rPoint = rPoint' := Option.some.inj (hpoint.symm.trans hpoint')
  obtain rfl : s = s' := Except.ok.inj (hs.symm.trans hs')
  exact Schnorr.nsmul_val_inj horder (add_left_cancel (heq.symm.trans heq'))

end Ed448BVerifyingKey

/-! ## One key -/

namespace Ed448BSigningKey

variable {sk : Ed448BSigningKey} {message context : Bytes}

theorem fromBytes_verifyingKey (hcurve : P.Rfc8032) (sk : Ed448BSigningKey) :
    Ed448BVerifyingKey.fromBytes P (sk.verifyingKey P).toBytes.val = .ok (sk.verifyingKey P) := by
  have hdecompress : P.decompress (sk.verifyingKey P).compressed =
      some (sk.verifyingKey P).point := hcurve.decompress_compress _
  rw [Ed448BVerifyingKey.fromBytes, dif_pos (FixedBytes.length_coe _)]
  show (match P.decompress (sk.verifyingKey P).compressed with
    | some point => _
    | none => _) = _
  rw [hdecompress]
  rfl

/-- Signing returns, with a signature that is read back and verifies. -/
theorem exists_signature (hcurve : P.Rfc8032) (sk : Ed448BSigningKey) (message : Bytes)
    (hcontext : context.length ≤ 255) :
    ∃ sig, sk.signWithContext P message context = .returns (.ok sig) ∧
      Ed448BSignature.fromBytes sig.toBytes.val = .ok sig ∧
      (sk.verifyingKey P).verifyWithContext message context sig = .returns (.ok ()) := by
  let expanded := ExpandedSecretKey.fromSeed P sk.seed
  let r := scalarOfBytesModOrder (P.deriveKeyXof contextNonce
    ([0] ++ [UInt8.ofNat context.length] ++ context ++ expanded.hashPrefix.val ++ message)).val
  let k := challenge P (challengeInput 0 context (P.compress (r.val • P.generator))
    expanded.publicKey.compressed message)
  let sig := Ed448BSignature.new (P.compress (r.val • P.generator)) (r + k * expanded.scalar)
  have hinner : expanded.signInner 0 context message = some sig := by
    rw [ExpandedSecretKey.signInner, ctxLenByte_of_le hcontext]
    rfl
  refine ⟨sig, ?_, Ed448BSignature.fromBytes_eq_ok.mpr ⟨rfl, _, Ed448BSignature.scalar_new _ _⟩, ?_⟩
  · rw [signWithContext, rejectIf, if_neg (Nat.not_lt.mpr hcontext)]
    show MachineM.arith (expanded.signInner 0 context message) = _
    rw [hinner]
    rfl
  · refine Ed448BVerifyingKey.verifyWithContext_eq_ok.mpr ⟨hcontext, r.val • P.generator, _,
      hcurve.decompress_compress _, Ed448BSignature.scalar_new _ _, ?_⟩
    show (r + k * expanded.scalar).val • P.generator =
      r.val • P.generator + k.val • (expanded.scalar.val • P.generator)
    rw [Schnorr.add_nsmul_val hcurve.order_nsmul, Schnorr.mul_nsmul_val hcurve.order_nsmul]

end Ed448BSigningKey

/-- The encoding of the neutral point is read as a key with this point, under which one
signature that is read is good for every message in every context. -/
theorem neutral_key_accepts (hcurve : P.Rfc8032) :
    ∃ vk signature sig, Ed448BVerifyingKey.fromBytes P (P.compress 0).val = .ok vk ∧
      vk.point = 0 ∧ Ed448BSignature.fromBytes signature = .ok sig ∧
      ∀ message context, context.length ≤ 255 →
        vk.verifyWithContext message context sig = .returns (.ok ()) := by
  have hneutral : P.decompress (P.compress 0) = some 0 := by
    have h := hcurve.decompress_compress 0
    rwa [zero_nsmul] at h
  let zero : Scalar := ⟨0, scalarOrder_pos⟩
  refine ⟨⟨P.compress 0, 0⟩, (Ed448BSignature.new (P.compress 0) zero).toBytes.val,
    .new (P.compress 0) zero, ?_, rfl, ?_, ?_⟩
  · rw [Ed448BVerifyingKey.fromBytes, dif_pos (FixedBytes.length_coe _)]
    show (match P.decompress (P.compress 0) with
      | some point => _
      | none => _) = _
    rw [hneutral]
  · exact Ed448BSignature.fromBytes_eq_ok.mpr ⟨rfl, zero, Ed448BSignature.scalar_new _ _⟩
  · intro message context hcontext
    refine Ed448BVerifyingKey.verifyWithContext_eq_ok.mpr
      ⟨hcontext, 0, zero, hneutral, Ed448BSignature.scalar_new _ _, ?_⟩
    rw [nsmul_zero, add_zero]
    exact zero_nsmul _

/-- What is signed verifies, on bytes.  A signature is determined by its commitment under a
key, a message and a context; and it determines the message and the context where the
point of the key has the order `L`, but for a collision of challenges.  Under the neutral
key it does not. -/
theorem ed448B_signatures (hcurve : P.Rfc8032) (horder : addOrderOf P.generator = scalarOrder) :
    (∀ (sk : Ed448BSigningKey) (message context : Bytes), context.length ≤ 255 →
      ∃ vk sig, Ed448BVerifyingKey.fromBytes P (sk.verifyingKey P).toBytes.val = .ok vk ∧
        sk.signWithContext P message context = .returns (.ok sig) ∧
        Ed448BSignature.fromBytes sig.toBytes.val = .ok sig ∧
        vk.verifyWithContext message context sig = .returns (.ok ())) ∧
    (∀ (sk : Ed448BSigningKey) (vk : Ed448BVerifyingKey P) (message context : Bytes) sig,
      255 < context.length →
      sk.signWithContext P message context =
          .returns (.error (.invalidContextLength context.length 255)) ∧
        vk.verifyWithContext message context sig =
          .returns (.error (.invalidContextLength context.length 255))) ∧
    (∀ (vk : Ed448BVerifyingKey P) (message context : Bytes) (sig sig' : Ed448BSignature),
      sig.r = sig'.r → vk.verifyWithContext message context sig = .returns (.ok ()) →
        vk.verifyWithContext message context sig' = .returns (.ok ()) → sig = sig') ∧
    (∀ (vk : Ed448BVerifyingKey P) (message context message' context' : Bytes) sig,
      addOrderOf vk.point = scalarOrder →
      (challenge P (challengeInput 0 context sig.r vk.compressed message) =
          challenge P (challengeInput 0 context' sig.r vk.compressed message') →
        challengeInput 0 context sig.r vk.compressed message =
          challengeInput 0 context' sig.r vk.compressed message') →
      vk.verifyWithContext message context sig = .returns (.ok ()) →
        vk.verifyWithContext message' context' sig = .returns (.ok ()) →
          context = context' ∧ message = message') ∧
    ∃ vk signature sig, Ed448BVerifyingKey.fromBytes P (P.compress 0).val = .ok vk ∧
      vk.point = 0 ∧ Ed448BSignature.fromBytes signature = .ok sig ∧
      ∀ message context, context.length ≤ 255 →
        vk.verifyWithContext message context sig = .returns (.ok ()) := by
  refine ⟨?_, ?_, ?_, ?_, neutral_key_accepts hcurve⟩
  · intro sk message context hcontext
    obtain ⟨sig, hsign, hread, hverify⟩ :=
      Ed448BSigningKey.exists_signature hcurve sk message hcontext
    exact ⟨_, sig, Ed448BSigningKey.fromBytes_verifyingKey hcurve sk, hsign, hread, hverify⟩
  · intro sk vk message context sig hlong
    rw [Ed448BSigningKey.signWithContext, Ed448BVerifyingKey.verifyWithContext, rejectIf,
      if_pos hlong]
    exact ⟨rfl, rfl⟩
  · intro vk message context sig sig' hr h h'
    exact Ed448BVerifyingKey.signature_eq horder hr h h'
  · intro vk message context message' context' sig hpoint hfree h h'
    have hinput := hfree (Ed448BVerifyingKey.challenge_eq hpoint h h')
    obtain ⟨hcontext, _⟩ := Ed448BVerifyingKey.verifyWithContext_eq_ok.mp h
    obtain ⟨hcontext', _⟩ := Ed448BVerifyingKey.verifyWithContext_eq_ok.mp h'
    exact challengeInput_inj hcontext hcontext' hinput

/-! ## A sample signature -/

section Sample

instance : DecidableEq scalarCurve.Point := inferInstanceAs (DecidableEq (ZMod scalarOrder))

/-- The scalars as the curve, and the bytes themselves as the hash. -/
def sampleEd448B : Ed448BPrimitives where
  toCurve := scalarCurve
  deriveKeyXof context input :=
    ⟨leBytes 114 (leValue (ascii context ++ input)), leBytes_length _ _⟩

/-- A sample signature verifies, and no other response does in its place. -/
theorem ed448B_signatures_sample : ∃ sig,
    Ed448BSigningKey.signWithContext sampleEd448B ⟨filled 57 1⟩ [1, 2, 3] [7] =
      .returns (.ok sig) ∧
    ∀ s, (Ed448BSigningKey.verifyingKey sampleEd448B ⟨filled 57 1⟩).verifyWithContext [1, 2, 3] [7]
      ⟨sig.r, s⟩ = .returns (.ok ()) → s = sig.s := by
  obtain ⟨hsigns, _, hunique, _⟩ := ed448B_signatures (P := sampleEd448B) scalarCurve_rfc8032
    scalarCurve_canonicalEncoding.addOrderOf_generator
  obtain ⟨vk, sig, hvk, hsign, _, hverify⟩ := hsigns ⟨filled 57 1⟩ [1, 2, 3] [7] (by decide)
  obtain rfl : _ = vk := Except.ok.inj
    ((Ed448BSigningKey.fromBytes_verifyingKey scalarCurve_rfc8032 _).symm.trans hvk)
  refine ⟨sig, hsign, ?_⟩
  intro s hs
  exact congrArg Ed448BSignature.s (hunique _ _ _ ⟨sig.r, s⟩ sig rfl hs hverify)

end Sample

end Trelis.Hybrid
