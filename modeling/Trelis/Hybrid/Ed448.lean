import Trelis.Error
import Trelis.Lib.Bytes
import Trelis.Lib.Outcome
import Trelis.Lib.Schnorr

/-!
# The Schnorr half of the hybrid signature

The commitment, the response and the extractor that the combiner builds from
Ed448 scalars and points.  `Curve` is what the curve library provides; the
scalar arithmetic is written out here.

`Curve.Rfc8032` is the documented behaviour of that library, and
`bopExtcom_respond` is the result: under it, the extractor recovers the
commitment of every response.  `bopExtcom_inj` is the converse: under one key and
challenge, a commitment comes from one response string only.
-/

namespace Trelis.Hybrid

/-! ## Scalars -/

/-- The order `L` of the generator of Ed448. -/
@[irreducible] def scalarOrder : Nat :=
  181709681073901722637330951972001133588410340171829515070372549795146003961539585716195755291692375963310293709091662304773755859649779

/-- `Scalar`: an integer modulo `L`. -/
abbrev Scalar := Fin scalarOrder

theorem scalarOrder_pos : 0 < scalarOrder := by decide +kernel

theorem scalarOrder_lt : scalarOrder < 256 ^ 56 := by decide +kernel

/-- `Scalar::from_bytes_mod_order` and `Scalar::from_bytes_mod_order_wide`. -/
def scalarOfBytesModOrder (bytes : Bytes) : Scalar :=
  ⟨leValue bytes % scalarOrder, Nat.mod_lt _ scalarOrder_pos⟩

/-- `Scalar::from_canonical_bytes`, which reads 56 of its 57 bytes. -/
def scalarOfCanonicalBytes (bytes : FixedBytes 57) : Option Scalar :=
  if h : leValue (bytes.val.take 56) < scalarOrder then some ⟨_, h⟩ else none

/-! ## What the curve library provides -/

/-- `ed448_goldilocks_plus`, as far as the signature uses it. -/
structure Curve where
  /-- `EdwardsPoint`. -/
  Point : Type
  [group : AddCommGroup Point]
  /-- `EdwardsPoint::GENERATOR`. -/
  generator : Point
  /-- `EdwardsPoint::compress`. -/
  compress : Point → FixedBytes 57
  /-- `CompressedEdwardsY::decompress`. -/
  decompress : FixedBytes 57 → Option Point
  /-- The first 114 bytes of `Shake256`. -/
  shake256 : Bytes → FixedBytes 114
  /-- The bytes of `SigningKey::from(seed).verifying_key()`. -/
  verifyingKeyOfSeed : FixedBytes 57 → FixedBytes 57

attribute [instance] Curve.group

variable {C : Curve}

/-- `bop_secret_scalar`: the clamped scalar of a seed. -/
def bopSecretScalar (C : Curve) (seed : FixedBytes 57) : Scalar :=
  let scalarBytes := (C.shake256 seed.val).val.take 57
  let scalarBytes := scalarBytes.modify 0 (· &&& 0xFC)
  let scalarBytes := scalarBytes.set 56 0
  let scalarBytes := scalarBytes.modify 55 (· ||| 0x80)
  scalarOfBytesModOrder scalarBytes

/-- The curve library computes RFC 8032: the generator has the order `L`, a
multiple of it is read back from its encoding, and the verifying key of a seed
encodes the clamped multiple. -/
structure Curve.Rfc8032 (C : Curve) : Prop where
  order_nsmul : scalarOrder • C.generator = 0
  decompress_compress : ∀ n : Nat,
    C.decompress (C.compress (n • C.generator)) = some (n • C.generator)
  verifyingKey_eq : ∀ seed,
    C.verifyingKeyOfSeed seed = C.compress ((bopSecretScalar C seed).val • C.generator)

/-! ## Keys -/

/-- `Ed448VerifyingKey`, by its compressed point. -/
structure Ed448VerifyingKey where
  inner : FixedBytes 57
deriving DecidableEq

/-- `Ed448SigningKey`.  Both constructors of the source derive the scalar from
the seed. -/
structure Ed448SigningKey (C : Curve) where
  seed : FixedBytes 57
  secretScalar : Scalar
  secretScalar_eq : secretScalar = bopSecretScalar C seed

/-- `Ed448SigningKey::from_seed`. -/
def Ed448SigningKey.fromSeed (C : Curve) (seed : FixedBytes 57) : Ed448SigningKey C :=
  ⟨seed, bopSecretScalar C seed, rfl⟩

/-- `Ed448SigningKey::verifying_key`. -/
def Ed448SigningKey.verifyingKey (sk : Ed448SigningKey C) : Ed448VerifyingKey :=
  ⟨C.verifyingKeyOfSeed sk.seed⟩

/-! ## Commitment, response and extractor -/

/-- `Ed448BopResponse`. -/
structure Ed448BopResponse where
  bytes : FixedBytes 57
deriving DecidableEq

namespace Ed448BopResponse

/-- `Ed448BopResponse::from_scalar`. -/
def fromScalar (rsp : Scalar) : Ed448BopResponse :=
  ⟨⟨leBytes 56 rsp.val ++ [0], by simp⟩⟩

/-- `Ed448BopResponse::guard_canonical`. -/
def guardCanonical (bytes : FixedBytes 57) : Result Unit :=
  if bytes.val[56]? ≠ some 0 then .error .invalidSignature
  else if (scalarOfCanonicalBytes bytes).isNone then .error .invalidSignature
  else .ok ()

/-- `Ed448BopResponse::to_scalar`. -/
def toScalar (rsp : Ed448BopResponse) : Result Scalar := do
  guardCanonical rsp.bytes
  match scalarOfCanonicalBytes rsp.bytes with
  | some s => pure s
  | none => throw .invalidSignature

/-- `Ed448BopResponse::from_bytes`. -/
def fromBytes (bytes : Bytes) : Result Ed448BopResponse :=
  if h : bytes.length = 57 then do
    guardCanonical ⟨bytes, h⟩
    pure ⟨⟨bytes, h⟩⟩
  else .error .invalidSignature

theorem scalarOfCanonicalBytes_fromScalar (s : Scalar) :
    scalarOfCanonicalBytes (fromScalar s).bytes = some s := by
  have hvalue : leValue ((fromScalar s).bytes.val.take 56) = s.val := by
    rw [fromScalar, List.take_append_of_le_length (by simp), List.take_of_length_le (by simp),
      leValue_leBytes (s.isLt.trans scalarOrder_lt)]
  rw [scalarOfCanonicalBytes, dif_pos (by rw [hvalue]; exact s.isLt)]
  simp only [hvalue]

/-- A response that was made from a scalar passes the guard. -/
theorem guardCanonical_fromScalar (s : Scalar) :
    guardCanonical (fromScalar s).bytes = .ok () := by
  have hlast : (fromScalar s).bytes.val[56]? = some 0 := by
    rw [fromScalar, List.getElem?_append_right (by simp)]
    simp
  rw [guardCanonical, if_neg (not_not_intro hlast), scalarOfCanonicalBytes_fromScalar]
  rfl

theorem toScalar_fromScalar (s : Scalar) : (fromScalar s).toScalar = .ok s := by
  rw [toScalar, guardCanonical_fromScalar, scalarOfCanonicalBytes_fromScalar]
  rfl

end Ed448BopResponse

/-- `bop_reduce_challenge`. -/
def bopReduceChallenge (challengeWide : FixedBytes 114) : Scalar :=
  scalarOfBytesModOrder challengeWide.val

/-- `Ed448BopSecretNonce`. -/
structure Ed448BopSecretNonce where
  r : Scalar
  s : Scalar

/-- `Ed448SigningKey::bop_commit`, with the outcome of `fill_bytes` on its
buffer: the drawn bytes, or nothing when the generator fails. -/
def Ed448SigningKey.bopCommit (sk : Ed448SigningKey C) (draw : Option (FixedBytes 114)) :
    Result (FixedBytes 57 × Ed448BopSecretNonce) :=
  match draw with
  | none => .error .rngFailure
  | some buf =>
    let r := scalarOfBytesModOrder buf.val
    .ok (C.compress (r.val • C.generator), ⟨r, sk.secretScalar⟩)

/-- `Ed448BopSecretNonce::respond`. -/
def Ed448BopSecretNonce.respond (nonce : Ed448BopSecretNonce) (challengeWide : FixedBytes 114) :
    Ed448BopResponse :=
  let chl := bopReduceChallenge challengeWide
  .fromScalar (nonce.r + chl * nonce.s)

/-- `Ed448VerifyingKey::bop_extcom`. -/
def Ed448VerifyingKey.bopExtcom (C : Curve) (vk : Ed448VerifyingKey)
    (challengeWide : FixedBytes 114) (rsp : Ed448BopResponse) : Result (FixedBytes 57) :=
  match rsp.toScalar with
  | .error _ => .error .signatureVerificationFailed
  | .ok rspScalar =>
    match C.decompress vk.inner with
    | none => .error .signatureVerificationFailed
    | some a =>
      let chl := bopReduceChallenge challengeWide
      .ok (C.compress (rspScalar.val • C.generator - chl.val • a))

/-- The extractor recovers the commitment from the response to any challenge. -/
theorem bopExtcom_respond (h : C.Rfc8032) {sk : Ed448SigningKey C}
    {draw : Option (FixedBytes 114)} {com : FixedBytes 57} {nonce : Ed448BopSecretNonce}
    (hcommit : sk.bopCommit draw = .ok (com, nonce)) (challengeWide : FixedBytes 114) :
    sk.verifyingKey.bopExtcom C challengeWide (nonce.respond challengeWide) = .ok com := by
  cases draw with
  | none => cases hcommit
  | some buf =>
    obtain ⟨rfl, rfl⟩ := Prod.mk.inj (Except.ok.inj hcommit)
    have hpoint : C.decompress sk.verifyingKey.inner =
        some (sk.secretScalar.val • C.generator) := by
      rw [Ed448SigningKey.verifyingKey, h.verifyingKey_eq, h.decompress_compress,
        sk.secretScalar_eq]
    rw [Ed448VerifyingKey.bopExtcom, Ed448BopSecretNonce.respond,
      Ed448BopResponse.toScalar_fromScalar, hpoint]
    show Except.ok (C.compress _) = _
    rw [Schnorr.respond_extract h.order_nsmul]

/-! ## Unique responses -/

/-- The curve library computes in the group of RFC 8032: the order of the generator
is `L`, and a point has an encoding of its own. -/
structure Curve.CanonicalEncoding (C : Curve) : Prop where
  addOrderOf_generator : addOrderOf C.generator = scalarOrder
  compress_inj : Function.Injective C.compress

namespace Ed448BopResponse

theorem guardCanonical_eq_ok {bytes : FixedBytes 57} :
    guardCanonical bytes = .ok () ↔
      bytes.val[56]? = some 0 ∧ leValue (bytes.val.take 56) < scalarOrder := by
  unfold guardCanonical scalarOfCanonicalBytes
  by_cases hlast : bytes.val[56]? = some 0
  · by_cases hlt : leValue (bytes.val.take 56) < scalarOrder
    · rw [if_neg (not_not_intro hlast), dif_pos hlt]
      exact ⟨fun _ => ⟨hlast, hlt⟩, fun _ => rfl⟩
    · rw [if_neg (not_not_intro hlast), dif_neg hlt]
      simp [hlt]
  · rw [if_pos hlast]
    simp only [reduceCtorEq, false_iff]
    exact fun hand => hlast hand.1

theorem toScalar_eq_ok {rsp : Ed448BopResponse} {s : Scalar} :
    rsp.toScalar = .ok s ↔
      rsp.bytes.val[56]? = some 0 ∧ leValue (rsp.bytes.val.take 56) = s.val := by
  rw [toScalar, Except.bind_eq_ok]
  constructor
  · intro hboth
    rcases hboth with ⟨_, hguard, hscalar⟩
    obtain ⟨hlast, hlt⟩ := guardCanonical_eq_ok.mp hguard
    rw [scalarOfCanonicalBytes, dif_pos hlt] at hscalar
    exact ⟨hlast, congrArg Fin.val (Except.ok.inj hscalar)⟩
  · intro hboth
    rcases hboth with ⟨hlast, hvalue⟩
    have hlt : leValue (rsp.bytes.val.take 56) < scalarOrder := hvalue ▸ s.isLt
    refine ⟨(), guardCanonical_eq_ok.mpr ⟨hlast, hlt⟩, ?_⟩
    rw [scalarOfCanonicalBytes, dif_pos hlt]
    exact congrArg Except.ok (Fin.ext hvalue)

/-- A scalar has one response string: the top byte is zero, and the other bytes
are the scalar itself. -/
theorem toScalar_inj {rsp rsp' : Ed448BopResponse} {s : Scalar} (h : rsp.toScalar = .ok s)
    (h' : rsp'.toScalar = .ok s) : rsp = rsp' := by
  obtain ⟨hlast, hvalue⟩ := toScalar_eq_ok.mp h
  obtain ⟨hlast', hvalue'⟩ := toScalar_eq_ok.mp h'
  have hlen : ∀ b : FixedBytes 57, (b.val.take 56).length = 56 := by
    intro b
    simp
  have hlow : rsp.bytes.val.take 56 = rsp'.bytes.val.take 56 := by
    rw [← leBytes_leValue (rsp.bytes.val.take 56), ← leBytes_leValue (rsp'.bytes.val.take 56),
      hlen, hlen, hvalue, hvalue']
  have hsplit : ∀ b : FixedBytes 57, b.val[56]? = some 0 → b.val = b.val.take 56 ++ [0] := by
    intro b hb
    have hdrop : b.val.drop 56 = [0] := by
      obtain ⟨hlt, hget⟩ := List.getElem?_eq_some_iff.mp hb
      rw [List.drop_eq_getElem_cons hlt, hget, List.drop_eq_nil_of_le (by simp)]
    rw [← hdrop, List.take_append_drop]
  have hbytes : rsp.bytes = rsp'.bytes := by
    apply Subtype.ext
    rw [hsplit _ hlast, hsplit _ hlast', hlow]
  cases rsp
  cases rsp'
  rw [mk.injEq]
  exact hbytes

end Ed448BopResponse

theorem bopExtcom_eq_ok {vk : Ed448VerifyingKey} {challengeWide : FixedBytes 114}
    {rsp : Ed448BopResponse} {com : FixedBytes 57} :
    vk.bopExtcom C challengeWide rsp = .ok com ↔
      ∃ s a, rsp.toScalar = .ok s ∧ C.decompress vk.inner = some a ∧
        C.compress (s.val • C.generator - (bopReduceChallenge challengeWide).val • a) = com := by
  unfold Ed448VerifyingKey.bopExtcom
  cases rsp.toScalar with
  | error e => simp
  | ok s =>
    cases C.decompress vk.inner with
    | none => simp
    | some a => simp

/-- One commitment, under one key and challenge, has one response. -/
theorem bopExtcom_inj (hcurve : C.CanonicalEncoding) {vk : Ed448VerifyingKey}
    {challengeWide : FixedBytes 114} {rsp rsp' : Ed448BopResponse} {com : FixedBytes 57}
    (h : vk.bopExtcom C challengeWide rsp = .ok com)
    (h' : vk.bopExtcom C challengeWide rsp' = .ok com) : rsp = rsp' := by
  obtain ⟨s, a, hs, ha, hcom⟩ := bopExtcom_eq_ok.mp h
  obtain ⟨s', a', hs', ha', hcom'⟩ := bopExtcom_eq_ok.mp h'
  obtain rfl : a = a' := Option.some.inj (ha.symm.trans ha')
  have hpoint := hcurve.compress_inj (hcom.trans hcom'.symm)
  obtain rfl : s = s' := Schnorr.extract_inj hcurve.addOrderOf_generator hpoint
  exact Ed448BopResponse.toScalar_inj hs hs'

end Trelis.Hybrid
