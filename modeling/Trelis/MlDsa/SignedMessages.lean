import Trelis.MlDsa.SecretKey

/-!
# Keys and signatures that travel as bytes

The rest of `mldsa65b.rs`: `generate_from_seed`, the verifying key and the signature, which
are byte strings too, and `verify_with_context`.

Every byte string of the right length is the encoding of exactly one verifying key
(`encode_decodeVerifyingKey`), and generating never panics: the vectors that `key_gen`
draws and rounds are in the ranges that `encode_signing_key` asserts
(`exists_encodeSigningKey`).  So a message that is signed with the bytes of a generated key
verifies under the bytes of its verifying key (`generated_key_works`).
-/

namespace Trelis.MlDsa

variable {p : ParameterSet}

/-! ## Verifying keys -/

/-- `decode` of a vector. -/
def decodeVector {k : Nat} (d : Nat) (bytes : Bytes) : Vector k := fun r =>
  byteDecode d (sliceAt bytes (32 * d * r.val) (32 * d))

section Split

variable (enc : FixedBytes p.verifyingKeySize)

theorem verifyingKey_head_le : 0 + 32 ≤ enc.val.length := by
  rw [FixedBytes.length_coe, ParameterSet.verifyingKeySize]
  omega

/-- The bytes of `rho` of `split_vk`. -/
def splitVkRho : FixedBytes 32 := arrayAt 32 enc.val 0 (verifyingKey_head_le enc)

/-- The bytes of `t1`. -/
def splitT1 : Bytes := enc.val.drop 32

theorem length_splitT1 : (splitT1 enc).length = 32 * t1Bits * p.k := by
  rw [splitT1, List.length_drop, FixedBytes.length_coe, ParameterSet.verifyingKeySize]
  omega

theorem verifyingKey_split_append : (splitVkRho enc).val ++ splitT1 enc = enc.val :=
  sliceAt_append_drop enc.val rfl

end Split

section Verify

variable (H : HashSuite)

/-- `decode_verifying_key`. -/
noncomputable def decodeVerifyingKey (enc : FixedBytes p.verifyingKeySize) :
    Option (VerifyingKeyData p) :=
  newVerifyingKey H (splitVkRho enc) (decodeVector t1Bits (splitT1 enc)) none (some enc)

/-- `verify_internal`. -/
noncomputable def verifyInternal (vk : VerifyingKeyData p) (parts : List Bytes)
    (sigma : Signature p) : Option Bool :=
  verifyMu H vk (messageRepresentative H vk.tr parts) sigma

/-- `raw_verify_with_context`. -/
noncomputable def rawVerifyWithContext (vk : VerifyingKeyData p) (message ctx : Bytes)
    (sigma : Signature p) : Option Bool :=
  if 255 < ctx.length then some false
  else verifyInternal H vk [[0], [UInt8.ofNat ctx.length], ctx, message] sigma

end Verify

/-- The encoding of a vector of small numbers is decoded. -/
theorem decodeVector_encodeVector {k d : Nat} (hd : 0 < d) {v : Vector k}
    (hv : ∀ r i, (v r i).val < 2 ^ d) : decodeVector d (encodeVector d v) = v := by
  funext r
  rw [decodeVector, encodeVector,
    sliceAt_flatMap_finRange (fun r => length_byteEncode hd (v r))]
  exact byteDecode_byteEncode hd (hv r)

theorem encodeVector_decodeVector {k d : Nat} (hd : 0 < d) (hq : 2 ^ d ≤ q) {bytes : Bytes}
    (hlen : bytes.length = 32 * d * k) :
    encodeVector d (decodeVector d bytes : Vector k) = bytes := by
  conv_rhs => rw [← flatMap_finRange_sliceAt hlen]
  apply List.flatMap_congr
  intro r _
  apply byteEncode_byteDecode hd hq
  apply length_sliceAt
  rw [hlen, ← Nat.mul_succ]
  exact Nat.mul_le_mul_left _ r.isLt

section

variable {H : HashSuite} {enc : FixedBytes p.verifyingKeySize} {vk : VerifyingKeyData p}

theorem newVerifyingKey_eq_some {rho : FixedBytes 32} {t1 : Vector p.k} :
    newVerifyingKey H rho t1 none (some enc) = some vk ↔
      expandA H.G p.k p.l rho.val = some vk.aHat ∧ vk.rho = rho ∧ vk.t1 = t1 ∧
        vk.tr = H.H.hash [enc.val] 64 := by
  simp only [newVerifyingKey, orExpandA, bind, Option.bind_eq_some_iff]
  constructor
  · intro h
    rcases h with ⟨aHat, haHat, hvk⟩
    rw [← Option.some.inj hvk]
    exact ⟨haHat, rfl, rfl, rfl⟩
  · intro h
    rcases h with ⟨haHat, rfl, rfl, htr⟩
    refine ⟨vk.aHat, haHat, congrArg some ?_⟩
    cases vk
    simp_all

/-- Decoding returns the key of which a byte string is the encoding, with the matrix of its
`rho` and the hash of the byte string, and nothing else. -/
theorem decodeVerifyingKey_eq_some :
    decodeVerifyingKey H enc = some vk ↔
      encodeVerifyingKey vk = enc ∧ (∀ r i, (vk.t1 r i).val < 2 ^ t1Bits) ∧
        expandA H.G p.k p.l vk.rho.val = some vk.aHat ∧ vk.tr = H.H.hash [enc.val] 64 := by
  have hq : 2 ^ t1Bits ≤ q := by decide +kernel
  rw [decodeVerifyingKey, newVerifyingKey_eq_some]
  constructor
  · intro h
    rcases h with ⟨haHat, hrho, ht1, htr⟩
    refine ⟨Subtype.ext ?_, ?_, hrho ▸ haHat, htr⟩
    · show vk.rho.val ++ encodeVector t1Bits vk.t1 = enc.val
      rw [hrho, ht1, encodeVector_decodeVector (by decide) hq (length_splitT1 enc),
        verifyingKey_split_append]
    · intro r i
      rw [ht1]
      exact val_byteDecode_lt hq i
  · intro h
    rcases h with ⟨rfl, ht1, haHat, htr⟩
    obtain ⟨hrho, hrest⟩ := List.append_inj (verifyingKey_split_append (encodeVerifyingKey vk))
      (by simp only [FixedBytes.length_coe])
    have hrho := Subtype.ext hrho
    rw [hrho, hrest, decodeVector_encodeVector (by decide) ht1]
    exact ⟨haHat, rfl, rfl, htr⟩

end

/-! ## Generated keys -/

/-- The high part of `power2round` has the bits of a coefficient of `t1`. -/
theorem Elem.val_power2round_lt (x : Elem) : x.power2round.1.val < 2 ^ t1Bits := by
  obtain ⟨k, c, hk, _, _, hval, hc⟩ := modPlusMinus_spec grid_specD x
  have hshift : (k * (1 <<< specD)) >>> specD = k := by
    rw [Nat.shiftLeft_eq, Nat.one_mul, Nat.shiftRight_eq_div_pow,
      Nat.mul_div_cancel _ (Nat.two_pow_pos _)]
  have hhigh : x.power2round.1 = Elem.new k := by
    rw [power2round, val_sub_modPlusMinus grid_specD hk hval hc, hshift]
  have hq : (1023 : Nat) < q ∧ 1023 < 2 ^ t1Bits := by decide +kernel
  rw [hhigh, Elem.val_new_of_lt (by omega)]
  omega

/-- The low part is in the range of a coefficient of `t0`. -/
theorem inRange_power2round (f : Polynomial) :
    InRange (pow2DMinus1 - 1) pow2DMinus1 fun i => (f i).power2round.2 := by
  intro i
  obtain ⟨_, c, _, hlow, hhigh, _, hc⟩ := Elem.modPlusMinus_spec Elem.grid_specD (f i)
  have hpow : (1 <<< specD : Nat) = 8192 ∧ pow2DMinus1 = 4096 := by decide
  have hq : 8192 < q := by decide +kernel
  have hint := Elem.toInt_eq_of_cast (x := (f i).power2round.2) hc (by
    rw [hpow.1] at hlow hhigh
    have habs : |c| ≤ 4096 := abs_le.mpr ⟨by omega, by omega⟩
    omega)
  obtain ⟨hnew, hneg, _⟩ := fullRange_t0.fitsWidth.val_new
  rw [hpow.1] at hlow hhigh
  show (f i).power2round.2.val ≤ _ ∨ _ ≤ (f i).power2round.2.val
  rw [hnew, hneg, hpow.2]
  unfold Elem.toInt at hint
  split at hint <;> omega

theorem exists_packVector {k a b d : Nat} {v : Vector k} (hv : ∀ r, InRange a b (v r)) :
    ∃ bytes, packVector a b d v = some bytes :=
  ⟨_, packVector_eq_some.mpr ⟨_, fun r => if_pos (hv r), rfl⟩⟩

section

variable {H : HashSuite} {seed : FixedBytes 32} {sk : SigningKeyData p} {vk : VerifyingKeyData p}

/-- What the two halves of a generated key pair have in common. -/
theorem keyGen_shared (hkeys : keyGen H p seed = some (sk, vk)) :
    vk.rho = sk.rho ∧ vk.tr = sk.tr ∧ vk.tr = H.H.hash [(encodeVerifyingKey vk).val] 64 ∧
      expandA H.G p.k p.l sk.rho.val = some sk.aHat := by
  obtain ⟨aHat, s1, s2, haHat, _, _, hpair⟩ := keyGen_eq_some.mp hkeys
  obtain ⟨rfl, rfl⟩ := Prod.mk.inj (Option.some.inj hpair)
  exact ⟨rfl, rfl, rfl, haHat⟩

theorem keyGen_norm_s1_le (hkeys : keyGen H p seed = some (sk, vk)) (r : Fin p.l) (i : Fin 256) :
    (sk.s1 r i).infinityNorm ≤ p.eta := by
  obtain ⟨aHat, s1, s2, _, hs1, _, hpair⟩ := keyGen_eq_some.mp hkeys
  obtain ⟨rfl, _⟩ := Prod.mk.inj (Option.some.inj hpair)
  rw [← bound_etaCase]
  exact norm_expandS_le hs1 r i

/-- The assertions of encoding hold of a generated key. -/
theorem exists_encodeSigningKey (hkeys : keyGen H p seed = some (sk, vk)) :
    ∃ bytes, encodeSigningKey sk = some bytes := by
  obtain ⟨hpaired, _⟩ := keyGen_paired hkeys
  have heta := fitsWidth_eta p
  obtain ⟨s1, hs1⟩ := exists_packVector (d := p.etaBits) fun r =>
    inRange_of_norm_le heta le_rfl (keyGen_norm_s1_le hkeys r)
  obtain ⟨s2, hs2⟩ := exists_packVector (d := p.etaBits) fun r =>
    inRange_of_norm_le heta le_rfl (hpaired.norm_s2_le r)
  obtain ⟨t0, ht0⟩ := exists_packVector (d := t0Bits) (v := sk.t0) fun r => by
    rw [hpaired.t0_eq]
    exact inRange_power2round _
  refine ⟨_, Option.bind_eq_some_iff.mpr ⟨s1, hs1, Option.bind_eq_some_iff.mpr ⟨s2, hs2,
    Option.bind_eq_some_iff.mpr ⟨t0, ht0, rfl⟩⟩⟩⟩

theorem length_encodeSigningKey {bytes : Bytes} (h : encodeSigningKey sk = some bytes) :
    bytes.length = p.signingKeySize := by
  have heta := (fitsWidth_eta p).width_pos
  simp only [encodeSigningKey, bind, Option.bind_eq_some_iff] at h
  obtain ⟨s1, hs1, s2, hs2, t0, ht0, hbytes⟩ := h
  rw [← Option.some.inj hbytes]
  simp only [List.length_append, FixedBytes.length_coe, length_packVector heta hs1,
    length_packVector heta hs2, length_packVector fullRange_t0.fitsWidth.width_pos ht0]
  rfl

/-- A verifying key of `key_gen` is decoded from its bytes. -/
theorem decodeVerifyingKey_of_keyGen (hkeys : keyGen H p seed = some (sk, vk)) :
    decodeVerifyingKey H (encodeVerifyingKey vk) = some vk := by
  obtain ⟨hrho, _, htr, haHat⟩ := keyGen_shared hkeys
  obtain ⟨hpaired, _⟩ := keyGen_paired hkeys
  refine decodeVerifyingKey_eq_some.mpr ⟨rfl, ?_, ?_, htr⟩
  · intro r i
    rw [hpaired.t1_eq]
    exact Elem.val_power2round_lt _
  · rw [hrho, hpaired.aHat_eq]
    exact haHat

/-- What the rejection loop returns is accepted under the verifying key that belongs to the
signing key. -/
theorem Paired.verifyMu_of_signMu (h : Paired sk vk) {mu : FixedBytes 64} {rnd : FixedBytes 32}
    {sigma : Signature p} (hsign : (signMu H sk mu rnd).Returns sigma) :
    verifyMu H vk mu sigma = some true := by
  obtain ⟨kappa, _, hround⟩ := signMu_returns hsign
  obtain ⟨y, c, _, hc, hresp⟩ := signRound_returns.mp hround
  obtain ⟨hcTilde, _⟩ := respond_eq_some hresp
  refine Option.bind_eq_some_iff.mpr ⟨c, hcTilde ▸ hc, ?_⟩
  rw [h.recomputedW1_eq (weight_sampleInBall_le (tau_le p) hc) hresp, hcTilde, decide_eq_true rfl]
  rfl

end

/-! ## The keys and signatures of `mldsa65b.rs` -/

/-- `PUBLIC_KEY_SIZE`. -/
def publicKeySize : Nat := 1952

/-- `SIGNATURE_SIZE`. -/
def signatureSize : Nat := 3309

/-- `MlDsa65BVerifyingKey`: the bytes of a public key. -/
abbrev MlDsa65BVerifyingKey := FixedBytes publicKeySize

/-- `MlDsa65BSignature`. -/
abbrev MlDsa65BSignature := FixedBytes signatureSize

/-- `MlDsa65BSignature::from_bytes`. -/
def MlDsa65BSignature.fromBytes (bytes : Bytes) : Result MlDsa65BSignature :=
  if h : bytes.length = signatureSize then .ok ⟨bytes, h⟩ else .error .invalidSignature

/-- The conversion into an `EncodedSignature<MlDsa65>`. -/
def MlDsa65BSignature.encoded (signature : MlDsa65BSignature) :
    FixedBytes ParameterSet.mlDsa65.signatureSize :=
  ⟨signature.val, signature.property.trans (by decide +kernel)⟩

namespace MlDsa65BVerifyingKey

/-- `from_bytes`. -/
def fromBytes (bytes : Bytes) : Result MlDsa65BVerifyingKey :=
  if h : bytes.length = publicKeySize then .ok ⟨bytes, h⟩
  else .error (.invalidKeyLength publicKeySize bytes.length)

/-- The conversion into an `EncodedVerifyingKey<MlDsa65>`. -/
def encoded (vk : MlDsa65BVerifyingKey) : FixedBytes ParameterSet.mlDsa65.verifyingKeySize :=
  ⟨vk.val, vk.property.trans (by decide +kernel)⟩

/-- `verify_with_context`. -/
noncomputable def verifyWithContext (H : HashSuite) (vk : MlDsa65BVerifyingKey)
    (message context : Bytes) (signature : MlDsa65BSignature) : Option (Result Unit) :=
  if 255 < context.length then pure (.error (.invalidContextLength context.length 255))
  else do
    let pk ← decodeVerifyingKey H vk.encoded
    match Signature.decode .mlDsa65 signature.encoded with
    | none => pure (.error .signatureVerificationFailed)
    | some sig =>
      let accepted ← rawVerifyWithContext H pk message context sig
      pure (if accepted then .ok () else .error .signatureVerificationFailed)

end MlDsa65BVerifyingKey

namespace MlDsa65BSigningKey

/-- `generate_from_seed`. -/
noncomputable def generateFromSeed (H : HashSuite) (seed : FixedBytes 32) :
    Call Panic MlDsa65BSigningKey := do
  let (sk, _) ← Call.ofLoop (keyGen H .mlDsa65 seed)
  match h : encodeSigningKey sk with
  | none => throw .assertion
  | some bytes => pure ⟨bytes, (length_encodeSigningKey h).trans (by decide +kernel)⟩

section

variable {H : HashSuite} {seed : FixedBytes 32} {data : SigningKeyData .mlDsa65}
  {vkData : VerifyingKeyData .mlDsa65} {sk : MlDsa65BSigningKey}

theorem exists_generateFromSeed (hkeys : keyGen H .mlDsa65 seed = some (data, vkData)) :
    ∃ sk, (generateFromSeed H seed).Returns sk ∧ (decodeSigningKey H sk.encoded).Returns data := by
  obtain ⟨bytes, hbytes⟩ := exists_encodeSigningKey hkeys
  obtain ⟨_, _, _, haHat⟩ := keyGen_shared hkeys
  have hlen : bytes.length = secretKeySize :=
    (length_encodeSigningKey hbytes).trans (by decide +kernel)
  refine ⟨⟨bytes, hlen⟩, ?_, decodeSigningKey_returns.mpr ⟨hbytes, haHat⟩⟩
  refine Call.returns_bind.mpr ⟨_, Call.returns_ofLoop.mpr hkeys, ?_⟩
  dsimp only
  split
  · next h => cases h.symm.trans hbytes
  · next bytes' h =>
    obtain rfl := Option.some.inj (h.symm.trans hbytes)
    exact Call.returns_pure.mpr rfl

/-- What signing with the bytes of a key returns. -/
theorem signWithContext_returns (hdata : (decodeSigningKey H sk.encoded).Returns data)
    {message context : Bytes} {r : Result Bytes}
    (hsign : (signWithContext H sk message context).Returns r) :
    (255 < context.length ∧ r = .error (.invalidContextLength context.length 255)) ∨
      ∃ sigma bytes, ¬ 255 < context.length ∧ r = .ok bytes ∧ sigma.encode = some bytes ∧
        (signInternal H data [[0], [UInt8.ofNat context.length], context, message]
          (FixedBytes.zero 32)).Returns sigma := by
  unfold signWithContext at hsign
  split at hsign
  · next hlong => exact .inl ⟨hlong, (Call.returns_pure.mp hsign).symm⟩
  · next hshort =>
    obtain ⟨data', hdata', hsign⟩ := Call.returns_bind.mp hsign
    obtain rfl : data = data' := Except.ok.inj (Option.some.inj (hdata.symm.trans hdata'))
    obtain ⟨result, hdet, hsign⟩ := Call.returns_bind.mp hsign
    rw [signDeterministic, if_neg hshort] at hdet
    obtain ⟨sigma, hsigma, hresult⟩ := Call.returns_bind.mp hdet
    obtain rfl := Call.returns_pure.mp hresult
    obtain ⟨bytes, hbytes, hsign⟩ := Call.returns_bind.mp hsign
    exact .inr ⟨sigma, bytes, hshort, (Call.returns_pure.mp hsign).symm,
      Call.returns_expect.mp hbytes, hsigma⟩

/-- Where the rejection loop returns, signing does. -/
theorem exists_signWithContext (hdata : (decodeSigningKey H sk.encoded).Returns data)
    (message context : Bytes) (hshort : ¬ 255 < context.length) {sigma : Signature .mlDsa65}
    (hsigma : (signInternal H data [[0], [UInt8.ofNat context.length], context, message]
      (FixedBytes.zero 32)).Returns sigma) :
    ∃ bytes, (signWithContext H sk message context).Returns (.ok bytes) := by
  obtain ⟨_, _, hround⟩ := signMu_returns hsigma
  obtain ⟨_, _, _, _, hresp⟩ := signRound_returns.mp hround
  obtain ⟨enc, henc, _⟩ := decode_encode_of_respond hresp
  have hdet : (signDeterministic H data message context).Returns (some sigma) := by
    rw [signDeterministic, if_neg hshort]
    exact Call.returns_bind.mpr ⟨sigma, hsigma, Call.returns_pure.mpr rfl⟩
  refine ⟨enc.val, ?_⟩
  rw [signWithContext, if_neg hshort]
  exact Call.returns_bind.mpr ⟨data, hdata, Call.returns_bind.mpr ⟨some sigma, hdet,
    Call.returns_bind.mpr ⟨enc.val, Call.returns_expect.mpr henc, Call.returns_pure.mpr rfl⟩⟩⟩

/-- A signature under a generated key is decoded and accepted. -/
theorem verifyWithContext_of_sign (hkeys : keyGen H .mlDsa65 seed = some (data, vkData))
    {vk : MlDsa65BVerifyingKey} (hvk : vk.encoded = encodeVerifyingKey vkData)
    {message context : Bytes} (hshort : ¬ 255 < context.length) {sigma : Signature .mlDsa65}
    (hsign : (signInternal H data [[0], [UInt8.ofNat context.length], context, message]
      (FixedBytes.zero 32)).Returns sigma) {signature : MlDsa65BSignature}
    (hsignature : Signature.decode .mlDsa65 signature.encoded = some sigma) :
    vk.verifyWithContext H message context signature = some (.ok ()) := by
  obtain ⟨hpaired, _⟩ := keyGen_paired hkeys
  obtain ⟨_, htr, _, _⟩ := keyGen_shared hkeys
  have hverify := hpaired.verifyMu_of_signMu hsign
  rw [← htr] at hverify
  rw [MlDsa65BVerifyingKey.verifyWithContext, if_neg hshort, hvk]
  refine Option.bind_eq_some_iff.mpr ⟨vkData, decodeVerifyingKey_of_keyGen hkeys, ?_⟩
  rw [hsignature]
  refine Option.bind_eq_some_iff.mpr ⟨true, ?_, rfl⟩
  rw [rawVerifyWithContext, if_neg hshort]
  exact hverify

end

/-- For every seed of which `key_gen` ends: generating returns a key, whose verifying key is
derived.  What the key signs is accepted under the bytes of the verifying key, and signing
has no error but that of a long context. -/
theorem generated_key_works (H : HashSuite) (seed : FixedBytes 32)
    (hkeys : ∃ keys, keyGen H .mlDsa65 seed = some keys) :
    ∃ sk vkBytes vk, (generateFromSeed H seed).Returns sk ∧ (verifyingKey H sk).Returns vkBytes ∧
      MlDsa65BVerifyingKey.fromBytes vkBytes.val = .ok vk ∧
        ∀ message context r, (signWithContext H sk message context).Returns r →
          (255 < context.length ∧ r = .error (.invalidContextLength context.length 255)) ∨
            ∃ bytes signature, r = .ok bytes ∧ MlDsa65BSignature.fromBytes bytes = .ok signature ∧
              vk.verifyWithContext H message context signature = some (.ok ()) := by
  obtain ⟨⟨data, vkData⟩, hkeys⟩ := hkeys
  obtain ⟨sk, hgenerate, hdata⟩ := exists_generateFromSeed hkeys
  obtain ⟨_, hderive⟩ := keyGen_paired hkeys
  have hlen : (encodeVerifyingKey vkData).val.length = publicKeySize :=
    (FixedBytes.length_coe _).trans (by decide +kernel)
  refine ⟨sk, encodeVerifyingKey vkData, ⟨(encodeVerifyingKey vkData).val, hlen⟩, hgenerate, ?_,
    dif_pos hlen, ?_⟩
  · exact Call.returns_bind.mpr ⟨data, hdata, Call.returns_bind.mpr
      ⟨vkData, Call.returns_ofLoop.mpr hderive, Call.returns_pure.mpr rfl⟩⟩
  · intro message context r hsign
    obtain hlong | hsigned := signWithContext_returns hdata hsign
    · exact .inl hlong
    · obtain ⟨sigma, bytes, hshort, hr, hbytes, hsigma⟩ := hsigned
      obtain ⟨_, _, hround⟩ := signMu_returns hsigma
      obtain ⟨_, _, _, _, hresp⟩ := signRound_returns.mp hround
      obtain ⟨enc, henc, hdecode⟩ := decode_encode_of_respond hresp
      obtain rfl : bytes = enc.val := Option.some.inj (hbytes.symm.trans henc)
      have hsize : enc.val.length = signatureSize :=
        (FixedBytes.length_coe _).trans (by decide +kernel)
      exact .inr ⟨enc.val, ⟨enc.val, hsize⟩, hr, dif_pos hsize,
        verifyWithContext_of_sign hkeys rfl hshort hsigma hdecode⟩

/-- A key of zeros. -/
theorem generated_key_works_constantSuite :
    ∃ sk vkBytes vk, (generateFromSeed constantSuite (FixedBytes.zero 32)).Returns sk ∧
      (verifyingKey constantSuite sk).Returns vkBytes ∧
        MlDsa65BVerifyingKey.fromBytes vkBytes.val = .ok vk ∧
          ∃ bytes signature, (signWithContext constantSuite sk [1, 2, 3] []).Returns (.ok bytes) ∧
            MlDsa65BSignature.fromBytes bytes = .ok signature ∧
              vk.verifyWithContext constantSuite [1, 2, 3] [] signature = some (.ok ()) := by
  obtain ⟨aHat, rho, K, tr, vkData, hkeys⟩ := exists_keyGen_constantSuite (FixedBytes.zero 32)
  obtain ⟨sk, vkBytes, vk, hgenerate, hverifying, hvk, hworks⟩ :=
    generated_key_works constantSuite (FixedBytes.zero 32) ⟨_, hkeys⟩
  obtain ⟨sk', hgenerate', hdata⟩ := exists_generateFromSeed hkeys
  obtain rfl : sk = sk' := Except.ok.inj (Option.some.inj (hgenerate.symm.trans hgenerate'))
  obtain ⟨sigma, hsigma⟩ := exists_signMu_constantSuite aHat rho K tr
    (messageRepresentative constantSuite tr [[0], [UInt8.ofNat 0], [], [1, 2, 3]])
    (FixedBytes.zero 32)
  obtain ⟨_, hsign⟩ := exists_signWithContext hdata [1, 2, 3] [] (by decide) hsigma
  obtain hlong | hsigned := hworks _ _ _ hsign
  · exact absurd hlong.1 (by decide)
  · obtain ⟨bytes, signature, hr, hsignature, hverify⟩ := hsigned
    exact ⟨sk, vkBytes, vk, hgenerate, hverifying, hvk, bytes, signature, hr ▸ hsign, hsignature,
      hverify⟩

end MlDsa65BSigningKey

end Trelis.MlDsa
