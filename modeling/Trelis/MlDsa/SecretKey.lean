import Trelis.Error
import Trelis.Lib.FieldCodec
import Trelis.MlDsa.Completeness

/-!
# Encoded signing keys

`encode_signing_key` and `decode_signing_key` of `mldsa_core/internal.rs`, and the
signing key of `mldsa65b.rs`, which is a byte string that every operation decodes anew.

Decoding accepts what encoding writes and nothing else (`decodeSigningKey_returns`):
the fields of `s1` and `s2` have more bit patterns than their range has values, and the
assertion of `unpack` fails on the others.  `from_bytes` looks at the length alone.  A
key that it accepts can be used exactly when no half of a byte of `s1` and `s2` is above
eight (`usable_iff`), and panics otherwise.
-/

namespace Trelis.MlDsa

variable {p : ParameterSet}

/-! ## The encoding -/

/-- The bits of a coefficient of a secret vector: `Length<Sum<P::Eta, P::Eta>>`. -/
def ParameterSet.etaBits (p : ParameterSet) : Nat := (2 * p.eta).log2 + 1

/-- `Pow2DMinus1`. -/
def pow2DMinus1 : Nat := 1 <<< (specD - 1)

/-- The bits of a coefficient of `t0`. -/
def t0Bits : Nat := 13

namespace ParameterSet

/-- `S1Size`. -/
def s1Size (p : ParameterSet) : Nat := 32 * p.etaBits * p.l

/-- `S2Size`. -/
def s2Size (p : ParameterSet) : Nat := 32 * p.etaBits * p.k

/-- `T0Size`. -/
def t0Size (p : ParameterSet) : Nat := 32 * t0Bits * p.k

/-- `SigningKeySize`. -/
def signingKeySize (p : ParameterSet) : Nat := 128 + p.s1Size + p.s2Size + p.t0Size

end ParameterSet

theorem fitsWidth_eta (p : ParameterSet) : FitsWidth p.eta p.eta p.etaBits := by
  cases p <;> exact ⟨by decide, by decide +kernel, by decide +kernel⟩

theorem fullRange_t0 : FullRange (pow2DMinus1 - 1) pow2DMinus1 t0Bits :=
  ⟨by decide, by decide, by decide +kernel⟩

/-- `encode_signing_key`. -/
def encodeSigningKey (sk : SigningKeyData p) : Option Bytes := do
  let s1 ← packVector p.eta p.eta p.etaBits sk.s1
  let s2 ← packVector p.eta p.eta p.etaBits sk.s2
  let t0 ← packVector (pow2DMinus1 - 1) pow2DMinus1 t0Bits sk.t0
  pure (sk.rho.val ++ sk.K.val ++ sk.tr.val ++ s1 ++ s2 ++ t0)

section Split

variable (enc : FixedBytes p.signingKeySize)

theorem signingKey_head_le {n : Nat} (hn : n ≤ 128) : n ≤ enc.val.length := by
  rw [FixedBytes.length_coe, ParameterSet.signingKeySize]
  omega

/-- The bytes of `rho` of `split_sk`. -/
def splitRho : FixedBytes 32 := arrayAt 32 enc.val 0 (signingKey_head_le enc (by decide))

/-- The bytes of `K`. -/
def splitK : FixedBytes 32 := arrayAt 32 enc.val 32 (signingKey_head_le enc (by decide))

/-- The bytes of `tr`. -/
def splitTr : FixedBytes 64 := arrayAt 64 enc.val 64 (signingKey_head_le enc (by decide))

/-- The bytes of `s1`. -/
def splitS1 : Bytes := sliceAt enc.val 128 p.s1Size

/-- The bytes of `s2`. -/
def splitS2 : Bytes := sliceAt enc.val (128 + p.s1Size) p.s2Size

/-- The bytes of `t0`. -/
def splitT0 : Bytes := enc.val.drop (128 + p.s1Size + p.s2Size)

theorem length_splitS1 : (splitS1 enc).length = p.s1Size := by
  apply length_sliceAt
  rw [FixedBytes.length_coe, ParameterSet.signingKeySize]
  omega

theorem length_splitS2 : (splitS2 enc).length = p.s2Size := by
  apply length_sliceAt
  rw [FixedBytes.length_coe, ParameterSet.signingKeySize]
  omega

theorem length_splitT0 : (splitT0 enc).length = p.t0Size := by
  rw [splitT0, List.length_drop, FixedBytes.length_coe, ParameterSet.signingKeySize]
  omega

/-- A byte string is made of its six parts. -/
theorem signingKey_split_append :
    (splitRho enc).val ++ (splitK enc).val ++ (splitTr enc).val ++ splitS1 enc ++ splitS2 enc ++
      splitT0 enc = enc.val := by
  simp only [List.append_assoc]
  rw [splitS2, splitT0, sliceAt_append_drop enc.val rfl, splitS1, sliceAt_append_drop enc.val rfl,
    splitTr, splitK, splitRho]
  show sliceAt enc.val 0 32 ++ (sliceAt enc.val 32 32 ++ (sliceAt enc.val 64 64 ++ _)) = _
  rw [sliceAt_append_drop enc.val rfl, sliceAt_append_drop enc.val rfl,
    sliceAt_append_drop enc.val rfl, List.drop_zero]

end Split

section Decode

variable (H : HashSuite)

/-- `decode_signing_key`. -/
noncomputable def decodeSigningKey (enc : FixedBytes p.signingKeySize) :
    Call Panic (SigningKeyData p) := do
  let s1 ← Call.expect .assertion (checkedUnpackVector p.eta p.eta p.etaBits (splitS1 enc))
  let s2 ← Call.expect .assertion (checkedUnpackVector p.eta p.eta p.etaBits (splitS2 enc))
  let t0 ← Call.expect .assertion
    (checkedUnpackVector (pow2DMinus1 - 1) pow2DMinus1 t0Bits (splitT0 enc))
  Call.ofLoop (newSigningKey H (splitRho enc) (splitK enc) (splitTr enc) s1 s2 t0 none)

end Decode

section

variable {H : HashSuite} {enc : FixedBytes p.signingKeySize} {sk : SigningKeyData p}

theorem newSigningKey_eq_some {rho K : FixedBytes 32} {tr : FixedBytes 64} {s1 : Vector p.l}
    {s2 t0 : Vector p.k} :
    newSigningKey H rho K tr s1 s2 t0 none = some sk ↔
      expandA H.G p.k p.l rho.val = some sk.aHat ∧ sk.rho = rho ∧ sk.K = K ∧ sk.tr = tr ∧
        sk.s1 = s1 ∧ sk.s2 = s2 ∧ sk.t0 = t0 := by
  simp only [newSigningKey, orExpandA, bind, Option.bind_eq_some_iff]
  constructor
  · intro h
    rcases h with ⟨aHat, haHat, hsk⟩
    rw [← Option.some.inj hsk]
    exact ⟨haHat, rfl, rfl, rfl, rfl, rfl, rfl⟩
  · intro h
    rcases h with ⟨haHat, rfl, rfl, rfl, rfl, rfl, rfl⟩
    refine ⟨sk.aHat, haHat, congrArg some ?_⟩
    cases sk
    simp_all

/-- Decoding returns the keys of which a byte string is the encoding, with the matrix of
their `rho`, and nothing else. -/
theorem decodeSigningKey_returns :
    (decodeSigningKey H enc).Returns sk ↔
      encodeSigningKey sk = some enc.val ∧ expandA H.G p.k p.l sk.rho.val = some sk.aHat := by
  have heta := fitsWidth_eta p
  have ht0 := fullRange_t0.fitsWidth
  simp only [decodeSigningKey, Call.returns_bind, Call.returns_expect, Call.returns_ofLoop,
    newSigningKey_eq_some, checkedUnpackVector_eq_some heta (length_splitS1 enc),
    checkedUnpackVector_eq_some heta (length_splitS2 enc),
    checkedUnpackVector_eq_some ht0 (length_splitT0 enc)]
  simp only [encodeSigningKey, bind, Option.bind_eq_some_iff]
  have hwhole := signingKey_split_append enc
  constructor
  · intro h
    rcases h with ⟨s1, hs1, s2, hs2, t0, ht0, haHat, hrho, hK, htr, rfl, rfl, rfl⟩
    refine ⟨⟨_, hs1, _, hs2, _, ht0, ?_⟩, hrho ▸ haHat⟩
    rw [hrho, hK, htr, hwhole]
    rfl
  · intro h
    rcases h with ⟨⟨s1, hs1, s2, hs2, t0, hpack, hbytes⟩, haHat⟩
    have hlen1 := length_packVector heta.width_pos hs1
    have hlen2 := length_packVector heta.width_pos hs2
    have hparts := hwhole.trans (Option.some.inj hbytes).symm
    obtain ⟨hparts, hpart6⟩ := List.append_inj hparts (by
      simp only [List.length_append, FixedBytes.length_coe, length_splitS1, length_splitS2, hlen1,
        hlen2]
      rfl)
    obtain ⟨hparts, hpart5⟩ := List.append_inj hparts (by
      simp only [List.length_append, FixedBytes.length_coe, length_splitS1, hlen1]
      rfl)
    obtain ⟨hparts, hpart4⟩ := List.append_inj hparts (by
      simp only [List.length_append, FixedBytes.length_coe])
    obtain ⟨hparts, hpart3⟩ := List.append_inj hparts (by
      simp only [List.length_append, FixedBytes.length_coe])
    obtain ⟨hpart1, hpart2⟩ := List.append_inj hparts (by simp only [FixedBytes.length_coe])
    refine ⟨sk.s1, hpart4 ▸ hs1, sk.s2, hpart5 ▸ hs2, sk.t0, hpart6 ▸ hpack, ?_,
      (Subtype.ext hpart1).symm, (Subtype.ext hpart2).symm, (Subtype.ext hpart3).symm,
      rfl, rfl, rfl⟩
    rw [Subtype.ext hpart1]
    exact haHat

/-- Where the assertion for `s1` fails, decoding panics. -/
theorem decodeSigningKey_panics (hs1 : ¬ ∃ s1 : Vector p.l,
    checkedUnpackVector p.eta p.eta p.etaBits (splitS1 enc) = some s1) :
    (decodeSigningKey H enc).PanicsWith .assertion := by
  have hnone : checkedUnpackVector p.eta p.eta p.etaBits (splitS1 enc) =
      (none : Option (Vector p.l)) :=
    Option.eq_none_iff_forall_ne_some.mpr (not_exists.mp hs1)
  have hexpect : (Call.expect Panic.assertion (checkedUnpackVector p.eta p.eta p.etaBits
      (splitS1 enc) : Option (Vector p.l))).PanicsWith .assertion := by
    rw [hnone]
    exact Call.panicsWith_expect_none _
  exact hexpect.bind _

/-- When the assertions of decoding hold. -/
theorem exists_decodeSigningKey_iff
    (hmatrix : ∀ rho r s, ∃ a, rejNttPoly H.G rho r s = some a) :
    (∃ sk, (decodeSigningKey H enc).Returns sk) ↔
      (∃ s1 : Vector p.l, checkedUnpackVector p.eta p.eta p.etaBits (splitS1 enc) = some s1) ∧
        ∃ s2 : Vector p.k, checkedUnpackVector p.eta p.eta p.etaBits (splitS2 enc) = some s2 := by
  simp only [decodeSigningKey, Call.returns_bind, Call.returns_expect, Call.returns_ofLoop]
  constructor
  · intro h
    rcases h with ⟨sk, s1, hs1, s2, hs2, _⟩
    exact ⟨⟨s1, hs1⟩, s2, hs2⟩
  · intro h
    rcases h with ⟨⟨s1, hs1⟩, s2, hs2⟩
    obtain ⟨t0, ht0⟩ : ∃ t0 : Vector p.k,
        checkedUnpackVector (pow2DMinus1 - 1) pow2DMinus1 t0Bits (splitT0 enc) = some t0 :=
      (exists_checkedUnpackVector_iff fullRange_t0.fitsWidth).mpr fun _ _ =>
        byteDecode_le fullRange_t0 _ _
    obtain ⟨aHat, haHat⟩ : ∃ aHat, expandA H.G p.k p.l (splitRho enc).val = some aHat :=
      exists_arrayFromFn fun _ => exists_arrayFromFn fun _ => hmatrix _ _ _
    exact ⟨_, s1, hs1, s2, hs2, t0, ht0, Option.bind_eq_some_iff.mpr ⟨aHat, haHat, rfl⟩⟩

end

/-! ## Half bytes -/

/-- Both halves of every byte are at most eight. -/
def SmallHalves (bytes : Bytes) : Prop := ∀ b ∈ bytes, b.toNat % 16 ≤ 8 ∧ b.toNat / 16 ≤ 8

instance (bytes : Bytes) : Decidable (SmallHalves bytes) :=
  inferInstanceAs (Decidable (∀ _ ∈ _, _))

section

variable {bytes : Bytes}

/-- A coefficient of four bits is half of a byte. -/
theorem val_byteDecode_four {n : Nat} (hn : n < bytes.length) (i : Fin 256) (hi : i.val / 2 = n) :
    (byteDecode 4 bytes i).val =
      if i.val % 2 = 0 then bytes[n].toNat % 16 else bytes[n].toNat / 16 := by
  have hbyte : sliceAt bytes (1 * (i.val / 2)) 1 = [bytes[n]] := by
    rw [Nat.one_mul, hi, sliceAt, List.take_one_drop_eq_of_lt_length hn]
    rfl
  have hlt := bytes[n].toNat_lt
  have hstep : byteStep 4 = 1 ∧ valueStep 4 = 2 := by decide
  rw [val_byteDecode (by decide +kernel), hstep.1, hstep.2, hbyte, unpackWord_eq]
  show (bytes[n].toNat + 256 * 0) / 2 ^ (4 * (i.val % 2)) % 2 ^ 4 = _
  split
  · rename_i heven
    rw [heven]
    omega
  · rename_i hodd
    rw [show i.val % 2 = 1 by omega]
    omega

theorem byteDecode_four_le_iff (hlen : bytes.length = 128) :
    (∀ i, (byteDecode 4 bytes i).val ≤ 8) ↔ SmallHalves bytes := by
  constructor
  · intro hle b hb
    obtain ⟨n, hn, rfl⟩ := List.mem_iff_getElem.mp hb
    have hlow := hle ⟨2 * n, by omega⟩
    have hhigh := hle ⟨2 * n + 1, by omega⟩
    rw [val_byteDecode_four hn _ (by show 2 * n / 2 = n; omega),
      if_pos (by show 2 * n % 2 = 0; omega)] at hlow
    rw [val_byteDecode_four hn _ (by show (2 * n + 1) / 2 = n; omega),
      if_neg (by show (2 * n + 1) % 2 ≠ 0; omega)] at hhigh
    exact ⟨hlow, hhigh⟩
  · intro hsmall i
    have hn : i.val / 2 < bytes.length := by omega
    rw [val_byteDecode_four hn i rfl]
    have hboth := hsmall _ (List.getElem_mem hn)
    split
    · exact hboth.1
    · exact hboth.2

/-- When the assertions for a vector hold. -/
theorem exists_checkedUnpackVector_four_iff {l : Nat} (hlen : bytes.length = 128 * l) :
    (∃ v : Vector l, checkedUnpackVector 4 4 4 bytes = some v) ↔ SmallHalves bytes := by
  have hslice : ∀ r : Fin l, (sliceAt bytes (128 * r.val) 128).length = 128 := by
    intro r
    apply length_sliceAt
    rw [hlen, ← Nat.mul_succ]
    exact Nat.mul_le_mul_left _ r.isLt
  have hfits : FitsWidth 4 4 4 := ⟨by decide, by decide, by decide +kernel⟩
  rw [exists_checkedUnpackVector_iff hfits]
  refine (forall_congr' fun r => byteDecode_four_le_iff (hslice r)).trans ?_
  have hwhole := flatMap_finRange_sliceAt hlen
  constructor
  · intro hrows b hb
    rw [← hwhole] at hb
    obtain ⟨r, _, hmem⟩ := List.mem_flatMap.mp hb
    exact hrows r b hmem
  · intro hall r b hb
    apply hall b
    rw [← hwhole]
    exact List.mem_flatMap.mpr ⟨r, List.mem_finRange r, hb⟩

end

/-! ## The signing key of `mldsa65b.rs` -/

/-- `SECRET_KEY_SIZE`. -/
def secretKeySize : Nat := 4032

/-- `MlDsa65BSigningKey`: the bytes of a secret key. -/
abbrev MlDsa65BSigningKey := FixedBytes secretKeySize

namespace MlDsa65BSigningKey

/-- `from_bytes`. -/
def fromBytes (bytes : Bytes) : Result MlDsa65BSigningKey :=
  if h : bytes.length = secretKeySize then .ok ⟨bytes, h⟩
  else .error (.invalidKeyLength secretKeySize bytes.length)

/-- The conversion into an `EncodedSigningKey<MlDsa65>`. -/
def encoded (sk : MlDsa65BSigningKey) : FixedBytes ParameterSet.mlDsa65.signingKeySize :=
  ⟨sk.val, sk.property.trans (by decide +kernel)⟩

section

variable (H : HashSuite)

/-- `verifying_key`. -/
noncomputable def verifyingKey (sk : MlDsa65BSigningKey) :
    Call Panic (FixedBytes ParameterSet.mlDsa65.verifyingKeySize) := do
  let data ← decodeSigningKey H sk.encoded
  let vk ← Call.ofLoop (deriveVerifyingKey H data)
  pure (encodeVerifyingKey vk)

/-- `raw_sign_deterministic`, with no result for its error. -/
noncomputable def signDeterministic (sk : SigningKeyData p) (message ctx : Bytes) :
    Call Panic (Option (Signature p)) :=
  if 255 < ctx.length then pure none
  else do
    let sig ← signInternal H sk [[0], [UInt8.ofNat ctx.length], ctx, message] (FixedBytes.zero 32)
    pure (some sig)

/-- `sign_with_context`. -/
noncomputable def signWithContext (sk : MlDsa65BSigningKey) (message context : Bytes) :
    Call Panic (Result Bytes) :=
  if 255 < context.length then pure (.error (.invalidContextLength context.length 255))
  else do
    let data ← decodeSigningKey H sk.encoded
    match ← signDeterministic H data message context with
    | none => pure (.error .invalidSignature)
    | some sig => do
      let enc ← Call.expect .assertion sig.encode
      pure (.ok enc)

end

/-- The loops of the samplers end. -/
structure SamplersEnd (H : HashSuite) (p : ParameterSet) : Prop where
  matrix : ∀ rho r s, ∃ a, rejNttPoly H.G rho r s = some a
  challenge : ∀ rho, ∃ c, sampleInBall H.H rho p.tau = some c

/-- What a key is for: its verifying key is derived; signing any message ends, and the
only panic it can end in is that of a rejection loop without another counter; and the
decoded key is encoded as the bytes that it came from. -/
structure Usable (H : HashSuite) (sk : MlDsa65BSigningKey) : Prop where
  verifies : ∃ vk, (verifyingKey H sk).Returns vk
  signs : ∀ message context, (∃ r, (signWithContext H sk message context).Returns r) ∨
    (signWithContext H sk message context).PanicsWith .unreachable
  reencodes : ∃ data, (decodeSigningKey H sk.encoded).Returns data ∧
    encodeSigningKey data = some sk.val

section

variable {H : HashSuite} {sk : MlDsa65BSigningKey}

/-- No counter of `MlDsa65` overflows when the number of a row is added. -/
theorem exists_expandMask {rhopp : Bytes} {kappa : Nat} (hkappa : kappa ∈ kappas .mlDsa65) :
    ∃ y, expandMask H.H .mlDsa65 rhopp kappa = some y := by
  obtain ⟨i, hi, hval⟩ := List.mem_range'.mp hkappa
  have hcount : i < 13107 := hi
  have hstep : kappa = 0 + 5 * i := hval
  refine exists_arrayFromFn fun r => ?_
  have hr : r.val < 5 := r.isLt
  rw [addWord, if_pos (by omega)]
  exact ⟨_, rfl⟩

/-- The rejection loop of `MlDsa65` returns, unless every iteration rejects. -/
theorem signMu_ends (hends : SamplersEnd H .mlDsa65) (data : SigningKeyData .mlDsa65)
    (mu : FixedBytes 64) (rnd : FixedBytes 32) :
    (∃ sigma, (signMu H data mu rnd).Returns sigma) ∨
      (signMu H data mu rnd).PanicsWith .unreachable := by
  apply signLoop_ends
  intro kappa hkappa
  obtain ⟨y, hy⟩ := exists_expandMask hkappa
  obtain ⟨c, hc⟩ := hends.challenge _
  exact ⟨_, signRound_returns.mpr ⟨y, c, hy, hc, rfl⟩⟩

theorem signWithContext_ends (hends : SamplersEnd H .mlDsa65) {data : SigningKeyData .mlDsa65}
    (hdata : (decodeSigningKey H sk.encoded).Returns data) (message context : Bytes) :
    (∃ r, (signWithContext H sk message context).Returns r) ∨
      (signWithContext H sk message context).PanicsWith .unreachable := by
  unfold signWithContext
  by_cases hlong : 255 < context.length
  · rw [if_pos hlong]
    exact .inl ⟨_, Call.returns_pure.mpr rfl⟩
  · rw [if_neg hlong]
    have hsign : signDeterministic H data message context = signInternal H data
        [[0], [UInt8.ofNat context.length], context, message] (FixedBytes.zero 32) >>=
          fun sig => pure (some sig) := if_neg hlong
    rcases signMu_ends hends data (messageRepresentative H data.tr
      [[0], [UInt8.ofNat context.length], context, message]) (FixedBytes.zero 32)
      with hreturns | hpanics
    · obtain ⟨sigma, hsigma⟩ := hreturns
      obtain ⟨kappa, _, hround⟩ := signMu_returns hsigma
      obtain ⟨y, c, _, _, hresp⟩ := signRound_returns.mp hround
      obtain ⟨enc, henc, _⟩ := decode_encode_of_respond hresp
      have hdet : (signDeterministic H data message context).Returns (some sigma) := by
        rw [hsign]
        exact Call.returns_bind.mpr ⟨sigma, hsigma, Call.returns_pure.mpr rfl⟩
      refine .inl ⟨.ok enc.val, Call.returns_bind.mpr ⟨data, hdata,
        Call.returns_bind.mpr ⟨some sigma, hdet, ?_⟩⟩⟩
      exact Call.returns_bind.mpr ⟨enc.val, Call.returns_expect.mpr henc, Call.returns_pure.mpr rfl⟩
    · have hdet : (signDeterministic H data message context).PanicsWith .unreachable := by
        rw [hsign]
        exact hpanics.bind _
      exact .inr (hdata.bind_panicsWith (hdet.bind _))

theorem exists_decode_iff (hends : SamplersEnd H .mlDsa65) :
    (∃ data, (decodeSigningKey H sk.encoded).Returns data) ↔
      SmallHalves (sliceAt sk.val 128 1408) := by
  have happend : sliceAt sk.val 128 1408 = splitS1 sk.encoded ++ splitS2 sk.encoded :=
    sliceAt_add sk.val 128 640 768
  rw [exists_decodeSigningKey_iff hends.matrix, happend, SmallHalves, List.forall_mem_append]
  exact and_congr (exists_checkedUnpackVector_four_iff (length_splitS1 sk.encoded))
    (exists_checkedUnpackVector_four_iff (length_splitS2 sk.encoded))

/-- A key that cannot be decoded cannot be used. -/
theorem Usable.exists_decode (h : Usable H sk) :
    ∃ data, (decodeSigningKey H sk.encoded).Returns data := by
  obtain ⟨data, hdata, _⟩ := h.reencodes
  exact ⟨data, hdata⟩

end

/-- A key that `from_bytes` accepts can be used exactly when both halves of every byte of
its `s1` and `s2` are at most eight. -/
theorem usable_iff {H : HashSuite} (hends : SamplersEnd H .mlDsa65) {bytes : Bytes}
    {sk : MlDsa65BSigningKey} (hok : fromBytes bytes = .ok sk) :
    Usable H sk ↔ SmallHalves (sliceAt bytes 128 1408) := by
  have hval : sk.val = bytes := by
    unfold fromBytes at hok
    split at hok
    · rw [← Except.ok.inj hok]
    · cases hok
  rw [← hval, ← exists_decode_iff hends]
  constructor
  · exact Usable.exists_decode
  · intro hdecode
    rcases hdecode with ⟨data, hdata⟩
    obtain ⟨hencode, _⟩ := decodeSigningKey_returns.mp hdata
    refine ⟨?_, signWithContext_ends hends hdata, data, hdata, hencode⟩
    obtain ⟨vk, hvk⟩ : ∃ vk, deriveVerifyingKey H data = some vk := ⟨_, rfl⟩
    exact ⟨_, Call.returns_bind.mpr ⟨data, hdata, Call.returns_bind.mpr
      ⟨vk, Call.returns_ofLoop.mpr hvk, Call.returns_pure.mpr rfl⟩⟩⟩

/-- A key whose `s1` and `s2` have the halves 5 and 3 throughout. -/
def halvesKey : Bytes :=
  List.replicate 128 1 ++ (List.replicate 1408 0x35 ++ List.replicate 2496 7)

theorem length_halvesKey : halvesKey.length = 4032 := by
  simp only [halvesKey, List.length_append, List.length_replicate]

theorem usable_iff_halves :
    fromBytes halvesKey = .ok ⟨halvesKey, length_halvesKey⟩ ∧
      Usable constantSuite ⟨halvesKey, length_halvesKey⟩ := by
  have hends : SamplersEnd constantSuite .mlDsa65 :=
    ⟨rejNttPoly_constantSuite, sampleInBall_constantSuite⟩
  have hok : fromBytes halvesKey = .ok ⟨halvesKey, length_halvesKey⟩ := dif_pos length_halvesKey
  have hhalves : sliceAt halvesKey 128 1408 = List.replicate 1408 0x35 := by
    rw [sliceAt, halvesKey, List.drop_left' List.length_replicate,
      List.take_left' List.length_replicate]
  refine ⟨hok, (usable_iff hends hok).mpr ?_⟩
  rw [hhalves]
  intro b hb
  rw [List.eq_of_mem_replicate hb]
  decide

/-- `from_bytes` accepts a key of which the verifying key cannot be derived and which signs
nothing, whatever the hash suite: unpacking `s1` panics. -/
theorem fromBytes_not_usable :
    ∃ sk, fromBytes (List.replicate 4032 255) = .ok sk ∧ ∀ H : HashSuite,
      ¬ Usable H sk ∧ (verifyingKey H sk).PanicsWith .assertion ∧
        (signWithContext H sk [] []).PanicsWith .assertion := by
  refine ⟨⟨List.replicate 4032 255, List.length_replicate⟩, dif_pos List.length_replicate, ?_⟩
  intro H
  set sk : MlDsa65BSigningKey := ⟨List.replicate 4032 255, List.length_replicate⟩
  have hlarge : ¬ SmallHalves (splitS1 sk.encoded) := by
    intro hsmall
    have hmem : (255 : UInt8) ∈ splitS1 sk.encoded := by
      show (255 : UInt8) ∈ ((List.replicate 4032 255).drop 128).take 640
      rw [List.drop_replicate, List.take_replicate]
      exact List.mem_replicate.mpr ⟨by decide, rfl⟩
    exact absurd (hsmall 255 hmem).1 (by decide)
  have hpanics : (decodeSigningKey H sk.encoded).PanicsWith .assertion :=
    decodeSigningKey_panics fun hs1 =>
      hlarge ((exists_checkedUnpackVector_four_iff (length_splitS1 sk.encoded)).mp hs1)
  refine ⟨?_, hpanics.bind _, hpanics.bind _⟩
  intro husable
  obtain ⟨data, hdata⟩ := husable.exists_decode
  cases hdata.symm.trans hpanics

end MlDsa65BSigningKey

end Trelis.MlDsa
