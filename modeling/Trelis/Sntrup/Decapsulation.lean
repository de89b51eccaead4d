import Trelis.Sntrup.Correctness

/-!
# What sntrup761 decapsulation accepts

`accepts_iff`: a ciphertext is accepted exactly when it is the encapsulation of
the polynomial that it decrypts to.  Together with the bound on the noise this
gives the two results: honest ciphertexts are always accepted
(`decapsulate_encapsulateWith`), and an accepted ciphertext is the encapsulation
of some ternary polynomial, but not always of one of weight 286
(`rejectsInvalid_iff`): `decapsulate` does not check the weight.

The sample key at the end is one whose `f` is a power of `x`, so that it is
known to be invertible.
-/

namespace Trelis.Sntrup

variable {sha512 : Bytes → FixedBytes 64} {sk : FixedBytes 1763} {ct : FixedBytes 1039}

/-! ## Encapsulation and decryption -/

theorem ctBody_encapsulateWith (sha512 : Bytes → FixedBytes 64) (pk : FixedBytes 1158)
    (r : Coeffs) :
    ctBody (encapsulateWith sha512 pk r).2 = encryptBody (rqDecode pk.val) r.val := by
  unfold ctBody encapsulateWith
  exact arrayAt_flatten (i := 0) rfl rfl _

theorem ctConfirm_encapsulateWith (sha512 : Bytes → FixedBytes 64) (pk : FixedBytes 1158)
    (r : Coeffs) :
    ctConfirm (encapsulateWith sha512 pk r).2 =
      hashConfirm sha512 (hashREncoding sha512 (smallEncode r.val)) (hashPkCache sha512 pk) := by
  unfold ctConfirm encapsulateWith
  exact arrayAt_flatten (i := 1) rfl (by simp) _

/-- A ciphertext is its two parts. -/
theorem ciphertext_ext {ct' : FixedBytes 1039} (hbody : ctBody ct = ctBody ct')
    (hconfirm : ctConfirm ct = ctConfirm ct') : ct = ct' := by
  have hsplit : ∀ c : FixedBytes 1039, c.val = (ctBody c).val ++ (ctConfirm c).val := by
    intro c
    have h0 := sliceAt_append_drop c.val (show 0 + 1007 = 1007 from rfl)
    have h1 := sliceAt_append_drop c.val (show 1007 + 32 = 1039 from rfl)
    rw [List.drop_eq_nil_of_le (by rw [FixedBytes.length_coe]), List.append_nil] at h1
    rw [← h1, List.drop_zero] at h0
    exact h0.symm
  apply Subtype.ext
  rw [hsplit ct, hsplit ct', hbody, hconfirm]

/-- The decoded body of an encapsulation. -/
theorem roundedDecode_ctBody (sha512 : Bytes → FixedBytes 64) (pk : FixedBytes 1158)
    (r : Coeffs) :
    roundedDecode (ctBody (encapsulateWith sha512 pk r).2).val =
      roundRq (rqMultR3 (rqDecode pk.val) r.val) := by
  rw [ctBody_encapsulateWith]
  exact roundedDecode_roundedEncode (length_roundRq _ _) (isRounded_roundRq _ _)

/-- The noise of a ciphertext of `r` under a key. -/
def keyNoise (sk : FixedBytes 1763) (r : List Int) : List Int :=
  noise (keyF sk) (keyG sk) (rqDecode (publicKey sk).val) r

/-- An encapsulation decrypts to its polynomial exactly when its noise is small. -/
theorem decryptR_encapsulateWith_iff (hkey : GeneratedKey sha512 sk) {r : Coeffs}
    (hr : ∀ c ∈ r.val, |c| ≤ 1) :
    decryptR sk (encapsulateWith sha512 (publicKey sk) r).2 = r ↔
      ∀ c ∈ keyNoise sk r.val, |c| ≤ 2295 := by
  rw [← Subtype.val_inj]
  unfold decryptR
  rw [roundedDecode_ctBody]
  exact decryptBody_eq_iff hkey.f_ternary hkey.g_ternary ⟨r.property, hr⟩ hkey.ginv_ternary
    hkey.h_length rfl hkey.ginv_mul_g hkey.f_weight

/-- What `decapsulate` compares. -/
theorem accepts_iff (hkey : GeneratedKey sha512 sk) :
    accepts sha512 sk ct = true ↔
      ct = (encapsulateWith sha512 (publicKey sk) (decryptR sk ct)).2 := by
  have hbody := ctBody_encapsulateWith sha512 (publicKey sk) (decryptR sk ct)
  have hconfirm := ctConfirm_encapsulateWith sha512 (publicKey sk) (decryptR sk ct)
  rw [← hkey.cache_eq] at hconfirm
  unfold accepts
  rw [decide_eq_true_iff]
  constructor
  · intro h
    exact ciphertext_ext (h.1.trans hbody.symm) (h.2.trans hconfirm.symm)
  · intro h
    exact ⟨(congrArg ctBody h).trans hbody, (congrArg ctConfirm h).trans hconfirm⟩

/-- What decryption returns is ternary, whatever it is given. -/
theorem ternary_decryptR (sk : FixedBytes 1763) (ct : FixedBytes 1039) :
    Ternary (decryptR sk ct).val := ternary_r3MultR3 _ _

theorem accepts_of_decryptR_eq (hkey : GeneratedKey sha512 sk) {r : Coeffs}
    (h : decryptR sk (encapsulateWith sha512 (publicKey sk) r).2 = r) :
    accepts sha512 sk (encapsulateWith sha512 (publicKey sk) r).2 = true := by
  rw [accepts_iff hkey, h]

/-- The noise of weight 286. -/
theorem abs_keyNoise_le (hkey : GeneratedKey sha512 sk) {r : Coeffs}
    (hr : ∀ c ∈ r.val, |c| ≤ 1) {bound : Int} (hweight : 2 * (weight r.val : Int) + 1716 ≤ bound) :
    ∀ c ∈ keyNoise sk r.val, |c| ≤ bound := by
  intro c hc
  have h := abs_noise_le hkey.f_ternary hkey.g_ternary ⟨r.property, hr⟩ c hc
  rw [hkey.f_weight, show w = 286 from rfl] at h
  omega

/-! ## Honest ciphertexts -/

/-- Perfect correctness: what is encapsulated to a generated key is accepted and
gives the same secret.  The product `3 * f * c` is an integer polynomial with
coefficients below `q / 2`, and every encoding on the way is undone. -/
theorem decapsulate_encapsulateWith (sha512 : Bytes → FixedBytes 64) {Rng : Type}
    {S : Samplers Rng} (hS : S.Lawful) {rng rng' : Rng} {sk : FixedBytes 1763}
    (hgen : generateFromRng sha512 S rng = .ok (sk, rng')) {r : Coeffs}
    (hr : ∀ c ∈ r.val, |c| ≤ 1) (hweight : weight r.val = w) :
    let out := encapsulateWith sha512 (publicKey sk) r
    decapsulate sha512 sk out.2 = .ok out.1 ∧ accepts sha512 sk out.2 = true ∧
      decryptR sk out.2 = r ∧
      scaledProduct (roundedDecode (ctBody out.2).val) (keyF sk) = keyNoise sk r.val ∧
      (∀ c ∈ keyNoise sk r.val, |c| ≤ 2288) ∧
      roundedDecode (ctBody out.2).val =
        roundRq (rqMultR3 (rqDecode (publicKey sk).val) r.val) ∧
      smallDecode (smallEncode r.val) = r.val ∧
      smallEncode (keyF sk) = (keyFBytes sk).val ∧
      smallEncode (keyGinv sk) = (keyGinvBytes sk).val ∧
      rqEncode (rqDecode (publicKey sk).val) = (publicKey sk).val := by
  intro out
  have hkey := generateFromRng_spec hS hgen
  have hternary : Ternary r.val := ⟨r.property, hr⟩
  have hnoise : ∀ c ∈ keyNoise sk r.val, |c| ≤ 2288 := by
    apply abs_keyNoise_le hkey hr
    rw [hweight, show w = 286 from rfl]
    norm_num
  have hsmall : ∀ c ∈ keyNoise sk r.val, |c| ≤ 2295 := fun c hc =>
    (hnoise c hc).trans (by norm_num)
  have hdecrypt : decryptR sk out.2 = r := (decryptR_encapsulateWith_iff hkey hr).mpr hsmall
  have haccepts : accepts sha512 sk out.2 = true := accepts_of_decryptR_eq hkey hdecrypt
  have hbody := roundedDecode_ctBody sha512 (publicKey sk) r
  refine ⟨?_, haccepts, hdecrypt, ?_, hnoise, hbody, smallDecode_smallEncode hternary,
    hkey.f_encoded, hkey.ginv_encoded, hkey.h_encoded⟩
  · rw [decapsulate, if_pos haccepts, acceptedSecret, hdecrypt]
    rfl
  · rw [hbody]
    exact (scaledProduct_eq_noise_iff hkey.f_ternary.length_eq hkey.g_ternary.length_eq r.property
      hkey.h_length rfl).mpr hsmall

/-! ## Other ciphertexts -/

/-- Only the encapsulations of ternary polynomials of weight `W` get a secret
that is not the rejection secret, and those of other polynomials get the
rejection secret. -/
def RejectsInvalid (sha512 : Bytes → FixedBytes 64) (sk : FixedBytes 1763)
    (ct : FixedBytes 1039) : Prop :=
  (decapsulate sha512 sk ct ≠ .ok (rejectionSecret sha512 sk ct) →
    ∃ r : Coeffs, (∀ c ∈ r.val, |c| ≤ 1) ∧ weight r.val = w ∧
      (encapsulateWith sha512 (publicKey sk) r).2 = ct) ∧
  ∀ r : Coeffs, (∀ c ∈ r.val, |c| ≤ 1) → weight r.val ≠ w →
    (encapsulateWith sha512 (publicKey sk) r).2 = ct →
      decapsulate sha512 sk ct = .ok (rejectionSecret sha512 sk ct)

/-- A polynomial of another weight that decrypts correctly, or whose ciphertext
is also that of a polynomial of weight `W`. -/
def Misaccepted (sha512 : Bytes → FixedBytes 64) (sk : FixedBytes 1763) (ct : FixedBytes 1039)
    (r : Coeffs) : Prop :=
  (∀ c ∈ r.val, |c| ≤ 1) ∧ weight r.val ≠ w ∧ (encapsulateWith sha512 (publicKey sk) r).2 = ct ∧
    ((∀ c ∈ keyNoise sk r.val, |c| ≤ 2295) ∨
      ∃ r' : Coeffs, (∀ c ∈ r'.val, |c| ≤ 1) ∧ weight r'.val = w ∧
        (encapsulateWith sha512 (publicKey sk) r').2 = ct)

theorem decapsulate_ne_iff (hsession : acceptedSecret sha512 sk ct ≠ rejectionSecret sha512 sk ct) :
    decapsulate sha512 sk ct ≠ .ok (rejectionSecret sha512 sk ct) ↔
      accepts sha512 sk ct = true := by
  unfold decapsulate
  by_cases haccepts : accepts sha512 sk ct = true
  · rw [if_pos haccepts]
    exact iff_of_true (fun h => hsession (Except.ok.inj h)) haccepts
  · rw [if_neg haccepts]
    exact iff_of_false (fun h => h rfl) haccepts

/-- What is accepted decrypts to a polynomial with small noise, whose
encapsulation it is. -/
theorem noise_of_accepts (hkey : GeneratedKey sha512 sk) (h : accepts sha512 sk ct = true) :
    (encapsulateWith sha512 (publicKey sk) (decryptR sk ct)).2 = ct ∧
      ∀ c ∈ keyNoise sk (decryptR sk ct).val, |c| ≤ 2295 := by
  have hct := (accepts_iff hkey).mp h
  refine ⟨hct.symm, ?_⟩
  rw [← decryptR_encapsulateWith_iff hkey (ternary_decryptR sk ct).abs_le, ← hct]

/-- A polynomial of weight `W` is accepted. -/
theorem accepts_of_weight (hkey : GeneratedKey sha512 sk) {r : Coeffs}
    (hr : ∀ c ∈ r.val, |c| ≤ 1) (hweight : weight r.val = w) :
    accepts sha512 sk (encapsulateWith sha512 (publicKey sk) r).2 = true := by
  apply accepts_of_decryptR_eq hkey
  rw [decryptR_encapsulateWith_iff hkey hr]
  apply abs_keyNoise_le hkey hr
  rw [hweight, show w = 286 from rfl]
  norm_num

/-- Where invalid ciphertexts are rejected. -/
theorem rejectsInvalid_iff (sha512 : Bytes → FixedBytes 64) {Rng : Type} {S : Samplers Rng}
    (hS : S.Lawful) {rng rng' : Rng} {sk : FixedBytes 1763}
    (hgen : generateFromRng sha512 S rng = .ok (sk, rng')) (ct : FixedBytes 1039)
    (hsession : acceptedSecret sha512 sk ct ≠ rejectionSecret sha512 sk ct) :
    RejectsInvalid sha512 sk ct ↔ ∀ r, ¬ Misaccepted sha512 sk ct r := by
  have hkey := generateFromRng_spec hS hgen
  have hne := decapsulate_ne_iff hsession
  constructor
  · intro hrejects r hmis
    rcases hmis with ⟨hr, hweight, henc, hor⟩
    apply hne.mpr _ (hrejects.2 r hr hweight henc)
    obtain hsmall | ⟨r', hr', hweight', henc'⟩ := hor
    · rw [← henc]
      exact accepts_of_decryptR_eq hkey ((decryptR_encapsulateWith_iff hkey hr).mpr hsmall)
    · rw [← henc']
      exact accepts_of_weight hkey hr' hweight'
  · intro hnone
    have hdecrypted : accepts sha512 sk ct = true →
        weight (decryptR sk ct).val = w := by
      intro haccepts
      obtain ⟨henc, hsmall⟩ := noise_of_accepts hkey haccepts
      by_contra hweight
      exact hnone _ ⟨(ternary_decryptR sk ct).abs_le, hweight, henc, .inl hsmall⟩
    constructor
    · intro hdecap
      have haccepts := hne.mp hdecap
      exact ⟨decryptR sk ct, (ternary_decryptR sk ct).abs_le, hdecrypted haccepts,
        (noise_of_accepts hkey haccepts).1⟩
    · intro r hr hweight henc
      by_contra hdecap
      have haccepts := hne.mp hdecap
      exact hnone r ⟨hr, hweight, henc, .inr ⟨decryptR sk ct, (ternary_decryptR sk ct).abs_le,
        hdecrypted haccepts, (noise_of_accepts hkey haccepts).1⟩⟩

/-! ## A sample key -/

section Sample

open Polynomial

/-- `1 - x^(a+1) + x^(a+2) * (1 - x + x^2 - ...)`. -/
def alternating (a k : Nat) : List Int :=
  1 :: List.replicate a 0 ++ [-1] ++ (List.replicate k [1, -1]).flatten

variable {R : Type} [CommRing R]

theorem ofCoeffs_alternate (k : Nat) :
    ofCoeffs (((List.replicate k [1, -1]).flatten : List Int).map (Int.castRingHom R)) * (1 + X) =
      1 - X ^ (2 * k) := by
  induction k with
  | zero => simp
  | succ k ih =>
    rw [List.replicate_succ, List.flatten_cons, List.map_append, ofCoeffs_append, add_mul,
      mul_assoc, ih]
    simp only [List.map_cons, List.map_nil, ofCoeffs_cons, ofCoeffs_nil, map_one, map_neg,
      List.length_cons, List.length_nil]
    ring

theorem ofCoeffs_alternating (a k : Nat) :
    ofCoeffs ((alternating a k).map (Int.castRingHom R)) * (1 + X) =
      1 + X - X ^ (a + 1) - X ^ (a + 2 + 2 * k) := by
  have hright := ofCoeffs_alternate (R := R) k
  rw [alternating, List.map_append, ofCoeffs_append, add_mul, mul_assoc, hright, List.map_append,
    ofCoeffs_append, List.map_cons, List.map_replicate, map_zero, ofCoeffs_cons,
    ofCoeffs_replicate_zero, List.length_append, List.length_cons, List.length_replicate]
  simp only [List.map_cons, List.map_nil, ofCoeffs_cons, ofCoeffs_nil, map_one, map_neg,
    List.length_cons, List.length_nil]
  ring

/-- It is a power of `x`, up to its sign. -/
theorem isUnit_residue_alternating {a k N : Nat} (hN : a + 2 + 2 * k = N) :
    IsUnit (residue N ((alternating a k).map (Int.castRingHom R))) := by
  have hroot : AdjoinRoot.root (trinomial R N) ^ N = AdjoinRoot.root (trinomial R N) + 1 := by
    have h : AdjoinRoot.mk (trinomial R N) (X ^ N - (X + 1)) = 0 := AdjoinRoot.mk_self
    simpa [sub_eq_zero] using h
  generalize hx : AdjoinRoot.root (trinomial R N) = x at hroot
  have hmul := congrArg (AdjoinRoot.mk (trinomial R N)) (ofCoeffs_alternating (R := R) a k)
  simp only [map_mul, map_add, map_sub, map_pow, map_one, AdjoinRoot.mk_X, hx, hN, hroot] at hmul
  have hinv : x * (x ^ (N - 1) - 1) = 1 := by
    have hpow : x * x ^ (N - 1) = x ^ N := by
      rw [← pow_succ']
      congr 1
      omega
    rw [mul_sub, hpow, hroot]
    ring
  have hunit : IsUnit x := isUnit_iff_exists_inv.mpr ⟨_, hinv⟩
  have hneg : residue N ((alternating a k).map (Int.castRingHom R)) * (1 + x) = -x ^ (a + 1) := by
    rw [residue, hmul]
    ring
  exact isUnit_of_mul_isUnit_left (hneg ▸ (hunit.pow (a + 1)).neg)

/-- A polynomial of weight 286 that is invertible in both rings. -/
def samplePoly : Coeffs := ⟨alternating 475 142, by decide +kernel⟩

theorem samplePoly_abs_le : ∀ c ∈ samplePoly.val, |c| ≤ 1 := by
  intro c hc
  have hcases : ∀ c ∈ alternating 475 142, c = 1 ∨ c = 0 ∨ c = -1 := by decide +kernel
  obtain rfl | rfl | rfl := hcases c hc <;> decide

theorem weight_samplePoly : weight samplePoly.val = w := by decide +kernel

theorem isUnit_samplePoly (n : Nat) : IsUnit (element n samplePoly.val) :=
  isUnit_residue_alternating (show 475 + 2 + 2 * 142 = p from rfl)

/-- Samplers that always return that polynomial. -/
def sampleSamplers : Samplers Unit where
  randomSmall _ := (samplePoly, ())
  shortRandom _ := (some samplePoly, ())
  fillBytes n _ := (FixedBytes.zero n, ())

theorem sampleSamplers_lawful : sampleSamplers.Lawful where
  randomSmall_abs_le _ := samplePoly_abs_le
  shortRandom_abs_le _ short h := by
    rw [← Option.some_inj.mp h]
    exact samplePoly_abs_le

/-- A digest that keeps the first 64 bytes. -/
def sampleSha512 (b : Bytes) : FixedBytes 64 :=
  ⟨(b ++ List.replicate 64 0).take 64, by simp⟩

theorem invertSmall_isSome {g : Coeffs} (hg : Ternary g.val) (hunit : IsUnit (element 3 g.val)) :
    ∃ ginv, invertSmall g = some ginv := by
  have hsome := r3Recip_isSome hg hunit
  apply Option.isSome_iff_exists.mp
  unfold invertSmall
  rwa [Option.isSome_pmap]

theorem completeKey_isSome (sha512 : Bytes → FixedBytes 64) {Rng : Type} (S : Samplers Rng)
    {f : Coeffs} (hf : Ternary f.val) (hunit : IsUnit (element q f.val)) (g ginv : Coeffs)
    (rng : Rng) : ∃ key, completeKey sha512 S f g ginv rng = some key := by
  have hsome : (rqRecip (recip 3) (f.val.map freeze)).isSome := by
    rw [map_freeze_eq hf.abs_le, recip_three]
    exact rqRecip_isSome hf.length_eq (fun c hc => (hf.abs_le c hc).trans (by norm_num))
      (by norm_num) (by decide) hunit
  obtain ⟨finv, hfinv⟩ := Option.isSome_iff_exists.mp hsome
  unfold completeKey
  exact ⟨_, Option.map_eq_some_iff.mpr ⟨finv, hfinv, rfl⟩⟩

theorem maxKeygenAttempts_eq : maxKeygenAttempts = 9999 + 1 := rfl

/-- One round is enough when the first draws are good. -/
theorem generateLoop_succ_eq_ok {Rng : Type} {S : Samplers Rng} {rng : Rng} {attempts : Nat}
    {pair : (Coeffs × Coeffs) × Rng} {short : Coeffs × Rng} {key : FixedBytes 1763 × Rng}
    (hpair : sampleInvertible S maxKeygenAttempts rng = .ok pair)
    (hshort : sampleShort S maxKeygenAttempts pair.2 = .ok short)
    (hkey : completeKey sha512 S short.1 pair.1.1 pair.1.2 short.2 = some key) :
    generateLoop sha512 S (attempts + 1) rng = .ok key := by
  rw [generateLoop]
  refine Except.bind_eq_ok.mpr ⟨_, hpair, Except.bind_eq_ok.mpr ⟨_, hshort, ?_⟩⟩
  rw [hkey]

theorem sampleShort_eq_ok {Rng : Type} {S : Samplers Rng} {rng : Rng} {short : Coeffs}
    (hdraw : S.shortRandom rng = (some short, rng)) (hsmall : ∀ c ∈ short.val, |c| ≤ 1)
    (hweight : weight short.val = w) :
    sampleShort S maxKeygenAttempts rng = .ok (short, rng) := by
  rw [maxKeygenAttempts_eq, sampleShort, hdraw]
  dsimp only
  rw [toI8_eq hsmall, if_pos hweight]

theorem sample_generates (sha512 : Bytes → FixedBytes 64) :
    ∃ sk, generateFromRng sha512 sampleSamplers () = .ok (sk, ()) := by
  have hternary : Ternary samplePoly.val := ⟨samplePoly.property, samplePoly_abs_le⟩
  obtain ⟨ginv, hginv⟩ := invertSmall_isSome hternary (isUnit_samplePoly 3)
  obtain ⟨key, hkey⟩ := completeKey_isSome sha512 sampleSamplers hternary (isUnit_samplePoly q)
    samplePoly ginv ()
  have hshort : sampleShort sampleSamplers maxKeygenAttempts () = .ok (samplePoly, ()) :=
    sampleShort_eq_ok rfl samplePoly_abs_le weight_samplePoly
  have hpair : sampleInvertible sampleSamplers maxKeygenAttempts () =
      .ok ((samplePoly, ginv), ()) := by
    rw [maxKeygenAttempts_eq]
    exact sampleInvertible_succ_of_some hginv
  refine ⟨key.1, ?_⟩
  rw [generateFromRng, maxKeygenAttempts_eq]
  exact generateLoop_succ_eq_ok hpair hshort hkey

theorem decapsulate_encapsulateWith_sample :
    ∃ sk rng', generateFromRng sampleSha512 sampleSamplers () = .ok (sk, rng') ∧
      decapsulate sampleSha512 sk (encapsulateWith sampleSha512 (publicKey sk) samplePoly).2 =
        .ok (encapsulateWith sampleSha512 (publicKey sk) samplePoly).1 := by
  obtain ⟨sk, hsk⟩ := sample_generates sampleSha512
  exact ⟨sk, (), hsk, (decapsulate_encapsulateWith sampleSha512 sampleSamplers_lawful hsk
    samplePoly_abs_le weight_samplePoly).1⟩

/-- The two session hashes start with different tags. -/
theorem sample_session (sk : FixedBytes 1763) (ct : FixedBytes 1039) :
    acceptedSecret sampleSha512 sk ct ≠ rejectionSecret sampleSha512 sk ct := by
  intro h
  have hhead := congrArg (fun b => b.val.head?) h
  revert hhead
  simp [acceptedSecret, rejectionSecret, hashSession, sampleSha512]

/-- The ciphertext of the sample, which is that of a polynomial of weight 286. -/
theorem rejectsInvalid_iff_sample :
    ∃ sk rng' ct, generateFromRng sampleSha512 sampleSamplers () = .ok (sk, rng') ∧
      ct = (encapsulateWith sampleSha512 (publicKey sk) samplePoly).2 ∧
      (RejectsInvalid sampleSha512 sk ct ↔ ∀ r, ¬ Misaccepted sampleSha512 sk ct r) := by
  obtain ⟨sk, hsk⟩ := sample_generates sampleSha512
  exact ⟨sk, (), _, hsk, rfl, rejectsInvalid_iff sampleSha512 sampleSamplers_lawful hsk _
    (sample_session sk _)⟩

/-- The polynomial zero. -/
def zeroPoly : Coeffs := ⟨List.replicate p 0, List.length_replicate⟩

theorem zeroPoly_abs_le : ∀ c ∈ zeroPoly.val, |c| ≤ 1 := by
  intro c hc
  rw [List.eq_of_mem_replicate hc]
  decide

theorem weight_zeroPoly : weight zeroPoly.val = 0 := by decide +kernel

/-- The encapsulation of zero is accepted, and is that of no polynomial of
weight 286. -/
theorem zero_accepted :
    ∃ sk rng', generateFromRng sampleSha512 sampleSamplers () = .ok (sk, rng') ∧
      ¬ RejectsInvalid sampleSha512 sk (encapsulateWith sampleSha512 (publicKey sk) zeroPoly).2 ∧
      decapsulate sampleSha512 sk (encapsulateWith sampleSha512 (publicKey sk) zeroPoly).2 =
        .ok (encapsulateWith sampleSha512 (publicKey sk) zeroPoly).1 := by
  obtain ⟨sk, hsk⟩ := sample_generates sampleSha512
  have hkey := generateFromRng_spec sampleSamplers_lawful hsk
  have hdecrypt : decryptR sk (encapsulateWith sampleSha512 (publicKey sk) zeroPoly).2 =
      zeroPoly := by
    rw [decryptR_encapsulateWith_iff hkey zeroPoly_abs_le]
    apply abs_keyNoise_le hkey zeroPoly_abs_le
    rw [weight_zeroPoly]
    norm_num
  have haccepts := accepts_of_decryptR_eq hkey hdecrypt
  refine ⟨sk, (), hsk, fun hrejects => ?_, ?_⟩
  · apply (decapsulate_ne_iff (sample_session sk _)).mpr haccepts
    apply hrejects.2 zeroPoly zeroPoly_abs_le _ rfl
    rw [weight_zeroPoly]
    decide
  · rw [decapsulate, if_pos haccepts, acceptedSecret, hdecrypt]
    rfl

end Sample

end Trelis.Sntrup
