import Trelis.MlDsa.Internal

/-!
# Signatures verify

What `sign_mu` returns under a key of `key_gen`, `verify_mu` accepts, for every hash
suite, seed and message representative (`mlDsa_complete`).

The verifier knows `t1` and not `t0`.  What it computes in the place of `w` is
`w - c s2 + c t0` (`approximation_eq`), the transform being additive.  The hint takes
`c t0` away again, and `c s2` is too small to carry into the high bits, so that the high
bits of both are the same (`recomputedW1_eq`).
-/

namespace Trelis.MlDsa

variable {p : ParameterSet}

/-! ## Keys that belong together -/

/-- A verifying key belongs to a signing key: both come from one vector `t`, the error of
which is small. -/
structure Paired (sk : SigningKeyData p) (vk : VerifyingKeyData p) : Prop where
  aHat_eq : vk.aHat = sk.aHat
  t1_eq : vk.t1 = (Vector.power2round (publicVector sk.aHat sk.s1Hat sk.s2)).1
  t0_eq : sk.t0 = (Vector.power2round (publicVector sk.aHat sk.s1Hat sk.s2)).2
  norm_s2_le : ∀ r i, (sk.s2 r i).infinityNorm ≤ p.eta

section

variable {H : HashSuite} {seed : FixedBytes 32} {sk : SigningKeyData p} {vk : VerifyingKeyData p}

theorem keyGen_paired (hkeys : keyGen H p seed = some (sk, vk)) :
    Paired sk vk ∧ deriveVerifyingKey H sk = some vk := by
  obtain ⟨aHat, s1, s2, _, _, hs2, hpair⟩ := keyGen_eq_some.mp hkeys
  obtain ⟨hsk, hvk⟩ := Prod.mk.inj (Option.some.inj hpair)
  rw [← hsk, ← hvk]
  refine ⟨⟨rfl, rfl, rfl, ?_⟩, rfl⟩
  intro r i
  rw [← bound_etaCase]
  exact norm_expandS_le hs2 r i

end

/-! ## The approximation -/

section

variable {sk : SigningKeyData p} {vk : VerifyingKeyData p} {c : Polynomial} {y : Vector p.l}

theorem dot_add {l : Nat} (x y z : NttVector l) : dot x (y + z) = dot x y + dot x z := by
  simp only [dot_eq, Pi.add_apply, mul_add, Finset.sum_add_distrib]

theorem dot_mulEach {l : Nat} (x y : NttVector l) (c : NttPolynomial) :
    dot x (mulEach c y) = c * dot x y := by
  simp only [dot_eq, mulEach, Finset.mul_sum, mul_left_comm]

theorem ntt_challengeTimes {k : Nat} (c : Polynomial) (vHat : NttVector k) (r : Fin k) :
    ntt (challengeTimes c vHat r) = ntt c * vHat r :=
  ntt_nttInverse _

/-- The parts of `t` in the NTT domain. -/
theorem Paired.dot_s1Hat (h : Paired sk vk) (r : Fin p.k) :
    dot (sk.aHat r) sk.s1Hat = vk.t1TwoDHat r + sk.t0Hat r - sk.s2Hat r := by
  have hsplit : scale (Elem.new (1 <<< specD)) vk.t1 r + sk.t0 r =
      publicVector sk.aHat sk.s1Hat sk.s2 r := by
    funext i
    rw [h.t1_eq, h.t0_eq]
    exact Elem.power2round_eq _
  have hntt := congrArg ntt hsplit
  rw [ntt_add] at hntt
  rw [sk.s2Hat_eq, sk.t0Hat_eq, vk.t1TwoDHat_eq]
  show _ = ntt _ + ntt _ - ntt _
  rw [hntt, publicVector, Pi.add_apply, ntt_add, add_sub_cancel_right]
  exact (ntt_nttInverse _).symm

/-- What the verifier computes in the place of `w`. -/
theorem Paired.approximation_eq (h : Paired sk vk) :
    nttInverseVector (mulVec vk.aHat (nttVector (y + challengeTimes c sk.s1Hat)) -
        mulEach (ntt c) vk.t1TwoDHat) =
      commitment sk y - challengeTimes c sk.s2Hat + challengeTimes c sk.t0Hat := by
  funext r
  have hz : nttVector (y + challengeTimes c sk.s1Hat) = nttVector y + mulEach (ntt c) sk.s1Hat := by
    funext j
    show ntt (y j + challengeTimes c sk.s1Hat j) = ntt (y j) + ntt c * sk.s1Hat j
    rw [ntt_add, ntt_challengeTimes]
  have hrow : dot (vk.aHat r) (nttVector (y + challengeTimes c sk.s1Hat)) -
      ntt c * vk.t1TwoDHat r =
        dot (sk.aHat r) (nttVector y) - ntt c * sk.s2Hat r + ntt c * sk.t0Hat r := by
    rw [h.aHat_eq, hz, dot_add, dot_mulEach, h.dot_s1Hat r]
    ring
  show nttInverse (dot (vk.aHat r) (nttVector (y + challengeTimes c sk.s1Hat)) -
    ntt c * vk.t1TwoDHat r) = _
  rw [hrow, nttInverse_add, nttInverse_sub]
  rfl

/-! ## The high bits -/

theorem Paired.norm_cs2_le (h : Paired sk vk) (hc : weight c ≤ p.tau) (r : Fin p.k)
    (i : Fin 256) : (challengeTimes c sk.s2Hat r i).infinityNorm ≤ p.beta := by
  have hmul := infinityNorm_nttInverse_mul_le (c := c) (h.norm_s2_le r) i
  show (nttInverse (ntt c * sk.s2Hat r) i).infinityNorm ≤ p.beta
  rw [sk.s2Hat_eq]
  exact hmul.trans (Nat.mul_le_mul_right _ hc)

/-- A difference whose low bits are small has the high bits of the minuend. -/
theorem highBits_sub_eq {w x : Elem} (hlow : ((w - x).lowBits p.twoGamma2).infinityNorm <
    p.gamma2MinusBeta) (hx : x.infinityNorm ≤ p.beta) :
    (w - x).highBits p.twoGamma2 = w.highBits p.twoGamma2 := by
  have hcarry : 2 * |((w - x).lowBits p.twoGamma2).toInt + x.toInt| < p.twoGamma2 := by
    have htri := abs_add_le ((w - x).lowBits p.twoGamma2).toInt x.toInt
    rw [← Elem.infinityNorm_eq, ← Elem.infinityNorm_eq] at htri
    unfold ParameterSet.gamma2MinusBeta at hlow
    unfold ParameterSet.twoGamma2 at htri hlow ⊢
    omega
  have hback := Elem.highBits_add_of_lt (Elem.grid_twoGamma2 p) hcarry
  rw [Elem.intCast_toInt, sub_add_cancel] at hback
  exact hback.symm

/-- A hint for taking a small element away takes it away. -/
theorem useHint_makeHint_neg {x u : Elem} (hu : u.infinityNorm < p.gamma2) :
    Elem.useHint p.twoGamma2 (Elem.makeHint p.twoGamma2 (-u) (x + u)) (x + u) =
      x.highBits p.twoGamma2 := by
  have hneg : 2 * (-u).infinityNorm < p.twoGamma2 := by
    rw [Elem.infinityNorm_neg, ParameterSet.twoGamma2]
    omega
  rw [Elem.useHint_makeHint (Elem.grid_twoGamma2 p) rfl hneg, add_neg_cancel_right]

end

/-! ## The response -/

/-- `mod_plus_minus` by `Q` leaves an element as it is. -/
theorem modPlusMinus_q (x : Elem) : x.modPlusMinus q = x := by
  have hshift : q ≤ 2 ^ (2 * (q.log2 + 1)) := by decide +kernel
  have hreduce : Elem.reduce q x.val = x.val :=
    (barrettReduce_eq q_pos (x.lt.trans_le hshift)).trans (Nat.mod_eq_of_lt x.lt)
  have hq : Elem.new q = 0 := by
    ext
    rw [Elem.val_new, Nat.mod_self, Elem.val_zero]
  rw [Elem.modPlusMinus, hreduce, Elem.new_val]
  split
  · rfl
  · rw [hq, sub_zero]

section

variable {sk : SigningKeyData p} {vk : VerifyingKeyData p} {c : Polynomial} {y : Vector p.l}
  {cTilde : FixedBytes p.lambda} {sigma : Signature p}

/-- What an accepted iteration returns, and what its checks say. -/
theorem respond_eq_some (hresp : respond sk y cTilde c = some sigma) :
    sigma.cTilde = cTilde ∧ sigma.z = y + challengeTimes c sk.s1Hat ∧
      sigma.h = Hint.new p.twoGamma2 (-challengeTimes c sk.t0Hat)
        (commitment sk y - challengeTimes c sk.s2Hat + challengeTimes c sk.t0Hat) ∧
      Vector.infinityNorm sigma.z < p.gamma1MinusBeta ∧ sigma.h.hammingWeight ≤ p.omega ∧
      Vector.infinityNorm (Vector.lowBits p.twoGamma2
        (commitment sk y - challengeTimes c sk.s2Hat)) < p.gamma2MinusBeta ∧
      Vector.infinityNorm (challengeTimes c sk.t0Hat) < p.gamma2 := by
  have hz : Vector.modPlusMinus q (y + challengeTimes c sk.s1Hat) =
      y + challengeTimes c sk.s1Hat := by
    funext r i
    exact modPlusMinus_q _
  simp only [respond] at hresp
  split at hresp
  · cases hresp
  · rename_i hnorms
    split at hresp
    · cases hresp
    · rename_i hhint
      rw [not_or, Nat.not_le, Nat.not_le] at hnorms
      rw [not_or, Nat.not_le, Nat.not_lt] at hhint
      rw [← Option.some.inj hresp, hz]
      exact ⟨rfl, rfl, rfl, hnorms.1, hhint.2, hnorms.2, hhint.1⟩

/-- For every mask and challenge that pass the checks, the verifier computes the high bits
of the signer. -/
theorem Paired.recomputedW1_eq (h : Paired sk vk) (hc : weight c ≤ p.tau)
    (hresp : respond sk y cTilde c = some sigma) :
    recomputedW1 vk sigma c = Vector.highBits p.twoGamma2 (commitment sk y) := by
  obtain ⟨_, hz, hh, _, _, hlow, hct0⟩ := respond_eq_some hresp
  rw [Vector.infinityNorm_lt_iff (Nat.zero_lt_of_lt hlow)] at hlow
  rw [Vector.infinityNorm_lt_iff (Nat.zero_lt_of_lt hct0)] at hct0
  rw [recomputedW1, hz, hh, h.approximation_eq]
  funext r i
  calc Elem.useHint p.twoGamma2 (Elem.makeHint p.twoGamma2 (-challengeTimes c sk.t0Hat r i)
          (commitment sk y r i - challengeTimes c sk.s2Hat r i + challengeTimes c sk.t0Hat r i))
        (commitment sk y r i - challengeTimes c sk.s2Hat r i + challengeTimes c sk.t0Hat r i)
      = (commitment sk y r i - challengeTimes c sk.s2Hat r i).highBits p.twoGamma2 :=
        useHint_makeHint_neg (hct0 r i)
    _ = (commitment sk y r i).highBits p.twoGamma2 :=
        highBits_sub_eq (hlow r i) (h.norm_cs2_le hc r i)

theorem decode_encode_of_respond (hresp : respond sk y cTilde c = some sigma) :
    ∃ enc : FixedBytes p.signatureSize,
      sigma.encode = some enc.val ∧ Signature.decode p enc = some sigma := by
  obtain ⟨_, _, _, hz, hh, _, _⟩ := respond_eq_some hresp
  exact Signature.decode_encode hz hh

end

theorem tau_le (p : ParameterSet) : p.tau ≤ 256 := by
  cases p <;> decide

/-- For every key pair of `key_gen`: the verifying key is also the one that is derived
from the signing key; the `w1` that is recomputed from a response is the signer's for every
mask and challenge that pass the checks; and every signature of `sign_mu` is accepted and
decoded from its encoding. -/
theorem mlDsa_complete (H : HashSuite) (p : ParameterSet) (seed : FixedBytes 32)
    {sk : SigningKeyData p} {vk : VerifyingKeyData p} (hkeys : keyGen H p seed = some (sk, vk)) :
    deriveVerifyingKey H sk = some vk ∧
      (∀ y cTilde c sigma, sampleInBall H.H cTilde.val p.tau = some c →
        respond sk y cTilde c = some sigma →
        recomputedW1 vk sigma c = Vector.highBits p.twoGamma2 (commitment sk y)) ∧
      ∀ mu rnd sigma, (signMu H sk mu rnd).Returns sigma →
        verifyMu H vk mu sigma = some true ∧
          ∃ enc : FixedBytes p.signatureSize,
            sigma.encode = some enc.val ∧ Signature.decode p enc = some sigma := by
  obtain ⟨hpaired, hderive⟩ := keyGen_paired hkeys
  have hw1 : ∀ y cTilde c sigma, sampleInBall H.H cTilde.val p.tau = some c →
      respond sk y cTilde c = some sigma →
      recomputedW1 vk sigma c = Vector.highBits p.twoGamma2 (commitment sk y) := by
    intro y cTilde c sigma hc hresp
    exact hpaired.recomputedW1_eq (weight_sampleInBall_le (tau_le p) hc) hresp
  refine ⟨hderive, hw1, ?_⟩
  intro mu rnd sigma hsign
  obtain ⟨kappa, _, hround⟩ := signMu_returns hsign
  obtain ⟨y, c, _, hc, hresp⟩ := signRound_returns.mp hround
  refine ⟨?_, decode_encode_of_respond hresp⟩
  obtain ⟨hcTilde, _⟩ := respond_eq_some hresp
  refine Option.bind_eq_some_iff.mpr ⟨c, hcTilde ▸ hc, ?_⟩
  rw [hw1 _ _ _ _ hc hresp, hcTilde, decide_eq_true rfl]
  rfl

/-! ## A key of zeros -/

/-- The signing key the vectors of which are zero. -/
def zeroKey (aHat : NttMatrix p.k p.l) (rho K : FixedBytes 32) (tr : FixedBytes 64) :
    SigningKeyData p :=
  ⟨rho, K, tr, 0, 0, 0, nttVector 0, nttVector 0, nttVector 0, aHat, rfl, rfl, rfl⟩

theorem nttVector_zero (k : Nat) : nttVector (0 : Vector k) = 0 := by
  funext r
  exact ntt_zero

theorem nttInverseVector_zero (k : Nat) : nttInverseVector (0 : NttVector k) = 0 := by
  funext r
  exact nttInverse_zero

theorem mulVec_zero {k l : Nat} (a : NttMatrix k l) : mulVec a 0 = 0 := by
  funext r
  rw [mulVec, dot_eq]
  simp

theorem challengeTimes_zero {k : Nat} (c : Polynomial) :
    challengeTimes c (nttVector (0 : Vector k)) = 0 := by
  rw [challengeTimes, nttVector_zero, show mulEach (ntt c) (0 : NttVector k) = 0 from ?_,
    nttInverseVector_zero]
  funext r
  exact mul_zero _

theorem publicVector_zero (aHat : NttMatrix p.k p.l) : publicVector aHat (nttVector 0) 0 = 0 := by
  rw [publicVector, nttVector_zero, mulVec_zero, nttInverseVector_zero, add_zero]

theorem power2round_zero (k : Nat) : Vector.power2round (0 : Vector k) = (0, 0) := by
  have helem : (0 : Elem).power2round = (0, 0) := by decide +kernel
  refine Prod.ext ?_ ?_
  · funext r i
    exact congrArg Prod.fst helem
  · funext r i
    exact congrArg Prod.snd helem

/-- The mask of zeros is not rejected. -/
theorem respond_zeroKey (aHat : NttMatrix p.k p.l) (rho K : FixedBytes 32) (tr : FixedBytes 64)
    (cTilde : FixedBytes p.lambda) (c : Polynomial) :
    ∃ sigma, respond (zeroKey aHat rho K tr) 0 cTilde c = some sigma := by
  have hw : commitment (zeroKey aHat rho K tr) 0 = 0 := by
    show nttInverseVector (mulVec aHat (nttVector 0)) = 0
    rw [nttVector_zero, mulVec_zero, nttInverseVector_zero]
  have hs1 : challengeTimes c (zeroKey aHat rho K tr).s1Hat = 0 := challengeTimes_zero c
  have hs2 : challengeTimes c (zeroKey aHat rho K tr).s2Hat = 0 := challengeTimes_zero c
  have ht0 : challengeTimes c (zeroKey aHat rho K tr).t0Hat = 0 := challengeTimes_zero c
  have hlow : Vector.lowBits p.twoGamma2 (0 : Vector p.k) = 0 := by
    funext r i
    show (0 : Elem).lowBits p.twoGamma2 = 0
    cases p <;> decide +kernel
  have hnorm : ∀ k, Vector.infinityNorm (0 : Vector k) = 0 := by
    intro k
    refine Nat.le_zero.mp (Finset.sup_le fun r _ => Finset.sup_le fun i _ => ?_)
    exact Elem.infinityNorm_zero.le
  have hhint : Hint.hammingWeight (Hint.new p.twoGamma2 (0 : Vector p.k) 0) = 0 := by
    have hnew : Hint.new p.twoGamma2 (0 : Vector p.k) 0 = fun _ _ => false := by
      funext r i
      show (0 : Elem).makeHint p.twoGamma2 0 = false
      rw [Elem.makeHint, add_zero, bne_self_eq_false]
    rw [hnew, Hint.hammingWeight]
    simp
  have hbounds : 0 < p.gamma1MinusBeta ∧ 0 < p.gamma2MinusBeta ∧ 0 < p.gamma2 := by
    cases p <;> decide +kernel
  simp only [respond, hw, hs1, hs2, ht0, add_zero, sub_zero, neg_zero, hlow, hnorm, hhint]
  rw [if_neg (by omega), if_neg (by omega)]
  exact ⟨_, rfl⟩

theorem exists_keyGen_constantSuite (seed : FixedBytes 32) :
    ∃ aHat rho K tr vk, keyGen constantSuite .mlDsa65 seed = some (zeroKey aHat rho K tr, vk) := by
  have hmatrix : ∀ rho, ∃ aHat, expandA constantSuite.G 6 5 rho = some aHat := by
    intro rho
    exact exists_arrayFromFn fun _ => exists_arrayFromFn fun _ => rejNttPoly_constantSuite rho _ _
  have hexpand : ∀ n rho base, expandS constantSuite.H n rho .four base = some 0 := by
    intro n rho base
    exact arrayFromFn_eq_some.mpr fun r => rejBoundedPoly_constantSuite rho _
  have hpair : ∀ rho K aHat, ∃ tr vk,
      keyPair (p := .mlDsa65) constantSuite rho K aHat 0 0 = some (zeroKey aHat rho K tr, vk) := by
    intro rho K aHat
    rw [keyPair, publicVector_zero, power2round_zero]
    exact ⟨_, _, rfl⟩
  obtain ⟨aHat, haHat⟩ := hmatrix (keySeeds constantSuite .mlDsa65 seed).1.val
  obtain ⟨tr, vk, hkeys⟩ := hpair (keySeeds constantSuite .mlDsa65 seed).1
    (keySeeds constantSuite .mlDsa65 seed).2.2 aHat
  exact ⟨aHat, _, _, tr, vk,
    keyGen_eq_some.mpr ⟨aHat, 0, 0, haHat, hexpand 5 _ 0, hexpand 6 _ 5, hkeys⟩⟩

theorem exists_signMu_constantSuite (aHat : NttMatrix 6 5) (rho K : FixedBytes 32)
    (tr mu : FixedBytes 64) (rnd : FixedBytes 32) :
    ∃ sigma,
      (signMu constantSuite (p := .mlDsa65) (zeroKey aHat rho K tr) mu rnd).Returns sigma := by
  have hmask : ∀ rhopp, expandMask constantSuite.H .mlDsa65 rhopp 0 = some 0 := by
    intro rhopp
    refine arrayFromFn_eq_some.mpr fun r => ?_
    have hr : r.val < 5 := r.isLt
    rw [addWord, if_pos (by omega)]
    exact congrArg some Signature.unpack_zeros
  obtain ⟨c, hc⟩ := sampleInBall_constantSuite _
  obtain ⟨sigma, hsigma⟩ := respond_zeroKey (p := .mlDsa65) aHat rho K tr _ c
  refine ⟨sigma, ?_⟩
  show (signLoop constantSuite _ mu _ (List.range' 0 (13106 + 1) 5)).Returns sigma
  rw [List.range'_succ, signLoop, Call.returns_bind]
  exact ⟨some sigma, signRound_returns.mpr ⟨0, c, hmask _, hc, hsigma⟩, Call.returns_pure.mpr rfl⟩

/-- A key pair and a signature that exist. -/
theorem mlDsa_complete_constantSuite :
    ∃ sk vk, keyGen constantSuite .mlDsa65 (FixedBytes.zero 32) = some (sk, vk) ∧
      ∃ sigma, (signMu constantSuite sk (FixedBytes.zero 64) (FixedBytes.zero 32)).Returns sigma ∧
        verifyMu constantSuite vk (FixedBytes.zero 64) sigma = some true := by
  obtain ⟨aHat, rho, K, tr, vk, hkeys⟩ := exists_keyGen_constantSuite (FixedBytes.zero 32)
  obtain ⟨sigma, hsign⟩ := exists_signMu_constantSuite aHat rho K tr (FixedBytes.zero 64)
    (FixedBytes.zero 32)
  have hcomplete := (mlDsa_complete constantSuite .mlDsa65 (FixedBytes.zero 32) hkeys).2.2
  exact ⟨_, vk, hkeys, sigma, hsign, (hcomplete _ _ sigma hsign).1⟩

end Trelis.MlDsa
