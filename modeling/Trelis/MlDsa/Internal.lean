import Trelis.MlDsa.Sampling
import Trelis.MlDsa.Signature

/-!
# Keys, signing and verification of ML-DSA

`mldsa_core/internal.rs` over any hash suite.

A sampling loop may go on forever, and so may what samples: `key_gen` and `verify_mu`
are `Option`s.  Signing can also panic, and is a `Call`.  One iteration of its
rejection loop is `signRound`; the part of it that no hash function takes part in is
`respond`.  `signMu_returns` says that a signature comes from one of the iterations.
-/

namespace Trelis.MlDsa

variable {p : ParameterSet}

/-- `ntt` of the polynomials of a vector. -/
def nttVector {k : Nat} (v : Vector k) : NttVector k := fun r => ntt (v r)

/-- `ntt_inverse` of the polynomials of a vector. -/
def nttInverseVector {k : Nat} (v : NttVector k) : Vector k := fun r => nttInverse (v r)

/-! ## Keys -/

/-- `SigningKeyData`, with what its precomputed values are. -/
structure SigningKeyData (p : ParameterSet) where
  rho : FixedBytes 32
  K : FixedBytes 32
  tr : FixedBytes 64
  s1 : Vector p.l
  s2 : Vector p.k
  t0 : Vector p.k
  s1Hat : NttVector p.l
  s2Hat : NttVector p.k
  t0Hat : NttVector p.k
  aHat : NttMatrix p.k p.l
  s1Hat_eq : s1Hat = nttVector s1
  s2Hat_eq : s2Hat = nttVector s2
  t0Hat_eq : t0Hat = nttVector t0

/-- `VerifyingKeyData`. -/
structure VerifyingKeyData (p : ParameterSet) where
  rho : FixedBytes 32
  t1 : Vector p.k
  aHat : NttMatrix p.k p.l
  t1TwoDHat : NttVector p.k
  tr : FixedBytes 64
  t1TwoDHat_eq : t1TwoDHat = nttVector (scale (Elem.new (1 <<< specD)) t1)

/-- `BitlenQMinusD`: the bits of a coefficient of `t1`. -/
def t1Bits : Nat := 10

/-- `VerifyingKeySize`. -/
def ParameterSet.verifyingKeySize (p : ParameterSet) : Nat := 32 + 32 * t1Bits * p.k

/-- `encode_verifying_key_internal`. -/
def encodeVerifyingKeyInternal (rho : FixedBytes 32) (t1 : Vector p.k) :
    FixedBytes p.verifyingKeySize :=
  ⟨rho.val ++ encodeVector t1Bits t1, by
    rw [List.length_append, FixedBytes.length_coe, encodeVector,
      length_flatMap_finRange fun r => length_byteEncode (by decide) (t1 r)]
    rfl⟩

/-- `encode_verifying_key`. -/
def encodeVerifyingKey (vk : VerifyingKeyData p) : FixedBytes p.verifyingKeySize :=
  encodeVerifyingKeyInternal vk.rho vk.t1

section Keys

variable (H : HashSuite)

/-- The matrix that is given, or else the one of `expand_a`. -/
noncomputable def orExpandA (rho : FixedBytes 32) :
    Option (NttMatrix p.k p.l) → Option (NttMatrix p.k p.l)
  | some aHat => some aHat
  | none => expandA H.G p.k p.l rho.val

/-- `new_signing_key`. -/
noncomputable def newSigningKey (rho K : FixedBytes 32) (tr : FixedBytes 64) (s1 : Vector p.l)
    (s2 t0 : Vector p.k) (aHat : Option (NttMatrix p.k p.l)) : Option (SigningKeyData p) := do
  let aHat ← orExpandA H rho aHat
  pure ⟨rho, K, tr, s1, s2, t0, nttVector s1, nttVector s2, nttVector t0, aHat, rfl, rfl, rfl⟩

/-- `new_verifying_key`. -/
noncomputable def newVerifyingKey (rho : FixedBytes 32) (t1 : Vector p.k)
    (aHat : Option (NttMatrix p.k p.l))
    (enc : Option (FixedBytes p.verifyingKeySize)) : Option (VerifyingKeyData p) := do
  let aHat ← orExpandA H rho aHat
  let enc := enc.getD (encodeVerifyingKeyInternal rho t1)
  let tr := H.H.hash [enc.val] 64
  pure ⟨rho, t1, aHat, nttVector (scale (Elem.new (1 <<< specD)) t1), tr, rfl⟩

/-- The vector `t` of the two functions that make a verifying key. -/
def publicVector (aHat : NttMatrix p.k p.l) (s1Hat : NttVector p.l) (s2 : Vector p.k) :
    Vector p.k :=
  nttInverseVector (mulVec aHat s1Hat) + s2

/-- The strings that `key_gen` squeezes: `rho`, `rhop` and `K`. -/
def keySeeds (p : ParameterSet) (seed : FixedBytes 32) :
    FixedBytes 32 × FixedBytes 64 × FixedBytes 32 :=
  let h := [seed.val, [UInt8.ofNat p.k], [UInt8.ofNat p.l]].foldl H.H.absorb H.H.init
  let (rho, h) := H.H.squeeze h 32
  let (rhop, h) := H.H.squeeze h 64
  let (K, _) := H.H.squeeze h 32
  (rho, rhop, K)

/-- The part of `key_gen` after the sampling. -/
noncomputable def keyPair (rho K : FixedBytes 32) (aHat : NttMatrix p.k p.l) (s1 : Vector p.l)
    (s2 : Vector p.k) : Option (SigningKeyData p × VerifyingKeyData p) := do
  let (t1, t0) := Vector.power2round (publicVector aHat (nttVector s1) s2)
  let vk ← newVerifyingKey H rho t1 (some aHat) none
  let sk ← newSigningKey H rho K vk.tr s1 s2 t0 (some aHat)
  pure (sk, vk)

/-- `key_gen`. -/
noncomputable def keyGen (p : ParameterSet) (seed : FixedBytes 32) :
    Option (SigningKeyData p × VerifyingKeyData p) := do
  let (rho, rhop, K) := keySeeds H p seed
  let aHat ← expandA H.G p.k p.l rho.val
  let s1 ← expandS H.H p.l rhop.val p.etaCase 0
  let s2 ← expandS H.H p.k rhop.val p.etaCase p.l
  keyPair H rho K aHat s1 s2

/-- `derive_verifying_key`. -/
noncomputable def deriveVerifyingKey (sk : SigningKeyData p) : Option (VerifyingKeyData p) :=
  let (t1, _) := Vector.power2round (publicVector sk.aHat sk.s1Hat sk.s2)
  newVerifyingKey H sk.rho t1 (some sk.aHat) none

end Keys

/-! ## Signing -/

/-- What ends a call without a result. -/
inductive Panic
  /-- A failed `assert!`, or an index behind the end of an array. -/
  | assertion
  /-- The overflow of an addition. -/
  | overflow
  /-- `unreachable!`, behind the rejection loop. -/
  | unreachable
deriving DecidableEq

/-- The vector `w` of a mask. -/
def commitment (sk : SigningKeyData p) (y : Vector p.l) : Vector p.k :=
  nttInverseVector (mulVec sk.aHat (nttVector y))

/-- The product of a challenge and a vector of the secret key. -/
def challengeTimes {k : Nat} (c : Polynomial) (vHat : NttVector k) : Vector k :=
  nttInverseVector (mulEach (ntt c) vHat)

/-- The iteration of the rejection loop from the challenge on: a signature, or a
rejection. -/
def respond (sk : SigningKeyData p) (y : Vector p.l) (cTilde : FixedBytes p.lambda)
    (c : Polynomial) : Option (Signature p) :=
  let w := commitment sk y
  let cs1 := challengeTimes c sk.s1Hat
  let cs2 := challengeTimes c sk.s2Hat
  let z := y + cs1
  let r0 := Vector.lowBits p.twoGamma2 (w - cs2)
  if p.gamma1MinusBeta ≤ Vector.infinityNorm z ∨ p.gamma2MinusBeta ≤ Vector.infinityNorm r0 then
    none
  else
    let ct0 := challengeTimes c sk.t0Hat
    let h := Hint.new p.twoGamma2 (-ct0) (w - cs2 + ct0)
    if p.gamma2 ≤ Vector.infinityNorm ct0 ∨ p.omega < h.hammingWeight then none
    else some ⟨cTilde, Vector.modPlusMinus q z, h⟩

section Signing

variable (H : HashSuite)

/-- The string that `c_tilde` is squeezed from. -/
def challengeHash (mu : FixedBytes 64) (w1 : Vector p.k) : FixedBytes p.lambda :=
  H.H.hash [mu.val, encodeVector p.w1Bits w1] p.lambda

/-- One iteration of the rejection loop. -/
noncomputable def signRound (sk : SigningKeyData p) (mu rhopp : FixedBytes 64) (kappa : Nat) :
    Call Panic (Option (Signature p)) := do
  let y ← Call.expect .overflow (expandMask H.H p rhopp.val kappa)
  let cTilde := challengeHash H mu (Vector.highBits p.twoGamma2 (commitment sk y))
  let c ← Call.ofLoop (sampleInBall H.H cTilde.val p.tau)
  pure (respond sk y cTilde c)

/-- The rejection loop, over the counters that are left. -/
noncomputable def signLoop (sk : SigningKeyData p) (mu rhopp : FixedBytes 64) :
    List Nat → Call Panic (Signature p)
  | [] => throw .unreachable
  | kappa :: kappas => do
    match ← signRound H sk mu rhopp kappa with
    | some sigma => pure sigma
    | none => signLoop sk mu rhopp kappas

/-- The counters of the rejection loop: `(0..u16::MAX).step_by(P::L::USIZE)`. -/
def kappas (p : ParameterSet) : List Nat := List.range' 0 ((65535 + p.l - 1) / p.l) p.l

/-- The private random seed of `sign_mu`. -/
def privateSeed (sk : SigningKeyData p) (mu : FixedBytes 64) (rnd : FixedBytes 32) :
    FixedBytes 64 :=
  H.H.hash [sk.K.val, rnd.val, mu.val] 64

/-- `sign_mu`. -/
noncomputable def signMu (sk : SigningKeyData p) (mu : FixedBytes 64) (rnd : FixedBytes 32) :
    Call Panic (Signature p) :=
  signLoop H sk mu (privateSeed H sk mu rnd) (kappas p)

/-- `message_representative`. -/
def messageRepresentative (tr : FixedBytes 64) (parts : List Bytes) : FixedBytes 64 :=
  H.H.hash (tr.val :: parts) 64

/-- `sign_internal`. -/
noncomputable def signInternal (sk : SigningKeyData p) (parts : List Bytes) (rnd : FixedBytes 32) :
    Call Panic (Signature p) :=
  signMu H sk (messageRepresentative H sk.tr parts) rnd

/-! ## Verification -/

/-- The vector `w1` that `verify_mu` computes. -/
def recomputedW1 (vk : VerifyingKeyData p) (sigma : Signature p) (c : Polynomial) : Vector p.k :=
  let zHat := nttVector sigma.z
  let wpApprox := nttInverseVector (mulVec vk.aHat zHat - mulEach (ntt c) vk.t1TwoDHat)
  sigma.h.useHint p.twoGamma2 wpApprox

/-- `verify_mu`. -/
noncomputable def verifyMu (vk : VerifyingKeyData p) (mu : FixedBytes 64) (sigma : Signature p) :
    Option Bool := do
  let c ← sampleInBall H.H sigma.cTilde.val p.tau
  pure (decide (sigma.cTilde = challengeHash H mu (recomputedW1 vk sigma c)))

end Signing

section

variable {H : HashSuite} {sk : SigningKeyData p} {mu rhopp : FixedBytes 64}

theorem keyGen_eq_some {seed : FixedBytes 32} {keys : SigningKeyData p × VerifyingKeyData p} :
    keyGen H p seed = some keys ↔
      ∃ aHat s1 s2, expandA H.G p.k p.l (keySeeds H p seed).1.val = some aHat ∧
        expandS H.H p.l (keySeeds H p seed).2.1.val p.etaCase 0 = some s1 ∧
        expandS H.H p.k (keySeeds H p seed).2.1.val p.etaCase p.l = some s2 ∧
        keyPair H (keySeeds H p seed).1 (keySeeds H p seed).2.2 aHat s1 s2 = some keys := by
  simp only [keyGen, bind, Option.bind_eq_some_iff, exists_and_left]

theorem signRound_returns {kappa : Nat} {r : Option (Signature p)} :
    (signRound H sk mu rhopp kappa).Returns r ↔
      ∃ y c, expandMask H.H p rhopp.val kappa = some y ∧
        sampleInBall H.H
          (challengeHash H mu (Vector.highBits p.twoGamma2 (commitment sk y))).val p.tau = some c ∧
        respond sk y (challengeHash H mu (Vector.highBits p.twoGamma2 (commitment sk y))) c =
          r := by
  simp only [signRound, Call.returns_bind, Call.returns_expect, Call.returns_ofLoop,
    Call.returns_pure]
  constructor
  · intro h
    rcases h with ⟨y, hy, c, hc, hr⟩
    exact ⟨y, c, hy, hc, hr⟩
  · intro h
    rcases h with ⟨y, c, hy, hc, hr⟩
    exact ⟨y, hy, c, hc, hr⟩

/-- A signature that the loop returns is one of its iterations. -/
theorem signLoop_returns {sigma : Signature p} (kappas : List Nat)
    (hloop : (signLoop H sk mu rhopp kappas).Returns sigma) :
    ∃ kappa ∈ kappas, (signRound H sk mu rhopp kappa).Returns (some sigma) := by
  induction kappas with
  | nil => cases hloop
  | cons kappa kappas ih =>
    rw [signLoop, Call.returns_bind] at hloop
    obtain ⟨r, hround, hrest⟩ := hloop
    cases r with
    | some sigma' =>
      rw [← Call.returns_pure.mp hrest]
      exact ⟨kappa, List.mem_cons_self, hround⟩
    | none =>
      obtain ⟨kappa', hmem, hkappa'⟩ := ih hrest
      exact ⟨kappa', List.mem_cons_of_mem _ hmem, hkappa'⟩

/-- A loop whose iterations end returns, unless all of them reject. -/
theorem signLoop_ends (kappas : List Nat)
    (hrounds : ∀ kappa ∈ kappas, ∃ r, (signRound H sk mu rhopp kappa).Returns r) :
    (∃ sigma, (signLoop H sk mu rhopp kappas).Returns sigma) ∨
      (signLoop H sk mu rhopp kappas).PanicsWith .unreachable := by
  induction kappas with
  | nil => exact .inr rfl
  | cons kappa kappas ih =>
    obtain ⟨r, hround⟩ := hrounds kappa List.mem_cons_self
    rw [signLoop]
    cases r with
    | some sigma => exact .inl ⟨sigma, Call.returns_bind.mpr ⟨_, hround, Call.returns_pure.mpr rfl⟩⟩
    | none =>
      rcases ih fun kappa' h => hrounds kappa' (List.mem_cons_of_mem _ h) with hreturns | hpanics
      · obtain ⟨sigma, hsigma⟩ := hreturns
        exact .inl ⟨sigma, Call.returns_bind.mpr ⟨_, hround, hsigma⟩⟩
      · exact .inr (hround.bind_panicsWith hpanics)

theorem signMu_returns {rnd : FixedBytes 32} {sigma : Signature p}
    (hsign : (signMu H sk mu rnd).Returns sigma) :
    ∃ kappa ∈ kappas p, (signRound H sk mu (privateSeed H sk mu rnd) kappa).Returns (some sigma) :=
  signLoop_returns _ hsign

end

end Trelis.MlDsa
