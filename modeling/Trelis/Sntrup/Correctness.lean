import Trelis.Sntrup.Kem

/-!
# Correctness of sntrup761

A key that `generate_from_rng` returns satisfies `GeneratedKey`: `3 * f * h = g`
modulo `q`, and `ginv` inverts `g` modulo 3.

Decapsulation computes `3 * f * c` modulo `q`.  For a ciphertext of `r` that is
`noise`, the integer polynomial `g * r + 3 * f * e` with the rounding error `e`.
`scaledProduct_eq_noise_iff` says when the two agree as integers, and
`decryptR_eq_iff` that this is exactly when `r` comes back.  The coefficients of
`noise` are at most `2 * weight r + 1716` (`abs_noise_le`), which leaves room
for weight 286.
-/

namespace Trelis.Sntrup

/-! ## Coefficients -/

theorem scaleByThree_spec {c : Int} (h : |c| ≤ 2295) :
    |scaleByThree c| ≤ 2295 ∧ ((scaleByThree c : Int) : ZMod q) = 3 * c := by
  have hc := abs_le.mp h
  have hword : (c * 3).bmod (2 ^ 16) = c * 3 := Int.bmod_eq_of_le (by omega) (by omega)
  have hq : ((q : Int) : ZMod q) = 0 := by
    rw [Int.cast_natCast, ZMod.natCast_self]
  rw [scaleByThree, hword]
  have hsplit : |if c * 3 > 2295 then c * 3 - q else if c * 3 < -2295 then c * 3 + q else c * 3| ≤
      2295 := by
    rw [abs_le, show (q : Int) = 4591 from rfl]
    split
    · omega
    · split <;> omega
  refine ⟨hsplit, ?_⟩
  split
  · rw [Int.cast_sub, hq, Int.cast_mul]
    push_cast
    ring
  · split
    · rw [Int.cast_add, hq, Int.cast_mul]
      push_cast
      ring
    · rw [Int.cast_mul]
      push_cast
      ring

theorem residueThree_eq (c : Int) : residueThree c = c.bmod 3 := by
  rw [bmod_three, residueThree]
  have hmod : (c.tmod 3 + 3).tmod 3 = c % 3 := by
    rw [Int.tmod_eq_emod, Int.tmod_eq_emod]
    split <;> split <;> omega
  rw [hmod]
  split
  · split <;> omega
  · split
    · split <;> omega
    · split <;> omega

variable {a b c f g ginv h r : List Int}

theorem element_scaledProduct (hc : c.length = p) (hf : f.length = p) :
    element q (scaledProduct c f) =
      AdjoinRoot.of _ (3 : ZMod q) * (element q c * element q f) := by
  rw [scaledProduct, element_map_congr (g := (3 * ·)) fun x hx => by
    rw [(scaleByThree_spec (abs_rqMultR3_le c f x hx)).2]
    push_cast
    ring, element_map_mul, element_rqMultR3 hc hf]
  rfl

theorem abs_scaledProduct_le (c f : List Int) : ∀ x ∈ scaledProduct c f, |x| ≤ 2295 := by
  intro x hx
  obtain ⟨y, hy, rfl⟩ := List.mem_map.mp hx
  exact (scaleByThree_spec (abs_rqMultR3_le c f y hy)).1

@[simp] theorem length_scaledProduct (c f : List Int) : (scaledProduct c f).length = p := by
  rw [scaledProduct, List.length_map, length_rqMultR3]

/-! ## Generated keys -/

/-- `g`, which the key does not hold but determines. -/
def keyG (sk : FixedBytes 1763) : List Int :=
  scaledProduct (rqDecode (publicKey sk).val) (keyF sk)

/-- What key generation leaves in a key. -/
structure GeneratedKey (sha512 : Bytes → FixedBytes 64) (sk : FixedBytes 1763) : Prop where
  f_ternary : Ternary (keyF sk)
  f_weight : weight (keyF sk) = w
  g_ternary : Ternary (keyG sk)
  ginv_ternary : Ternary (keyGinv sk)
  h_length : (rqDecode (publicKey sk).val).length = p
  ginv_mul_g : element 3 (keyGinv sk) * element 3 (keyG sk) = 1
  cache_eq : keyCache sk = hashPkCache sha512 (publicKey sk)
  f_encoded : smallEncode (keyF sk) = (keyFBytes sk).val
  ginv_encoded : smallEncode (keyGinv sk) = (keyGinvBytes sk).val
  h_encoded : rqEncode (rqDecode (publicKey sk).val) = (publicKey sk).val

section Generate

variable {sha512 : Bytes → FixedBytes 64} {Rng : Type} {S : Samplers Rng} {rng rng' : Rng}

theorem toI8_eq {short : Coeffs} (hsmall : ∀ c ∈ short.val, |c| ≤ 1) : toI8 short = short := by
  have hself : ∀ c ∈ short.val, c.bmod (2 ^ 8) = c := by
    intro c hc
    have hc := abs_le.mp (hsmall c hc)
    exact Int.bmod_eq_of_le (by omega) (by omega)
  apply Subtype.ext
  unfold toI8
  exact (List.map_congr_left hself).trans (List.map_id' short.val)

theorem invertSmall_spec {g ginv : Coeffs} (hg : Ternary g.val) (h : invertSmall g = some ginv) :
    Ternary ginv.val ∧ element 3 ginv.val * element 3 g.val = 1 := by
  unfold invertSmall at h
  obtain ⟨inv, hinv, hrecip, hval⟩ := Option.pmap_eq_some_iff.mp h
  rw [hval]
  exact r3Recip_eq_some hg hrecip

theorem sampleInvertible_succ_of_some {attempts : Nat} {ginv : Coeffs}
    (h : invertSmall (S.randomSmall rng).1 = some ginv) :
    sampleInvertible S (attempts + 1) rng =
      .ok (((S.randomSmall rng).1, ginv), (S.randomSmall rng).2) := by
  rw [sampleInvertible, h]

theorem sampleInvertible_succ_of_none {attempts : Nat}
    (h : invertSmall (S.randomSmall rng).1 = none) :
    sampleInvertible S (attempts + 1) rng =
      sampleInvertible S attempts (S.randomSmall rng).2 := by
  rw [sampleInvertible, h]

theorem sampleInvertible_spec (hS : S.Lawful) {attempts : Nat} {g ginv : Coeffs}
    (hsample : sampleInvertible S attempts rng = .ok ((g, ginv), rng')) :
    Ternary g.val ∧ Ternary ginv.val ∧ element 3 ginv.val * element 3 g.val = 1 := by
  induction attempts generalizing rng with
  | zero =>
    rw [sampleInvertible] at hsample
    cases hsample
  | succ attempts ih =>
    cases hinv : invertSmall (S.randomSmall rng).1 with
    | none =>
      rw [sampleInvertible_succ_of_none hinv] at hsample
      exact ih hsample
    | some inv =>
      rw [sampleInvertible_succ_of_some hinv] at hsample
      have hpair := congrArg Prod.fst (Except.ok.inj hsample)
      have hg_eq : (S.randomSmall rng).1 = g := congrArg Prod.fst hpair
      have hinv_eq : inv = ginv := congrArg Prod.snd hpair
      have hg : Ternary g.val := by
        rw [← hg_eq]
        exact ⟨(S.randomSmall rng).1.property, hS.randomSmall_abs_le rng⟩
      rw [hg_eq, hinv_eq] at hinv
      exact ⟨hg, invertSmall_spec hg hinv⟩

theorem sampleShort_spec (hS : S.Lawful) {attempts : Nat} {f : Coeffs}
    (hsample : sampleShort S attempts rng = .ok (f, rng')) :
    Ternary f.val ∧ weight f.val = w := by
  induction attempts generalizing rng with
  | zero =>
    rw [sampleShort] at hsample
    cases hsample
  | succ attempts ih =>
    rw [sampleShort] at hsample
    dsimp only at hsample
    cases hshort : (S.shortRandom rng).1 with
    | none =>
      rw [hshort] at hsample
      exact ih hsample
    | some short =>
      have hsmall := hS.shortRandom_abs_le rng short hshort
      rw [hshort] at hsample
      dsimp only at hsample
      rw [toI8_eq hsmall] at hsample
      split at hsample
      · next hweight =>
        have hf : short = f := congrArg Prod.fst (Except.ok.inj hsample)
        subst hf
        exact ⟨⟨short.property, hsmall⟩, hweight⟩
      · exact ih hsample

theorem keyFBytes_assembleKey (f ginv : Coeffs) (pk : FixedBytes 1158) (rho : FixedBytes 191)
    (cache : Bytes32) : keyFBytes (assembleKey f ginv pk rho cache) = smallBytes f := by
  unfold keyFBytes assembleKey
  exact arrayAt_flatten (i := 0) rfl rfl _

theorem keyGinvBytes_assembleKey (f ginv : Coeffs) (pk : FixedBytes 1158) (rho : FixedBytes 191)
    (cache : Bytes32) : keyGinvBytes (assembleKey f ginv pk rho cache) = smallBytes ginv := by
  unfold keyGinvBytes assembleKey
  exact arrayAt_flatten (i := 1) rfl (by simp) _

theorem publicKey_assembleKey (f ginv : Coeffs) (pk : FixedBytes 1158) (rho : FixedBytes 191)
    (cache : Bytes32) : publicKey (assembleKey f ginv pk rho cache) = pk := by
  unfold publicKey assembleKey
  exact arrayAt_flatten (i := 2) rfl (by simp) _

theorem keyCache_assembleKey (f ginv : Coeffs) (pk : FixedBytes 1158) (rho : FixedBytes 191)
    (cache : Bytes32) : keyCache (assembleKey f ginv pk rho cache) = cache := by
  unfold keyCache assembleKey
  exact arrayAt_flatten (i := 4) rfl (by simp) _

theorem map_freeze_eq {f : List Int} (h : ∀ c ∈ f, |c| ≤ 1) : f.map freeze = f := by
  have hself : ∀ c ∈ f, freeze c = c := by
    intro c hc
    have hsmall := abs_le.mp (h c hc)
    rw [freeze_eq ((h c hc).trans (by norm_num)), bmod_eq_sub]
    omega
  exact (List.map_congr_left hself).trans (List.map_id' f)

/-- The public key that an inverse of `3 * f` gives. -/
theorem scaledProduct_publicKey {f g finv : List Int} (hf : f.length = p) (hg : Ternary g)
    (hfinv : finv.length = p)
    (hmul : element q finv * element q f = AdjoinRoot.of _ ((-1530 : Int) : ZMod q)) :
    scaledProduct (rqMultR3 finv g) f = g := by
  apply eq_of_element_q_eq (length_scaledProduct _ _) hg.length_eq (abs_scaledProduct_le _ _)
    fun c hc => (hg.abs_le c hc).trans (by norm_num)
  have hthree : AdjoinRoot.of (trinomial (ZMod q) p) 3 *
      AdjoinRoot.of _ ((-1530 : Int) : ZMod q) = 1 := by
    rw [← map_mul, ← map_one (AdjoinRoot.of _)]
    congr 1
  rw [element_scaledProduct (length_rqMultR3 _ _) hf, element_rqMultR3 hfinv hg.length_eq]
  linear_combination (AdjoinRoot.of _ (3 : ZMod q) * element q g) * hmul + element q g * hthree

theorem generatedKey_assembleKey {f g ginv : Coeffs} {finv : List Int} (rho : FixedBytes 191)
    (hf : Ternary f.val) (hweight : weight f.val = w) (hg : Ternary g.val)
    (hginv : Ternary ginv.val) (hmul : element 3 ginv.val * element 3 g.val = 1)
    (hfinv : rqRecip (recip 3) (f.val.map freeze) = some finv) :
    let pk := publicKeyBytes finv g.val
    GeneratedKey sha512 (assembleKey f ginv pk rho (hashPkCache sha512 pk)) := by
  intro pk
  rw [map_freeze_eq hf.abs_le, recip_three] at hfinv
  obtain ⟨hlen, hsmall, hinv⟩ := rqRecip_eq_some hf.length_eq
    (fun c hc => (hf.abs_le c hc).trans (by norm_num)) (by norm_num) (by decide) hfinv
  have hkey_f : keyF (assembleKey f ginv pk rho (hashPkCache sha512 pk)) = f.val := by
    rw [keyF, keyFBytes_assembleKey]
    exact smallDecode_smallEncode hf
  have hkey_ginv : keyGinv (assembleKey f ginv pk rho (hashPkCache sha512 pk)) = ginv.val := by
    rw [keyGinv, keyGinvBytes_assembleKey]
    exact smallDecode_smallEncode hginv
  have hkey_h : rqDecode (publicKey (assembleKey f ginv pk rho (hashPkCache sha512 pk))).val =
      rqMultR3 finv g.val := by
    rw [publicKey_assembleKey]
    exact rqDecode_rqEncode (length_rqMultR3 _ _) (abs_rqMultR3_le _ _)
  have hkey_g : keyG (assembleKey f ginv pk rho (hashPkCache sha512 pk)) = g.val := by
    rw [keyG, hkey_h, hkey_f]
    exact scaledProduct_publicKey hf.length_eq hg hlen hinv
  refine ⟨?_, ?_, ?_, ?_, ?_, ?_, ?_, ?_, ?_, ?_⟩
  · rwa [hkey_f]
  · rwa [hkey_f]
  · rwa [hkey_g]
  · rwa [hkey_ginv]
  · rw [hkey_h, length_rqMultR3]
  · rewrite [hkey_ginv, hkey_g]
    exact hmul
  · rw [keyCache_assembleKey, publicKey_assembleKey]
  · rw [hkey_f, keyFBytes_assembleKey]
    rfl
  · rw [hkey_ginv, keyGinvBytes_assembleKey]
    rfl
  · rw [hkey_h, publicKey_assembleKey]
    rfl

theorem completeKey_spec {f g ginv : Coeffs} {key : FixedBytes 1763 × Rng} (hf : Ternary f.val)
    (hweight : weight f.val = w) (hg : Ternary g.val) (hginv : Ternary ginv.val)
    (hmul : element 3 ginv.val * element 3 g.val = 1)
    (hkey : completeKey sha512 S f g ginv rng = some key) : GeneratedKey sha512 key.1 := by
  unfold completeKey at hkey
  obtain ⟨finv, hfinv, rfl⟩ := Option.map_eq_some_iff.mp hkey
  exact generatedKey_assembleKey _ hf hweight hg hginv hmul hfinv

theorem generateLoop_spec (hS : S.Lawful) {attempts : Nat} {sk : FixedBytes 1763}
    (hgen : generateLoop sha512 S attempts rng = .ok (sk, rng')) : GeneratedKey sha512 sk := by
  induction attempts generalizing rng with
  | zero =>
    rw [generateLoop] at hgen
    cases hgen
  | succ attempts ih =>
    rw [generateLoop] at hgen
    obtain ⟨pair, hpair, hgen⟩ := Except.bind_eq_ok.mp hgen
    obtain ⟨short, hshort, hgen⟩ := Except.bind_eq_ok.mp hgen
    obtain ⟨hg, hginv, hmul⟩ := sampleInvertible_spec hS hpair
    obtain ⟨hf, hweight⟩ := sampleShort_spec hS hshort
    cases hkey : completeKey sha512 S short.1 pair.1.1 pair.1.2 short.2 with
    | none =>
      rw [hkey] at hgen
      exact ih hgen
    | some key =>
      have hspec := completeKey_spec hf hweight hg hginv hmul hkey
      rw [hkey] at hgen
      rwa [Except.ok.inj hgen] at hspec

/-- What `generate_from_rng` guarantees. -/
theorem generateFromRng_spec (hS : S.Lawful) {sk : FixedBytes 1763}
    (hgen : generateFromRng sha512 S rng = .ok (sk, rng')) : GeneratedKey sha512 sk :=
  generateLoop_spec hS hgen

end Generate

/-! ## Decryption -/

/-- The rounding error `Round(h * r) - h * r`. -/
def roundingError (h r : List Int) : List Int :=
  (rqMultR3 h r).map fun c => roundCoeff c - c

/-- `g * r + 3 * f * e`, as integers. -/
def noise (f g h r : List Int) : List Int :=
  List.zipWith (· + ·) (ringProduct g r) ((ringProduct (roundingError h r) f).map (3 * ·))

theorem ternary_roundingError (h r : List Int) : Ternary (roundingError h r) where
  length_eq := by rw [roundingError, List.length_map, length_rqMultR3]
  abs_le := by
    intro e he
    obtain ⟨c, hc, rfl⟩ := List.mem_map.mp he
    exact abs_roundCoeff_sub_le (abs_rqMultR3_le h r c hc)

@[simp] theorem length_noise (f g h r : List Int) : (noise f g h r).length = p := by
  rw [noise, List.length_zipWith, length_ringProduct, List.length_map, length_ringProduct,
    Nat.min_self]

theorem length_roundRq (h r : List Int) : (roundRq (rqMultR3 h r)).length = p := by
  rw [roundRq, List.length_map, length_rqMultR3]

theorem roundRq_eq (h r : List Int) :
    roundRq (rqMultR3 h r) = List.zipWith (· + ·) (rqMultR3 h r) (roundingError h r) := by
  rw [roundRq, roundingError, List.zipWith_map_right, List.zipWith_self]
  apply List.map_congr_left
  intro c _
  ring

theorem element_roundRq {n : Nat} (h r : List Int) :
    element n (roundRq (rqMultR3 h r)) =
      element n (rqMultR3 h r) + element n (roundingError h r) := by
  rw [roundRq_eq, element_add (by rw [length_rqMultR3, (ternary_roundingError h r).length_eq])]

theorem element_noise {n : Nat} (hf : f.length = p) (hg : g.length = p) (hr : r.length = p) :
    element n (noise f g h r) = element n g * element n r +
      AdjoinRoot.of _ ((3 : Int) : ZMod n) * (element n (roundingError h r) * element n f) := by
  rw [noise, element_add (by rw [length_ringProduct, List.length_map, length_ringProduct]),
    element_ringProduct hg hr, element_map_mul,
    element_ringProduct (ternary_roundingError h r).length_eq hf]

/-- The bound on the coefficients. -/
theorem abs_noise_le (hf : Ternary f) (hg : Ternary g) (hr : Ternary r) :
    ∀ c ∈ noise f g h r, |c| ≤ 2 * weight r + 6 * weight f := by
  intro c hc
  obtain ⟨i, hi, rfl⟩ := List.getElem_of_mem hc
  have hfirst := hg.abs_ringProduct_le hr _ (List.getElem_mem (l := ringProduct g r) (n := i)
    (by rw [length_ringProduct]; rwa [length_noise] at hi))
  have hsecond := (ternary_roundingError h r).abs_ringProduct_le hf _
    (List.getElem_mem (l := ringProduct (roundingError h r) f) (n := i)
      (by rw [length_ringProduct]; rwa [length_noise] at hi))
  simp only [noise, List.getElem_zipWith, List.getElem_map]
  rw [abs_le] at hfirst hsecond ⊢
  omega

/-- Decryption starts with the noise, up to a multiple of `q`. -/
theorem element_scaledProduct_roundRq (hf : f.length = p) (hg : g.length = p) (hr : r.length = p)
    (hh : h.length = p) (hkey : scaledProduct h f = g) :
    element q (scaledProduct (roundRq (rqMultR3 h r)) f) = element q (noise f g h r) := by
  have hgfh := element_scaledProduct hh hf
  rw [hkey] at hgfh
  rw [element_scaledProduct (length_roundRq h r) hf, element_roundRq, element_rqMultR3 hh hr,
    element_noise hf hg hr, hgfh]
  push_cast
  ring

/-- It is the noise exactly when that is small. -/
theorem scaledProduct_eq_noise_iff (hf : f.length = p) (hg : g.length = p) (hr : r.length = p)
    (hh : h.length = p) (hkey : scaledProduct h f = g) :
    scaledProduct (roundRq (rqMultR3 h r)) f = noise f g h r ↔
      ∀ c ∈ noise f g h r, |c| ≤ 2295 := by
  constructor
  · intro heq c hc
    rw [← heq] at hc
    exact abs_scaledProduct_le _ _ c hc
  · intro hsmall
    exact eq_of_element_q_eq (length_scaledProduct _ _) (length_noise _ _ _ _)
      (abs_scaledProduct_le _ _) hsmall (element_scaledProduct_roundRq hf hg hr hh hkey)

/-- The difference of two lists with one element modulo `n`. -/
theorem dvd_sub_of_element_eq {n : Nat} [Nontrivial (ZMod n)] (ha : a.length = p)
    (hb : b.length = p) (heq : element n a = element n b) {i : Nat} (hia : i < a.length)
    (hib : i < b.length) : (n : Int) ∣ b[i] - a[i] := by
  have hmap := map_cast_eq_of_element_eq ha hb heq
  apply (ZMod.intCast_eq_intCast_iff_dvd_sub _ _ n).mp
  have hget := List.getElem_of_eq hmap (i := i) (by rwa [List.length_map])
  rw [List.getElem_map, List.getElem_map] at hget
  exact hget

/-- Numbers that agree modulo `q` and modulo 3 are equal, if they are close. -/
theorem eq_of_dvd_sub {m n : Int} (hq : ((q : Nat) : Int) ∣ n - m)
    (hthree : ((3 : Nat) : Int) ∣ n - m) (hclose : |n - m| < 3 * q) : m = n := by
  have hcoprime : IsCoprime ((3 : Nat) : Int) ((q : Nat) : Int) :=
    Nat.isCoprime_iff_coprime.mpr (by decide)
  have hzero := Int.eq_zero_of_abs_lt_dvd (hcoprime.mul_dvd hthree hq) hclose
  exact (Int.sub_eq_zero.mp hzero).symm

/-- Modulo 3 the noise is `g * r`. -/
theorem element_three_noise (hf : f.length = p) (hg : g.length = p) (hr : r.length = p) :
    element 3 (noise f g h r) = element 3 g * element 3 r := by
  have hthree : ((3 : Int) : ZMod 3) = 0 := by decide
  rw [element_noise hf hg hr, hthree, map_zero, zero_mul, add_zero]

theorem element_decryptBody (hginv : ginv.length = p) (c f : List Int) :
    element 3 (decryptBody c f ginv).val = element 3 (scaledProduct c f) * element 3 ginv := by
  unfold decryptBody
  rw [element_r3MultR3 (by rw [List.length_map, length_scaledProduct]) hginv,
    element_map fun x => by rw [residueThree_eq, cast_bmod]]

/-- A ciphertext of `r` decrypts to `r` exactly when the noise is small. -/
theorem decryptBody_eq_iff (hf : Ternary f) (hg : Ternary g) (hr : Ternary r)
    (hginv : Ternary ginv) (hh : h.length = p) (hkey : scaledProduct h f = g)
    (hinv : element 3 ginv * element 3 g = 1) (hweight : weight f = w) :
    (decryptBody (roundRq (rqMultR3 h r)) f ginv).val = r ↔ ∀ c ∈ noise f g h r, |c| ≤ 2295 := by
  have hthree := element_three_noise (h := h) hf.length_eq hg.length_eq hr.length_eq
  have hiff := scaledProduct_eq_noise_iff hf.length_eq hg.length_eq hr.length_eq hh hkey
  have hdecrypt := element_decryptBody hginv.length_eq (roundRq (rqMultR3 h r)) f
  constructor
  · intro heq
    rw [← hiff]
    -- Both are `g * r` modulo 3, and they differ by less than `2 * q`.
    have hmod : element 3 (scaledProduct (roundRq (rqMultR3 h r)) f) =
        element 3 (noise f g h r) := by
      rw [heq] at hdecrypt
      rw [hthree, hdecrypt]
      linear_combination (-element 3 (scaledProduct (roundRq (rqMultR3 h r)) f)) * hinv
    have hq := element_scaledProduct_roundRq hf.length_eq hg.length_eq hr.length_eq hh hkey
    apply List.ext_getElem (by rw [length_scaledProduct, length_noise])
    intro i hi hi'
    have hdvd3 := dvd_sub_of_element_eq (length_scaledProduct _ _) (length_noise _ _ _ _) hmod
      hi hi'
    have hdvdq := dvd_sub_of_element_eq (length_scaledProduct _ _) (length_noise _ _ _ _) hq
      hi hi'
    have hbound := abs_noise_le (h := h) hf hg hr _ (List.getElem_mem hi')
    have hcentred := abs_scaledProduct_le _ f _ (List.getElem_mem hi)
    have hlen : weight r ≤ p := hr.length_eq ▸ List.countP_le_length
    rw [hweight] at hbound
    apply eq_of_dvd_sub hdvdq hdvd3
    have hdiff := (abs_sub _ _).trans (add_le_add hbound hcentred)
    refine hdiff.trans_lt ?_
    have hp : p = 761 := rfl
    have hw : w = 286 := rfl
    have hq : (q : Int) = 4591 := rfl
    omega
  · intro hsmall
    rw [hiff.mpr hsmall, hthree] at hdecrypt
    apply eq_of_element_three_eq (decryptBody _ _ _).property hr.length_eq
      (abs_r3MultR3_le _ _) hr.abs_le
    rw [hdecrypt]
    linear_combination element 3 r * hinv

end Trelis.Sntrup
