import Trelis.Lib.FastTransform
import Trelis.MlDsa.Poly

/-!
# The transform of ML-DSA

`ntt` and `ntt_inverse` of `mldsa_core/ntt.rs`: eight layers of butterflies in place,
with the powers of `ZETA` in a table in bit-reversed order.

* The table holds square roots of square roots of `-1` (`squareRoots_zetaPowBitrev`),
  so that `ntt` evaluates a polynomial at the 256 roots of `X ^ 256 + 1`
  (`ntt_eq_eval`).
* Read backwards it holds the inverses of its entries
  (`mirrorInverse_zetaPowBitrev`), so that `ntt_inverse` undoes `ntt`, and `nttEquiv`
  is an isomorphism of additive groups.
* A product in the NTT domain is a combination of negacyclic shifts
  (`nttInverse_mul_eq_sum`), which bounds its norm (`infinityNorm_nttInverse_mul_le`).
-/

namespace Trelis.MlDsa

open Butterfly

/-- `ZETA`. -/
def zeta : Elem := Elem.new 1753

/-- The powers of `ZETA`: the array `pow`. -/
def zetaPow : Nat → Nat
  | 0 => 1
  | i + 1 => zetaPow i * 1753 % q

/-- `ZETA_POW_BITREV`. -/
def zetaPowBitrev (m : Nat) : Elem :=
  if m = 0 then Elem.new 0 else Elem.new (zetaPow (bitReverse 8 m))

/-- `ntt`. -/
def ntt (f : Polynomial) : NttPolynomial := fun i =>
  ([128, 64, 32, 16, 8, 4, 2, 1].foldl
    (layer 256 (fun m => forward (zetaPowBitrev m)) (· + 1)) (Polynomial.coeff f, 0)).1 i.val

/-- `INVERSE_256`. -/
def inverse256 : Elem := Elem.new 8347681

/-- `ntt_inverse`. -/
def nttInverse (f : NttPolynomial) : Polynomial := fun i =>
  inverse256 * ([1, 2, 4, 8, 16, 32, 64, 128].foldl
    (layer 256 (fun m => backward (-zetaPowBitrev m)) (· - 1)) (Polynomial.coeff f, 256)).1 i.val

/-! ## The table -/

theorem new_zetaPow (i : Nat) : Elem.new (zetaPow i) = zeta ^ i := by
  induction i with
  | zero => exact (Elem.new_eq_natCast 1).trans (Nat.cast_one.trans (pow_zero _).symm)
  | succ i ih =>
    have hmod : Elem.new (zetaPow i * 1753 % q) = Elem.new (zetaPow i * 1753) := by
      ext
      rw [Elem.val_new, Elem.val_new, Nat.mod_mod]
    rw [zetaPow, hmod, pow_succ, ← ih, zeta, Elem.new_eq_natCast, Elem.new_eq_natCast,
      Elem.new_eq_natCast, Nat.cast_mul]

theorem zetaPowBitrev_eq {m : Nat} (hm : m ≠ 0) : zetaPowBitrev m = zeta ^ bitReverse 8 m := by
  rw [zetaPowBitrev, if_neg hm, new_zetaPow]

theorem zeta_pow_256 : zeta ^ 256 = -1 := by
  rw [← new_zetaPow]
  decide +kernel

/-- Bit reversal of an index and of its mirror image. -/
theorem bitReverse_mirror : ∀ s < 8, ∀ b < 2 ^ s,
    bitReverse 8 (2 ^ (s + 1) - 1 - b) + bitReverse 8 (2 ^ s + b) = 256 := by
  decide +kernel

/-- Bit reversal of the index of a block and of that of the block it is a half of. -/
theorem bitReverse_half : ∀ s < 7, ∀ b < 2 ^ (s + 1), 2 * bitReverse 8 (2 ^ (s + 1) + b) =
    bitReverse 8 (2 ^ s + b / 2) + 256 * (b % 2) := by
  decide +kernel

theorem mirrorInverse_zetaPowBitrev :
    MirrorInverse zetaPowBitrev (fun m => -zetaPowBitrev m) 8 := by
  intro s hs b hb
  have hpos := Nat.two_pow_pos s
  show -zetaPowBitrev (2 ^ (s + 1) - 1 - b) * zetaPowBitrev (2 ^ s + b) = 1
  rw [zetaPowBitrev_eq (by rw [pow_succ]; omega), zetaPowBitrev_eq (by omega), neg_mul, ← pow_add,
    bitReverse_mirror s hs b hb, zeta_pow_256, neg_neg]

theorem squareRoots_zetaPowBitrev : SquareRoots (-1) zetaPowBitrev 8 := by
  intro s hs b hb
  have hpos := Nat.two_pow_pos s
  rw [zetaPowBitrev_eq (by omega), ← pow_mul, Nat.mul_comm]
  cases s with
  | zero =>
    obtain rfl : b = 0 := by simpa using hb
    exact zeta_pow_256
  | succ s =>
    have hpos' := Nat.two_pow_pos s
    rw [bitReverse_half s (by omega) b hb, leafRoot, zetaPowBitrev_eq (by omega), pow_add]
    by_cases heven : b % 2 = 0
    · rw [if_pos heven, heven, Nat.mul_zero, pow_zero, mul_one]
    · rw [if_neg heven, show b % 2 = 1 by omega, Nat.mul_one, zeta_pow_256, mul_neg_one]

/-! ## Evaluation -/

theorem ntt_eq_forwardNet (f : Polynomial) (i : Fin 256) :
    ntt f i = forwardNet zetaPowBitrev 8 (Polynomial.coeff f) i.val := by
  have hlens : [128, 64, 32, 16, 8, 4, 2, 1] = (List.range 8).map fun r => 2 ^ (8 - 1 - r) := by
    decide
  rw [ntt, hlens, List.foldl_map]
  rfl

theorem nttInverse_eq_backwardNet (f : NttPolynomial) (i : Fin 256) :
    nttInverse f i =
      inverse256 * backwardNet (fun m => -zetaPowBitrev m) 8 (Polynomial.coeff f) i.val := by
  have hlens : [1, 2, 4, 8, 16, 32, 64, 128] = (List.range 8).map fun r => 2 ^ r := by
    decide
  rw [nttInverse, hlens, List.foldl_map]
  rfl

/-- The point at which an entry of the transform evaluates. -/
def point (k : Fin 256) : Elem := leafRoot (-1) zetaPowBitrev 8 k.val

theorem point_pow_256 (k : Fin 256) : point k ^ 256 = -1 :=
  squareRoots_zetaPowBitrev.leafRoot_pow (Nat.le_refl 8) k.isLt

theorem ntt_eq_sum_range (f : Polynomial) (k : Fin 256) :
    ntt f k = ∑ t ∈ Finset.range 256, Polynomial.coeff f t * point k ^ t := by
  rw [ntt_eq_forwardNet, forwardNet_eq_eval squareRoots_zetaPowBitrev _ k.isLt]
  rfl

/-- `ntt` evaluates the polynomial at the roots of `X ^ 256 + 1`. -/
theorem ntt_eq_eval (f : Polynomial) (k : Fin 256) :
    ntt f k = ∑ i : Fin 256, f i * point k ^ i.val := by
  rw [ntt_eq_sum_range, Finset.sum_range]
  simp only [Polynomial.coeff_val]

theorem ntt_add (f g : Polynomial) : ntt (f + g) = ntt f + ntt g := by
  funext k
  simp only [Pi.add_apply, ntt_eq_eval, add_mul, Finset.sum_add_distrib]

theorem ntt_smul (c : Elem) (f : Polynomial) : ntt (c • f) = c • ntt f := by
  funext k
  simp only [Pi.smul_apply, smul_eq_mul, ntt_eq_eval, mul_assoc, Finset.mul_sum]

/-! ## Inversion -/

theorem inverse256_mul : inverse256 * 2 ^ 8 = 1 := by decide +kernel

theorem nttInverse_ntt (f : Polynomial) : nttInverse (ntt f) = f := by
  funext i
  have hin : ∀ j < 2 ^ 8, Polynomial.coeff (ntt f) j =
      forwardNet zetaPowBitrev 8 (Polynomial.coeff f) j := by
    intro j hj
    rw [Polynomial.coeff_of_lt _ hj, ntt_eq_forwardNet]
  rw [nttInverse_eq_backwardNet, backwardNet_congr _ hin i.val i.isLt,
    backwardNet_forwardNet mirrorInverse_zetaPowBitrev _ i.val i.isLt, Polynomial.coeff_val,
    ← mul_assoc, inverse256_mul, one_mul]

theorem ntt_nttInverse (f : NttPolynomial) : ntt (nttInverse f) = f := by
  funext i
  -- The transform of the inverse network, without the last factor.
  have hnet : ntt (fun j : Fin 256 =>
      backwardNet (fun m => -zetaPowBitrev m) 8 (Polynomial.coeff f) j.val) i = 2 ^ 8 * f i := by
    rw [← Polynomial.coeff_val f,
      ← forwardNet_backwardNet mirrorInverse_zetaPowBitrev _ i.val i.isLt,
      forwardNet_eq_eval squareRoots_zetaPowBitrev _ i.isLt, Finset.sum_range, ntt_eq_eval]
    rfl
  have hsmul : nttInverse f = inverse256 • fun j : Fin 256 =>
      backwardNet (fun m => -zetaPowBitrev m) 8 (Polynomial.coeff f) j.val := by
    funext j
    rw [nttInverse_eq_backwardNet]
    rfl
  rw [hsmul, ntt_smul, Pi.smul_apply, smul_eq_mul, hnet, ← mul_assoc, inverse256_mul, one_mul]

/-- The transform as an isomorphism. -/
def nttEquiv : Polynomial ≃+ NttPolynomial where
  toFun := ntt
  invFun := nttInverse
  left_inv := nttInverse_ntt
  right_inv := ntt_nttInverse
  map_add' := ntt_add

theorem nttInverse_add (f g : NttPolynomial) :
    nttInverse (f + g) = nttInverse f + nttInverse g :=
  nttEquiv.symm.map_add f g

theorem nttInverse_sub (f g : NttPolynomial) :
    nttInverse (f - g) = nttInverse f - nttInverse g :=
  nttEquiv.symm.map_sub f g

theorem nttInverse_zero : nttInverse 0 = 0 := by
  change nttEquiv.symm 0 = 0
  exact map_zero nttEquiv.symm

theorem ntt_zero : ntt 0 = 0 := by
  change nttEquiv 0 = 0
  exact map_zero nttEquiv

/-! ## Products -/

/-- The product of a polynomial and `X`, modulo `X ^ 256 + 1`. -/
def shift (f : Polynomial) : Polynomial := fun i =>
  if i.val = 0 then -Polynomial.coeff f 255 else Polynomial.coeff f (i.val - 1)

theorem ntt_shift (f : Polynomial) (k : Fin 256) : ntt (shift f) k = point k * ntt f k := by
  have hrest : ∀ t < 255, Polynomial.coeff (shift f) (t + 1) = Polynomial.coeff f t := by
    intro t ht
    rw [Polynomial.coeff_of_lt _ (show t + 1 < 256 by omega)]
    rfl
  have hfirst : Polynomial.coeff (shift f) 0 = -Polynomial.coeff f 255 := rfl
  have heval := eval_shift (n := 255) (point_pow_256 k) hfirst hrest
  rw [ntt_eq_sum_range, ntt_eq_sum_range]
  exact heval

theorem ntt_shift_iterate (f : Polynomial) (n : Nat) (k : Fin 256) :
    ntt (shift^[n] f) k = point k ^ n * ntt f k := by
  induction n with
  | zero => rw [pow_zero, one_mul, Function.iterate_zero_apply]
  | succ n ih => rw [Function.iterate_succ_apply', ntt_shift, ih, pow_succ', mul_assoc]

/-- A product in the NTT domain is that of polynomials modulo `X ^ 256 + 1`. -/
theorem nttInverse_mul_eq_sum (c f : Polynomial) :
    nttInverse (ntt c * ntt f) = ∑ i : Fin 256, c i • shift^[i.val] f := by
  apply nttEquiv.symm_apply_eq.mpr
  funext k
  rw [map_sum, Finset.sum_apply, Pi.mul_apply, ntt_eq_eval c, Finset.sum_mul]
  apply Finset.sum_congr rfl
  intro i _
  show c i * point k ^ i.val * ntt f k = ntt (c i • shift^[i.val] f) k
  rw [ntt_smul, Pi.smul_apply, smul_eq_mul, ntt_shift_iterate, mul_assoc]

/-- The sum of the norms of the coefficients. -/
def weight (c : Polynomial) : Nat := ∑ i, (c i).infinityNorm

theorem infinityNorm_shift_le {f : Polynomial} {b : Nat} (hf : ∀ i, (f i).infinityNorm ≤ b)
    (i : Fin 256) : (shift f i).infinityNorm ≤ b := by
  have hcoeff : ∀ n < 256, (Polynomial.coeff f n).infinityNorm ≤ b := by
    intro n hn
    rw [Polynomial.coeff_of_lt f hn]
    exact hf _
  unfold shift
  split
  · rw [Elem.infinityNorm_neg]
    exact hcoeff 255 (by decide)
  · exact hcoeff _ (by omega)

/-- The coefficients of a product are bounded by the weight of one factor and the norm of
the other. -/
theorem infinityNorm_nttInverse_mul_le {c f : Polynomial} {b : Nat}
    (hf : ∀ i, (f i).infinityNorm ≤ b) (i : Fin 256) :
    (nttInverse (ntt c * ntt f) i).infinityNorm ≤ weight c * b := by
  have hshift : ∀ n i, (shift^[n] f i).infinityNorm ≤ b := by
    intro n
    induction n with
    | zero => exact hf
    | succ n ih =>
      intro i
      rw [Function.iterate_succ_apply']
      exact infinityNorm_shift_le ih i
  rw [nttInverse_mul_eq_sum, Finset.sum_apply, weight, Finset.sum_mul]
  refine (Finset.le_sum_of_subadditive Elem.infinityNorm Elem.infinityNorm_zero.le
    Elem.infinityNorm_add_le _ _).trans (Finset.sum_le_sum ?_)
  intro j _
  exact (Elem.infinityNorm_mul_le _ _).trans (Nat.mul_le_mul_left _ (hshift j.val i))

end Trelis.MlDsa
