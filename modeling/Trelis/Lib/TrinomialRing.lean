import Mathlib.Algebra.Order.Ring.Abs
import Mathlib.RingTheory.AdjoinRoot
import Mathlib.Tactic.ComputeDegree
import Trelis.Lib.CoeffList

/-!
# The ring of polynomials modulo `X^p - X - 1`

The ring that NTRU Prime works in, over any commutative ring of coefficients
and for any `p`.  `residue` is the element that a coefficient list stands for.
A list of length `p` is determined by its residue (`residue_inj`), so that an
identity between such lists is proved as an identity of the ring.

`foldCoeff` is a coefficient of the reduction.  The reduction adds a coefficient
of high degree to two others; `abs_foldCoeff_mul_le` is the bound on a product
that follows.
-/

namespace Trelis

open Polynomial

variable {R : Type} [CommRing R] {p : Nat}

/-- `X^p - X - 1`. -/
noncomputable def trinomial (R : Type) [CommRing R] (p : Nat) : R[X] := X ^ p - (X + 1)

theorem degree_X_add_one_lt (hp : 2 ≤ p) : (X + 1 : R[X]).degree < (p : WithBot Nat) := by
  have h : (X + 1 : R[X]).degree ≤ 1 := by
    compute_degree
  exact h.trans_lt (by exact_mod_cast hp)

theorem trinomial_monic (hp : 2 ≤ p) : (trinomial R p).Monic :=
  monic_X_pow_sub (degree_X_add_one_lt hp)

theorem degree_trinomial [Nontrivial R] (hp : 2 ≤ p) : (trinomial R p).degree = p := by
  rw [trinomial, degree_sub_eq_left_of_degree_lt, degree_X_pow]
  rw [degree_X_pow]
  exact degree_X_add_one_lt hp

theorem natDegree_trinomial [Nontrivial R] (hp : 2 ≤ p) : (trinomial R p).natDegree = p :=
  natDegree_eq_of_degree_eq_some (degree_trinomial hp)

theorem coeff_zero_trinomial (hp : 2 ≤ p) : (trinomial R p).coeff 0 = -1 := by
  rw [trinomial, coeff_sub, coeff_X_pow, if_neg (by omega), coeff_add, coeff_X_zero, coeff_one_zero]
  ring

/-- The element of the ring that a coefficient list stands for. -/
noncomputable def residue (p : Nat) (a : List R) : AdjoinRoot (trinomial R p) :=
  AdjoinRoot.mk _ (ofCoeffs a)

/-- A list of length `p` is determined by its residue. -/
theorem residue_inj [Nontrivial R] (hp : 2 ≤ p) {a b : List R} (ha : a.length = p)
    (hb : b.length = p) (h : residue p a = residue p b) : a = b := by
  apply ofCoeffs_inj (ha.trans hb.symm)
  apply sub_eq_zero.mp
  by_contra hne
  apply (trinomial_monic hp).not_dvd_of_degree_lt hne _ (AdjoinRoot.mk_eq_mk.mp h)
  rw [degree_trinomial hp]
  refine lt_of_le_of_lt (degree_sub_le _ _) (max_lt ?_ ?_)
  · rw [← ha]
    exact degree_ofCoeffs_lt a
  · rw [← hb]
    exact degree_ofCoeffs_lt b

/-! ## Coefficients of the reduction -/

/-- A coefficient of the reduction of a polynomial of degree below `2 * p - 1`. -/
def foldCoeff (p k : Nat) (a : R[X]) : R :=
  a.coeff k + a.coeff (p + k) + if k = 0 then 0 else a.coeff (p + k - 1)

theorem foldCoeff_add (k : Nat) (a b : R[X]) :
    foldCoeff p k (a + b) = foldCoeff p k a + foldCoeff p k b := by
  simp only [foldCoeff, coeff_add]
  split <;> ring

theorem foldCoeff_C_mul (k : Nat) (c : R) (a : R[X]) :
    foldCoeff p k (C c * a) = c * foldCoeff p k a := by
  simp only [foldCoeff, coeff_C_mul]
  split <;> ring

/-- A quotient and a remainder by the trinomial. -/
theorem coeff_of_eq_add {a b d : R[X]} {k : Nat} (hk : k < p)
    (h : a = b + trinomial R p * d) (hb : b.natDegree < p) (hd : d.natDegree + 1 < p) :
    b.coeff k = foldCoeff p k a := by
  have hexpand : a = b + X ^ p * d - X * d - d := by
    rw [h, trinomial]
    ring
  have hhigh : ∀ i, p ≤ i → b.coeff i = 0 := fun i hi =>
    coeff_eq_zero_of_natDegree_lt (by omega)
  have hcoeff : ∀ i, p ≤ i + 1 → d.coeff i = 0 := fun i hi =>
    coeff_eq_zero_of_natDegree_lt (by omega)
  have hX : ∀ i, p ≤ i → (X * d).coeff i = 0 := fun i hi => by
    obtain ⟨j, rfl⟩ : ∃ j, i = j + 1 := ⟨i - 1, by omega⟩
    rw [coeff_X_mul]
    exact hcoeff j hi
  have hupper : ∀ i, a.coeff (p + i) = d.coeff i := fun i => by
    rw [hexpand, coeff_sub, coeff_sub, coeff_add, hhigh _ (by omega), hX _ (by omega),
      hcoeff (p + i) (by omega), Nat.add_comm p i, coeff_X_pow_mul]
    ring
  have hlower : a.coeff k = b.coeff k - (X * d).coeff k - d.coeff k := by
    rw [hexpand, coeff_sub, coeff_sub, coeff_add, coeff_X_pow_mul', if_neg (by omega)]
    ring
  rw [foldCoeff, hupper, hlower]
  cases k with
  | zero =>
    rw [if_pos rfl, coeff_X_mul_zero]
    ring
  | succ k =>
    rw [if_neg (Nat.succ_ne_zero k), show p + (k + 1) - 1 = p + k by omega, hupper, coeff_X_mul]
    ring

/-! ## The bound on a product -/

/-- A shift moves at most two coefficients to one place. -/
theorem abs_foldCoeff_shift_le {a : List Int} {A : Int} (ha : ∀ c ∈ a, |c| ≤ A)
    (hlen : a.length = p) {k off : Nat} (hk : k < p) (hoff : off < p) :
    |foldCoeff p k (X ^ off * ofCoeffs a)| ≤ 2 * A := by
  have hA : 0 ≤ A := by
    obtain ⟨c, hc⟩ := List.exists_mem_of_length_pos (show 0 < a.length by omega)
    exact (abs_nonneg c).trans (ha c hc)
  have hcoeff : ∀ i, |(ofCoeffs a).coeff i| ≤ A := fun i => by
    rw [coeff_ofCoeffs]
    by_cases hi : i < a.length
    · rw [List.getD_eq_getElem _ _ hi]
      exact ha _ (List.getElem_mem hi)
    · rw [List.getD_eq_default _ _ (by omega), abs_zero]
      exact hA
  have htwo : ∀ i j, |(ofCoeffs a).coeff i + (ofCoeffs a).coeff j| ≤ 2 * A := fun i j =>
    (abs_add_le _ _).trans (by linarith [hcoeff i, hcoeff j])
  have hone : ∀ i, |(ofCoeffs a).coeff i| ≤ 2 * A := fun i => (hcoeff i).trans (by linarith)
  have hout : ∀ i, p ≤ i → (ofCoeffs a).coeff i = 0 := fun i hi =>
    coeff_ofCoeffs_of_le (by omega)
  simp only [foldCoeff, coeff_X_pow_mul']
  by_cases hlt : k < off
  · -- Only the two places above are reached.
    rw [if_neg (show ¬ off ≤ k by omega), if_pos (show off ≤ p + k by omega), zero_add]
    by_cases hzero : k = 0
    · rw [if_pos hzero, add_zero]
      exact hone _
    · rw [if_neg hzero, if_pos (show off ≤ p + k - 1 by omega)]
      exact htwo _ _
  · rw [if_pos (show off ≤ k by omega), if_pos (show off ≤ p + k by omega),
      hout (p + k - off) (by omega), add_zero]
    by_cases hzero : k = 0
    · rw [if_pos hzero, add_zero]
      exact hone _
    · rw [if_neg hzero, if_pos (show off ≤ p + k - 1 by omega)]
      exact htwo _ _

/-- The sum of the absolute values. -/
def sumAbs (b : List Int) : Int := (b.map (|·|)).sum

theorem sumAbs_cons (c : Int) (b : List Int) : sumAbs (c :: b) = |c| + sumAbs b := by
  rw [sumAbs, List.map_cons, List.sum_cons, sumAbs]

theorem abs_foldCoeff_shift_mul_le (off : Nat) {a b : List Int} {A : Int}
    (ha : ∀ c ∈ a, |c| ≤ A) (hlen : a.length = p) {k : Nat} (hk : k < p) (hb : off + b.length ≤ p) :
    |foldCoeff p k (X ^ off * (ofCoeffs b * ofCoeffs a))| ≤ 2 * A * sumAbs b := by
  induction b generalizing off with
  | nil => simp [foldCoeff, sumAbs]
  | cons c b ih =>
    rw [List.length_cons] at hb
    have hsplit : X ^ off * (ofCoeffs (c :: b) * ofCoeffs a) =
        C c * (X ^ off * ofCoeffs a) + X ^ (off + 1) * (ofCoeffs b * ofCoeffs a) := by
      rw [ofCoeffs_cons]
      ring
    have hfirst := abs_foldCoeff_shift_le ha hlen hk (show off < p by omega)
    have hrest := ih (off + 1) (show off + 1 + b.length ≤ p by omega)
    rw [hsplit, foldCoeff_add, foldCoeff_C_mul, sumAbs_cons]
    calc |c * foldCoeff p k (X ^ off * ofCoeffs a) +
          foldCoeff p k (X ^ (off + 1) * (ofCoeffs b * ofCoeffs a))|
        ≤ |c| * |foldCoeff p k (X ^ off * ofCoeffs a)| + 2 * A * sumAbs b := by
          rw [← abs_mul]
          exact (abs_add_le _ _).trans (by linarith)
      _ ≤ |c| * (2 * A) + 2 * A * sumAbs b := by
          have := mul_le_mul_of_nonneg_left hfirst (abs_nonneg c)
          linarith
      _ = 2 * A * (|c| + sumAbs b) := by ring

/-- The reduction at most doubles what a product can reach. -/
theorem abs_foldCoeff_mul_le {a b : List Int} {A : Int} (ha : ∀ c ∈ a, |c| ≤ A)
    (hlen : a.length = p) (hb : b.length = p) {k : Nat} (hk : k < p) :
    |foldCoeff p k (ofCoeffs b * ofCoeffs a)| ≤ 2 * A * sumAbs b := by
  have h := abs_foldCoeff_shift_mul_le 0 ha hlen hk (show 0 + b.length ≤ p by omega)
  rwa [pow_zero, one_mul] at h

end Trelis
