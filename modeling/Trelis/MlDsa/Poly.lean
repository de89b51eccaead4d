import Mathlib.Algebra.BigOperators.Fin
import Mathlib.Data.Finset.Lattice.Fold
import Trelis.MlDsa.Rounding

/-!
# Polynomials and vectors of ML-DSA

`Polynomial`, `Vector` and their counterparts in the NTT domain, with the
operations that `AlgebraExt` gives them coefficient by coefficient.

An array of 256 coefficients is a function on `Fin 256`, and the sums, differences
and multiples of the source are the pointwise ones of functions.  The product of
`Polynomial`s is not one of them: only elements of the NTT domain are multiplied.
-/

namespace Trelis.MlDsa

/-- `Polynomial`: 256 coefficients. -/
abbrev Polynomial := Fin 256 → Elem

/-- `NttPolynomial`: 256 values. -/
abbrev NttPolynomial := Fin 256 → Elem

/-- `Vector`: `k` polynomials. -/
abbrev Vector (k : Nat) := Fin k → Polynomial

/-- `NttVector`. -/
abbrev NttVector (k : Nat) := Fin k → NttPolynomial

/-- `NttMatrix`: `k` rows of `l` columns. -/
abbrev NttMatrix (k l : Nat) := Fin k → NttVector l

namespace Polynomial

/-- The coefficient number `n` of the array. -/
def coeff (f : Polynomial) (n : Nat) : Elem := if h : n < 256 then f ⟨n, h⟩ else 0

theorem coeff_of_lt (f : Polynomial) {n : Nat} (h : n < 256) : coeff f n = f ⟨n, h⟩ := dif_pos h

theorem coeff_val (f : Polynomial) (i : Fin 256) : coeff f i.val = f i := coeff_of_lt f i.isLt

/-- `mod_plus_minus` of the coefficients. -/
def modPlusMinus (m : Nat) (f : Polynomial) : Polynomial := fun i => (f i).modPlusMinus m

/-- `infinity_norm`: the largest of the norms of the coefficients. -/
def infinityNorm (f : Polynomial) : Nat := Finset.univ.sup fun i => (f i).infinityNorm

/-- `power2round` of the coefficients. -/
def power2round (f : Polynomial) : Polynomial × Polynomial :=
  (fun i => (f i).power2round.1, fun i => (f i).power2round.2)

/-- `high_bits` of the coefficients. -/
def highBits (twoGamma2 : Nat) (f : Polynomial) : Polynomial := fun i => (f i).highBits twoGamma2

/-- `low_bits` of the coefficients. -/
def lowBits (twoGamma2 : Nat) (f : Polynomial) : Polynomial := fun i => (f i).lowBits twoGamma2

end Polynomial

namespace Vector

variable {k l : Nat}

/-- `mod_plus_minus` of the polynomials. -/
def modPlusMinus (m : Nat) (v : Vector k) : Vector k := fun i => Polynomial.modPlusMinus m (v i)

/-- `infinity_norm`: the largest of the norms of the polynomials. -/
def infinityNorm (v : Vector k) : Nat := Finset.univ.sup fun i => Polynomial.infinityNorm (v i)

/-- `power2round` of the polynomials. -/
def power2round (v : Vector k) : Vector k × Vector k :=
  (fun i => (Polynomial.power2round (v i)).1, fun i => (Polynomial.power2round (v i)).2)

/-- `high_bits` of the polynomials. -/
def highBits (twoGamma2 : Nat) (v : Vector k) : Vector k :=
  fun i => Polynomial.highBits twoGamma2 (v i)

/-- `low_bits` of the polynomials. -/
def lowBits (twoGamma2 : Nat) (v : Vector k) : Vector k :=
  fun i => Polynomial.lowBits twoGamma2 (v i)

/-- A norm is below a positive bound exactly when every coefficient is. -/
theorem infinityNorm_lt_iff {v : Vector k} {b : Nat} (hb : 0 < b) :
    infinityNorm v < b ↔ ∀ i j, (v i j).infinityNorm < b := by
  simp only [infinityNorm, Polynomial.infinityNorm,
    Finset.sup_lt_iff (bot_lt_iff_ne_bot.mpr hb.ne'), Finset.mem_univ, true_implies]

end Vector

/-- `Elem * Polynomial` for every polynomial of a vector. -/
def scale {k : Nat} (a : Elem) (v : Vector k) : Vector k := fun i j => a * v i j

/-- The product of two vectors of the NTT domain: one accumulator, to which the
products are added in turn. -/
def dot {l : Nat} (x y : NttVector l) : NttPolynomial :=
  (List.finRange l).foldl (fun acc j i => acc i + x j i * y j i) fun _ => 0

/-- The product of a matrix and a vector. -/
def mulVec {k l : Nat} (a : NttMatrix k l) (v : NttVector l) : NttVector k := fun r => dot (a r) v

/-- The product of a polynomial of the NTT domain and a vector. -/
def mulEach {k : Nat} (c : NttPolynomial) (v : NttVector k) : NttVector k := fun r => c * v r

/-- The accumulator ends as the sum of the products. -/
theorem dot_eq {l : Nat} (x y : NttVector l) : dot x y = ∑ j, x j * y j := by
  have hfold : ∀ (js : List (Fin l)) (acc : NttPolynomial),
      js.foldl (fun acc j i => acc i + x j i * y j i) acc =
        acc + (js.map fun j => x j * y j).sum := by
    intro js
    induction js with
    | nil =>
      intro acc
      exact (add_zero acc).symm
    | cons j js ih =>
      intro acc
      rw [List.foldl_cons, ih, List.map_cons, List.sum_cons, ← add_assoc]
      rfl
  rw [dot, hfold, ← List.ofFn_eq_map, List.sum_ofFn]
  exact zero_add _

end Trelis.MlDsa
