import Mathlib.Algebra.Polynomial.Degree.Lemmas
import Mathlib.Algebra.Polynomial.Eval.Coeff
import Mathlib.Algebra.Polynomial.Reverse
import Mathlib.Data.List.GetD

/-!
# Polynomials as coefficient lists

Programs hold a polynomial as the array of its coefficients, lowest first.
`ofCoeffs` is the polynomial of such a list.  The lemmas below it say what the
usual array operations are on polynomials: appending, padding, reversing,
mapping, adding to one entry and adding a whole list at an offset.

`addShifted` and `schoolbook` are two loops that most programs have.  Nothing here is
about any particular ring or degree.
-/

namespace Trelis

open Polynomial

variable {R S : Type} [CommRing R] [CommRing S]

/-- The polynomial with the given coefficients, lowest first. -/
noncomputable def ofCoeffs : List R → R[X]
  | [] => 0
  | a :: l => C a + X * ofCoeffs l

@[simp] theorem ofCoeffs_nil : ofCoeffs ([] : List R) = 0 := rfl

@[simp] theorem ofCoeffs_cons (a : R) (l : List R) :
    ofCoeffs (a :: l) = C a + X * ofCoeffs l := rfl

theorem coeff_ofCoeffs (l : List R) (i : Nat) : (ofCoeffs l).coeff i = l.getD i 0 := by
  induction l generalizing i with
  | nil => simp
  | cons a l ih =>
    cases i with
    | zero => simp
    | succ i => simp [ih, coeff_C_succ]

theorem coeff_ofCoeffs_of_le {l : List R} {i : Nat} (h : l.length ≤ i) :
    (ofCoeffs l).coeff i = 0 := by
  rw [coeff_ofCoeffs, List.getD_eq_default _ _ h]

/-! ## Degrees -/

theorem degree_ofCoeffs_lt (l : List R) : (ofCoeffs l).degree < l.length :=
  (degree_lt_iff_coeff_zero _ _).mpr fun _ h => coeff_ofCoeffs_of_le h

theorem natDegree_ofCoeffs_le {l : List R} {n : Nat} (h : l.length ≤ n + 1) :
    (ofCoeffs l).natDegree ≤ n :=
  natDegree_le_iff_coeff_eq_zero.mpr fun _ hi => coeff_ofCoeffs_of_le (by omega)

/-- A list of known length is determined by its polynomial. -/
theorem ofCoeffs_inj {l l' : List R} (hlen : l.length = l'.length)
    (h : ofCoeffs l = ofCoeffs l') : l = l' := by
  apply List.ext_getElem hlen
  intro i hi hi'
  have hcoeff := congrArg (fun p => p.coeff i) h
  simpa only [coeff_ofCoeffs, List.getD_eq_getElem _ _ hi, List.getD_eq_getElem _ _ hi']
    using hcoeff

/-! ## Operations on lists -/

/-- The list of the coefficients of a polynomial. -/
theorem ofCoeffs_map_coeff {f : R[X]} {n : Nat} (hf : f.degree < n) :
    ofCoeffs ((List.range n).map f.coeff) = f := by
  ext k
  rw [coeff_ofCoeffs]
  by_cases hk : k < n
  · rw [List.getD_eq_getElem _ _ (by simpa using hk), List.getElem_map, List.getElem_range]
  · rw [List.getD_eq_default _ _ (by simpa using hk),
      coeff_eq_zero_of_degree_lt (hf.trans_le (by exact_mod_cast Nat.le_of_not_lt hk))]

theorem ofCoeffs_append (l l' : List R) :
    ofCoeffs (l ++ l') = ofCoeffs l + X ^ l.length * ofCoeffs l' := by
  induction l with
  | nil => simp
  | cons a l ih =>
    rw [List.cons_append, ofCoeffs_cons, ih, ofCoeffs_cons, List.length_cons]
    ring

@[simp] theorem ofCoeffs_replicate_zero (n : Nat) : ofCoeffs (List.replicate n (0 : R)) = 0 := by
  induction n with
  | zero => rfl
  | succ n ih => simp [List.replicate_succ, ih]

theorem ofCoeffs_map (φ : R →+* S) (l : List R) :
    ofCoeffs (l.map φ) = (ofCoeffs l).map φ := by
  induction l with
  | nil => simp
  | cons a l ih => simp [ih]

theorem ofCoeffs_reverse (l : List R) {n : Nat} (h : l.length = n + 1) :
    ofCoeffs l.reverse = reflect n (ofCoeffs l) := by
  ext i
  rw [coeff_reflect, coeff_ofCoeffs, coeff_ofCoeffs]
  by_cases hi : i ≤ n
  · rw [revAt_le hi, List.getD_eq_getElem _ _ (by rw [List.length_reverse]; omega),
      List.getD_eq_getElem _ _ (by omega), List.getElem_reverse]
    congr 1
    omega
  · rw [List.getD_eq_default _ _ (by rw [List.length_reverse]; omega),
      revAt_eq_self_of_lt (by omega), List.getD_eq_default _ _ (by omega)]

theorem ofCoeffs_map_mul (c : R) (l : List R) :
    ofCoeffs (l.map (c * ·)) = C c * ofCoeffs l := by
  induction l with
  | nil => simp
  | cons a l ih =>
    rw [List.map_cons, ofCoeffs_cons, ih, ofCoeffs_cons, map_mul]
    ring

/-- Adding to one entry. -/
theorem ofCoeffs_modify {l : List R} {i : Nat} (h : i < l.length) (v : R) :
    ofCoeffs (l.modify i (· + v)) = ofCoeffs l + C v * X ^ i := by
  induction l generalizing i with
  | nil => simp at h
  | cons a l ih =>
    cases i with
    | zero =>
      simp only [List.modify_zero_cons, ofCoeffs_cons, map_add, pow_zero]
      ring
    | succ i =>
      rw [List.modify_succ_cons, ofCoeffs_cons, ih (by simpa using h), ofCoeffs_cons]
      ring

/-- Entrywise addition of lists of one length. -/
theorem ofCoeffs_zipWith_add {l l' : List R} (h : l.length = l'.length) :
    ofCoeffs (List.zipWith (· + ·) l l') = ofCoeffs l + ofCoeffs l' := by
  induction l generalizing l' with
  | nil =>
    cases l' with
    | nil => simp
    | cons => simp at h
  | cons a l ih =>
    cases l' with
    | nil => simp at h
    | cons b l' =>
      rw [List.zipWith_cons_cons, ofCoeffs_cons, ih (by simpa using h), ofCoeffs_cons,
        ofCoeffs_cons, map_add]
      ring

/-! ## Adding a list at an offset -/

/-- `for (i, v) in vs { if i + off < result.len() { result[i + off] += v } }`. -/
def addShifted (off : Nat) : List R → List R → List R
  | [], result => result
  | v :: vs, result => addShifted (off + 1) vs (result.modify off (· + v))

@[simp] theorem length_addShifted (off : Nat) (vs result : List R) :
    (addShifted off vs result).length = result.length := by
  induction vs generalizing off result with
  | nil => rfl
  | cons v vs ih => rw [addShifted, ih, List.length_modify]

/-- Where all of it fits, the offset is a shift. -/
theorem ofCoeffs_addShifted {off : Nat} {vs result : List R}
    (h : off + vs.length ≤ result.length) :
    ofCoeffs (addShifted off vs result) = ofCoeffs result + X ^ off * ofCoeffs vs := by
  induction vs generalizing off result with
  | nil => simp [addShifted]
  | cons v vs ih =>
    rw [List.length_cons] at h
    rw [addShifted, ih (by rw [List.length_modify]; omega), ofCoeffs_modify (by omega),
      ofCoeffs_cons]
    ring

/-! ## Schoolbook multiplication -/

variable [DecidableEq R]

/-- The rows of the product, from the one at `off` on.  A zero is skipped. -/
def schoolbookRows (b : List R) : Nat → List R → List R → List R
  | _, [], result => result
  | off, ai :: a, result =>
    schoolbookRows b (off + 1) a
      (if ai = 0 then result else addShifted off (b.map (ai * ·)) result)

theorem length_schoolbookRows (b : List R) (off : Nat) (a result : List R) :
    (schoolbookRows b off a result).length = result.length := by
  induction a generalizing off result with
  | nil => rfl
  | cons ai a ih =>
    rw [schoolbookRows, ih]
    split
    · rfl
    · rw [length_addShifted]

theorem ofCoeffs_schoolbookRows {b : List R} {off : Nat} {a result : List R}
    (h : off + a.length + b.length ≤ result.length + 1) :
    ofCoeffs (schoolbookRows b off a result) =
      ofCoeffs result + X ^ off * (ofCoeffs a * ofCoeffs b) := by
  induction a generalizing off result with
  | nil => simp [schoolbookRows]
  | cons ai a ih =>
    rw [List.length_cons] at h
    rw [schoolbookRows]
    by_cases hai : ai = 0
    · rw [if_pos hai, ih (by omega), ofCoeffs_cons, hai, map_zero]
      ring
    · rw [if_neg hai, ih (by rw [length_addShifted]; omega),
        ofCoeffs_addShifted (by rw [List.length_map]; omega), ofCoeffs_map_mul, ofCoeffs_cons]
      ring

end Trelis
