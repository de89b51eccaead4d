import Trelis.Sntrup.Poly
import Trelis.Sntrup.Scalar

/-!
# The rings of sntrup761

The products of `poly.rs`, and what they are in `(Z/n)[x]/(x^761 - x - 1)`.
`element n` is the element of that ring with the given integer coefficients.

`ringProduct` is the product before its coefficients are reduced.  Its
coefficients are bounded (`abs_ringProduct_le`), which is where an identity
modulo `q` becomes one of integers.
-/

namespace Trelis.Sntrup

open Polynomial

theorem two_le_p : 2 ≤ p := by decide

/-! ## Products -/

/-- The product of two polynomials of length `P`, modulo the trinomial. -/
def ringProduct (a b : List Int) : List Int := reduceRing (karatsubaMult a b)

/-- `rq_mult_r3`. -/
def rqMultR3 (a b : List Int) : List Int := (ringProduct a b).map reduceModQ

/-- `r3_mult_r3`. -/
def r3MultR3 (a b : List Int) : List Int := (ringProduct a b).map reduceMod3

@[simp] theorem length_ringProduct (a b : List Int) : (ringProduct a b).length = p :=
  length_reduceRing _

@[simp] theorem length_rqMultR3 (a b : List Int) : (rqMultR3 a b).length = p := by
  rw [rqMultR3, List.length_map, length_ringProduct]

@[simp] theorem length_r3MultR3 (a b : List Int) : (r3MultR3 a b).length = p := by
  rw [r3MultR3, List.length_map, length_ringProduct]

theorem length_karatsubaMult_le {a b : List Int} (ha : a.length = p) (hb : b.length = p) :
    (karatsubaMult a b).length ≤ 2 * p - 1 := by
  have h := (karatsubaMult_spec a b).2
  rwa [ha, hb, Nat.max_self] at h

/-! ## Elements -/

/-- The element with the given integer coefficients. -/
noncomputable def element (n : Nat) (a : List Int) : AdjoinRoot (trinomial (ZMod n) p) :=
  residue p (a.map (Int.castRingHom (ZMod n)))

variable {n : Nat} {a b : List Int}

theorem element_eq_mk (n : Nat) (a : List Int) :
    element n a = AdjoinRoot.mk _ ((ofCoeffs a).map (Int.castRingHom (ZMod n))) := by
  rw [element, residue, ofCoeffs_map]

theorem map_trinomial (n : Nat) :
    (trinomial Int p).map (Int.castRingHom (ZMod n)) = trinomial (ZMod n) p := by
  simp [trinomial]

theorem element_ringProduct (ha : a.length = p) (hb : b.length = p) :
    element n (ringProduct a b) = element n a * element n b := by
  have hsplit := reduceRing_spec (length_karatsubaMult_le ha hb)
  rw [(karatsubaMult_spec a b).1] at hsplit
  rw [element_eq_mk, element_eq_mk, element_eq_mk, ← map_mul, ← Polynomial.map_mul, hsplit,
    Polynomial.map_add, Polynomial.map_mul, map_trinomial, map_add, map_mul, AdjoinRoot.mk_self,
    zero_mul, add_zero]
  rfl

theorem element_map_congr {f g : Int → Int} (h : ∀ x ∈ a, ((f x : Int) : ZMod n) = g x) :
    element n (a.map f) = element n (a.map g) := by
  rw [element, element, List.map_map, List.map_map]
  congr 1
  apply List.map_congr_left
  intro x hx
  exact h x hx

/-- Reducing coefficients does not change the element. -/
theorem element_map {f : Int → Int} (h : ∀ x, ((f x : Int) : ZMod n) = x) (a : List Int) :
    element n (a.map f) = element n a := by
  rw [element_map_congr (g := id) fun x _ => h x, List.map_id]

theorem element_rqMultR3 (ha : a.length = p) (hb : b.length = p) :
    element q (rqMultR3 a b) = element q a * element q b := by
  rw [rqMultR3, element_map fun x => by rw [reduceModQ_eq, cast_bmod], element_ringProduct ha hb]

theorem element_r3MultR3 (ha : a.length = p) (hb : b.length = p) :
    element 3 (r3MultR3 a b) = element 3 a * element 3 b := by
  rw [r3MultR3, element_map fun x => by rw [reduceMod3_eq, cast_bmod], element_ringProduct ha hb]

theorem element_add (h : a.length = b.length) :
    element n (List.zipWith (· + ·) a b) = element n a + element n b := by
  rw [element_eq_mk, element_eq_mk, element_eq_mk, ofCoeffs_zipWith_add h, Polynomial.map_add,
    map_add]

theorem element_map_mul (c : Int) (a : List Int) :
    element n (a.map (c * ·)) = AdjoinRoot.of _ (c : ZMod n) * element n a := by
  rw [element_eq_mk, element_eq_mk, ofCoeffs_map_mul, Polynomial.map_mul, map_mul, Polynomial.map_C,
    eq_intCast, AdjoinRoot.mk_C]

/-- The residues of the coefficients are determined by the element. -/
theorem map_cast_eq_of_element_eq [Nontrivial (ZMod n)] (ha : a.length = p) (hb : b.length = p)
    (h : element n a = element n b) :
    a.map (Int.castRingHom (ZMod n)) = b.map (Int.castRingHom (ZMod n)) :=
  residue_inj two_le_p (by rw [List.length_map, ha]) (by rw [List.length_map, hb]) h

theorem eq_of_map_eq {α : Type} {f : Int → α} {B : Int}
    (hf : ∀ x y : Int, |x| ≤ B → |y| ≤ B → f x = f y → x = y) (ha : ∀ c ∈ a, |c| ≤ B)
    (hb : ∀ c ∈ b, |c| ≤ B) (h : a.map f = b.map f) : a = b := by
  induction a generalizing b with
  | nil => exact (List.map_eq_nil_iff.mp h.symm).symm
  | cons x a ih =>
    cases b with
    | nil => simp at h
    | cons y b =>
      rw [List.map_cons, List.map_cons, List.cons.injEq] at h
      rw [hf x y (ha x List.mem_cons_self) (hb y List.mem_cons_self) h.1,
        ih (fun c hc => ha c (List.mem_cons_of_mem _ hc))
          (fun c hc => hb c (List.mem_cons_of_mem _ hc)) h.2]

/-- A polynomial with balanced coefficients is determined by its element. -/
theorem eq_of_element_q_eq (ha : a.length = p) (hb : b.length = p) (hsa : ∀ c ∈ a, |c| ≤ 2295)
    (hsb : ∀ c ∈ b, |c| ≤ 2295) (h : element q a = element q b) : a = b :=
  eq_of_map_eq (fun _ _ hx hy hxy => eq_of_cast_q_eq hx hy hxy) hsa hsb
    (map_cast_eq_of_element_eq ha hb h)

theorem eq_of_element_three_eq (ha : a.length = p) (hb : b.length = p) (hsa : ∀ c ∈ a, |c| ≤ 1)
    (hsb : ∀ c ∈ b, |c| ≤ 1) (h : element 3 a = element 3 b) : a = b :=
  eq_of_map_eq (fun _ _ hx hy hxy => eq_of_cast_three_eq hx hy hxy) hsa hsb
    (map_cast_eq_of_element_eq ha hb h)

/-! ## Bounds -/

theorem abs_rqMultR3_le (a b : List Int) : ∀ c ∈ rqMultR3 a b, |c| ≤ 2295 := by
  intro c hc
  obtain ⟨x, _, rfl⟩ := List.mem_map.mp hc
  rw [reduceModQ_eq]
  exact abs_bmod_q_le x

theorem abs_r3MultR3_le (a b : List Int) : ∀ c ∈ r3MultR3 a b, |c| ≤ 1 := by
  intro c hc
  obtain ⟨x, _, rfl⟩ := List.mem_map.mp hc
  rw [reduceMod3_eq]
  exact abs_bmod_three_le x

/-- Every coefficient of a product is at most twice the largest coefficient of
one factor times the sum of the other. -/
theorem abs_ringProduct_le {A : Int} (ha : ∀ c ∈ a, |c| ≤ A) (hlen : a.length = p)
    (hb : b.length = p) : ∀ c ∈ ringProduct a b, |c| ≤ 2 * A * sumAbs b := by
  intro c hc
  obtain ⟨k, hk, rfl⟩ := List.getElem_of_mem hc
  have hkp : k < p := by rwa [length_ringProduct] at hk
  have hcoeff := coeff_reduceRing (length_karatsubaMult_le hlen hb) hkp
  rw [coeff_ofCoeffs, (karatsubaMult_spec a b).1, ← ringProduct] at hcoeff
  have hbound := abs_foldCoeff_mul_le ha hlen hb hkp
  rwa [mul_comm (ofCoeffs b), ← hcoeff, List.getD_eq_getElem _ _ hk] at hbound

/-! ## Small polynomials -/

/-- The number of coefficients that are not zero. -/
def weight (a : List Int) : Nat := a.countP (· ≠ 0)

/-- A polynomial with coefficients in {-1, 0, 1}. -/
structure Ternary (a : List Int) : Prop where
  length_eq : a.length = p
  abs_le : ∀ c ∈ a, |c| ≤ 1

theorem sumAbs_eq_weight (h : ∀ c ∈ a, |c| ≤ 1) : sumAbs a = weight a := by
  induction a with
  | nil => rfl
  | cons c a ih =>
    rw [sumAbs_cons, ih fun x hx => h x (List.mem_cons_of_mem _ hx), weight, weight,
      List.countP_cons]
    have hc := h c List.mem_cons_self
    have hnonneg := abs_nonneg c
    by_cases hzero : c = 0
    · simp [hzero]
    · have hpos := abs_pos.mpr hzero
      rw [if_pos (by simpa using hzero), Nat.cast_add, show |c| = 1 by omega]
      push_cast
      ring

theorem Ternary.abs_ringProduct_le (ha : Ternary a) (hb : Ternary b) :
    ∀ c ∈ ringProduct a b, |c| ≤ 2 * weight b := by
  rw [← sumAbs_eq_weight hb.abs_le]
  exact fun c hc => (Sntrup.abs_ringProduct_le ha.abs_le ha.length_eq hb.length_eq c hc).trans
    (by rw [mul_one])

theorem ternary_r3MultR3 (a b : List Int) : Ternary (r3MultR3 a b) where
  length_eq := length_r3MultR3 a b
  abs_le := abs_r3MultR3_le a b

end Trelis.Sntrup
