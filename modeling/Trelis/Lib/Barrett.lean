import Mathlib.Algebra.Order.Group.Nat
import Mathlib.Tactic.Ring

/-!
# Barrett reduction

The remainder of a division, with a multiplication and a shift in place of the
division.  The quotient comes out exact or one too small, so that one
subtraction corrects the remainder (`barrettReduce_eq`).  Beyond the bound of
the shift a further estimate takes care of what the first one leaves
(`barrett_rest_lt`).
-/

namespace Trelis

/-- The remainder modulo `m`, through the quotient estimate of the given shift. -/
def barrettReduce (m shift x : Nat) : Nat :=
  let multiplier := 2 ^ shift / m
  let quotient := (x * multiplier) >>> shift
  let remainder := x - quotient * m
  if remainder < m then remainder else remainder - m

section Estimate

variable {m shift x c : Nat}

/-- The estimate is not above the quotient. -/
theorem barrett_estimate_mul_le : x * (2 ^ shift / m) / 2 ^ shift * m ≤ x := by
  have hpow : 0 < 2 ^ shift := Nat.two_pow_pos shift
  apply Nat.le_of_mul_le_mul_left _ hpow
  calc 2 ^ shift * (x * (2 ^ shift / m) / 2 ^ shift * m)
      = 2 ^ shift * (x * (2 ^ shift / m) / 2 ^ shift) * m := (Nat.mul_assoc _ _ _).symm
    _ ≤ x * (2 ^ shift / m) * m := Nat.mul_le_mul_right m (Nat.mul_div_le _ _)
    _ = x * (2 ^ shift / m * m) := Nat.mul_assoc _ _ _
    _ ≤ x * 2 ^ shift := Nat.mul_le_mul_left x (Nat.div_mul_le_self _ _)
    _ = 2 ^ shift * x := Nat.mul_comm _ _

/-- What the estimate leaves is the modulus and the share of the residue that the
multiplier drops. -/
theorem barrett_rest_lt (hm : 0 < m) (h : x * (2 ^ shift % m) ≤ c * 2 ^ shift) :
    x - x * (2 ^ shift / m) / 2 ^ shift * m < m + c := by
  have hpow : 0 < 2 ^ shift := Nat.two_pow_pos shift
  have hsplit : 2 ^ shift / m * m + 2 ^ shift % m = 2 ^ shift := by
    rw [Nat.mul_comm]
    exact Nat.div_add_mod _ _
  generalize 2 ^ shift % m = r at h hsplit
  generalize 2 ^ shift / m = v at hsplit
  have hquot : x * v < 2 ^ shift * (x * v / 2 ^ shift + 1) := Nat.lt_mul_div_succ _ hpow
  generalize x * v / 2 ^ shift = a at hquot
  have hscaled : x * 2 ^ shift < (a * m + (m + c)) * 2 ^ shift :=
    calc x * 2 ^ shift = x * v * m + x * r := by rw [← hsplit]; ring
      _ < 2 ^ shift * (a + 1) * m + c * 2 ^ shift :=
        Nat.add_lt_add_of_lt_of_le (Nat.mul_lt_mul_of_pos_right hquot hm) h
      _ = (a * m + (m + c)) * 2 ^ shift := by ring
  have hlt := Nat.lt_of_mul_lt_mul_right hscaled
  omega

/-- Below the bound of the shift that share is less than the modulus. -/
theorem barrett_rest_lt_two_mul (hm : 0 < m) (hx : x < 2 ^ shift) :
    x - x * (2 ^ shift / m) / 2 ^ shift * m < 2 * m := by
  rw [Nat.two_mul]
  apply barrett_rest_lt hm
  rw [Nat.mul_comm]
  exact Nat.mul_le_mul (Nat.mod_lt _ hm).le hx.le

end Estimate

/-- A rest that is at most the modulus determines the division. -/
theorem div_mod_of_rest {x m t z : Nat} (hm : 0 < m) (hsum : x = z + t * m) (hz : z ≤ m) :
    (x / m, x % m) = if z < m then (t, z) else (t + 1, 0) := by
  rw [hsum, Nat.add_mul_div_right _ _ hm, Nat.add_mul_mod_self_right]
  by_cases hlt : z < m
  · rw [if_pos hlt, Nat.div_eq_of_lt hlt, Nat.mod_eq_of_lt hlt, Nat.zero_add]
  · have hzm : z = m := by omega
    rw [if_neg hlt, hzm, Nat.div_self hm, Nat.mod_self, Nat.add_comm]

/-- The reduction is the remainder, below the bound of the shift. -/
theorem barrettReduce_eq {m shift x : Nat} (hm : 0 < m) (hx : x < 2 ^ shift) :
    barrettReduce m shift x = x % m := by
  have hle : x * (2 ^ shift / m) / 2 ^ shift * m ≤ x := barrett_estimate_mul_le
  have hrest := barrett_rest_lt_two_mul hm hx
  simp only [barrettReduce, Nat.shiftRight_eq_div_pow]
  generalize x * (2 ^ shift / m) / 2 ^ shift = quot at hle hrest
  have hmod : x % m = (x - quot * m) % m := (Nat.sub_mul_mod (Nat.mul_comm quot m ▸ hle)).symm.trans
    (by rw [Nat.mul_comm])
  rw [hmod]
  by_cases h : x - quot * m < m
  · rw [if_pos h, Nat.mod_eq_of_lt h]
  · rw [if_neg h, Nat.mod_eq_sub_mod (Nat.not_lt.mp h), Nat.mod_eq_of_lt (by omega)]

-- Unification is not to compute with it.
attribute [irreducible] barrettReduce

end Trelis
