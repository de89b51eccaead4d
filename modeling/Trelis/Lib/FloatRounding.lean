import Mathlib.Data.Nat.Dist

/-!
# Whole numbers in floating point

A floating-point number with `p` significant bits is a whole number when it is some
`m * 2 ^ j` with `m < 2 ^ p` (`Significant`).  The conversion of an integer gives
the nearest of these (`roundSignificant_nearest`), with an even significand where
two are as near.  Up to `2 ^ p` it gives the integer itself.

Exponents have no bound here.  That of a double is far beyond the words that are
converted.
-/

namespace Trelis

variable {p n : Nat}

/-- The whole numbers of at most `p` significant bits. -/
def Significant (p n : Nat) : Prop := ∃ m j, m < 2 ^ p ∧ n = m * 2 ^ j

/-- A whole number, as a floating-point number holds it. -/
@[ext] structure WholeFloat (p : Nat) where
  value : Nat
  significant : Significant p value
deriving DecidableEq

theorem significant_of_le (hp : 0 < p) (h : n ≤ 2 ^ p) : Significant p n := by
  rcases Nat.lt_or_eq_of_le h with hlt | rfl
  · exact ⟨n, 0, hlt, (Nat.mul_one n).symm⟩
  · exact ⟨1, p, Nat.one_lt_two_pow (by omega), (Nat.one_mul _).symm⟩

/-! ## Rounding off a number of bits -/

/-- The quotient by `2 ^ k`: the nearest integer, and the even one of two. -/
def roundShift (k n : Nat) : Nat :=
  if 2 ^ k < 2 * (n % 2 ^ k) ∨ 2 ^ k = 2 * (n % 2 ^ k) ∧ n / 2 ^ k % 2 = 1 then n / 2 ^ k + 1
  else n / 2 ^ k

theorem roundShift_le (k n : Nat) : roundShift k n ≤ n / 2 ^ k + 1 := by
  unfold roundShift
  split
  · exact le_rfl
  · exact Nat.le_succ _

/-- No multiple of `2 ^ k` is nearer. -/
theorem dist_roundShift_le (k n m : Nat) :
    Nat.dist (roundShift k n * 2 ^ k) n ≤ Nat.dist (m * 2 ^ k) n := by
  have hdiv : n / 2 ^ k * 2 ^ k + n % 2 ^ k = n := Nat.div_add_mod' n (2 ^ k)
  have hrest : n % 2 ^ k < 2 ^ k := Nat.mod_lt n (Nat.two_pow_pos k)
  have hnext : (n / 2 ^ k + 1) * 2 ^ k = n / 2 ^ k * 2 ^ k + 2 ^ k := Nat.succ_mul _ _
  -- The two multiples around `n` are the nearest ones below and above.
  have hside : m * 2 ^ k ≤ n / 2 ^ k * 2 ^ k ∨ (n / 2 ^ k + 1) * 2 ^ k ≤ m * 2 ^ k := by
    rcases Nat.lt_or_ge (n / 2 ^ k) m with hlt | hle
    · exact .inr (Nat.mul_le_mul_right _ hlt)
    · exact .inl (Nat.mul_le_mul_right _ hle)
  unfold roundShift Nat.dist
  split <;> omega

/-! ## Rounding to a significand -/

/-- The bits of a number that a significand of `p` bits has no place for. -/
def excessBits (p n : Nat) : Nat := n.log2 + 1 - p

/-- The nearest number of `p` significant bits. -/
def roundSignificant (p n : Nat) : Nat := roundShift (excessBits p n) n * 2 ^ excessBits p n

theorem significant_roundSignificant (hp : 0 < p) (n : Nat) :
    Significant p (roundSignificant p n) := by
  have hquotient : n / 2 ^ excessBits p n < 2 ^ p := by
    rw [Nat.div_lt_iff_lt_mul (Nat.two_pow_pos _), ← Nat.pow_add]
    exact Nat.lt_of_lt_of_le Nat.lt_log2_self
      (Nat.pow_le_pow_right Nat.two_pos (by unfold excessBits; omega))
  have hround := roundShift_le (excessBits p n) n
  obtain ⟨m, j, hm, heq⟩ := significant_of_le hp (Nat.le_trans hround hquotient)
  refine ⟨m, j + excessBits p n, hm, ?_⟩
  rw [roundSignificant, heq, Nat.mul_assoc, Nat.pow_add]

/-- No number of `p` significant bits is nearer. -/
theorem roundSignificant_nearest (hp : 0 < p) {x : Nat} (hx : Significant p x) (n : Nat) :
    Nat.dist (roundSignificant p n) n ≤ Nat.dist x n := by
  obtain ⟨m, j, hm, rfl⟩ := hx
  by_cases hj : excessBits p n ≤ j
  · obtain ⟨i, rfl⟩ := Nat.exists_eq_add_of_le hj
    have hmultiple : m * 2 ^ (excessBits p n + i) = m * 2 ^ i * 2 ^ excessBits p n := by
      rw [Nat.mul_assoc, ← Nat.pow_add, Nat.add_comm i]
    rw [hmultiple]
    exact dist_roundShift_le _ n _
  · -- A finer number is below the leading bit of `n`, which is a multiple of the step.
    have hlead : 2 ^ n.log2 = 2 ^ (p - 1) * 2 ^ excessBits p n := by
      rw [← Nat.pow_add]
      unfold excessBits at hj ⊢
      congr 1
      omega
    have hpos : n ≠ 0 := by
      rintro rfl
      simp only [excessBits, Nat.log2_zero] at hj
      omega
    have hbelow : m * 2 ^ j ≤ 2 ^ n.log2 := by
      calc m * 2 ^ j ≤ 2 ^ p * 2 ^ j := Nat.mul_le_mul_right _ hm.le
        _ = 2 ^ (p + j) := (Nat.pow_add _ _ _).symm
        _ ≤ 2 ^ n.log2 := Nat.pow_le_pow_right Nat.two_pos (by unfold excessBits at hj; omega)
    have hself : 2 ^ n.log2 ≤ n := Nat.log2_self_le hpos
    calc Nat.dist (roundSignificant p n) n
        ≤ Nat.dist (2 ^ n.log2) n := by
          rw [hlead]
          exact dist_roundShift_le _ n _
      _ ≤ Nat.dist (m * 2 ^ j) n := by
          rw [Nat.dist_eq_sub_of_le hself, Nat.dist_eq_sub_of_le (hbelow.trans hself)]
          exact Nat.sub_le_sub_left hbelow n

theorem roundSignificant_of_le (hp : 0 < p) (h : n ≤ 2 ^ p) : roundSignificant p n = n := by
  have hnear := roundSignificant_nearest hp (significant_of_le hp h) n
  rw [Nat.dist_self, Nat.le_zero] at hnear
  exact Nat.eq_of_dist_eq_zero hnear

end Trelis
