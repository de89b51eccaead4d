import Mathlib.Data.Nat.Bitwise
import Trelis.Lib.Bytes

/-!
# Packed words

Numbers of `d` bits in one number, the first in the lowest bits: `packWords` puts
them together with shifts and disjunctions, and `unpackWord` reads one of them.
The two are inverse to each other in both directions (`unpackWord_packWords`,
`packWords_unpackWord`).
-/

namespace Trelis

/-- The words `v 0`, …, `v (n - 1)` of `d` bits, one above another. -/
def packWords (d : Nat) (v : Nat → Nat) (n : Nat) : Nat :=
  (List.range n).foldl (fun x j => x ||| v j <<< (d * j)) 0

/-- The word of `d` bits number `j`. -/
def unpackWord (d x j : Nat) : Nat := (x >>> (d * j)) &&& (2 ^ d - 1)

section

variable {d n j : Nat} {v w : Nat → Nat} {x : Nat}

theorem packWords_succ (d : Nat) (v : Nat → Nat) (n : Nat) :
    packWords d v (n + 1) = packWords d v n ||| v n <<< (d * n) := by
  rw [packWords, List.range_succ, List.foldl_append]
  rfl

theorem unpackWord_eq (d x j : Nat) : unpackWord d x j = x / 2 ^ (d * j) % 2 ^ d := by
  rw [unpackWord, Nat.and_two_pow_sub_one_eq_mod, Nat.shiftRight_eq_div_pow]

theorem unpackWord_lt (d x j : Nat) : unpackWord d x j < 2 ^ d := by
  rw [unpackWord_eq]
  exact Nat.mod_lt _ (Nat.two_pow_pos d)

theorem packWords_congr (h : ∀ j < n, v j = w j) : packWords d v n = packWords d w n := by
  induction n with
  | zero => rfl
  | succ n ih =>
    rw [packWords_succ, packWords_succ, ih fun j hj => h j (by omega), h n (Nat.lt_succ_self n)]

/-- Packed words fill the bits below the next one. -/
theorem packWords_lt (h : ∀ j < n, v j < 2 ^ d) : packWords d v n < 2 ^ (d * n) := by
  induction n with
  | zero => simp [packWords]
  | succ n ih =>
    have hlow : packWords d v n < 2 ^ (d * (n + 1)) :=
      (ih fun j hj => h j (by omega)).trans_le (Nat.pow_le_pow_right (by decide) (by
        rw [Nat.mul_succ]
        omega))
    have hhigh : v n <<< (d * n) < 2 ^ (d * (n + 1)) := by
      rw [Nat.shiftLeft_eq, Nat.mul_succ, Nat.pow_add, Nat.mul_comm (2 ^ (d * n))]
      exact Nat.mul_lt_mul_of_pos_right (h n (Nat.lt_succ_self n)) (Nat.two_pow_pos _)
    rw [packWords_succ]
    exact Nat.or_lt_two_pow hlow hhigh

/-- The last word stands above the others. -/
theorem packWords_succ_eq (h : ∀ j < n, v j < 2 ^ d) :
    packWords d v (n + 1) = 2 ^ (d * n) * v n + packWords d v n := by
  rw [packWords_succ, Nat.shiftLeft_eq, Nat.mul_comm (v n), Nat.or_comm]
  exact (Nat.two_pow_add_eq_or_of_lt (packWords_lt h) (v n)).symm

/-- A packed word is read back. -/
theorem unpackWord_packWords (h : ∀ j < n, v j < 2 ^ d) (hj : j < n) :
    unpackWord d (packWords d v n) j = v j := by
  rw [unpackWord_eq]
  induction n with
  | zero => exact absurd hj (Nat.not_lt_zero j)
  | succ n ih =>
    have hprev : ∀ i < n, v i < 2 ^ d := fun i hi => h i (by omega)
    rw [packWords_succ_eq hprev]
    rcases Nat.lt_succ_iff_lt_or_eq.mp hj with hlt | rfl
    · -- The last word is a multiple of `2 ^ d` above the word `j`.
      have hsplit : 2 ^ (d * n) = 2 ^ (d * j) * (2 ^ d * 2 ^ (d * (n - j - 1))) := by
        rw [← Nat.pow_add, ← Nat.pow_add]
        congr 1
        rw [Nat.add_comm d, ← Nat.mul_succ, ← Nat.mul_add]
        congr 1
        omega
      rw [hsplit, Nat.mul_assoc, Nat.mul_add_div (Nat.two_pow_pos _), Nat.mul_assoc,
        Nat.mul_add_mod]
      exact ih hprev hlt
    · rw [Nat.mul_add_div (Nat.two_pow_pos _), Nat.div_eq_of_lt (packWords_lt hprev), Nat.add_zero,
        Nat.mod_eq_of_lt (h j hj)]

/-- A number is packed from its words. -/
theorem packWords_unpackWord (d x n : Nat) :
    packWords d (unpackWord d x) n = x % 2 ^ (d * n) := by
  induction n with
  | zero => simp [packWords, Nat.mod_one]
  | succ n ih =>
    rw [packWords_succ_eq fun j _ => unpackWord_lt d x j, ih, unpackWord_eq, Nat.mul_succ,
      Nat.pow_add, Nat.mod_mul]
    omega

end

end Trelis
