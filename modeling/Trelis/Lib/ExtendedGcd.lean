import Mathlib.Algebra.Order.Ring.Int
import Mathlib.Tactic.Linarith
import Mathlib.Tactic.LinearCombination
import Trelis.Lib.SignedWord

/-!
# The extended algorithm of Euclid

The loop that divides and keeps one cofactor, on integers of either sign and with
truncated division.  `EuclidInv` is its invariant: each remainder is a multiple of
the argument, and the two cofactors alternate in sign, so that none is larger than
the modulus.  The loop on words of `w` bits is the one on integers, when the words
hold twice the modulus (`euclidChecked_eq`).
-/

namespace Trelis

/-- The last remainder that is not zero, and its cofactor. -/
def euclid : Nat → Int → Int → Int → Int → Int × Int
  | 0, oldR, _, oldS, _ => (oldR, oldS)
  | rounds + 1, oldR, r, oldS, s =>
    if r = 0 then (oldR, oldS)
    else euclid rounds r (oldR - oldR.tdiv r * r) s (oldS - oldR.tdiv r * s)

/-- The loop on words of `w` bits. -/
def euclidChecked (w : Nat) : Nat → Int → Int → Int → Int → Option (Int × Int)
  | 0, _, _, _, _ => none
  | rounds + 1, oldR, r, oldS, s =>
    if r = 0 then some (oldR, oldS)
    else do
      let quotient ← signed w (oldR.tdiv r)
      let product ← signed w (quotient * r)
      let temp ← signed w (oldR - product)
      let product ← signed w (quotient * s)
      let temp' ← signed w (oldS - product)
      euclidChecked w rounds r temp s temp'

/-- The cofactors of the loop on `m` and `a`. -/
structure EuclidInv (m a oldR r oldS s : Int) : Prop where
  oldR_ne_zero : oldR ≠ 0
  dvd_old : m ∣ oldS * a - oldR
  dvd : m ∣ s * a - r
  abs_le : |oldS| ≤ m
  alternate : oldS * r - s * oldR = m ∧ s * oldR ≤ 0 ∧ 0 ≤ oldS * r ∨
    oldS * r - s * oldR = -m ∧ 0 ≤ s * oldR ∧ oldS * r ≤ 0

theorem EuclidInv.start {m : Int} (hm : 0 < m) (a : Int) : EuclidInv m a m a 0 1 where
  oldR_ne_zero := hm.ne'
  dvd_old := by
    rw [zero_mul, zero_sub]
    exact Int.dvd_neg.mpr (dvd_refl m)
  dvd := by
    rw [one_mul, sub_self]
    exact dvd_zero m
  abs_le := by
    rw [abs_zero]
    exact hm.le
  alternate := by
    right
    rw [zero_mul, one_mul, zero_sub]
    exact ⟨rfl, hm.le, le_refl 0⟩

/-- A remainder of truncated division lies between zero and what is divided. -/
theorem tmod_between (x y : Int) :
    0 ≤ x - x.tdiv y * y ∧ x - x.tdiv y * y ≤ x ∨ x ≤ x - x.tdiv y * y ∧ x - x.tdiv y * y ≤ 0 := by
  have hmod : x - x.tdiv y * y = x.tmod y := by
    have hdiv := Int.tdiv_mul_add_tmod x y
    omega
  have habs : (x.tmod y).natAbs ≤ x.natAbs := by
    rw [Int.natAbs_tmod]
    exact Nat.mod_le _ _
  rw [hmod]
  by_cases hx : 0 ≤ x
  · have hnonneg := Int.tmod_nonneg y hx
    omega
  · have hnonneg := Int.tmod_nonneg y (show 0 ≤ -x by omega)
    rw [Int.neg_tmod] at hnonneg
    omega

/-- A multiple of a number between zero and `y` is between zero and that of `y`. -/
theorem mul_between (s : Int) {x y : Int} (h : 0 ≤ x ∧ x ≤ y ∨ y ≤ x ∧ x ≤ 0) :
    0 ≤ s * x ∧ s * x ≤ s * y ∨ s * y ≤ s * x ∧ s * x ≤ 0 := by
  obtain ⟨hx, hxy⟩ | ⟨hyx, hx⟩ := h
  · by_cases hs : 0 ≤ s
    · exact .inl ⟨mul_nonneg hs hx, mul_le_mul_of_nonneg_left hxy hs⟩
    · have hs' : s ≤ 0 := by omega
      exact .inr ⟨mul_le_mul_of_nonpos_left hxy hs', mul_nonpos_of_nonpos_of_nonneg hs' hx⟩
  · by_cases hs : 0 ≤ s
    · exact .inr ⟨mul_le_mul_of_nonneg_left hyx hs, mul_nonpos_of_nonneg_of_nonpos hs hx⟩
    · have hs' : s ≤ 0 := by omega
      exact .inl ⟨mul_nonneg_of_nonpos_of_nonpos hs' hx, mul_le_mul_of_nonpos_left hyx hs'⟩

theorem abs_le_of_between {x y : Int} (h : 0 ≤ x ∧ x ≤ y ∨ y ≤ x ∧ x ≤ 0) : |x| ≤ |y| := by
  rw [Int.abs_eq_natAbs, Int.abs_eq_natAbs]
  omega

theorem natAbs_sub_tdiv_mul_lt (x : Int) {y : Int} (hy : y ≠ 0) :
    (x - x.tdiv y * y).natAbs < y.natAbs := by
  have hmod : x - x.tdiv y * y = x.tmod y := by
    have hdiv := Int.tdiv_mul_add_tmod x y
    omega
  rw [hmod, Int.natAbs_tmod]
  exact Nat.mod_lt _ (Int.natAbs_pos.mpr hy)

section Round

variable {m a oldR r oldS s : Int}

theorem EuclidInv.mul_abs_le (h : EuclidInv m a oldR r oldS s) :
    |s * oldR| ≤ m ∧ |oldS * r| ≤ m := by
  obtain ⟨hdet, hs, hold⟩ | ⟨hdet, hs, hold⟩ := h.alternate
  · rw [abs_of_nonpos hs, abs_of_nonneg hold]
    constructor
    · linarith
    · linarith
  · rw [abs_of_nonneg hs, abs_of_nonpos hold]
    constructor
    · linarith
    · linarith

theorem EuclidInv.abs_s_le (h : EuclidInv m a oldR r oldS s) : |s| ≤ m := by
  have hone : 1 ≤ |oldR| := Int.one_le_abs h.oldR_ne_zero
  calc |s| ≤ |s| * |oldR| := le_mul_of_one_le_right (abs_nonneg s) hone
    _ = |s * oldR| := (abs_mul s oldR).symm
    _ ≤ m := h.mul_abs_le.1

theorem EuclidInv.next (h : EuclidInv m a oldR r oldS s) (hr : r ≠ 0) :
    EuclidInv m a r (oldR - oldR.tdiv r * r) s (oldS - oldR.tdiv r * s) where
  oldR_ne_zero := hr
  dvd_old := h.dvd
  dvd := by
    have hcomb := h.dvd_old.sub (h.dvd.mul_left (oldR.tdiv r))
    have hsame : oldS * a - oldR - oldR.tdiv r * (s * a - r) =
        (oldS - oldR.tdiv r * s) * a - (oldR - oldR.tdiv r * r) := by ring
    rwa [hsame] at hcomb
  abs_le := h.abs_s_le
  alternate := by
    -- The next remainder is between zero and the last one, so its multiple by `s` has
    -- the sign that `s * oldR` has, and is not larger.
    have hdet : s * (oldR - oldR.tdiv r * r) - (oldS - oldR.tdiv r * s) * r =
        -(oldS * r - s * oldR) := by ring
    have hbetween := tmod_between oldR r
    generalize hx : oldR - oldR.tdiv r * r = x at hdet hbetween ⊢
    generalize oldS - oldR.tdiv r * s = y at hdet ⊢
    have hsx := mul_between s hbetween
    obtain ⟨hm, hs, hold⟩ | ⟨hm, hs, hold⟩ := h.alternate
    · right
      omega
    · left
      omega

/-- What a round computes on the way. -/
theorem EuclidInv.words (h : EuclidInv m a oldR r oldS s) :
    |oldR.tdiv r| ≤ |oldR| ∧ |oldR.tdiv r * r| ≤ |oldR| ∧ |oldR - oldR.tdiv r * r| ≤ |oldR| ∧
      |oldR.tdiv r * s| ≤ m ∧ |oldS - oldR.tdiv r * s| ≤ 2 * m := by
  have hquot : |oldR.tdiv r| ≤ |oldR| := by
    rw [Int.abs_eq_natAbs, Int.abs_eq_natAbs]
    exact_mod_cast Int.natAbs_tdiv_le_natAbs oldR r
  have hbetween := tmod_between oldR r
  have hcofactor : |oldR.tdiv r * s| ≤ m := by
    calc |oldR.tdiv r * s| = |s| * |oldR.tdiv r| := by rw [abs_mul, mul_comm]
      _ ≤ |s| * |oldR| := mul_le_mul_of_nonneg_left hquot (abs_nonneg s)
      _ = |s * oldR| := (abs_mul s oldR).symm
      _ ≤ m := h.mul_abs_le.1
  refine ⟨hquot, ?_, abs_le_of_between hbetween, hcofactor, ?_⟩
  · apply abs_le_of_between
    omega
  · have habs := abs_sub oldS (oldR.tdiv r * s)
    have hold := h.abs_le
    omega

variable {w rounds : Nat}

/-- The loop ends in time, with a multiple of the argument and a small cofactor. -/
theorem euclid_spec (h : EuclidInv m a oldR r oldS s) (hrounds : r.natAbs < rounds) :
    m ∣ (euclid rounds oldR r oldS s).2 * a - (euclid rounds oldR r oldS s).1 ∧
      |(euclid rounds oldR r oldS s).2| ≤ m := by
  induction rounds generalizing oldR r oldS s with
  | zero => omega
  | succ rounds ih =>
    rw [euclid]
    by_cases hr : r = 0
    · rw [if_pos hr]
      exact ⟨h.dvd_old, h.abs_le⟩
    · rw [if_neg hr]
      apply ih (h.next hr)
      have hless := natAbs_sub_tdiv_mul_lt oldR hr
      omega

/-- Where the words hold the argument and twice the modulus, nothing overflows. -/
theorem euclidChecked_eq (h : EuclidInv m a oldR r oldS s) (hrounds : r.natAbs < rounds)
    (hm : 2 * m < 2 ^ (w - 1)) (holdR : |oldR| < 2 ^ (w - 1)) (hr : |r| < 2 ^ (w - 1)) :
    euclidChecked w rounds oldR r oldS s = some (euclid rounds oldR r oldS s) := by
  induction rounds generalizing oldR r oldS s with
  | zero => omega
  | succ rounds ih =>
    rw [euclid, euclidChecked]
    by_cases hzero : r = 0
    · rw [if_pos hzero, if_pos hzero]
    · rw [if_neg hzero, if_neg hzero]
      obtain ⟨hquot, hproduct, htemp, hproduct', htemp'⟩ := h.words
      have hnonneg := (abs_nonneg s).trans h.abs_s_le
      have hless := natAbs_sub_tdiv_mul_lt oldR hzero
      have hfit : ∀ x : Int, |x| < 2 ^ (w - 1) → signed w x = some x := fun x hx =>
        signed_of_inSigned (inSigned_of_abs_lt hx)
      refine bind_eq_of_some (hfit _ (hquot.trans_lt holdR)) ?_
      refine bind_eq_of_some (hfit _ (hproduct.trans_lt holdR)) ?_
      refine bind_eq_of_some (hfit _ (htemp.trans_lt holdR)) ?_
      refine bind_eq_of_some (hfit _ (hproduct'.trans_lt (by linarith))) ?_
      refine bind_eq_of_some (hfit _ (htemp'.trans_lt hm)) ?_
      exact ih (h.next hzero) (by omega) hr (htemp.trans_lt holdR)

/-- On numbers that are not negative, the loop ends with their greatest common divisor. -/
theorem euclid_fst (hrounds : r.natAbs < rounds) (holdR : 0 ≤ oldR) (hr : 0 ≤ r) :
    (euclid rounds oldR r oldS s).1 = Int.gcd oldR r := by
  induction rounds generalizing oldR r oldS s with
  | zero => omega
  | succ rounds ih =>
    rw [euclid]
    by_cases hzero : r = 0
    · rw [if_pos hzero, hzero, Int.gcd_zero_right, Int.natAbs_of_nonneg holdR]
    · have hless := natAbs_sub_tdiv_mul_lt oldR hzero
      have hmod : oldR - oldR.tdiv r * r = oldR % r := by
        rw [Int.tdiv_eq_ediv_of_nonneg holdR, mul_comm, Int.emod_def]
      rw [hmod] at hless
      rw [if_neg hzero, hmod, ih (by omega) hr (Int.emod_nonneg oldR hzero), Int.gcd_comm,
        Int.gcd_emod]

end Round

end Trelis
