import Mathlib.Data.ZMod.Basic
import Mathlib.FieldTheory.Finite.Basic
import Mathlib.Tactic.NormNum.Prime
import Trelis.Lib.Barrett

/-!
# Coefficients of sntrup761

The arithmetic modulo `q = 4591` and modulo 3 on machine integers (`fq.rs`, and
the reductions of `poly.rs`).  A value of a `u32` is a natural number with the
wrapping written out; the signed types are integers.

Every reduction of the source is the balanced remainder, `Int.bmod`, on the
range that it is used on: `freeze_eq_bmod`, `f3Freeze_eq`, `reduceModQ_eq` and
`reduceMod3_eq`.  `recip_three` and `recipCt_mul` are the two inversions.
-/

namespace Trelis.Sntrup

/-- `Q`. -/
abbrev q : Nat := 4591

theorem q_prime : q.Prime := by
  show Nat.Prime 4591
  norm_num

instance fact_prime_q : Fact q.Prime := ⟨q_prime⟩

instance fact_prime_three : Fact (Nat.Prime 3) := ⟨Nat.prime_three⟩

/-- `Q12`. -/
def q12 : Int := 2295

/-! ## Unsigned words -/

/-- The value of an expression in a `u32`. -/
def u32 (x : Nat) : Nat := x % 2 ^ 32

/-- `a.wrapping_sub(b)` on `u32`. -/
def wrappingSub (a b : Nat) : Nat := (a + 2 ^ 32 - b) % 2 ^ 32

/-- `V`. -/
def vConst : Nat := 0x80000000

/-- `V_DIV_Q`. -/
def vDivQ : Nat := vConst / q

/-- `V_MOD_Q`. -/
def vModQ : Nat := vConst % q

/-- `u32_divmod_q`. -/
def u32DivmodQ (x : Nat) : Nat × Nat :=
  let qpart := u32 (x * vDivQ / 2 ^ 31)
  let newX := wrappingSub x (u32 (qpart * q))
  let quot := qpart
  let qpart := u32 (newX * vDivQ) / 2 ^ 31
  let finalX := wrappingSub newX (u32 (qpart * q))
  let quot := u32 (quot + qpart)
  let subX := wrappingSub finalX q
  let quot := u32 (quot + 1)
  let mask := wrappingSub 0 (subX / 2 ^ 31)
  let addedX := u32 (subX + (mask &&& q))
  let finalQ := u32 (quot + mask)
  (finalQ, addedX % 2 ^ 16)

/-- `i32_divmod_q`. -/
def i32DivmodQ (x : Int) : Nat × Nat :=
  let (uq, ur) := u32DivmodQ ((vConst + x) % 2 ^ 32).toNat
  let ur := wrappingSub ur vModQ
  let uq := wrappingSub uq vDivQ
  let mask := if ur / 2 ^ 15 ≠ 0 then 2 ^ 32 - 1 else 0
  (u32 (uq + mask), u32 (ur + (mask &&& q)))

/-- `freeze`. -/
def freeze (x : Int) : Int := (i32DivmodQ (x + q12)).2 - q12

theorem vDivQ_eq : vDivQ = 467759 := rfl

theorem vModQ_eq : vModQ = 2079 := rfl

/-- The mask of a borrow selects. -/
theorem mask_and {b m : Nat} (h : b ≤ 1) (hm : m < 2 ^ 32) :
    wrappingSub 0 b &&& m = if b = 1 then m else 0 := by
  obtain rfl | rfl : b = 0 ∨ b = 1 := by omega
  · rw [if_neg Nat.zero_ne_one, show wrappingSub 0 0 = 0 from rfl, Nat.zero_and]
  · rw [if_pos rfl, show wrappingSub 0 1 = 2 ^ 32 - 1 from rfl, Nat.and_comm,
      Nat.and_two_pow_sub_one_of_lt_two_pow hm]

/-- Subtracting a product that is not larger. -/
theorem wrappingSub_mul {x a : Nat} (hx : x < 2 ^ 32) (h : a * 4591 ≤ x) :
    wrappingSub x (u32 (a * q)) = x - a * 4591 := by
  rw [wrappingSub, u32, show q = 4591 from rfl]
  omega

/-- The last correction of a quotient that is at most one too small. -/
theorem correct_eq {z m a : Nat} (hm : 0 < m) (hm14 : m < 16384) (hz : z ≤ m)
    (ha : a + 1 < 2 ^ 32) :
    (u32 (a + 1 + wrappingSub 0 (wrappingSub z m / 2 ^ 31)),
      u32 (wrappingSub z m + (wrappingSub 0 (wrappingSub z m / 2 ^ 31) &&& m)) % 2 ^ 16) =
        if z < m then (a, z) else (a + 1, 0) := by
  have hborrow : wrappingSub z m / 2 ^ 31 = if z < m then 1 else 0 := by
    rw [wrappingSub]
    split <;> omega
  rw [hborrow]
  by_cases hlt : z < m
  · rw [if_pos hlt, if_pos hlt, mask_and le_rfl (by omega), if_pos rfl, Prod.mk.injEq]
    simp only [u32, wrappingSub]
    omega
  · rw [if_neg hlt, if_neg hlt, mask_and (Nat.zero_le 1) (by omega), if_neg Nat.zero_ne_one,
      Prod.mk.injEq]
    simp only [u32, wrappingSub]
    omega

/-- An approximation of the quotient, and what it leaves. -/
theorem estimate_spec {x a c : Nat} (ha : x * 467759 / 2 ^ 31 = a) (h : x * 2079 ≤ c * 2 ^ 31) :
    a * 4591 ≤ x ∧ x - a * 4591 < 4591 + c := by
  rw [show 467759 = 2 ^ 31 / 4591 from rfl] at ha
  rw [← ha]
  exact ⟨barrett_estimate_mul_le, barrett_rest_lt (by decide) h⟩

/-- The product of the second approximation fits in a word, so that the cast before the
shift drops nothing. -/
theorem u32_estimate {y : Nat} (h : y < 4591 + 4158) :
    u32 (y * 467759) / 2 ^ 31 = y * 467759 / 2 ^ 31 := by
  rw [u32]
  omega

/-- The approximation of the quotient is exact after its two refinements. -/
theorem u32DivmodQ_eq {x : Nat} (h : x < 2 ^ 32) : u32DivmodQ x = (x / 4591, x % 4591) := by
  generalize ha : x * 467759 / 2 ^ 31 = a
  obtain ⟨hle, hrest⟩ := estimate_spec ha (show x * 2079 ≤ 4158 * 2 ^ 31 by omega)
  generalize hy : x - a * 4591 = y at hrest
  have hsmall : y * 2079 ≤ 1 * 2 ^ 31 := (Nat.mul_le_mul_right 2079 hrest.le).trans (by decide)
  have hsecond := u32_estimate hrest
  generalize hb : y * 467759 / 2 ^ 31 = b at hsecond
  obtain ⟨hle', hrest'⟩ := estimate_spec hb hsmall
  have hsum : x = y - b * 4591 + (a + b) * 4591 := by omega
  have hword : ∀ n, n < 2 ^ 32 → u32 n = n := fun n hn => Nat.mod_eq_of_lt hn
  have hcorrect := correct_eq (a := a + b) (show 0 < q by decide) (by decide)
    (Nat.le_of_lt_succ hrest') (by omega)
  simp only [u32DivmodQ, vDivQ_eq, ha, hword a (by omega), wrappingSub_mul h hle, hy, hsecond,
    wrappingSub_mul (show y < 2 ^ 32 by omega) hle', hword (a + b) (by omega),
    hword (a + b + 1) (by omega)]
  exact hcorrect.trans (div_mod_of_rest (by decide) hsum (Nat.le_of_lt_succ hrest')).symm

/-- Taking the residue of `V` off again. -/
theorem sub_vModQ {t : Nat} (h : t < 4591) :
    u32 (wrappingSub t 2079 +
      ((if wrappingSub t 2079 / 2 ^ 15 ≠ 0 then 2 ^ 32 - 1 else 0) &&& q)) =
      (t + 2512) % 4591 := by
  have hborrow : wrappingSub t 2079 / 2 ^ 15 ≠ 0 ↔ t < 2079 := by
    rw [wrappingSub]
    omega
  have hmask : (2 ^ 32 - 1) &&& q = 4591 := by decide
  by_cases hlt : t < 2079
  · rw [if_pos (hborrow.mpr hlt), hmask, u32, wrappingSub]
    omega
  · rw [if_neg (hborrow.not.mpr hlt), Nat.zero_and, u32, wrappingSub]
    omega

/-- The balanced remainder, moved to the positive side and back. -/
theorem bmod_eq_sub (x : Int) : x.bmod q = (x + 2295) % 4591 - 2295 := by
  show (if x % (4591 : Nat) < (((4591 : Nat) : Int) + 1) / 2 then x % (4591 : Nat) else
    x % (4591 : Nat) - (4591 : Nat)) = _
  split <;> omega

/-- `freeze` is the balanced remainder of every value that `Q12` can be added to. -/
theorem freeze_eq_bmod {x : Int} (hlo : -2 ^ 31 ≤ x + q12) (hhi : x + q12 < 2 ^ 31) :
    freeze x = x.bmod q := by
  rw [q12] at hlo hhi
  have hword : (((vConst : Int) + (x + q12)) % 2 ^ 32).toNat =
      (2147483648 + x + 2295).toNat := by
    rw [vConst, q12]
    omega
  have hdivmod := u32DivmodQ_eq (show (2147483648 + x + 2295).toNat < 2 ^ 32 by omega)
  have hlt : (2147483648 + x + 2295).toNat % 4591 < 4591 := Nat.mod_lt _ (by decide)
  rw [freeze, i32DivmodQ, hword, hdivmod]
  show ((u32 (wrappingSub ((2147483648 + x + 2295).toNat % 4591) vModQ + _) : Nat) : Int) - q12 = _
  rw [vModQ_eq, sub_vModQ hlt, bmod_eq_sub, q12]
  omega

theorem freeze_eq {x : Int} (h : |x| ≤ 2 ^ 29) : freeze x = x.bmod q := by
  obtain ⟨hlo, hhi⟩ := abs_le.mp h
  apply freeze_eq_bmod
  · rw [q12]
    omega
  · rw [q12]
    omega

/-! ## Reductions that divide -/

/-- `reduce_mod_q`. -/
def reduceModQ (x : Int) : Int :=
  let r := x.tmod q
  if r > 2295 then r - q else if r < -2295 then r + q else r

theorem reduceModQ_eq (x : Int) : reduceModQ x = x.bmod q := by
  rw [bmod_eq_sub, reduceModQ]
  show (if x.tmod (4591 : Nat) > 2295 then x.tmod (4591 : Nat) - (4591 : Nat) else
    if x.tmod (4591 : Nat) < -2295 then x.tmod (4591 : Nat) + (4591 : Nat) else
      x.tmod (4591 : Nat)) = _
  rw [Int.tmod_eq_emod]
  split
  · split
    · omega
    · split <;> omega
  · split
    · omega
    · split <;> omega

/-- `reduce_mod_3`. -/
def reduceMod3 (x : Int) : Int :=
  if x % 3 = 0 then 0 else if x % 3 = 1 then 1 else -1

theorem bmod_three (x : Int) : x.bmod 3 = if x % 3 < 2 then x % 3 else x % 3 - 3 := rfl

theorem reduceMod3_eq (x : Int) : reduceMod3 x = x.bmod 3 := by
  rw [bmod_three, reduceMod3]
  split
  · split <;> omega
  · split
    · split <;> omega
    · split <;> omega

/-- `f3_freeze`. -/
def f3Freeze (a : Int) : Int :=
  let b := a - 3 * (10923 * a / 2 ^ 15)
  b - 3 * ((89478485 * b + 134217728) / 2 ^ 28)

theorem f3Freeze_eq {a : Int} (h : |a| ≤ 2 ^ 13) : f3Freeze a = a.bmod 3 := by
  obtain ⟨hlo, hhi⟩ := abs_le.mp h
  rw [bmod_three, f3Freeze]
  split <;> omega

/-! ## Balanced remainders as residues -/

theorem cast_bmod (x : Int) (n : Nat) : ((x.bmod n : Int) : ZMod n) = x := by
  have h := Int.bmod_emod (x := x) (m := n)
  rw [← ZMod.intCast_mod (x.bmod n) n, h, ZMod.intCast_mod]

theorem abs_bmod_q_le (x : Int) : |x.bmod q| ≤ 2295 := by
  rw [bmod_eq_sub, abs_le]
  omega

theorem abs_bmod_three_le (x : Int) : |x.bmod 3| ≤ 1 := by
  rw [bmod_three, abs_le]
  split <;> omega

/-- A balanced value is determined by its residue. -/
theorem eq_of_cast_q_eq {x y : Int} (hx : |x| ≤ 2295) (hy : |y| ≤ 2295)
    (h : (x : ZMod q) = y) : x = y := by
  obtain ⟨d, hd⟩ := (ZMod.intCast_eq_intCast_iff_dvd_sub x y q).mp h
  rw [abs_le] at hx hy
  rw [show (q : Int) = 4591 from rfl] at hd
  omega

theorem eq_of_cast_three_eq {x y : Int} (hx : |x| ≤ 1) (hy : |y| ≤ 1)
    (h : (x : ZMod 3) = y) : x = y := by
  have hdvd := (ZMod.intCast_eq_intCast_iff_dvd_sub x y 3).mp h
  rw [abs_le] at hx hy
  omega

theorem cast_freeze {x : Int} (h : |x| ≤ 2 ^ 29) : ((freeze x : Int) : ZMod q) = x := by
  rw [freeze_eq h, cast_bmod]

theorem abs_freeze_le {x : Int} (h : |x| ≤ 2 ^ 29) : |freeze x| ≤ 2295 := by
  rw [freeze_eq h]
  exact abs_bmod_q_le x

/-! ## Inverses -/

/-- The loop of `recip`.  Every round makes `r` smaller, so that `r` rounds are
enough. -/
def recipLoop : Nat → Int → Int → Int → Int → Int
  | 0, _, _, oldS, _ => oldS
  | rounds + 1, oldR, r, oldS, s =>
    if r = 0 then oldS
    else
      let quotient := oldR.tdiv r
      recipLoop rounds r (oldR - quotient * r) s (oldS - quotient * s)

/-- `recip`. -/
def recip (a : Int) : Int :=
  let aPos := if a < 0 then a + q else a
  freeze (recipLoop (aPos.toNat + 1) q aPos 0 1)

/-- The inverse of the only ratio that keys use. -/
theorem recip_three : recip 3 = -1530 := by decide

/-- A round of `recip_ct`: the bit of the exponent decides whether the base is
multiplied in, and the base is squared. -/
def recipCtRound (bit : Nat) (s : Int × Int) : Int × Int :=
  (if bit = 1 then freeze (s.1 * s.2) else freeze s.1, freeze (s.2 * s.2))

/-- The rounds of `recip_ct`, from the lowest bit of the exponent on. -/
def recipCtLoop : Nat → Nat → Int × Int → Int × Int
  | 0, _, s => s
  | bits + 1, exp, s => recipCtLoop bits (exp / 2) (recipCtRound (exp % 2) s)

/-- `recip_ct`.  The round of the highest bit does not square. -/
def recipCt (a : Int) : Int :=
  let aPos := if a < 0 then a + q else a
  let s := recipCtLoop 12 4589 (1, aPos)
  freeze (s.1 * s.2)

theorem abs_mul_le_of {x y : Int} (hx : |x| ≤ 4591) (hy : |y| ≤ 4591) : |x * y| ≤ 2 ^ 29 := by
  rw [abs_mul]
  exact (mul_le_mul hx hy (abs_nonneg y) (by norm_num)).trans (by norm_num)

/-- What a round keeps: both values are small, and stand for a product of powers
of the base. -/
theorem recipCtRound_spec {bit : Nat} {s : Int × Int} (hbit : bit < 2) (h1 : |s.1| ≤ 4591)
    (h2 : |s.2| ≤ 4591) :
    |(recipCtRound bit s).1| ≤ 4591 ∧ |(recipCtRound bit s).2| ≤ 4591 ∧
      ((recipCtRound bit s).1 : ZMod q) = s.1 * s.2 ^ bit ∧
      ((recipCtRound bit s).2 : ZMod q) = s.2 ^ 2 := by
  have hmul := abs_mul_le_of h1 h2
  have hsquare := abs_mul_le_of h2 h2
  have hone : |s.1| ≤ 2 ^ 29 := h1.trans (by norm_num)
  refine ⟨?_, (abs_freeze_le hsquare).trans (by norm_num), ?_, ?_⟩
  · rw [recipCtRound]
    split
    · exact (abs_freeze_le hmul).trans (by norm_num)
    · exact (abs_freeze_le hone).trans (by norm_num)
  · rw [recipCtRound]
    obtain rfl | rfl : bit = 0 ∨ bit = 1 := by omega
    · rw [if_neg Nat.zero_ne_one, cast_freeze hone, pow_zero, mul_one]
    · rw [if_pos rfl, cast_freeze hmul, pow_one, Int.cast_mul]
  · rw [recipCtRound, cast_freeze hsquare, Int.cast_mul, pow_two]

theorem recipCtLoop_spec (bits exp : Nat) {s : Int × Int} (h1 : |s.1| ≤ 4591)
    (h2 : |s.2| ≤ 4591) :
    |(recipCtLoop bits exp s).1| ≤ 4591 ∧ |(recipCtLoop bits exp s).2| ≤ 4591 ∧
      ((recipCtLoop bits exp s).1 : ZMod q) = s.1 * s.2 ^ (exp % 2 ^ bits) ∧
      ((recipCtLoop bits exp s).2 : ZMod q) = s.2 ^ 2 ^ bits := by
  induction bits generalizing exp s with
  | zero => simp [recipCtLoop, h1, h2, Nat.mod_one]
  | succ bits ih =>
    obtain ⟨hsmall1, hsmall2, hcast1, hcast2⟩ :=
      recipCtRound_spec (Nat.mod_lt exp two_pos) h1 h2
    obtain ⟨hih1, hih2, hih3, hih4⟩ := ih (exp / 2) hsmall1 hsmall2
    have hexp : exp % 2 ^ (bits + 1) = exp % 2 + 2 * (exp / 2 % 2 ^ bits) := by
      rw [pow_succ', Nat.mod_mul]
    rw [recipCtLoop]
    refine ⟨hih1, hih2, ?_, ?_⟩
    · rw [hih3, hcast1, hcast2, hexp, pow_add, pow_mul, mul_assoc]
    · rw [hih4, hcast2, ← pow_mul, pow_succ']

/-- `recip_ct` inverts every nonzero residue. -/
theorem recipCt_mul {a : Int} (ha : |a| ≤ 2295) (hne : (a : ZMod q) ≠ 0) :
    |recipCt a| ≤ 2295 ∧ ((recipCt a : Int) : ZMod q) * a = 1 := by
  obtain ⟨hlo, hhi⟩ := abs_le.mp ha
  have hcast : (((if a < 0 then a + q else a : Int)) : ZMod q) = a := by
    split
    · rw [Int.cast_add, Int.cast_natCast, ZMod.natCast_self, add_zero]
    · rfl
  have hpos : |if a < 0 then a + q else a| ≤ 4591 := by
    rw [abs_le, show (q : Int) = 4591 from rfl]
    split <;> omega
  rw [recipCt]
  generalize (if a < 0 then a + q else a) = aPos at hcast hpos
  obtain ⟨h1, h2, h3, h4⟩ := recipCtLoop_spec 12 4589 (s := (1, aPos)) (by norm_num) hpos
  have hmul := abs_mul_le_of h1 h2
  refine ⟨abs_freeze_le hmul, ?_⟩
  rw [cast_freeze hmul, Int.cast_mul, h3, h4, hcast, Int.cast_one, one_mul, ← pow_add, ← pow_succ]
  exact ZMod.pow_card_sub_one_eq_one hne

end Trelis.Sntrup
