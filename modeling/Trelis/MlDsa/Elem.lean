import Mathlib.Data.ZMod.Basic
import Trelis.Lib.Barrett
import Trelis.MlDsa.Param

/-!
# Field elements of ML-DSA

`Elem` of `mldsa_core/module_lattice/algebra.rs` over the base field of
`mldsa_core/algebra.rs`: an integer below `Q`, with one conditional subtraction
after an addition and a Barrett reduction after a multiplication.

The operations are those of `ZMod q` (`toZMod_add` and its neighbours), so that
the elements form a commutative ring.

Two integers stand for an element.  `x.val` is the one that the source holds,
and `x.toInt` the one of least absolute value; `infinityNorm` is the size of the
latter (`infinityNorm_eq`), and `toInt_eq_of_cast` finds it from a congruence.
-/

namespace Trelis.MlDsa

instance neZero_q : NeZero q := ⟨q_pos.ne'⟩

/-- `Elem`: a member of the base field. -/
structure Elem where
  val : Nat
  lt : val < q
deriving DecidableEq

namespace Elem

/-- `Elem::new`.  The source wraps the number as it is; all the numbers that it
wraps are below `Q`, except for `Q` itself in `mod_plus_minus::<SpecQ>`, where a
subtraction reduces it. -/
def new (x : Nat) : Elem := ⟨x % q, Nat.mod_lt x q_pos⟩

/-- `BaseField::small_reduce`. -/
def smallReduce (x : Nat) (h : x < 2 * q) : Elem :=
  ⟨if x < q then x else x - q, by split <;> omega⟩

/-- `BARRETT_SHIFT`. -/
def barrettShift : Nat := 2 * (q.log2 + 1)

theorem mul_val_lt (x y : Elem) : x.val * y.val < 2 ^ barrettShift := by
  have h : x.val * y.val < q * q := Nat.mul_lt_mul'' x.lt y.lt
  exact h.trans_le (by decide +kernel)

instance : Zero Elem := ⟨new 0⟩

instance : One Elem := ⟨new 1⟩

instance : Add Elem :=
  ⟨fun x y => smallReduce (x.val + y.val) (by have hx := x.lt; have hy := y.lt; omega)⟩

instance : Sub Elem := ⟨fun x y => smallReduce (x.val + q - y.val) (by have hx := x.lt; omega)⟩

instance : Neg Elem := ⟨fun x => smallReduce (q - x.val) (by have hq := q_pos; omega)⟩

/-- `BaseField::barrett_reduce` of the product. -/
instance : Mul Elem :=
  ⟨fun x y => ⟨barrettReduce q barrettShift (x.val * y.val), by
    rw [barrettReduce_eq q_pos (mul_val_lt x y)]
    exact Nat.mod_lt _ q_pos⟩⟩

@[ext] theorem ext {x y : Elem} (h : x.val = y.val) : x = y := by
  cases x
  cases y
  congr

@[simp] theorem val_new (x : Nat) : (new x).val = x % q := rfl

theorem val_new_of_lt {x : Nat} (h : x < q) : (new x).val = x := Nat.mod_eq_of_lt h

theorem new_val (x : Elem) : new x.val = x := ext (Nat.mod_eq_of_lt x.lt)

theorem val_smallReduce {x : Nat} (h : x < 2 * q) : (smallReduce x h).val = x % q := by
  show (if x < q then x else x - q) = x % q
  by_cases hlt : x < q
  · rw [if_pos hlt, Nat.mod_eq_of_lt hlt]
  · rw [if_neg hlt, Nat.mod_eq_sub_mod (Nat.not_lt.mp hlt), Nat.mod_eq_of_lt (by omega)]

theorem val_add (x y : Elem) : (x + y).val = (x.val + y.val) % q := val_smallReduce _

theorem val_sub (x y : Elem) : (x - y).val = (x.val + q - y.val) % q := val_smallReduce _

theorem val_neg (x : Elem) : (-x).val = (q - x.val) % q := val_smallReduce _

theorem val_mul (x y : Elem) : (x * y).val = x.val * y.val % q :=
  barrettReduce_eq q_pos (mul_val_lt x y)

-- The ring operations are known by their values; unification is not to compute with them.
attribute [irreducible] new smallReduce

theorem val_zero : (0 : Elem).val = 0 := (val_new 0).trans (Nat.zero_mod q)

theorem val_one : (1 : Elem).val = 1 := by decide +kernel

/-! ## The ring -/

/-- The residue class of an element. -/
def toZMod (x : Elem) : ZMod q := x.val

theorem toZMod_new (x : Nat) : toZMod (new x) = x := by
  rw [toZMod, val_new]
  exact ZMod.natCast_mod x q

theorem toZMod_injective : Function.Injective toZMod := by
  intro x y h
  have hmod : x.val % q = y.val % q := (ZMod.natCast_eq_natCast_iff' _ _ _).mp h
  rw [Nat.mod_eq_of_lt x.lt, Nat.mod_eq_of_lt y.lt] at hmod
  exact ext hmod

/-- An element with the residue class of a number. -/
theorem toZMod_of_val {x : Elem} {n : Nat} (h : x.val = n % q) : toZMod x = n := by
  rw [toZMod, h]
  exact ZMod.natCast_mod n q

theorem toZMod_zero : toZMod 0 = 0 := by rw [toZMod, val_zero, Nat.cast_zero]

theorem toZMod_one : toZMod 1 = 1 := by
  rw [toZMod, val_one, Nat.cast_one]

theorem toZMod_add (x y : Elem) : toZMod (x + y) = toZMod x + toZMod y := by
  rw [toZMod_of_val (val_add x y), Nat.cast_add]
  rfl

theorem toZMod_sub (x y : Elem) : toZMod (x - y) = toZMod x - toZMod y := by
  have hle : y.val ≤ x.val + q := by
    have hy := y.lt
    omega
  rw [toZMod_of_val (val_sub x y), Nat.cast_sub hle, Nat.cast_add, ZMod.natCast_self, add_zero]
  rfl

theorem toZMod_neg (x : Elem) : toZMod (-x) = -toZMod x := by
  rw [toZMod_of_val (val_neg x), Nat.cast_sub x.lt.le, ZMod.natCast_self, zero_sub]
  rfl

theorem toZMod_mul (x y : Elem) : toZMod (x * y) = toZMod x * toZMod y := by
  rw [toZMod_of_val (val_mul x y), Nat.cast_mul]
  rfl

instance : NatCast Elem := ⟨new⟩

instance : IntCast Elem := ⟨fun n => new (n % q).toNat⟩

instance : SMul Nat Elem := ⟨fun n x => new n * x⟩

instance : SMul Int Elem := ⟨fun n x => (n : Elem) * x⟩

instance : Pow Elem Nat := ⟨fun x n => npowRec n x⟩

theorem toZMod_intCast (n : Int) : toZMod (n : Elem) = n := by
  have hpos : (0 : Int) < q := Int.natCast_pos.mpr q_pos
  have hcast : (((n % q).toNat : Nat) : Int) = n % q :=
    Int.toNat_of_nonneg (Int.emod_nonneg n hpos.ne')
  show toZMod (new (n % q).toNat) = n
  rw [toZMod_new, ← Int.cast_natCast, hcast]
  exact ZMod.intCast_mod n q

theorem toZMod_npow (x : Elem) (n : Nat) : toZMod (x ^ n) = toZMod x ^ n := by
  show toZMod (npowRec n x) = toZMod x ^ n
  induction n with
  | zero => exact toZMod_one.trans (pow_zero _).symm
  | succ n ih => rw [npowRec, toZMod_mul, ih, pow_succ]

instance : CommRing Elem :=
  toZMod_injective.commRing toZMod toZMod_zero toZMod_one toZMod_add toZMod_mul toZMod_neg
    toZMod_sub (fun n x => by
      show toZMod (new n * x) = n • toZMod x
      rw [toZMod_mul, toZMod_new, nsmul_eq_mul])
    (fun n x => by
      show toZMod ((n : Elem) * x) = n • toZMod x
      rw [toZMod_mul, toZMod_intCast, zsmul_eq_mul])
    toZMod_npow toZMod_new toZMod_intCast

theorem intCast_eq_iff {m n : Int} : (m : Elem) = (n : Elem) ↔ (q : Int) ∣ n - m := by
  rw [← toZMod_injective.eq_iff, toZMod_intCast, toZMod_intCast,
    ZMod.intCast_eq_intCast_iff_dvd_sub]

theorem natCast_val (x : Elem) : ((x.val : Nat) : Elem) = x := new_val x

theorem new_eq_natCast (n : Nat) : new n = (n : Elem) := rfl

/-! ## Representatives -/

/-- The representative of least absolute value. -/
def toInt (x : Elem) : Int := if x.val ≤ q / 2 then x.val else x.val - q

/-- `infinity_norm` of an element. -/
def infinityNorm (x : Elem) : Nat := if x.val ≤ q >>> 1 then x.val else q - x.val

theorem intCast_toInt (x : Elem) : ((x.toInt : Int) : Elem) = x := by
  unfold toInt
  split
  · rw [Int.cast_natCast, natCast_val]
  · have hq : ((q : Nat) : Elem) = 0 :=
      ext ((val_new q).trans ((Nat.mod_self q).trans val_zero.symm))
    rw [Int.cast_sub, Int.cast_natCast, Int.cast_natCast, natCast_val, hq, sub_zero]

theorem infinityNorm_eq (x : Elem) : (x.infinityNorm : Int) = |x.toInt| := by
  have hlt := x.lt
  have hq := q_eq
  simp only [infinityNorm, toInt, Nat.shiftRight_eq_div_pow, Nat.pow_one]
  split
  · rw [Nat.abs_cast]
  · rw [abs_of_neg (by omega)]
    omega

/-- The element of a small integer stands for it. -/
theorem toInt_eq_of_cast {x : Elem} {n : Int} (hx : x = (n : Elem)) (hn : 2 * |n| < q) :
    x.toInt = n := by
  have hdvd : (q : Int) ∣ n - x.toInt := by
    rw [← intCast_eq_iff, intCast_toInt]
    exact hx
  have hlt := x.lt
  have hq := q_eq
  have hbound : 2 * |x.toInt| < q := by
    rw [← infinityNorm_eq, infinityNorm]
    split <;> omega
  have hdiff : |n - x.toInt| < q := by
    have htri : |n - x.toInt| ≤ |n| + |x.toInt| := abs_sub n x.toInt
    omega
  have hzero := Int.eq_zero_of_abs_lt_dvd hdvd hdiff
  omega

/-- The representative of least absolute value is the one of least absolute value. -/
theorem infinityNorm_le_of_cast {x : Elem} {n : Int} (hx : x = (n : Elem)) :
    (x.infinityNorm : Int) ≤ |n| := by
  have hdvd : (q : Int) ∣ n - x.toInt := by
    rw [← intCast_eq_iff, intCast_toInt]
    exact hx
  have hbound : 2 * |x.toInt| < q := by
    have hlt := x.lt
    have hq := q_eq
    rw [← infinityNorm_eq, infinityNorm]
    split <;> omega
  rw [infinityNorm_eq]
  by_cases hzero : n - x.toInt = 0
  · rw [show n = x.toInt by omega]
  · have hle : (q : Int) ≤ |n - x.toInt| := by
      rw [Int.abs_eq_natAbs]
      exact_mod_cast Nat.le_of_dvd (Int.natAbs_pos.mpr hzero) (Int.natCast_dvd.mp hdvd)
    have htri : |n - x.toInt| ≤ |n| + |x.toInt| := abs_sub n x.toInt
    omega

theorem infinityNorm_zero : (0 : Elem).infinityNorm = 0 := by
  rw [infinityNorm, val_zero, if_pos (Nat.zero_le _)]

theorem infinityNorm_add_le (x y : Elem) :
    (x + y).infinityNorm ≤ x.infinityNorm + y.infinityNorm := by
  have hsum : x + y = ((x.toInt + y.toInt : Int) : Elem) := by
    rw [Int.cast_add, intCast_toInt, intCast_toInt]
  have hle := (infinityNorm_le_of_cast hsum).trans (abs_add_le _ _)
  rw [← infinityNorm_eq, ← infinityNorm_eq] at hle
  exact_mod_cast hle

theorem infinityNorm_mul_le (x y : Elem) :
    (x * y).infinityNorm ≤ x.infinityNorm * y.infinityNorm := by
  have hprod : x * y = ((x.toInt * y.toInt : Int) : Elem) := by
    rw [Int.cast_mul, intCast_toInt, intCast_toInt]
  have hle := infinityNorm_le_of_cast hprod
  rw [abs_mul, ← infinityNorm_eq, ← infinityNorm_eq] at hle
  exact_mod_cast hle

theorem infinityNorm_neg (x : Elem) : (-x).infinityNorm = x.infinityNorm := by
  have hle (x : Elem) : (-x).infinityNorm ≤ x.infinityNorm := by
    have hneg : -x = ((-x.toInt : Int) : Elem) := by rw [Int.cast_neg, intCast_toInt]
    have habs := infinityNorm_le_of_cast hneg
    rw [abs_neg, ← infinityNorm_eq] at habs
    exact_mod_cast habs
  have hback := hle (-x)
  rw [neg_neg] at hback
  exact Nat.le_antisymm (hle x) hback

end Elem

end Trelis.MlDsa
