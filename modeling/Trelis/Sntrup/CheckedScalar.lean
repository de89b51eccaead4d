import Trelis.Lib.SignedWord
import Trelis.Sntrup.Scalar

/-!
# Coefficient arithmetic in machine integers

The reductions of `fq.rs` with overflow checks.  The operations that the source
calls with `wrapping_` do not panic, and neither does a cast; every other one
returns its exact result or nothing.
-/

namespace Trelis.Sntrup

/-! ## Modulo `q` -/

/-- `u32_divmod_q`. -/
def u32DivmodQChecked (x : Nat) : Option (Nat × Nat) := do
  let product ← mulWord 64 x vDivQ
  let qpart := u32 (product / 2 ^ 31)
  let part ← mulWord 32 qpart q
  let newX := wrappingSub x part
  let quot ← addWord 32 0 qpart
  let product ← mulWord 64 newX vDivQ
  let qpart := u32 product / 2 ^ 31
  let part ← mulWord 32 qpart q
  let finalX := wrappingSub newX part
  let quot ← addWord 32 quot qpart
  let subX := wrappingSub finalX q
  let quot ← addWord 32 quot 1
  let mask := wrappingSub 0 (subX / 2 ^ 31)
  let addedX := u32 (subX + (mask &&& q))
  let finalQ := u32 (quot + mask)
  pure (finalQ, addedX % 2 ^ 16)

/-- `i32_divmod_q`. -/
def i32DivmodQChecked (x : Int) : Option (Nat × Nat) := do
  let (uq, ur) ← u32DivmodQChecked ((vConst + x) % 2 ^ 32).toNat
  let ur := wrappingSub ur vModQ
  let uq := wrappingSub uq vDivQ
  let mask := if ur / 2 ^ 15 ≠ 0 then 2 ^ 32 - 1 else 0
  pure (u32 (uq + mask), u32 (ur + (mask &&& q)))

/-- `freeze`. -/
def freezeChecked (x : Int) : Option Int := do
  let sum ← signed 32 (x + q12)
  let r ← i32DivmodQChecked sum
  signed 16 ((r.2 : Int).bmod (2 ^ 16) - q12)

/-- The words of the two approximations. -/
theorem approx_lt {x : Nat} (h : x < 2 ^ 32) :
    x * vDivQ < 2 ^ 64 ∧ x * vDivQ / 2 ^ 31 < 935519 := by
  rw [vDivQ_eq]
  omega

theorem quotient_lt {a b : Nat} (ha : a < 935519) (hb : b ≤ 1) :
    a * q < 2 ^ 32 ∧ b * q < 2 ^ 32 ∧ 0 + a < 2 ^ 32 ∧ a + b < 2 ^ 32 ∧ a + b + 1 < 2 ^ 32 := by
  rw [show q = 4591 from rfl]
  omega

theorem u32_div_le (y : Nat) : u32 y / 2 ^ 31 ≤ 1 := by
  rw [u32]
  omega

theorem u32DivmodQChecked_eq {x : Nat} (h : x < 2 ^ 32) :
    u32DivmodQChecked x = some (u32DivmodQ x) := by
  obtain ⟨hproduct, hsmall⟩ := approx_lt h
  have hfirst : u32 (x * vDivQ / 2 ^ 31) = x * vDivQ / 2 ^ 31 :=
    Nat.mod_eq_of_lt (hsmall.trans (by decide))
  have hnew : wrappingSub x (x * vDivQ / 2 ^ 31 * q) < 2 ^ 32 := Nat.mod_lt _ (by decide)
  have hproduct' := (approx_lt hnew).1
  have hlast := u32_div_le (wrappingSub x (x * vDivQ / 2 ^ 31 * q) * vDivQ)
  obtain ⟨hpart, hpart', hquot, hquot', hquot''⟩ := quotient_lt hsmall hlast
  have hu : ∀ n, n < 2 ^ 32 → u32 n = n := fun n hn => Nat.mod_eq_of_lt hn
  rw [u32DivmodQChecked, u32DivmodQ]
  rw [hfirst, hu _ hpart, hu _ hpart', hu _ hquot', hu _ hquot'']
  refine bind_eq_of_some (mulWord_of_lt hproduct) ?_
  rw [hfirst]
  refine bind_eq_of_some (mulWord_of_lt hpart) ?_
  refine bind_eq_of_some (addWord_of_lt hquot) ?_
  rw [Nat.zero_add]
  refine bind_eq_of_some (mulWord_of_lt hproduct') ?_
  refine bind_eq_of_some (mulWord_of_lt hpart') ?_
  refine bind_eq_of_some (addWord_of_lt hquot') ?_
  exact bind_eq_of_some (addWord_of_lt hquot'') rfl

/-- The reduction of a value that `Q12` can be added to. -/
theorem freezeChecked_of_inSigned {x : Int} (h : InSigned 32 (x + q12)) :
    freezeChecked x = some (x.bmod q) := by
  have hfreeze : freeze x = x.bmod q := freeze_eq_bmod h.1 h.2
  have habs := abs_bmod_q_le x
  have hword : ((vConst + (x + q12)) % 2 ^ 32).toNat < 2 ^ 32 := by omega
  have hdivmod : i32DivmodQChecked (x + q12) = some (i32DivmodQ (x + q12)) := by
    rw [i32DivmodQChecked, u32DivmodQChecked_eq hword]
    rfl
  rw [← hfreeze, freeze] at habs ⊢
  rw [freezeChecked, signed_of_inSigned h, Option.bind_eq_bind, Option.bind_some, hdivmod,
    Option.bind_eq_bind, Option.bind_some]
  generalize (i32DivmodQ (x + q12)).2 = r at habs
  rw [q12, abs_le] at habs
  rw [Int.bmod_eq_of_le (by omega) (by omega)]
  apply signed_of_inSigned
  rw [InSigned, q12]
  omega

/-- The reduction panics only when the addition does. -/
theorem freezeChecked_eq_some {x r : Int} :
    freezeChecked x = some r ↔ InSigned 32 (x + q12) ∧ r = x.bmod q := by
  constructor
  · intro hrun
    have hsum : InSigned 32 (x + q12) := by
      rw [freezeChecked, Option.bind_eq_bind, Option.bind_eq_some_iff] at hrun
      obtain ⟨_, hsum, -⟩ := hrun
      exact (signed_eq_some.mp hsum).1
    rw [freezeChecked_of_inSigned hsum, Option.some.injEq] at hrun
    exact ⟨hsum, hrun.symm⟩
  · rintro ⟨hsum, rfl⟩
    exact freezeChecked_of_inSigned hsum

theorem inSigned_add_q12 {x : Int} (h : |x| ≤ 2 ^ 30) : InSigned 32 (x + q12) := by
  rw [abs_le] at h
  rw [InSigned, q12]
  omega

theorem freezeChecked_eq {x : Int} (h : |x| ≤ 2 ^ 29) : freezeChecked x = some (freeze x) := by
  rw [freeze_eq h]
  exact freezeChecked_of_inSigned (inSigned_add_q12 (h.trans (by decide)))

/-! ## Modulo 3 -/

/-- `f3_freeze`. -/
def f3FreezeChecked (a : Int) : Option Int := do
  let product ← signed 32 (10923 * a)
  let part ← signed 32 (3 * (product / 2 ^ 15))
  let b ← signed 32 (a - part)
  let product ← signed 32 (89478485 * b)
  let sum ← signed 32 (product + 134217728)
  let part ← signed 32 (3 * (sum / 2 ^ 28))
  let c ← signed 32 (b - part)
  pure (c.bmod (2 ^ 8))

/-- The words of the two refinements. -/
theorem f3_words {a t : Int} (h : |a| ≤ 2 ^ 13) (ht : 10923 * a / 2 ^ 15 = t) :
    InSigned 32 (10923 * a) ∧ InSigned 32 (3 * t) ∧ InSigned 32 (a - 3 * t) ∧
      -1 ≤ a - 3 * t ∧ a - 3 * t ≤ 3 := by
  rw [abs_le] at h
  simp only [InSigned]
  omega

theorem f3_refined {b u : Int} (h : -1 ≤ b ∧ b ≤ 3) (hu : (89478485 * b + 134217728) / 2 ^ 28 = u) :
    InSigned 32 (89478485 * b) ∧ InSigned 32 (89478485 * b + 134217728) ∧ InSigned 32 (3 * u) ∧
      InSigned 32 (b - 3 * u) ∧ (b - 3 * u).bmod (2 ^ 8) = b - 3 * u := by
  refine ⟨?_, ?_, ?_, ?_, ?_⟩
  · rw [InSigned]
    omega
  · rw [InSigned]
    omega
  · rw [InSigned]
    omega
  · rw [InSigned]
    omega
  · rw [Int.bmod_eq_of_le (by omega) (by omega)]

theorem f3FreezeChecked_eq {a : Int} (h : |a| ≤ 2 ^ 13) :
    f3FreezeChecked a = some (f3Freeze a) := by
  obtain ⟨h1, h2, h3, hrange⟩ := f3_words h rfl
  obtain ⟨h4, h5, h6, h7, hcast⟩ := f3_refined hrange rfl
  rw [f3FreezeChecked, f3Freeze]
  simp only [bind, signed_of_inSigned h1, signed_of_inSigned h2, signed_of_inSigned h3,
    signed_of_inSigned h4, signed_of_inSigned h5, signed_of_inSigned h6, signed_of_inSigned h7,
    Option.bind_some, pure, hcast]

end Trelis.Sntrup
