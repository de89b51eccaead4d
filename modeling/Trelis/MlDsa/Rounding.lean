import Mathlib.Tactic.Linarith
import Mathlib.Tactic.Ring
import Trelis.MlDsa.Elem

/-!
# Rounding and hints of one coefficient

`mod_plus_minus`, `power2round` and `decompose` of `mldsa_core/algebra.rs`, and
`make_hint` and `use_hint` of `mldsa_core/hint.rs`, on one field element.

`Decomposed alpha m x k e` says that `x` is `k * alpha + e` with `k` below `m` and
`e` within half of `alpha`; the top of the field, which would be the multiple `m`,
belongs to the multiple `0`.  Every element has exactly one such form, and
`decompose` finds it (`decompose_eq`).  The rest follows from the form:

* an addend that leaves the low part within its range leaves the high part alone
  (`highBits_add_of_lt`);
* a hint restores the high part of a sum from one summand
  (`useHint_makeHint`), and `useHint_makeHint_iff` says where it does not when the
  addend is as large as `gamma2`.
-/

namespace Trelis.MlDsa

namespace Elem

/-- `BarrettReduce::reduce`. -/
def reduce (m x : Nat) : Nat := barrettReduce m (2 * (m.log2 + 1)) x

/-- `mod_plus_minus`. -/
def modPlusMinus (m : Nat) (x : Elem) : Elem :=
  let rawMod := new (reduce m x.val)
  if rawMod.val ≤ m >>> 1 then rawMod else rawMod - new m

/-- `power2round`: the high part and the low part. -/
def power2round (x : Elem) : Elem × Elem :=
  let r0 := x.modPlusMinus (1 <<< specD)
  (new ((x - r0).val >>> specD), r0)

/-- `decompose`: the high part and the low part. -/
def decompose (twoGamma2 : Nat) (x : Elem) : Elem × Elem :=
  let r0 := x.modPlusMinus twoGamma2
  (if x - r0 = new (q - 1) then new 0 else new ((x - r0).val / twoGamma2),
    if x - r0 = new (q - 1) then r0 - new 1 else r0)

/-- `high_bits`. -/
def highBits (twoGamma2 : Nat) (x : Elem) : Elem := (x.decompose twoGamma2).1

/-- `low_bits`. -/
def lowBits (twoGamma2 : Nat) (x : Elem) : Elem := (x.decompose twoGamma2).2

/-- `make_hint`. -/
def makeHint (twoGamma2 : Nat) (z r : Elem) : Bool :=
  r.highBits twoGamma2 != (r + z).highBits twoGamma2

/-- `use_hint`.  The source has one more case, a hint on a low part in neither
range, which is `unreachable!`; `decompose_range` says that it is. -/
def useHint (twoGamma2 : Nat) (h : Bool) (r : Elem) : Elem :=
  let m := (q - 1) / twoGamma2
  let (r1, r0) := r.decompose twoGamma2
  if h ∧ r0.val ≤ twoGamma2 / 2 then new ((r1.val + 1) % m)
  else if h then new ((r1.val + m - 1) % m)
  else r1

/-! ## Remainders -/

/-- The multiples of `alpha` divide the field, less its top element, in `m` even
parts. -/
structure Grid (alpha m : Nat) : Prop where
  mul_eq : alpha * m + 1 = q
  two_dvd : 2 ∣ alpha
  one_lt : 1 < m
  le_shift : q ≤ 2 ^ (2 * (alpha.log2 + 1))

theorem grid_specD : Grid (1 <<< specD) 1023 :=
  ⟨by decide +kernel, by decide, by decide, by decide +kernel⟩

theorem grid_twoGamma2 (p : ParameterSet) : Grid p.twoGamma2 ((q - 1) / p.twoGamma2) := by
  cases p <;> exact ⟨by decide +kernel, by decide +kernel, by decide +kernel, by decide +kernel⟩

section

variable {alpha m : Nat}

theorem Grid.pos (h : Grid alpha m) : 0 < alpha := by
  have hq := q_pos
  have hmul := h.mul_eq
  rcases Nat.eq_zero_or_pos alpha with h0 | h0
  · rw [h0, Nat.zero_mul, q_eq] at hmul
    omega
  · exact h0

theorem Grid.lt (h : Grid alpha m) : alpha < q := by
  have hle : alpha * 1 ≤ alpha * m := Nat.mul_le_mul_left _ h.one_lt.le
  have hmul := h.mul_eq
  omega

theorem reduce_eq (h : Grid alpha m) (x : Elem) : reduce alpha x.val = x.val % alpha :=
  barrettReduce_eq h.pos (x.lt.trans_le h.le_shift)

/-- `mod_plus_minus` is the remainder of least absolute value. -/
theorem modPlusMinus_spec (h : Grid alpha m) (x : Elem) :
    ∃ (k : Nat) (c : Int), k ≤ m ∧ -alpha < 2 * c ∧ 2 * c ≤ alpha ∧
      (x.val : Int) = k * alpha + c ∧ x.modPlusMinus alpha = (c : Elem) := by
  have hlt := x.lt
  have hpos := h.pos
  have hmod : x.val % alpha < alpha := Nat.mod_lt _ hpos
  have hdiv := Nat.div_add_mod x.val alpha
  have hraw : (new (reduce alpha x.val)).val = x.val % alpha := by
    rw [reduce_eq h, val_new_of_lt (hmod.trans h.lt)]
  have hquot : x.val / alpha ≤ m := by
    have hle : alpha * (x.val / alpha) < alpha * (m + 1) := by
      have hmul := h.mul_eq
      rw [Nat.mul_add, Nat.mul_one]
      omega
    exact Nat.le_of_lt_succ (Nat.lt_of_mul_lt_mul_left hle)
  simp only [modPlusMinus, hraw, Nat.shiftRight_eq_div_pow, Nat.pow_one]
  have hcast : new (reduce alpha x.val) = ((x.val % alpha : Nat) : Elem) := by
    rw [reduce_eq h, new_eq_natCast]
  have heven := h.two_dvd
  by_cases hle : x.val % alpha ≤ alpha / 2
  · refine ⟨x.val / alpha, (x.val % alpha : Nat), hquot, by omega, by omega, ?_, ?_⟩
    · rw [Int.mul_comm]
      exact_mod_cast hdiv.symm
    · rw [if_pos hle, hcast, Int.cast_natCast]
  · refine ⟨x.val / alpha + 1, (x.val % alpha : Nat) - alpha, ?_, by omega, by omega, ?_, ?_⟩
    · -- A remainder leaves no room for the last multiple, which is the top of the field.
      rcases Nat.lt_or_ge (x.val / alpha) m with hq | hq
      · exact hq
      · have hle : alpha * m ≤ alpha * (x.val / alpha) := Nat.mul_le_mul_left _ hq
        have hmul := h.mul_eq
        omega
    · have hcastdiv : ((alpha * (x.val / alpha) + x.val % alpha : Nat) : Int) = x.val := by
        rw [hdiv]
      rw [Nat.cast_add, Nat.cast_mul] at hcastdiv
      rw [Nat.cast_add, Nat.cast_one, Int.add_mul, Int.one_mul, Int.mul_comm]
      omega
    · rw [if_neg hle, hcast, Int.cast_sub, Int.cast_natCast, Int.cast_natCast]
      rfl

/-- The difference from the remainder is the multiple. -/
theorem val_sub_modPlusMinus {x : Elem} {k : Nat} {c : Int} (h : Grid alpha m) (hk : k ≤ m)
    (hval : (x.val : Int) = k * alpha + c) (hc : x.modPlusMinus alpha = (c : Elem)) :
    (x - x.modPlusMinus alpha).val = k * alpha := by
  have hlt : k * alpha < q := by
    have hle : k * alpha ≤ m * alpha := Nat.mul_le_mul_right _ hk
    have hmul := h.mul_eq
    rw [Nat.mul_comm] at hmul
    omega
  have heq : x - x.modPlusMinus alpha = new (k * alpha) := by
    rw [hc, sub_eq_iff_eq_add, new_eq_natCast, ← natCast_val x, ← Int.cast_natCast x.val, hval]
    push_cast
    ring
  rw [heq, val_new_of_lt hlt]

/-- The two parts of `power2round` make up the element. -/
theorem power2round_eq (x : Elem) :
    new (1 <<< specD) * x.power2round.1 + x.power2round.2 = x := by
  rcases modPlusMinus_spec grid_specD x with ⟨k, c, hk, _, _, hval, hc⟩
  have hsub := val_sub_modPlusMinus grid_specD hk hval hc
  have hshift : (k * (1 <<< specD)) >>> specD = k := by
    rw [Nat.shiftLeft_eq, Nat.one_mul, Nat.shiftRight_eq_div_pow,
      Nat.mul_div_cancel _ (Nat.two_pow_pos _)]
  simp only [power2round, hsub, hshift]
  generalize 1 <<< specD = alpha at hval hc ⊢
  rw [hc, new_eq_natCast, new_eq_natCast, ← natCast_val x, ← Int.cast_natCast x.val, hval]
  push_cast
  ring

/-! ## Decomposition -/

/-- The element is `k * alpha + e`, with `e` within half of `alpha`; half of
`alpha` below a multiple belongs to the multiple before, if there is one. -/
structure Decomposed (alpha m : Nat) (x : Elem) (k : Nat) (e : Int) : Prop where
  lt : k < m
  lower : -alpha ≤ 2 * e
  lower_lt : k ≠ 0 → -alpha < 2 * e
  upper : 2 * e ≤ alpha
  eq : x = ((k * alpha + e : Int) : Elem)

/-- `decompose` finds a form of its argument. -/
theorem decompose_spec (h : Grid alpha m) (x : Elem) :
    ∃ k e, Decomposed alpha m x k e ∧ x.decompose alpha = (new k, (e : Elem)) := by
  rcases modPlusMinus_spec h x with ⟨k, c, hk, hlower, hupper, hval, hc⟩
  have hsub := val_sub_modPlusMinus h hk hval hc
  have hmul := h.mul_eq
  have hpos := h.pos
  have hone := h.one_lt
  have hx : x = ((k * alpha + c : Int) : Elem) := by
    rw [← hval, Int.cast_natCast, natCast_val]
  have htop : x - x.modPlusMinus alpha = new (q - 1) ↔ k = m := by
    have hlast : (new (q - 1)).val = m * alpha := by
      rw [val_new_of_lt (by omega), Nat.mul_comm]
      omega
    rw [Elem.ext_iff, hsub, hlast]
    exact ⟨fun heq => Nat.eq_of_mul_eq_mul_right hpos heq, fun heq => by rw [heq]⟩
  by_cases hkm : k = m
  · refine ⟨0, c - 1, ⟨by omega, ?_, fun h0 => absurd rfl h0, by omega, ?_⟩, ?_⟩
    · have heven := h.two_dvd
      omega
    · -- The multiple `m` is the top element, which is `-1`.
      rw [hx, hkm, intCast_eq_iff]
      refine ⟨-1, ?_⟩
      have hcast : ((alpha * m + 1 : Nat) : Int) = q := by rw [hmul]
      push_cast at hcast ⊢
      linarith
    · simp only [decompose, if_pos (htop.mpr hkm)]
      rw [hc, Int.cast_sub, Int.cast_one]
      rfl
  · refine ⟨k, c, ⟨by omega, hlower.le, fun _ => hlower, hupper, hx⟩, ?_⟩
    simp only [decompose, if_neg (htop.not.mpr hkm), hsub, Nat.mul_div_cancel _ hpos]
    rw [hc]

/-- Two forms with one value have the same multiple. -/
theorem Decomposed.le_of_eq (h : Grid alpha m) {x : Elem} {k k' : Nat} {e e' : Int}
    (hx : Decomposed alpha m x k e) (hx' : Decomposed alpha m x k' e')
    (heq : k * alpha + e = (k' * alpha + e' : Int)) : k ≤ k' := by
  by_contra hlt
  have hpos : (0 : Int) < alpha := Int.natCast_pos.mpr h.pos
  have hlower := hx.lower_lt (by omega)
  have hupper := hx'.upper
  have hstep : ((k' + 1 : Int)) * alpha ≤ k * alpha := by
    have hle : ((k' + 1 : Int)) ≤ k := by omega
    exact Int.mul_le_mul_of_nonneg_right hle hpos.le
  linarith

/-- An element has one form. -/
theorem Decomposed.unique (h : Grid alpha m) {x : Elem} {k k' : Nat} {e e' : Int}
    (hx : Decomposed alpha m x k e) (hx' : Decomposed alpha m x k' e') : k = k' ∧ e = e' := by
  have hpos : (0 : Int) < alpha := Int.natCast_pos.mpr h.pos
  have hdvd : (q : Int) ∣ (k' * alpha + e') - (k * alpha + e) := by
    rw [← intCast_eq_iff, ← hx.eq, ← hx'.eq]
  have hmul : (alpha * m + 1 : Int) = q := by exact_mod_cast h.mul_eq
  -- The two integers lie in an interval that is shorter than `q`.
  have hrange : ∀ {j : Nat} {c : Int}, Decomposed alpha m x j c →
      -alpha ≤ 2 * (j * alpha + c) ∧ 2 * (j * alpha + c) ≤ 2 * (alpha * m) - alpha := by
    intro j c hj
    have hle : (j * alpha : Int) ≤ alpha * m - alpha := by
      have hnat : (j + 1) * alpha ≤ m * alpha := Nat.mul_le_mul_right _ hj.lt
      have hint : ((j + 1 : Int)) * alpha ≤ m * alpha := by exact_mod_cast hnat
      linarith
    have hnonneg : (0 : Int) ≤ j * alpha := by positivity
    have hlower := hj.lower
    have hupper := hj.upper
    constructor <;> linarith
  have hsame : k * alpha + e = (k' * alpha + e' : Int) := by
    have hk := hrange hx
    have hk' := hrange hx'
    have habs : |(k' * alpha + e' : Int) - (k * alpha + e)| < q := by
      rw [abs_lt]
      constructor <;> linarith
    have hzero := Int.eq_zero_of_abs_lt_dvd hdvd habs
    linarith
  have hle : k ≤ k' := hx.le_of_eq h hx' hsame
  have hge : k' ≤ k := hx'.le_of_eq h hx hsame.symm
  have hkk : k = k' := Nat.le_antisymm hle hge
  refine ⟨hkk, ?_⟩
  rw [hkk] at hsame
  linarith

/-- `decompose` finds the form. -/
theorem decompose_eq (h : Grid alpha m) {x : Elem} {k : Nat} {e : Int}
    (hx : Decomposed alpha m x k e) : x.decompose alpha = (new k, (e : Elem)) := by
  rcases decompose_spec h x with ⟨k', e', hx', heq⟩
  rcases hx.unique h hx' with ⟨rfl, rfl⟩
  exact heq

theorem highBits_eq (h : Grid alpha m) {x : Elem} {k : Nat} {e : Int}
    (hx : Decomposed alpha m x k e) : x.highBits alpha = new k := by
  rw [highBits, decompose_eq h hx]

theorem lowBits_eq (h : Grid alpha m) {x : Elem} {k : Nat} {e : Int}
    (hx : Decomposed alpha m x k e) : x.lowBits alpha = (e : Elem) := by
  rw [lowBits, decompose_eq h hx]

/-- The integer of a low part is the low part. -/
theorem Decomposed.toInt_lowBits (h : Grid alpha m) {x : Elem} {k : Nat} {e : Int}
    (hx : Decomposed alpha m x k e) : (x.lowBits alpha).toInt = e := by
  apply toInt_eq_of_cast (lowBits_eq h hx)
  have hle : 2 * |e| ≤ alpha := by
    have hlower := hx.lower
    have hupper := hx.upper
    rcases abs_cases e with ⟨habs, _⟩ | ⟨habs, _⟩ <;> omega
  have hlt := h.lt
  omega

/-- An addend that leaves the low part strictly within its range leaves the high
part alone. -/
theorem highBits_add_of_lt (h : Grid alpha m) {x : Elem} {d : Int}
    (hd : 2 * |(x.lowBits alpha).toInt + d| < alpha) :
    (x + (d : Elem)).highBits alpha = x.highBits alpha := by
  rcases decompose_spec h x with ⟨k, e, hx, _⟩
  rw [hx.toInt_lowBits h] at hd
  have hbounds := abs_lt.mp (show |2 * (e + d)| < alpha by rw [abs_mul]; exact hd)
  have hsum : Decomposed alpha m (x + (d : Elem)) k (e + d) :=
    ⟨hx.lt, hbounds.1.le, fun _ => hbounds.1, hbounds.2.le, by rw [hx.eq]; push_cast; ring⟩
  rw [highBits_eq h hsum, highBits_eq h hx]

/-- The integer of a low part is in one of the two ranges of `use_hint`. -/
theorem decompose_range (h : Grid alpha m) (x : Elem) :
    (x.lowBits alpha).val ≤ alpha / 2 ∨ q - alpha / 2 ≤ (x.lowBits alpha).val := by
  rcases decompose_spec h x with ⟨k, e, hx, _⟩
  have hint := hx.toInt_lowBits h
  have hlower := hx.lower
  have hupper := hx.upper
  have hval := (x.lowBits alpha).lt
  unfold toInt at hint
  split at hint <;> omega

/-! ## Hints -/

/-- The form of a sum, from that of one summand and the integer of the other: the
low parts add up, and the high part moves by at most one, in the direction of the
low part.  Only from an exact multiple, with half of `alpha` taken away, it moves
without one. -/
theorem Decomposed.add (h : Grid alpha m) {x z : Elem} {k : Nat} {e : Int}
    (hx : Decomposed alpha m x k e) (hz : 2 * |z.toInt| ≤ alpha) :
    (x + z).highBits alpha = new k ∨
      (0 < e ∧ (x + z).highBits alpha = new ((k + 1) % m)) ∨
      (e < 0 ∨ e = 0 ∧ k ≠ 0 ∧ 2 * z.toInt = -alpha) ∧
        (x + z).highBits alpha = new ((k + m - 1) % m) := by
  have hbounds := abs_le.mp (show |2 * z.toInt| ≤ alpha by rw [abs_mul, abs_two]; exact hz)
  have hlower := hx.lower
  have hupper := hx.upper
  have hlt := hx.lt
  have hpos := h.pos
  have heven := h.two_dvd
  have hone := h.one_lt
  have hmul : (alpha * m + 1 : Int) = q := by exact_mod_cast h.mul_eq
  have hsum : x + z = ((k * alpha + (e + z.toInt) : Int) : Elem) := by
    conv_lhs => rw [hx.eq, ← intCast_toInt z]
    push_cast
    ring
  generalize z.toInt = d at hbounds hsum
  by_cases hhigh : alpha < 2 * (e + d)
  · refine .inr (.inl ⟨by omega, ?_⟩)
    by_cases hk : k + 1 = m
    · have hform : Decomposed alpha m (x + z) 0 (e + d - alpha - 1) := by
        refine ⟨by omega, by omega, fun h0 => absurd rfl h0, by omega, ?_⟩
        rw [hsum, intCast_eq_iff]
        refine ⟨-1, ?_⟩
        have hk' : (m : Int) = k + 1 := by omega
        rw [← hmul, hk']
        push_cast
        ring
      rw [highBits_eq h hform, hk, Nat.mod_self]
    · have hform : Decomposed alpha m (x + z) (k + 1) (e + d - alpha) := by
        refine ⟨by omega, by omega, fun _ => by omega, by omega, ?_⟩
        rw [hsum]
        push_cast
        ring
      rw [highBits_eq h hform, Nat.mod_eq_of_lt (by omega)]
  · by_cases hlow : 2 * (e + d) < -alpha ∨ k ≠ 0 ∧ 2 * (e + d) = -alpha
    · refine .inr (.inr ⟨by omega, ?_⟩)
      by_cases hk : k = 0
      · have hform : Decomposed alpha m (x + z) (m - 1) (e + d + alpha + 1) := by
          refine ⟨by omega, by omega, fun _ => by omega, by omega, ?_⟩
          rw [hsum, intCast_eq_iff]
          refine ⟨1, ?_⟩
          have hm : ((m - 1 : Nat) : Int) = m - 1 := by omega
          rw [← hmul, hm, hk]
          push_cast
          ring
        rw [highBits_eq h hform, hk, Nat.zero_add, Nat.mod_eq_of_lt (by omega)]
      · have hform : Decomposed alpha m (x + z) (k - 1) (e + d + alpha) := by
          refine ⟨by omega, by omega, fun _ => by omega, by omega, ?_⟩
          have hk' : ((k - 1 : Nat) : Int) = k - 1 := by omega
          rw [hsum, hk']
          push_cast
          ring
        have hmod : (k + m - 1) % m = k - 1 := by
          rw [show k + m - 1 = k - 1 + m by omega, Nat.add_mod_right, Nat.mod_eq_of_lt (by omega)]
        rw [highBits_eq h hform, hmod]
    · exact .inl (highBits_eq h ⟨hlt, by omega, fun hk => by omega, by omega, hsum⟩)

/-- A high part is below `m`. -/
theorem Decomposed.val_highBits (h : Grid alpha m) {x : Elem} {k : Nat} {e : Int}
    (hx : Decomposed alpha m x k e) : (x.highBits alpha).val = k := by
  have hle : k * 1 ≤ k * alpha := Nat.mul_le_mul_left _ h.pos
  have hlt : k * alpha ≤ alpha * m := by
    rw [Nat.mul_comm]
    exact Nat.mul_le_mul_left _ hx.lt.le
  have hmul := h.mul_eq
  rw [highBits_eq h hx, val_new_of_lt (by omega)]

/-- The test of `use_hint` on the low part tells its sign. -/
theorem Decomposed.val_lowBits_le (h : Grid alpha m) {x : Elem} {k : Nat} {e : Int}
    (hx : Decomposed alpha m x k e) : (x.lowBits alpha).val ≤ alpha / 2 ↔ 0 ≤ e := by
  have hint := hx.toInt_lowBits h
  have hupper := hx.upper
  have hlower := hx.lower
  have hlt := h.lt
  have hval := (x.lowBits alpha).lt
  unfold toInt at hint
  split at hint <;> omega

/-- The top of an exact multiple, with half of `alpha` taken away. -/
theorem Decomposed.highBits_sub_half (h : Grid alpha m) {x z : Elem} {k : Nat}
    (hx : Decomposed alpha m x k 0) (hk : k ≠ 0) (hz : 2 * z.toInt = -alpha) :
    (x + z).highBits alpha = new (k - 1) := by
  have hlt := hx.lt
  have hpos := h.pos
  have hform : Decomposed alpha m (x + z) (k - 1) (z.toInt + alpha) := by
    refine ⟨by omega, by omega, fun _ => by omega, by omega, ?_⟩
    have hk' : ((k - 1 : Nat) : Int) = k - 1 := by omega
    conv_lhs => rw [hx.eq, ← intCast_toInt z]
    rw [hk']
    push_cast
    ring
  exact highBits_eq h hform

/-- The hint that was made of a summand tells whether it moved the high part. -/
theorem makeHint_eq_true {z r : Elem} :
    makeHint alpha z r = true ↔ r.highBits alpha ≠ (r + z).highBits alpha := by
  simp [makeHint]

/-- What `use_hint` returns, from the form of its argument. -/
theorem Decomposed.useHint_eq (h : Grid alpha m) (hm : (q - 1) / alpha = m) {r : Elem} {k : Nat}
    {e : Int} (hr : Decomposed alpha m r k e) (hint : Bool) :
    useHint alpha hint r =
      if hint ∧ 0 ≤ e then new ((k + 1) % m)
      else if hint then new ((k + m - 1) % m) else new k := by
  have hval := hr.val_highBits h
  have hsign := hr.val_lowBits_le h
  have hhigh := highBits_eq h hr
  simp only [useHint, hm]
  rw [← highBits, ← lowBits, hval, hhigh]
  simp only [hsign]

/-- Outside of the exception the hint restores the high part of the sum. -/
theorem Decomposed.useHint_makeHint (h : Grid alpha m) (hm : (q - 1) / alpha = m) {z r : Elem}
    {k : Nat} {e : Int} (hr : Decomposed alpha m r k e) (hz : 2 * |z.toInt| ≤ alpha)
    (hne : ¬(e = 0 ∧ k ≠ 0 ∧ 2 * z.toInt = -alpha)) :
    useHint alpha (makeHint alpha z r) r = (r + z).highBits alpha := by
  rw [hr.useHint_eq h hm]
  by_cases hhint : makeHint alpha z r = true
  · have hmoved := makeHint_eq_true.mp hhint
    rw [highBits_eq h hr] at hmoved
    rcases hr.add h hz with heq | ⟨he, heq⟩ | ⟨he, heq⟩
    · exact absurd heq.symm hmoved
    · rw [heq, if_pos ⟨hhint, he.le⟩]
    · have he' : e < 0 := he.resolve_right hne
      rw [heq, if_neg (by omega), if_pos hhint]
  · have heq : r.highBits alpha = (r + z).highBits alpha := by
      by_contra hmoved
      exact hhint (makeHint_eq_true.mpr hmoved)
    rw [if_neg (fun hand => hhint hand.1), if_neg hhint, ← heq, highBits_eq h hr]

/-- The hint that was made of a summand restores the high part of the sum. -/
theorem useHint_makeHint (h : Grid alpha m) (hm : (q - 1) / alpha = m) {z r : Elem}
    (hz : 2 * z.infinityNorm < alpha) :
    useHint alpha (makeHint alpha z r) r = (r + z).highBits alpha := by
  rcases decompose_spec h r with ⟨k, e, hr, _⟩
  have hz' : 2 * |z.toInt| < alpha := by
    rw [← infinityNorm_eq]
    exact_mod_cast hz
  have hlower := abs_lt.mp (show |2 * z.toInt| < alpha by rw [abs_mul, abs_two]; exact hz')
  exact hr.useHint_makeHint h hm hz'.le (fun hexc => by omega)

/-- The form of a multiple of `alpha` that is not the top of the field. -/
theorem decomposed_of_dvd (h : Grid alpha m) {r : Elem} (hdvd : alpha ∣ r.val)
    (htop : r.val ≠ q - 1) : Decomposed alpha m r (r.val / alpha) 0 := by
  have hmul := h.mul_eq
  have hpos := h.pos
  have hval : r.val / alpha * alpha = r.val := Nat.div_mul_cancel hdvd
  have hlt : r.val / alpha < m := by
    have hr := r.lt
    have hbound : r.val / alpha * alpha < m * alpha := by
      rw [hval, Nat.mul_comm m]
      omega
    exact Nat.lt_of_mul_lt_mul_right hbound
  refine ⟨hlt, by omega, fun _ => by omega, by omega, ?_⟩
  have hcast : ((r.val / alpha : Nat) : Int) * alpha + 0 = (r.val : Int) := by
    rw [Int.add_zero]
    exact_mod_cast hval
  rw [hcast, Int.cast_natCast, natCast_val]

/-- The multiples of `alpha` that are not the bottom or the top of the field are
the elements with a high part and no low part. -/
theorem Decomposed.exact_iff (h : Grid alpha m) {r : Elem} {k : Nat} {e : Int}
    (hr : Decomposed alpha m r k e) :
    e = 0 ∧ k ≠ 0 ↔ alpha ∣ r.val ∧ r.val ≠ 0 ∧ r.val ≠ q - 1 := by
  have hmul := h.mul_eq
  have hpos := h.pos
  constructor
  · intro hboth
    rcases hboth with ⟨he, hk⟩
    subst he
    have hle : k * alpha ≤ (m - 1) * alpha := Nat.mul_le_mul_right _ (by have := hr.lt; omega)
    have htop : (m - 1) * alpha + alpha = alpha * m := by
      rw [← Nat.succ_mul, Nat.mul_comm, show (m - 1).succ = m by have := h.one_lt; omega]
    have hval : r.val = k * alpha := by
      have hcast : r = new (k * alpha) := by
        rw [hr.eq, new_eq_natCast]
        push_cast
        ring
      rw [hcast, val_new_of_lt (by omega)]
    refine ⟨⟨k, by rw [hval, Nat.mul_comm]⟩, ?_, by omega⟩
    rw [hval]
    exact Nat.mul_ne_zero hk hpos.ne'
  · intro hboth
    rcases hboth with ⟨hdvd, hzero, htop⟩
    have huniq := hr.unique h (decomposed_of_dvd h hdvd htop)
    refine ⟨huniq.2, ?_⟩
    rw [huniq.1]
    have hle := Nat.le_of_dvd (Nat.pos_of_ne_zero hzero) hdvd
    exact (Nat.div_pos hle hpos).ne'

end

/-! ## The bound of the hint lemma

An addend of absolute value `gamma2` is one more than `useHint_makeHint` allows.
`use_hint` takes a low part of zero for a positive one, so it is wrong exactly where
such an addend moves the high part down from a low part of zero. -/

/-- The hint restores the high part of the sum unless `-gamma2` is added to a
multiple of `2 * gamma2` that is neither the bottom nor the top of the field. -/
theorem useHint_makeHint_iff (p : ParameterSet) (z r : Elem) (hz : z.infinityNorm ≤ p.gamma2) :
    useHint p.twoGamma2 (makeHint p.twoGamma2 z r) r = (r + z).highBits p.twoGamma2 ↔
      ¬(p.twoGamma2 ∣ r.val ∧ r.val ≠ 0 ∧ r.val ≠ q - 1 ∧ z.val = q - p.gamma2) := by
  have h := grid_twoGamma2 p
  have hhalf : (p.twoGamma2 : Int) = 2 * p.gamma2 := by
    simp [ParameterSet.twoGamma2]
  have hz' : 2 * |z.toInt| ≤ p.twoGamma2 := by
    have hnorm := infinityNorm_eq z
    omega
  have hlow : 2 * z.toInt = -p.twoGamma2 ↔ z.val = q - p.gamma2 := by
    have hlt := h.lt
    have hpos := h.pos
    have hval := z.lt
    unfold toInt
    split <;> omega
  rcases decompose_spec h r with ⟨k, e, hr, _⟩
  constructor
  · intro heq hboth
    rcases hboth with ⟨hdvd, hzero, htop, hzval⟩
    have hexact := (hr.exact_iff h).mpr ⟨hdvd, hzero, htop⟩
    have hdown := hlow.mpr hzval
    rcases hexact with ⟨rfl, hk⟩
    -- The sum is one multiple down, and the hint leads one up.
    have hsum := hr.highBits_sub_half h hk hdown
    have hval := hr.val_highBits h
    have hlt := hr.lt
    have hthree : 3 ≤ (q - 1) / p.twoGamma2 := by
      cases p <;> decide +kernel
    have hmq : (q - 1) / p.twoGamma2 < q := by
      have hle := Nat.div_le_self (q - 1) p.twoGamma2
      have hq := q_pos
      omega
    have hhigh := highBits_eq h hr
    have hmoved : makeHint p.twoGamma2 z r = true := by
      rw [makeHint_eq_true, hsum, hhigh, ne_eq, Elem.ext_iff, val_new_of_lt (by omega),
        val_new_of_lt (by omega)]
      omega
    rw [hr.useHint_eq h rfl, if_pos ⟨hmoved, le_refl 0⟩, hsum, Elem.ext_iff,
      val_new_of_lt ((Nat.mod_lt _ (by omega)).trans hmq), val_new_of_lt (by omega)] at heq
    by_cases hlast : k + 1 = (q - 1) / p.twoGamma2
    · rw [hlast, Nat.mod_self] at heq
      omega
    · rw [Nat.mod_eq_of_lt (by omega)] at heq
      omega
  · intro hne
    refine hr.useHint_makeHint h rfl hz' ?_
    intro hboth
    rcases hboth with ⟨he, hk, hdown⟩
    have hexact := (hr.exact_iff h).mp ⟨he, hk⟩
    exact hne ⟨hexact.1, hexact.2.1, hexact.2.2, hlow.mp hdown⟩

theorem useHint_makeHint_iff_one :
    useHint ParameterSet.mlDsa65.twoGamma2
        (makeHint ParameterSet.mlDsa65.twoGamma2 (new 1) (new 5)) (new 5) =
      (new 5 + new 1).highBits ParameterSet.mlDsa65.twoGamma2 :=
  (useHint_makeHint_iff .mlDsa65 (new 1) (new 5) (by decide +kernel)).mpr (by decide +kernel)

/-- From `2 * gamma2`, whose low part is zero, `-gamma2` leads one multiple down;
the hint leads one up. -/
theorem useHint_makeHint_false :
    ¬∀ (p : ParameterSet) (z r : Elem), z.infinityNorm ≤ p.gamma2 →
      useHint p.twoGamma2 (makeHint p.twoGamma2 z r) r = (r + z).highBits p.twoGamma2 := by
  intro h
  have hfail := h .mlDsa65 (new (q - ParameterSet.mlDsa65.gamma2))
    (new ParameterSet.mlDsa65.twoGamma2) (by decide +kernel)
  have hne : (useHint ParameterSet.mlDsa65.twoGamma2
      (makeHint ParameterSet.mlDsa65.twoGamma2 (new (q - ParameterSet.mlDsa65.gamma2))
        (new ParameterSet.mlDsa65.twoGamma2)) (new ParameterSet.mlDsa65.twoGamma2)).val ≠
      ((new ParameterSet.mlDsa65.twoGamma2 + new (q - ParameterSet.mlDsa65.gamma2)).highBits
        ParameterSet.mlDsa65.twoGamma2).val := by
    decide +kernel
  exact hne (congrArg Elem.val hfail)

end Elem

end Trelis.MlDsa
