import Mathlib.Algebra.Polynomial.FieldDivision
import Mathlib.Algebra.Polynomial.Inductions
import Mathlib.Algebra.Polynomial.Reverse
import Mathlib.RingTheory.Polynomial.Basic
import Mathlib.Tactic.LinearCombination

/-!
# Inversion by division steps

The division steps of constant-time inversion, over any field.  The algorithm
inverts a polynomial `A` of degree below `p` modulo a polynomial `m` of degree
`p`, and works on the two in reverse: `f` starts as the reversal of `m` and `g`
as that of `A`.  A step clears the constant coefficient of `g` and shifts, after
a swap when `g` is the shorter of the two.  `v` and `r` follow along and hold
the cofactors.

`GcdInv` is what every step keeps: the two congruences of the cofactors, the
determinant, and bounds on the four degrees.  The bounds are by `DegLe`, which
counts in halves, as the quantity `delta` does.

`GcdInv.inverse` is the result when `delta` ends at zero, and `GcdInv.dead` the
reason why it otherwise does not: `A` and `m` have a common factor.
-/

namespace Trelis

open Polynomial

variable {k : Type} [Field k]

/-! ## Degree bounds in halves -/

/-- Twice the degree is at most `b`. -/
def DegLe (a : k[X]) (b : Int) : Prop := ∀ i : Nat, b < 2 * i → a.coeff i = 0

namespace DegLe

variable {a a' : k[X]} {b b' : Int}

theorem mono (h : DegLe a b) (hb : b ≤ b') : DegLe a b' := fun i hi => h i (by omega)

theorem zero (b : Int) : DegLe (0 : k[X]) b := fun _ _ => coeff_zero _

theorem eq_zero (h : DegLe a b) (hb : b < 0) : a = 0 := by
  ext i
  rw [coeff_zero]
  exact h i (by omega)

theorem sub (h : DegLe a b) (h' : DegLe a' b) : DegLe (a - a') b := fun i hi => by
  rw [coeff_sub, h i hi, h' i hi, sub_zero]

theorem C_mul (c : k) (h : DegLe a b) : DegLe (C c * a) b := fun i hi => by
  rw [coeff_C_mul, h i hi, mul_zero]

theorem X_mul (h : DegLe a b) : DegLe (X * a) (b + 2) := fun i hi => by
  cases i with
  | zero => exact coeff_X_mul_zero a
  | succ i =>
    rw [coeff_X_mul]
    exact h i (by push_cast at hi; omega)

theorem divX (h : DegLe a b) : DegLe a.divX (b - 2) := fun i hi => by
  rw [coeff_divX]
  exact h (i + 1) (by push_cast; omega)

theorem natDegree_le {n : Nat} (h : DegLe a (2 * n + 1)) : a.natDegree ≤ n :=
  natDegree_le_iff_coeff_eq_zero.mpr fun i hi => h i (by omega)

theorem of_natDegree_le {n : Nat} (h : a.natDegree ≤ n) : DegLe a (2 * n) := fun i hi =>
  coeff_eq_zero_of_natDegree_lt (by omega)

end DegLe

/-! ## The steps -/

/-- The state of the algorithm. -/
structure GcdState (k : Type) [Field k] where
  delta : Int
  f : k[X]
  g : k[X]
  v : k[X]
  r : k[X]

namespace GcdState

/-- The condition of the swap. -/
def Swaps (s : GcdState k) : Prop := 0 < s.delta ∧ s.g.coeff 0 ≠ 0

/-- What a step clears the constant coefficient with, up to the scalar `c`. -/
noncomputable def cleared (c : k) (f g : k[X]) : k[X] :=
  C c * (C (f.coeff 0) * g - C (g.coeff 0) * f)

/-- A step, with a scalar that the implementation is free to choose. -/
noncomputable def next (s : GcdState k) (c : k) : GcdState k :=
  open Classical in
  if s.Swaps then
    { delta := 1 - s.delta
      f := s.g
      g := (cleared c s.g s.f).divX
      v := s.r
      r := C c * (C (s.g.coeff 0) * (X * s.v) - C (s.f.coeff 0) * s.r) }
  else
    { delta := s.delta + 1
      f := s.f
      g := (cleared c s.f s.g).divX
      v := X * s.v
      r := C c * (C (s.f.coeff 0) * s.r - C (s.g.coeff 0) * (X * s.v)) }

theorem X_mul_divX_cleared (c : k) (f g : k[X]) : X * (cleared c f g).divX = cleared c f g := by
  have hzero : (cleared c f g).coeff 0 = 0 := by
    simp only [cleared, coeff_C_mul, coeff_sub]
    ring
  have h := divX_mul_X_add (cleared c f g)
  rw [hzero, C_0, add_zero, mul_comm] at h
  exact h

end GcdState

/-! ## The invariant -/

/-- What holds after `n` steps from `F`, `G` and the scalar `c`. -/
structure GcdInv (F G : k[X]) (p : Nat) (c : k) (n : Nat) (s : GcdState k) : Prop where
  f_coeff_zero : s.f.coeff 0 ≠ 0
  congr_f : F ∣ C c * X ^ n * s.f - X * s.v * G
  congr_g : F ∣ C c * X ^ n * s.g - s.r * G
  det : ∃ d : k, d ≠ 0 ∧ X * s.v * s.g - s.r * s.f = C d * F
  deg_f : DegLe s.f (2 * p - 1 - n + s.delta)
  deg_g : DegLe s.g (2 * p - 1 - n - s.delta)
  deg_v : DegLe s.v (n - 1 + s.delta)
  deg_r : DegLe s.r (n + 1 - s.delta)

variable {F G : k[X]} {p n : Nat} {c : k} {s : GcdState k}

/-- The start. -/
theorem GcdInv.start (hF : F.natDegree ≤ p) (hF0 : F.coeff 0 ≠ 0)
    (hG : G.natDegree + 1 ≤ p) (hc : c ≠ 0) : GcdInv F G p c 0 ⟨1, F, G, 0, C c⟩ where
  f_coeff_zero := hF0
  congr_f := ⟨C c, by ring⟩
  congr_g := ⟨0, by ring⟩
  det := ⟨-c, neg_ne_zero.mpr hc, by rw [C_neg]; ring⟩
  deg_f := (DegLe.of_natDegree_le hF).mono (by push_cast; omega)
  deg_g := (DegLe.of_natDegree_le (show G.natDegree ≤ p - 1 by omega)).mono
    (by push_cast; omega)
  deg_v := DegLe.zero _
  deg_r := (DegLe.of_natDegree_le (natDegree_C c).le).mono (by simp)

open GcdState in
/-- A step keeps the invariant. -/
theorem GcdInv.next (h : GcdInv F G p c n s) {a : k} (ha : a ≠ 0) :
    GcdInv F G p c (n + 1) (s.next a) := by
  obtain ⟨hf0, ⟨hf, hcongr⟩, ⟨hg, hcongr'⟩, ⟨d, hd, hdet⟩, degf, degg, degv, degr⟩ := h
  unfold GcdState.next
  by_cases hswap : s.Swaps
  · have hcleared := X_mul_divX_cleared a s.g s.f
    obtain ⟨hdelta, hg0⟩ := hswap
    rw [if_pos ⟨hdelta, hg0⟩]
    unfold cleared at hcleared ⊢
    refine ⟨hg0, ?_, ?_, ?_, ?_, ?_, ?_, ?_⟩ <;> dsimp only
    · exact ⟨X * hg, by linear_combination X * hcongr'⟩
    · refine ⟨C a * (C (s.g.coeff 0) * hf - C (s.f.coeff 0) * hg), ?_⟩
      linear_combination C c * X ^ n * hcleared + C a * C (s.g.coeff 0) * hcongr -
        C a * C (s.f.coeff 0) * hcongr'
    · refine ⟨-(a * s.g.coeff 0 * d), by simp [ha, hg0, hd], ?_⟩
      simp only [C_neg, map_mul]
      linear_combination s.r * hcleared - C a * C (s.g.coeff 0) * hdet
    · exact degg.mono (by push_cast; omega)
    · exact (((degf.C_mul _).sub ((degg.mono (by omega)).C_mul _)).C_mul a).divX.mono
        (by push_cast; omega)
    · exact degr.mono (by push_cast; omega)
    · exact (((degv.X_mul.mono (show _ ≤ (n : Int) + 1 + s.delta by omega)).C_mul _).sub
        ((degr.mono (by omega)).C_mul _)).C_mul a |>.mono (by push_cast; omega)
  · have hcleared := X_mul_divX_cleared a s.f s.g
    rw [if_neg hswap]
    unfold cleared at hcleared ⊢
    refine ⟨hf0, ?_, ?_, ?_, ?_, ?_, ?_, ?_⟩ <;> dsimp only
    · exact ⟨X * hf, by linear_combination X * hcongr⟩
    · refine ⟨C a * (C (s.f.coeff 0) * hg - C (s.g.coeff 0) * hf), ?_⟩
      linear_combination C c * X ^ n * hcleared + C a * C (s.f.coeff 0) * hcongr' -
        C a * C (s.g.coeff 0) * hcongr
    · refine ⟨a * s.f.coeff 0 * d, by simp [ha, hf0, hd], ?_⟩
      simp only [map_mul]
      linear_combination X * s.v * hcleared + C a * C (s.f.coeff 0) * hdet
    · exact degf.mono (by push_cast; omega)
    · -- The longer of the two is `g`, or `f` is not subtracted.
      have hlonger : DegLe (C (s.f.coeff 0) * s.g - C (s.g.coeff 0) * s.f)
          (2 * p - 1 - n - s.delta) := by
        by_cases hg0 : s.g.coeff 0 = 0
        · rw [hg0, C_0, zero_mul, sub_zero]
          exact degg.C_mul _
        · have hdelta : s.delta ≤ 0 := not_lt.mp fun hlt => hswap ⟨hlt, hg0⟩
          exact (degg.C_mul _).sub ((degf.mono (by omega)).C_mul _)
      exact (hlonger.C_mul a).divX.mono (by push_cast; omega)
    · exact degv.X_mul.mono (by push_cast; omega)
    · have hlonger : DegLe (C (s.f.coeff 0) * s.r - C (s.g.coeff 0) * (X * s.v))
          (n + 1 - s.delta) := by
        by_cases hg0 : s.g.coeff 0 = 0
        · rw [hg0, C_0, zero_mul, sub_zero]
          exact degr.C_mul _
        · have hdelta : s.delta ≤ 0 := not_lt.mp fun hlt => hswap ⟨hlt, hg0⟩
          exact (degr.C_mul _).sub ((degv.X_mul.mono (by omega)).C_mul _)
      exact (hlonger.C_mul a).mono (by push_cast; omega)

/-! ## What the invariant gives -/

namespace GcdInv

/-- While there is something to clear, the cofactor `v` has room for a shift. -/
theorem natDegree_v_lt (h : GcdInv F G p c n s) (hn : n < 2 * p)
    (halive : s.delta ≤ 0 ∨ s.g ≠ 0) : s.v.coeff p = 0 := by
  apply h.deg_v
  by_cases hdelta : s.delta ≤ 0
  · omega
  · have hg : s.g ≠ 0 := halive.resolve_left hdelta
    have hroom : (0 : Int) ≤ 2 * p - 1 - n - s.delta :=
      not_lt.mp fun hlt => hg (h.deg_g.eq_zero hlt)
    omega

/-- At the end `delta` is not negative. -/
theorem delta_nonneg (h : GcdInv F G p c (2 * p - 1) s) (hp : 0 < p) : 0 ≤ s.delta := by
  by_contra hneg
  have hf := h.deg_f.eq_zero (by omega)
  exact h.f_coeff_zero (by rw [hf, coeff_zero])

/-- At the end `g` is zero, unless `delta` is. -/
theorem g_eq_zero (h : GcdInv F G p c (2 * p - 1) s) (hp : 0 < p) (hdelta : 0 < s.delta) :
    s.g = 0 :=
  h.deg_g.eq_zero (by omega)

end GcdInv

/-! ## Inversion -/

section Inversion

variable {m A : k[X]}

/-- The start of the inversion of `A` modulo `m`. -/
noncomputable def GcdState.start (m A : k[X]) (p : Nat) (c : k) : GcdState k :=
  ⟨1, reflect p m, reflect (p - 1) A, 0, C c⟩

theorem GcdState.start_f (m A : k[X]) (p : Nat) (c : k) :
    (GcdState.start m A p c).f = reflect p m := rfl

theorem GcdState.start_g (m A : k[X]) (p : Nat) (c : k) :
    (GcdState.start m A p c).g = reflect (p - 1) A := rfl

/-- The invariant of an inversion. -/
abbrev InversionInv (m A : k[X]) (p : Nat) (c : k) (n : Nat) (s : GcdState k) : Prop :=
  GcdInv (reflect p m) (reflect (p - 1) A) p c n s

theorem natDegree_reflect_le' {a : k[X]} {N : Nat} (h : a.natDegree ≤ N) :
    (reflect N a).natDegree ≤ N :=
  natDegree_le_iff_coeff_eq_zero.mpr fun i hi => by
    rw [coeff_reflect, revAt_eq_self_of_lt hi]
    exact coeff_eq_zero_of_natDegree_lt (by omega)

theorem coeff_zero_reflect (a : k[X]) (N : Nat) : (reflect N a).coeff 0 = a.coeff N := by
  rw [coeff_reflect, revAt_le (Nat.zero_le N), Nat.sub_zero]

theorem reflect_reflect (a : k[X]) (N : Nat) : reflect N (reflect N a) = a := by
  ext i
  rw [coeff_reflect, coeff_reflect, revAt_invol]

theorem coeff_zero_reflect_ne (hm : m.natDegree = p) (hp : 0 < p) :
    (reflect p m).coeff 0 ≠ 0 := by
  rw [coeff_zero_reflect, ← hm]
  exact leadingCoeff_ne_zero.mpr fun h0 => by
    rw [h0, natDegree_zero] at hm
    omega

/-- A polynomial with a constant coefficient is coprime to `X`. -/
theorem isCoprime_X {a : k[X]} (h : a.coeff 0 ≠ 0) : IsCoprime a X := by
  refine ⟨C (a.coeff 0)⁻¹, -(C (a.coeff 0)⁻¹ * a.divX), ?_⟩
  have hsplit := divX_mul_X_add a
  have hunit : C (a.coeff 0)⁻¹ * C (a.coeff 0) = 1 := by
    rw [← C_mul, inv_mul_cancel₀ h, C_1]
  linear_combination hunit - C (a.coeff 0)⁻¹ * hsplit

theorem InversionInv.start (hm : m.natDegree = p) (hp : 0 < p) (hA : A.natDegree < p)
    (hc : c ≠ 0) : InversionInv m A p c 0 (GcdState.start m A p c) := by
  have hG := natDegree_reflect_le' (show A.natDegree ≤ p - 1 by omega)
  exact GcdInv.start (natDegree_reflect_le' hm.le) (coeff_zero_reflect_ne hm hp) (by omega) hc

/-- A multiple of the reversed modulus, read forwards. -/
theorem dvd_of_reflect_dvd (hm : m.natDegree = p) (hp : 0 < p) (hm0 : m.coeff 0 ≠ 0)
    {a : k[X]} (ha : a.natDegree ≤ 2 * p - 2) (h : reflect p m ∣ a) :
    m ∣ reflect (2 * p - 2) a := by
  obtain ⟨q, rfl⟩ := h
  by_cases hq : q = 0
  · rw [hq, mul_zero, reflect_zero]
    exact dvd_zero _
  have hF : (reflect p m).natDegree = p := by
    apply le_antisymm (natDegree_reflect_le' hm.le)
    apply le_natDegree_of_ne_zero
    rwa [coeff_reflect, revAt_le le_rfl, Nat.sub_self]
  have hF0 : reflect p m ≠ 0 := fun h0 => by
    rw [h0, natDegree_zero] at hF
    omega
  rw [natDegree_mul hF0 hq, hF] at ha
  have hsplit : 2 * p - 2 = p + (p - 2) := by omega
  rw [hsplit, reflect_mul _ _ hF.le (by omega), reflect_reflect]
  exact dvd_mul_right _ _

/-- When `delta` ends at zero, the reversed cofactor inverts `A`, up to two
scalars. -/
theorem InversionInv.inverse (hm : m.natDegree = p) (hp : 0 < p) (hm0 : m.coeff 0 ≠ 0)
    (hA : A.natDegree < p) (h : InversionInv m A p c (2 * p - 1) s) (hdelta : s.delta = 0) :
    s.v.natDegree ≤ p - 1 ∧
      m ∣ C (c * s.f.coeff 0) - reflect (p - 1) s.v * A := by
  have hv : s.v.natDegree ≤ p - 1 := (h.deg_v.mono (by omega)).natDegree_le
  refine ⟨hv, ?_⟩
  have hf : s.f = C (s.f.coeff 0) :=
    eq_C_of_natDegree_eq_zero (Nat.le_zero.mp ((h.deg_f.mono (by omega)).natDegree_le))
  have hX : IsCoprime (reflect p m) X := isCoprime_X (coeff_zero_reflect_ne hm hp)
  have hdvd : reflect p m ∣ C (c * s.f.coeff 0) * X ^ (2 * p - 2) - s.v * reflect (p - 1) A := by
    apply hX.dvd_of_dvd_mul_left
    have hcongr := h.congr_f
    rw [hf] at hcongr
    have hpow : (X : k[X]) ^ (2 * p - 1) = X * X ^ (2 * p - 2) := by
      rw [← pow_succ']
      congr 1
      omega
    rw [hpow] at hcongr
    convert hcongr using 1
    rw [map_mul]
    ring
  have hG := natDegree_reflect_le' (show A.natDegree ≤ p - 1 by omega)
  have hdeg : (C (c * s.f.coeff 0) * X ^ (2 * p - 2) - s.v * reflect (p - 1) A).natDegree ≤
      2 * p - 2 := by
    refine (natDegree_sub_le _ _).trans (max_le (natDegree_C_mul_X_pow_le _ _) ?_)
    exact natDegree_mul_le.trans (by omega)
  have hforward := dvd_of_reflect_dvd hm hp hm0 hdeg hdvd
  have hsplit : 2 * p - 2 = (p - 1) + (p - 1) := by omega
  rw [reflect_sub, reflect_C_mul_X_pow, revAt_le le_rfl, Nat.sub_self, pow_zero, mul_one,
    hsplit, reflect_mul _ _ hv hG, reflect_reflect] at hforward
  exact hforward

/-- When `g` has vanished and `delta` is still positive, `A` has no inverse. -/
theorem InversionInv.dead (hm : m.natDegree = p) (hp : 0 < p) (hm0 : m.coeff 0 ≠ 0)
    (hA : A.natDegree < p) (h : InversionInv m A p c n s) (hn : n < 2 * p) (hg : s.g = 0)
    (hdelta : 0 < s.delta) : ¬ IsCoprime m A := by
  intro hcoprime
  have hr : s.r.natDegree ≤ p - 1 := (h.deg_r.mono (by omega)).natDegree_le
  have hG := natDegree_reflect_le' (show A.natDegree ≤ p - 1 by omega)
  have hdvd : reflect p m ∣ s.r * reflect (p - 1) A := by
    have hcongr := h.congr_g
    rw [hg, mul_zero, zero_sub] at hcongr
    exact (dvd_neg).mp hcongr
  have hforward := dvd_of_reflect_dvd hm hp hm0 (natDegree_mul_le.trans (by omega)) hdvd
  have hsplit : 2 * p - 2 = (p - 1) + (p - 1) := by omega
  rw [hsplit, reflect_mul _ _ hr hG, reflect_reflect] at hforward
  have hzero : reflect (p - 1) s.r = 0 := by
    apply eq_zero_of_dvd_of_natDegree_lt (hcoprime.dvd_of_dvd_mul_right hforward)
    rw [hm]
    exact (natDegree_reflect_le' hr).trans_lt (by omega)
  obtain ⟨d, hd, hdet⟩ := h.det
  rw [hg, mul_zero, zero_sub, ← reflect_reflect s.r (p - 1), hzero, reflect_zero, zero_mul,
    neg_zero] at hdet
  have hm_zero : m = 0 := by
    have hF : reflect p m = 0 := by
      obtain h0 | h0 := mul_eq_zero.mp hdet.symm
      · exact absurd (C_eq_zero.mp h0) hd
      · exact h0
    rw [← reflect_reflect m p, hF, reflect_zero]
  rw [hm_zero, coeff_zero] at hm0
  exact hm0 rfl

end Inversion

end Trelis
