import Trelis.Lib.ReversedGcd
import Trelis.Sntrup.Ring

/-!
# Inversion of polynomials

`Rq::recip` and `R3::recip` (`fq.rs`), which run the division steps on four
arrays of `P + 1` coefficients.  The two differ in how a round combines two
coefficients, so that `recipRound` takes the combination as a parameter.

`Represents` relates the arrays to the polynomials of `GcdState`.  A round is a
step there (`Represents.round`), unless `g` is zero and `delta` positive: from
then on nothing but `delta` matters (`Stuck.round`).  `run_spec` puts the rounds
together, and `rqRecip_eq_some` and `r3Recip_eq_some` are the results, with
`rqRecip_isSome` and `r3Recip_isSome` for the converse.
-/

namespace Trelis.Sntrup

open Polynomial

/-! ## The rounds -/

/-- The arrays of an inversion. -/
structure RecipState where
  delta : Int
  f : List Int
  g : List Int
  v : List Int
  r : List Int

/-- `v` shifted right. -/
def shiftRight (v : List Int) : List Int := 0 :: v.dropLast

/-- `g` shifted left. -/
def shiftLeft (g : List Int) : List Int := g.drop 1 ++ [0]

/-- The coefficient that the swap and the combination look at. -/
def head (a : List Int) : Int := a.getD 0 0

/-- The initial state.  `r0` is the inverse of the ratio. -/
def RecipState.init (r0 : Int) (input : List Int) : RecipState where
  delta := 1
  f := 1 :: List.replicate (p - 2) 0 ++ [-1, -1]
  g := input.reverse ++ [0]
  v := List.replicate (p + 1) 0
  r := r0 :: List.replicate p 0

/-- A round of the main loop.  `quot f0 g0 out fv` is what a coefficient `out`
becomes beside `fv`. -/
def recipRound (quot : Int → Int → Int → Int → Int) (s : RecipState) : RecipState :=
  let v := shiftRight s.v
  let swap : Bool := 0 < s.delta ∧ head s.g ≠ 0
  let delta := (if swap then -s.delta else s.delta) + 1
  let f := if swap then s.g else s.f
  let g := if swap then s.f else s.g
  let r := if swap then v else s.r
  let v := if swap then s.r else v
  let f0 := head f
  let g0 := head g
  { delta := delta
    f := f
    g := shiftLeft (List.zipWith (quot f0 g0) g f)
    v := v
    r := List.zipWith (quot f0 g0) r v }

/-- `quotient_update`. -/
def quotientUpdate (f0 g0 out fv : Int) : Int := freeze (f0 * out - g0 * fv)

/-- `quotient_update_r3`, with its sign.  The source takes the sign before the
swap, which does not change the product. -/
def quotientUpdateR3 (f0 g0 out fv : Int) : Int := f3Freeze (out + -g0 * f0 * fv)

/-- `Rq::recip`, with the inverse of `RATIO`. -/
def rqRecip (r0 : Int) (input : List Int) : Option (List Int) :=
  let s := (recipRound quotientUpdate)^[2 * p - 1] (RecipState.init r0 input)
  if s.delta ≠ 0 then none
  else
    let scale := recipCt (head s.f)
    some ((List.range p).map fun i => freeze (scale * s.v.getD (p - 1 - i) 0))

/-- `R3::recip`. -/
def r3Recip (input : List Int) : Option (List Int) :=
  let s := (recipRound quotientUpdateR3)^[2 * p - 1] (RecipState.init 1 input)
  if s.delta ≠ 0 then none
  else
    let sign := head s.f
    some ((List.range p).map fun i => sign * s.v.getD (p - 1 - i) 0)

/-- Reading an array of `P + 1` coefficients from `P - 1` down. -/
theorem map_range_eq {v : List Int} (h : v.length = p + 1) (f : Int → Int) :
    (List.range p).map (fun i => f (v.getD (p - 1 - i) 0)) = (v.take p).reverse.map f := by
  apply List.ext_getElem
  · rw [List.length_map, List.length_range, List.length_map, List.length_reverse,
      List.length_take, h]
    exact (Nat.min_eq_left (Nat.le_succ p)).symm
  · intro i hi hi'
    rw [List.length_map, List.length_range] at hi
    rw [List.getElem_map, List.getElem_range, List.getElem_map, List.getElem_reverse,
      List.getElem_take, List.getD_eq_getElem _ _ (by omega)]
    congr 2
    rw [List.length_take, h, Nat.min_eq_left (Nat.le_succ p)]

theorem length_r3Recip {input out : List Int} (h : r3Recip input = some out) :
    out.length = p := by
  unfold r3Recip at h
  dsimp only at h
  split at h
  · simp at h
  · rw [← Option.some_inj.mp h, List.length_map, List.length_range]

/-! ## What arrays stand for -/

/-- An array of `P + 1` small coefficients, and the polynomial that it is. -/
structure Denotes (n : Nat) (B : Int) (a : List Int) (P : (ZMod n)[X]) : Prop where
  length_eq : a.length = p + 1
  abs_le : ∀ c ∈ a, |c| ≤ B
  ofCoeffs_eq : ofCoeffs (a.map (Int.castRingHom (ZMod n))) = P

/-- What the combination of a round has to do: up to a scalar that is not zero,
it eliminates. -/
structure Eliminates (n : Nat) (B : Int) (quot : Int → Int → Int → Int → Int)
    (scalar : Int → ZMod n) : Prop where
  nonneg : 0 ≤ B
  abs_le : ∀ f0 g0 out fv : Int, |f0| ≤ B → |g0| ≤ B → |out| ≤ B → |fv| ≤ B →
    |quot f0 g0 out fv| ≤ B
  cast_eq : ∀ f0 g0 out fv : Int, |f0| ≤ B → |g0| ≤ B → |out| ≤ B → |fv| ≤ B →
    (f0 : ZMod n) ≠ 0 →
      ((quot f0 g0 out fv : Int) : ZMod n) = scalar f0 * (f0 * out - g0 * fv)
  scalar_ne_zero : ∀ f0 : Int, (f0 : ZMod n) ≠ 0 → scalar f0 ≠ 0
  zero_eq : ∀ f0 fv : Int, quot f0 0 0 fv = 0
  eq_zero : ∀ c : Int, |c| ≤ B → (c : ZMod n) = 0 → c = 0

variable {n : Nat} {B : Int} {a b : List Int} {P Q : (ZMod n)[X]}

theorem getD_map_cast (n : Nat) (a : List Int) (i : Nat) :
    (a.map (Int.castRingHom (ZMod n))).getD i 0 = ((a.getD i 0 : Int) : ZMod n) := by
  rw [← map_zero (Int.castRingHom (ZMod n)), List.getD_map]
  rfl

namespace Denotes

theorem abs_head_le (h : Denotes n B a P) : |head a| ≤ B := by
  have hlen := h.length_eq
  rw [head, List.getD_eq_getElem _ _ (by omega)]
  exact h.abs_le _ (List.getElem_mem _)

theorem coeff_eq (h : Denotes n B a P) (i : Nat) : P.coeff i = (a.getD i 0 : Int) := by
  rw [← h.ofCoeffs_eq, coeff_ofCoeffs, getD_map_cast]

theorem coeff_zero (h : Denotes n B a P) : P.coeff 0 = (head a : Int) := h.coeff_eq 0

/-- A shift to the right multiplies, when the last coefficient is zero. -/
theorem shiftRight (h : Denotes n B a P) (hB : 0 ≤ B) (hlast : P.coeff p = 0) :
    Denotes n B (shiftRight a) (X * P) where
  length_eq := by
    rw [Sntrup.shiftRight, List.length_cons, List.length_dropLast, h.length_eq]
    omega
  abs_le := by
    intro c hc
    obtain rfl | hc := List.mem_cons.mp hc
    · rwa [abs_zero]
    · exact h.abs_le c (List.dropLast_subset a hc)
  ofCoeffs_eq := by
    have hne : a ≠ [] := List.ne_nil_of_length_eq_add_one h.length_eq
    have hsplit : ofCoeffs (a.map (Int.castRingHom (ZMod n))) =
        ofCoeffs (a.dropLast.map (Int.castRingHom (ZMod n))) + X ^ p * C (P.coeff p) := by
      have hlast_eq : P.coeff p = (a.getLast hne : Int) := by
        rw [h.coeff_eq, List.getD_eq_getElem _ _ (by rw [h.length_eq]; omega),
          List.getLast_eq_getElem]
        congr 2
        rw [h.length_eq]
        rfl
      conv_lhs => rw [← List.dropLast_append_getLast hne]
      rw [List.map_append, ofCoeffs_append, List.length_map, List.length_dropLast, h.length_eq,
        hlast_eq]
      simp
    rw [Sntrup.shiftRight, List.map_cons, ofCoeffs_cons, ← h.ofCoeffs_eq, hsplit, hlast]
    simp

/-- A shift to the left divides. -/
theorem shiftLeft (h : Denotes n B a P) (hB : 0 ≤ B) : Denotes n B (shiftLeft a) P.divX where
  length_eq := by
    rw [Sntrup.shiftLeft, List.length_append, List.length_drop, h.length_eq]
    rfl
  abs_le := by
    intro c hc
    obtain hc | hc := List.mem_append.mp hc
    · exact h.abs_le c (List.mem_of_mem_drop hc)
    · rwa [List.mem_singleton.mp hc, abs_zero]
  ofCoeffs_eq := by
    ext i
    rw [coeff_divX, h.coeff_eq, coeff_ofCoeffs, getD_map_cast, Sntrup.shiftLeft]
    congr 1
    by_cases hi : i < p
    · rw [List.getD_append _ _ _ _ (by rw [List.length_drop, h.length_eq]; omega),
        List.getD_eq_getElem _ _ (by rw [List.length_drop, h.length_eq]; omega),
        List.getD_eq_getElem _ _ (by rw [h.length_eq]; omega), List.getElem_drop]
      congr 1
      omega
    · rw [List.getD_eq_default a _ (by rw [h.length_eq]; omega),
        List.getD_append_right _ _ _ _ (by rw [List.length_drop, h.length_eq]; omega)]
      cases i - (a.drop 1).length with
      | zero => rfl
      | succ j => rfl

theorem zipWith {quot : Int → Int → Int → Int → Int} {scalar : Int → ZMod n}
    (helim : Eliminates n B quot scalar) (ha : Denotes n B a P) (hb : Denotes n B b Q)
    {f0 g0 : Int} (hf0 : |f0| ≤ B) (hg0 : |g0| ≤ B) (hne : (f0 : ZMod n) ≠ 0) :
    Denotes n B (List.zipWith (quot f0 g0) a b)
      (C (scalar f0) * (C (f0 : ZMod n) * P - C (g0 : ZMod n) * Q)) where
  length_eq := by rw [List.length_zipWith, ha.length_eq, hb.length_eq, Nat.min_self]
  abs_le := by
    intro c hc
    obtain ⟨i, hi, rfl⟩ := List.getElem_of_mem hc
    rw [List.getElem_zipWith]
    exact helim.abs_le _ _ _ _ hf0 hg0 (ha.abs_le _ (List.getElem_mem _))
      (hb.abs_le _ (List.getElem_mem _))
  ofCoeffs_eq := by
    ext i
    rw [coeff_C_mul, coeff_sub, coeff_C_mul, coeff_C_mul, ha.coeff_eq, hb.coeff_eq, coeff_ofCoeffs,
      getD_map_cast]
    by_cases hi : i < p + 1
    · have hia : i < a.length := by rwa [ha.length_eq]
      have hib : i < b.length := by rwa [hb.length_eq]
      rw [List.getD_eq_getElem _ _ hia, List.getD_eq_getElem _ _ hib,
        List.getD_eq_getElem _ _ (by rw [List.length_zipWith]; omega), List.getElem_zipWith]
      exact helim.cast_eq _ _ _ _ hf0 hg0 (ha.abs_le _ (List.getElem_mem _))
        (hb.abs_le _ (List.getElem_mem _)) hne
    · rw [List.getD_eq_default a _ (by rw [ha.length_eq]; omega),
        List.getD_eq_default b _ (by rw [hb.length_eq]; omega),
        List.getD_eq_default (List.zipWith _ a b) _ (by
          rw [List.length_zipWith, ha.length_eq, hb.length_eq]; omega)]
      simp

end Denotes

/-! ### The arrays of the start -/

variable {input : List Int} {r0 : Int}

theorem reflect_trinomial {N : Nat} (hN : 1 ≤ N) :
    reflect N (trinomial (ZMod n) N) = 1 - (X ^ (N - 1) + X ^ N) := by
  have hpow : trinomial (ZMod n) N = X ^ N - (X ^ 1 + X ^ 0) := by
    rw [trinomial, pow_one, pow_zero]
  rw [hpow, reflect_sub, reflect_add, reflect_monomial, reflect_monomial, reflect_monomial,
    revAt_le le_rfl, revAt_le hN, revAt_le (Nat.zero_le N), Nat.sub_self, pow_zero, Nat.sub_zero]

/-- The coefficients of the modulus, in reverse. -/
theorem ofCoeffs_init_f (N : Nat) :
    ofCoeffs ((1 :: List.replicate N 0 ++ [-1, -1]).map (Int.castRingHom (ZMod n))) =
      reflect (N + 2) (trinomial (ZMod n) (N + 2)) := by
  rw [reflect_trinomial (by omega), List.cons_append, List.map_cons, List.map_append,
    List.map_replicate, ofCoeffs_cons, ofCoeffs_append, map_zero, ofCoeffs_replicate_zero,
    List.length_replicate]
  simp only [List.map_cons, List.map_nil, ofCoeffs_cons, ofCoeffs_nil, map_neg, map_one]
  rw [show N + 2 - 1 = N + 1 from rfl]
  ring

theorem denotes_init_f (hB : 1 ≤ B) :
    Denotes n B (1 :: List.replicate (p - 2) 0 ++ [-1, -1]) (reflect p (trinomial (ZMod n) p)) where
  length_eq := by
    rw [List.length_append, List.length_cons, List.length_replicate]
    rfl
  abs_le := by
    intro c hc
    have hcases : c = 1 ∨ c = 0 ∨ c = -1 := by
      obtain hc | hc := List.mem_append.mp hc
      · obtain hc | hc := List.mem_cons.mp hc
        · exact .inl hc
        · exact .inr (.inl (List.eq_of_mem_replicate hc))
      · exact .inr (.inr (by simpa using hc))
    obtain rfl | rfl | rfl := hcases
    · rwa [abs_one]
    · rw [abs_zero]
      omega
    · rwa [abs_neg, abs_one]
  ofCoeffs_eq := ofCoeffs_init_f (p - 2)

theorem denotes_zero (hB : 1 ≤ B) : Denotes n B (List.replicate (p + 1) 0) 0 where
  length_eq := List.length_replicate
  abs_le := by
    intro c hc
    rw [List.eq_of_mem_replicate hc, abs_zero]
    omega
  ofCoeffs_eq := by rw [List.map_replicate, map_zero, ofCoeffs_replicate_zero]

theorem denotes_const (hB : 1 ≤ B) (hr0 : |r0| ≤ B) :
    Denotes n B (r0 :: List.replicate p 0) (C (r0 : ZMod n)) where
  length_eq := by rw [List.length_cons, List.length_replicate]
  abs_le := by
    intro c hc
    obtain rfl | hc := List.mem_cons.mp hc
    · exact hr0
    · rw [List.eq_of_mem_replicate hc, abs_zero]
      omega
  ofCoeffs_eq := by
    rw [List.map_cons, List.map_replicate, map_zero, ofCoeffs_cons, ofCoeffs_replicate_zero,
      mul_zero, add_zero]
    rfl

theorem denotes_reverse (hB : 1 ≤ B) (hlen : input.length = p) (hinput : ∀ c ∈ input, |c| ≤ B) :
    Denotes n B (input.reverse ++ [0])
      (reflect (p - 1) (ofCoeffs (input.map (Int.castRingHom (ZMod n))))) where
  length_eq := by rw [List.length_append, List.length_reverse, hlen, List.length_singleton]
  abs_le := by
    intro c hc
    obtain hc | hc := List.mem_append.mp hc
    · exact hinput c (List.mem_reverse.mp hc)
    · rw [List.mem_singleton.mp hc, abs_zero]
      omega
  ofCoeffs_eq := by
    have hlen_map : (input.map (Int.castRingHom (ZMod n))).length = (p - 1) + 1 := by
      rw [List.length_map, hlen]
      rfl
    rw [List.map_append, List.map_reverse, ofCoeffs_append, ofCoeffs_reverse _ hlen_map,
      List.map_singleton, map_zero, ofCoeffs_cons, ofCoeffs_nil, map_zero, mul_zero, add_zero,
      mul_zero, add_zero]

/-! ## A run -/

/-- The arrays of a state, and the polynomials that they are. -/
structure Represents (n : Nat) (B : Int) [Fact n.Prime] (s : RecipState)
    (t : GcdState (ZMod n)) : Prop where
  delta_eq : s.delta = t.delta
  f : Denotes n B s.f t.f
  g : Denotes n B s.g t.g
  v : Denotes n B s.v t.v
  r : Denotes n B s.r t.r

section Run

variable [Fact n.Prime] {quot : Int → Int → Int → Int → Int} {scalar : Int → ZMod n}
variable {s : RecipState} {t : GcdState (ZMod n)}

/-- The condition of the swap is that of the step. -/
theorem Represents.swaps_iff (helim : Eliminates n B quot scalar) (h : Represents n B s t) :
    (0 < s.delta ∧ head s.g ≠ 0) ↔ t.Swaps := by
  rw [GcdState.Swaps, h.delta_eq, h.g.coeff_zero]
  refine and_congr_right fun _ => not_congr ⟨fun h0 => by rw [h0, Int.cast_zero], ?_⟩
  exact helim.eq_zero _ h.g.abs_head_le

/-- A round is a step, while `v` has room for its shift. -/
theorem Represents.round (helim : Eliminates n B quot scalar) (h : Represents n B s t)
    (hf : t.f.coeff 0 ≠ 0) (hv : t.v.coeff p = 0) :
    ∃ a, a ≠ 0 ∧ Represents n B (recipRound quot s) (t.next a) := by
  have hswaps := h.swaps_iff helim
  have hshift := h.v.shiftRight helim.nonneg hv
  by_cases hswap : t.Swaps
  · have hcond : decide (0 < s.delta ∧ head s.g ≠ 0) = true :=
      decide_eq_true (hswaps.mpr hswap)
    have hne : ((head s.g : Int) : ZMod n) ≠ 0 := by
      rw [← h.g.coeff_zero]
      exact hswap.2
    refine ⟨scalar (head s.g), helim.scalar_ne_zero _ hne, ?_⟩
    have hg := (h.f.zipWith helim h.g h.g.abs_head_le h.f.abs_head_le hne).shiftLeft helim.nonneg
    have hr := hshift.zipWith helim h.r h.g.abs_head_le h.f.abs_head_le hne
    rw [← h.g.coeff_zero, ← h.f.coeff_zero] at hg hr
    unfold recipRound GcdState.next
    simp only [hcond, if_pos hswap, if_true]
    exact ⟨by rw [h.delta_eq]; ring, h.g, hg, h.r, hr⟩
  · have hcond : decide (0 < s.delta ∧ head s.g ≠ 0) = false :=
      decide_eq_false (hswaps.not.mpr hswap)
    have hne : ((head s.f : Int) : ZMod n) ≠ 0 := by
      rw [← h.f.coeff_zero]
      exact hf
    refine ⟨scalar (head s.f), helim.scalar_ne_zero _ hne, ?_⟩
    have hg := (h.g.zipWith helim h.f h.f.abs_head_le h.g.abs_head_le hne).shiftLeft helim.nonneg
    have hr := h.r.zipWith helim hshift h.f.abs_head_le h.g.abs_head_le hne
    rw [← h.g.coeff_zero, ← h.f.coeff_zero] at hg hr
    unfold recipRound GcdState.next
    simp only [hcond, if_neg hswap, Bool.false_eq_true, if_false]
    exact ⟨by rw [h.delta_eq], h.f, hg, hshift, hr⟩

/-- Nothing is left to clear, and `delta` grows. -/
def Stuck (s : RecipState) : Prop := 0 < s.delta ∧ ∀ c ∈ s.g, c = 0

theorem head_eq_zero {a : List Int} (h : ∀ c ∈ a, c = 0) : head a = 0 := by
  cases a with
  | nil => rfl
  | cons c a => exact h c List.mem_cons_self

omit [Fact n.Prime] in
theorem Stuck.round (helim : Eliminates n B quot scalar) (h : Stuck s) :
    Stuck (recipRound quot s) := by
  obtain ⟨hdelta, hg⟩ := h
  have hhead := head_eq_zero hg
  have hcond : decide (0 < s.delta ∧ head s.g ≠ 0) = false :=
    decide_eq_false fun h => h.2 hhead
  unfold recipRound
  simp only [hcond, Bool.false_eq_true, if_false]
  rw [hhead]
  refine ⟨by show 0 < s.delta + 1; omega, fun c hc => ?_⟩
  obtain hc | hc := List.mem_append.mp hc
  · obtain ⟨i, hi, rfl⟩ := List.getElem_of_mem (List.mem_of_mem_drop hc)
    rw [List.getElem_zipWith, hg _ (List.getElem_mem _)]
    exact helim.zero_eq _ _
  · exact List.mem_singleton.mp hc

/-- When `g` is the zero polynomial, so is its array. -/
theorem Represents.stuck (helim : Eliminates n B quot scalar) (h : Represents n B s t)
    (hdelta : 0 < t.delta) (hg : t.g = 0) : Stuck s := by
  refine ⟨by rw [h.delta_eq]; exact hdelta, fun c hc => ?_⟩
  obtain ⟨i, hi, rfl⟩ := List.getElem_of_mem hc
  apply helim.eq_zero _ (h.g.abs_le _ hc)
  rw [← List.getD_eq_getElem _ 0 hi, ← h.g.coeff_eq, hg, coeff_zero]

variable {m A : (ZMod n)[X]} {c : ZMod n}

/-- Along the rounds, the arrays follow the algorithm until it is stuck. -/
theorem run_spec (helim : Eliminates n B quot scalar) (hm : m.natDegree = p)
    (hm0 : m.coeff 0 ≠ 0) (hA : A.natDegree < p) (hc : c ≠ 0)
    (hstart : Represents n B s (GcdState.start m A p c)) (rounds : Nat)
    (hrounds : rounds ≤ 2 * p - 1) :
    (∃ t, Represents n B ((recipRound quot)^[rounds] s) t ∧ InversionInv m A p c rounds t) ∨
      (Stuck ((recipRound quot)^[rounds] s) ∧ ¬ IsCoprime m A) := by
  have hp : 0 < p := by decide
  induction rounds with
  | zero => exact .inl ⟨_, hstart, InversionInv.start hm hp hA hc⟩
  | succ rounds ih =>
    rw [Function.iterate_succ_apply']
    obtain ⟨t, hrep, hinv⟩ | ⟨hstuck, hcoprime⟩ := ih (by omega)
    · by_cases halive : t.delta ≤ 0 ∨ t.g ≠ 0
      · have hv := hinv.natDegree_v_lt (by omega) halive
        obtain ⟨a, ha, hround⟩ := hrep.round helim hinv.f_coeff_zero hv
        exact .inl ⟨_, hround, hinv.next ha⟩
      · obtain ⟨hdelta, hg⟩ := not_or.mp halive
        have hdelta : 0 < t.delta := not_le.mp hdelta
        have hg : t.g = 0 := not_not.mp hg
        exact .inr ⟨(hrep.stuck helim hdelta hg).round helim,
          hinv.dead hm hp hm0 hA (by omega) hg hdelta⟩
    · exact .inr ⟨hstuck.round helim, hcoprime⟩

/-- What the final `delta` says. -/
theorem run_outcome (helim : Eliminates n B quot scalar) (hm : m.natDegree = p)
    (hm0 : m.coeff 0 ≠ 0) (hA : A.natDegree < p) (hc : c ≠ 0)
    (hstart : Represents n B s (GcdState.start m A p c)) :
    let final := (recipRound quot)^[2 * p - 1] s
    (final.delta = 0 ∧ ∃ t, Represents n B final t ∧ InversionInv m A p c (2 * p - 1) t) ∨
      (final.delta ≠ 0 ∧ ¬ IsCoprime m A) := by
  have hp : 0 < p := by decide
  obtain ⟨t, hrep, hinv⟩ | ⟨hstuck, hcoprime⟩ :=
    run_spec helim hm hm0 hA hc hstart (2 * p - 1) le_rfl
  · by_cases hdelta : t.delta = 0
    · exact .inl ⟨hrep.delta_eq.trans hdelta, t, hrep, hinv⟩
    · have hpos : 0 < t.delta := by
        have := hinv.delta_nonneg hp
        omega
      have hdead := hinv.dead hm hp hm0 hA (by omega) (hinv.g_eq_zero hp hpos) hpos
      exact .inr ⟨by rw [hrep.delta_eq]; exact hdelta, hdead⟩
  · exact .inr ⟨hstuck.1.ne', hcoprime⟩

/-! ## The start and the end -/

theorem represents_init (hB : 1 ≤ B) (hlen : input.length = p) (hinput : ∀ c ∈ input, |c| ≤ B)
    (hr0 : |r0| ≤ B) :
    Represents n B (RecipState.init r0 input) (GcdState.start (trinomial (ZMod n) p)
      (ofCoeffs (input.map (Int.castRingHom (ZMod n)))) p r0) where
  delta_eq := rfl
  f := by
    rw [GcdState.start_f]
    exact denotes_init_f hB
  g := by
    rw [GcdState.start_g]
    exact denotes_reverse hB hlen hinput
  v := denotes_zero hB
  r := denotes_const hB hr0

/-- The reversed cofactor, at the end. -/
theorem element_reverse_v (h : Denotes n B a P) (hP : P.natDegree ≤ p - 1) :
    element n (a.take p).reverse = AdjoinRoot.mk _ (reflect (p - 1) P) := by
  have hlen : ((a.take p).map (Int.castRingHom (ZMod n))).length = (p - 1) + 1 := by
    rw [List.length_map, List.length_take, h.length_eq]
    rfl
  have htake : ofCoeffs ((a.take p).map (Int.castRingHom (ZMod n))) = P := by
    ext i
    rw [coeff_ofCoeffs, getD_map_cast]
    by_cases hi : i < p
    · rw [h.coeff_eq, List.getD_eq_getElem _ _ (by rw [List.length_take, h.length_eq]; omega),
        List.getD_eq_getElem _ _ (by rw [h.length_eq]; omega), List.getElem_take]
    · rw [List.getD_eq_default _ _ (by rw [List.length_take]; omega), Int.cast_zero,
        coeff_eq_zero_of_natDegree_lt (by have : p = 761 := rfl; omega)]
  rw [element, residue, List.map_reverse, ofCoeffs_reverse _ hlen, htake]

omit [Fact n.Prime] in
theorem natDegree_input_lt (hlen : input.length = p) :
    (ofCoeffs (input.map (Int.castRingHom (ZMod n)))).natDegree < p :=
  Nat.lt_succ_of_le (natDegree_ofCoeffs_le (n := 760) (by rw [List.length_map, hlen]))

/-- A unit of the ring has no factor in common with the modulus. -/
theorem isCoprime_of_isUnit (h : IsUnit (element n input)) :
    IsCoprime (trinomial (ZMod n) p) (ofCoeffs (input.map (Int.castRingHom (ZMod n)))) := by
  obtain ⟨u, hu⟩ := h.exists_left_inv
  obtain ⟨U, rfl⟩ := AdjoinRoot.mk_surjective u
  rw [element, residue, ← map_mul, ← map_one (AdjoinRoot.mk _)] at hu
  obtain ⟨w, hw⟩ := AdjoinRoot.mk_eq_mk.mp hu
  exact ⟨-w, U, by linear_combination hw⟩

/-- What the arrays hold at the end of an inversion that succeeds. -/
structure Inverted (n : Nat) (B : Int) (r0 : Int) (input : List Int) (s : RecipState) : Prop where
  v_length_eq : s.v.length = p + 1
  head_ne_zero : ((head s.f : Int) : ZMod n) ≠ 0
  abs_head_le : |head s.f| ≤ B
  length_eq : (s.v.take p).reverse.length = p
  abs_le : ∀ c ∈ (s.v.take p).reverse, |c| ≤ B
  mul_eq : element n (s.v.take p).reverse * element n input =
    AdjoinRoot.of _ ((r0 : ZMod n) * (head s.f : Int))

theorem Represents.inverted (h : Represents n B s t) (hlen : input.length = p)
    (hinv : InversionInv (trinomial (ZMod n) p)
      (ofCoeffs (input.map (Int.castRingHom (ZMod n)))) p (r0 : ZMod n) (2 * p - 1) t)
    (hm : (trinomial (ZMod n) p).natDegree = p) (hm0 : (trinomial (ZMod n) p).coeff 0 ≠ 0)
    (hdelta : s.delta = 0) : Inverted n B r0 input s := by
  obtain ⟨hv, hdvd⟩ := hinv.inverse hm (by decide) hm0 (natDegree_input_lt hlen)
    (h.delta_eq.symm.trans hdelta)
  refine ⟨h.v.length_eq, ?_, h.f.abs_head_le, ?_, fun c hc => ?_, ?_⟩
  · rw [← h.f.coeff_zero]
    exact hinv.f_coeff_zero
  · rw [List.length_reverse, List.length_take, h.v.length_eq]
    exact Nat.min_eq_left (Nat.le_succ p)
  · exact h.v.abs_le c (List.mem_of_mem_take (List.mem_reverse.mp hc))
  · rw [element_reverse_v h.v hv, element, residue, ← map_mul, ← h.f.coeff_zero,
      ← AdjoinRoot.mk_C]
    symm
    apply AdjoinRoot.mk_eq_mk.mpr
    generalize p = N at hdvd ⊢
    exact hdvd

/-- The outcome of the rounds on an input: success with an inverse, or an input
that has a common factor with the modulus. -/
theorem recip_outcome (r0 : Int) (helim : Eliminates n B quot scalar) (hB : 1 ≤ B)
    (hlen : input.length = p) (hinput : ∀ c ∈ input, |c| ≤ B) (hr0 : |r0| ≤ B)
    (hne : (r0 : ZMod n) ≠ 0) :
    let s := (recipRound quot)^[2 * p - 1] (RecipState.init r0 input)
    (s.delta = 0 ∧ Inverted n B r0 input s) ∨ (s.delta ≠ 0 ∧ ¬ IsUnit (element n input)) := by
  have hm : (trinomial (ZMod n) p).natDegree = p := natDegree_trinomial two_le_p
  have hm0 : (trinomial (ZMod n) p).coeff 0 ≠ 0 := by
    rw [coeff_zero_trinomial two_le_p]
    exact neg_ne_zero.mpr one_ne_zero
  obtain ⟨hdelta, t, hrep, hinv⟩ | ⟨hdelta, hcoprime⟩ := run_outcome helim hm hm0
    (natDegree_input_lt hlen) hne (represents_init hB hlen hinput hr0)
  · exact .inl ⟨hdelta, hrep.inverted hlen hinv hm hm0 hdelta⟩
  · exact .inr ⟨hdelta, fun hunit => hcoprime (isCoprime_of_isUnit hunit)⟩

end Run

/-! ## Results -/

theorem eliminates_quotientUpdate : Eliminates q 2295 quotientUpdate fun _ => 1 := by
  have hsmall : ∀ f0 g0 out fv : Int, |f0| ≤ 2295 → |g0| ≤ 2295 → |out| ≤ 2295 → |fv| ≤ 2295 →
      |f0 * out - g0 * fv| ≤ 2 ^ 29 := by
    intro f0 g0 out fv hf0 hg0 hout hfv
    have h1 := mul_le_mul hf0 hout (abs_nonneg _) (by norm_num)
    have h2 := mul_le_mul hg0 hfv (abs_nonneg _) (by norm_num)
    rw [← abs_mul] at h1 h2
    exact (abs_sub _ _).trans (by linarith)
  refine ⟨by norm_num, ?_, ?_, ?_, ?_, ?_⟩
  · intro f0 g0 out fv hf0 hg0 hout hfv
    exact abs_freeze_le (hsmall f0 g0 out fv hf0 hg0 hout hfv)
  · intro f0 g0 out fv hf0 hg0 hout hfv _
    rw [quotientUpdate, cast_freeze (hsmall f0 g0 out fv hf0 hg0 hout hfv)]
    push_cast
    ring
  · intro _ _
    exact one_ne_zero
  · intro f0 fv
    rw [quotientUpdate, mul_zero, zero_mul, sub_zero]
    decide
  · intro c hc h0
    exact eq_of_cast_q_eq hc (by norm_num) (by rw [h0, Int.cast_zero])

/-- In a field of three elements, every nonzero element is its own inverse. -/
theorem mul_self_of_ne_zero {x : ZMod 3} (h : x ≠ 0) : x * x = 1 := by
  revert x
  decide

theorem eliminates_quotientUpdateR3 : Eliminates 3 1 quotientUpdateR3 fun f0 => f0 := by
  have hsmall : ∀ f0 g0 out fv : Int, |f0| ≤ 1 → |g0| ≤ 1 → |out| ≤ 1 → |fv| ≤ 1 →
      |out + -g0 * f0 * fv| ≤ 2 ^ 13 := by
    intro f0 g0 out fv hf0 hg0 hout hfv
    have h1 := mul_le_mul hg0 hf0 (abs_nonneg _) (by norm_num)
    have h2 := mul_le_mul h1 hfv (abs_nonneg _) (by norm_num)
    rw [← abs_mul, ← abs_mul, ← abs_neg, ← neg_mul, ← neg_mul] at h2
    exact (abs_add_le _ _).trans (by linarith)
  refine ⟨by norm_num, ?_, ?_, ?_, ?_, ?_⟩
  · intro f0 g0 out fv hf0 hg0 hout hfv
    rw [quotientUpdateR3, f3Freeze_eq (hsmall f0 g0 out fv hf0 hg0 hout hfv)]
    exact abs_bmod_three_le _
  · intro f0 g0 out fv hf0 hg0 hout hfv hne
    have hsquare := mul_self_of_ne_zero hne
    rw [quotientUpdateR3, f3Freeze_eq (hsmall f0 g0 out fv hf0 hg0 hout hfv), cast_bmod]
    push_cast
    linear_combination (-(out : ZMod 3)) * hsquare
  · intro f0 h
    exact h
  · intro f0 fv
    rw [quotientUpdateR3, neg_zero, zero_mul, zero_mul, add_zero]
    decide
  · intro c hc h0
    exact eq_of_cast_three_eq hc (by norm_num) (by rw [h0, Int.cast_zero])

variable {input out : List Int}

/-- `Rq::recip` inverts, up to the ratio. -/
theorem rqRecip_eq_some {r0 : Int} (hlen : input.length = p) (hinput : ∀ c ∈ input, |c| ≤ 2295)
    (hr0 : |r0| ≤ 2295) (hne : (r0 : ZMod q) ≠ 0) (h : rqRecip r0 input = some out) :
    out.length = p ∧ (∀ c ∈ out, |c| ≤ 2295) ∧
      element q out * element q input = AdjoinRoot.of _ (r0 : ZMod q) := by
  have houtcome := recip_outcome r0 eliminates_quotientUpdate (by norm_num) hlen hinput hr0 hne
  unfold rqRecip at h
  dsimp only at h houtcome
  generalize (recipRound quotientUpdate)^[2 * p - 1] (RecipState.init r0 input) = s at h houtcome
  by_cases hdelta : s.delta = 0
  · obtain ⟨_, hinv⟩ | ⟨hne, _⟩ := houtcome
    · rw [if_neg (not_not.mpr hdelta), Option.some_inj,
        map_range_eq hinv.v_length_eq (fun x => freeze (recipCt (head s.f) * x))] at h
      obtain ⟨hscale, hscale_mul⟩ := recipCt_mul hinv.abs_head_le hinv.head_ne_zero
      generalize recipCt (head s.f) = scale at h hscale hscale_mul
      have hsmall : ∀ x ∈ (s.v.take p).reverse, |scale * x| ≤ 2 ^ 29 := fun x hx =>
        abs_mul_le_of (hscale.trans (by norm_num)) ((hinv.abs_le x hx).trans (by norm_num))
      subst h
      refine ⟨by rw [List.length_map, hinv.length_eq], fun c hc => ?_, ?_⟩
      · obtain ⟨x, hx, rfl⟩ := List.mem_map.mp hc
        exact abs_freeze_le (hsmall x hx)
      · rw [element_map_congr fun x hx => cast_freeze (hsmall x hx), element_map_mul, mul_assoc,
          hinv.mul_eq, ← map_mul]
        congr 1
        linear_combination (r0 : ZMod q) * hscale_mul
    · exact absurd hdelta hne
  · rw [if_pos hdelta] at h
    simp at h

/-- It succeeds on every unit. -/
theorem rqRecip_isSome {r0 : Int} (hlen : input.length = p) (hinput : ∀ c ∈ input, |c| ≤ 2295)
    (hr0 : |r0| ≤ 2295) (hne : (r0 : ZMod q) ≠ 0) (hunit : IsUnit (element q input)) :
    (rqRecip r0 input).isSome := by
  have houtcome := recip_outcome r0 eliminates_quotientUpdate (by norm_num) hlen hinput hr0 hne
  obtain ⟨hdelta, _⟩ | ⟨_, hnot⟩ := houtcome
  · unfold rqRecip
    rw [if_neg (not_not.mpr hdelta)]
    rfl
  · exact absurd hunit hnot

/-- `R3::recip` inverts. -/
theorem r3Recip_eq_some (hinput : Ternary input) (h : r3Recip input = some out) :
    Ternary out ∧ element 3 out * element 3 input = 1 := by
  have houtcome := recip_outcome 1 eliminates_quotientUpdateR3 le_rfl hinput.length_eq
    hinput.abs_le (by norm_num) (by decide)
  unfold r3Recip at h
  dsimp only at h houtcome
  generalize (recipRound quotientUpdateR3)^[2 * p - 1] (RecipState.init 1 input) = s
    at h houtcome
  by_cases hdelta : s.delta = 0
  · obtain ⟨_, hinv⟩ | ⟨hne, _⟩ := houtcome
    · rw [if_neg (not_not.mpr hdelta), Option.some_inj,
        map_range_eq hinv.v_length_eq (head s.f * ·)] at h
      have hhead := hinv.abs_head_le
      have hsquare := mul_self_of_ne_zero hinv.head_ne_zero
      subst h
      refine ⟨⟨by rw [List.length_map, hinv.length_eq], fun c hc => ?_⟩, ?_⟩
      · obtain ⟨x, hx, rfl⟩ := List.mem_map.mp hc
        rw [abs_mul]
        exact mul_le_one₀ hhead (abs_nonneg x) (hinv.abs_le x hx)
      · rw [element_map_mul, mul_assoc, hinv.mul_eq, ← map_mul, Int.cast_one, one_mul, hsquare,
          map_one]
    · exact absurd hdelta hne
  · rw [if_pos hdelta] at h
    simp at h

theorem r3Recip_isSome (hinput : Ternary input) (hunit : IsUnit (element 3 input)) :
    (r3Recip input).isSome := by
  have houtcome := recip_outcome 1 eliminates_quotientUpdateR3 le_rfl hinput.length_eq
    hinput.abs_le (by norm_num) (by decide)
  obtain ⟨hdelta, _⟩ | ⟨_, hnot⟩ := houtcome
  · unfold r3Recip
    rw [if_neg (not_not.mpr hdelta)]
    rfl
  · exact absurd hunit hnot

-- The rounds are not to be run where only the result matters.
attribute [irreducible] rqRecip r3Recip

end Trelis.Sntrup
