import Trelis.Lib.TrinomialRing

/-!
# Polynomial multiplication of sntrup761

Karatsuba multiplication, and the reduction by `x^761 = x + 1` (`poly.rs`).
The two are written over any commutative ring and run on integers.

`karatsubaMult_spec` is the product, by induction on the halving.
`reduceRing_spec` says that the reduction subtracts a multiple of the trinomial,
and `coeff_reduceRing` what each coefficient becomes.
-/

namespace Trelis.Sntrup

open Polynomial

variable {R : Type} [CommRing R]

/-- `P`. -/
abbrev p : Nat := 761

/-- `KARATSUBA_THRESHOLD`. -/
def karatsubaThreshold : Nat := 32

/-! ## Karatsuba multiplication -/

/-- `a.resize(n, 0)`, of a list that is not longer. -/
def resize (n : Nat) (a : List R) : List R := a ++ List.replicate (n - a.length) 0

/-- The sum of the two halves, where the longer one goes on. -/
def sumHalves (low high : List R) : List R :=
  let overlap := min low.length high.length
  List.zipWith (· + ·) low high ++
    if low.length > high.length then low.drop overlap else high.drop overlap

theorem length_resize {n : Nat} {a : List R} (h : a.length ≤ n) : (resize n a).length = n := by
  rw [resize, List.length_append, List.length_replicate]
  omega

theorem length_sumHalves (low high : List R) :
    (sumHalves low high).length = max low.length high.length := by
  rw [sumHalves, List.length_append, List.length_zipWith]
  split
  · rw [List.length_drop]
    omega
  · rw [List.length_drop]
    omega

section

variable [DecidableEq R]

/-- `schoolbook_mult`. -/
def schoolbookMult (a b : List R) : List R :=
  if a.isEmpty || b.isEmpty then []
  else schoolbookRows b 0 a (List.replicate (a.length + b.length - 1) 0)

/-- `karatsuba_mult`. -/
def karatsubaMult (a b : List R) : List R :=
  let n := max a.length b.length
  if n ≤ karatsubaThreshold then schoolbookMult a b
  else
    let aPadded := resize n a
    let bPadded := resize n b
    let m := n / 2
    let aLow := aPadded.take m
    let aHigh := aPadded.drop m
    let bLow := bPadded.take m
    let bHigh := bPadded.drop m
    let z0 := karatsubaMult aLow bLow
    let z2 := karatsubaMult aHigh bHigh
    let z1Full := karatsubaMult (sumHalves aLow aHigh) (sumHalves bLow bHigh)
    let result := List.replicate (2 * n - 1) 0
    let result := addShifted 0 z0 result
    let result := addShifted (2 * m) z2 result
    let result := addShifted m z1Full result
    let result := addShifted m (z0.map (- ·)) result
    addShifted m (z2.map (- ·)) result
termination_by max a.length b.length
decreasing_by
  all_goals
    simp only [length_sumHalves, List.length_take, List.length_drop,
      length_resize (Nat.le_max_left _ _), length_resize (Nat.le_max_right _ _)]
    have hthreshold : karatsubaThreshold = 32 := rfl
    omega

/-! ## What it computes -/

omit [DecidableEq R] in
theorem ofCoeffs_resize (n : Nat) (a : List R) : ofCoeffs (resize n a) = ofCoeffs a := by
  rw [resize, ofCoeffs_append, ofCoeffs_replicate_zero, mul_zero, add_zero]

omit [DecidableEq R] in
theorem ofCoeffs_sumHalves (low high : List R) :
    ofCoeffs (sumHalves low high) = ofCoeffs low + ofCoeffs high := by
  induction low generalizing high with
  | nil => simp [sumHalves]
  | cons a low ih =>
    cases high with
    | nil => simp [sumHalves]
    | cons b high =>
      have hcons : sumHalves (a :: low) (b :: high) = (a + b) :: sumHalves low high := by
        simp only [sumHalves, List.length_cons, Nat.add_min_add_right, List.zipWith_cons_cons,
          List.drop_succ_cons, Nat.succ_lt_succ_iff, gt_iff_lt, List.cons_append]
      rw [hcons, ofCoeffs_cons, ih, ofCoeffs_cons, ofCoeffs_cons, map_add]
      ring

omit [DecidableEq R] in
theorem ofCoeffs_map_neg (a : List R) : ofCoeffs (a.map (- ·)) = -ofCoeffs a := by
  induction a with
  | nil => simp
  | cons c a ih =>
    rw [List.map_cons, ofCoeffs_cons, ih, ofCoeffs_cons, map_neg]
    ring

omit [DecidableEq R] in
theorem ofCoeffs_take_drop (a : List R) {m : Nat} (h : m ≤ a.length) :
    ofCoeffs a = ofCoeffs (a.take m) + X ^ m * ofCoeffs (a.drop m) := by
  conv_lhs => rw [← List.take_append_drop m a, ofCoeffs_append, List.length_take,
    Nat.min_eq_left h]

theorem ofCoeffs_schoolbookMult (a b : List R) :
    ofCoeffs (schoolbookMult a b) = ofCoeffs a * ofCoeffs b := by
  unfold schoolbookMult
  split
  · next h =>
    rw [Bool.or_eq_true, List.isEmpty_iff, List.isEmpty_iff] at h
    obtain rfl | rfl := h <;> simp
  · rw [ofCoeffs_schoolbookRows (by rw [List.length_replicate]; omega),
      ofCoeffs_replicate_zero]
    ring

theorem length_schoolbookMult_le (a b : List R) :
    (schoolbookMult a b).length ≤ 2 * max a.length b.length - 1 := by
  unfold schoolbookMult
  split
  · simp
  · rw [length_schoolbookRows, List.length_replicate]
    omega

omit [DecidableEq R] in
/-- The three products at their places. -/
theorem ofCoeffs_combine {n m : Nat} {z0 z2 z1 : List R} (h0 : m + z0.length ≤ 2 * n - 1)
    (h2 : 2 * m + z2.length ≤ 2 * n - 1) (h1 : m + z1.length ≤ 2 * n - 1) :
    ofCoeffs (addShifted m (z2.map (- ·)) (addShifted m (z0.map (- ·)) (addShifted m z1
      (addShifted (2 * m) z2 (addShifted 0 z0 (List.replicate (2 * n - 1) 0)))))) =
      ofCoeffs z0 + X ^ (2 * m) * ofCoeffs z2 +
        X ^ m * (ofCoeffs z1 - ofCoeffs z0 - ofCoeffs z2) := by
  rw [ofCoeffs_addShifted
      (by simp only [length_addShifted, List.length_map, List.length_replicate]; omega),
    ofCoeffs_addShifted
      (by simp only [length_addShifted, List.length_map, List.length_replicate]; omega),
    ofCoeffs_addShifted (by simp only [length_addShifted, List.length_replicate]; omega),
    ofCoeffs_addShifted (by simp only [length_addShifted, List.length_replicate]; omega),
    ofCoeffs_addShifted (by simp only [List.length_replicate]; omega),
    ofCoeffs_replicate_zero, ofCoeffs_map_neg, ofCoeffs_map_neg]
  ring

omit [DecidableEq R] in
theorem length_combine (n m : Nat) (z0 z2 z1 : List R) :
    (addShifted m (z2.map (- ·)) (addShifted m (z0.map (- ·)) (addShifted m z1
      (addShifted (2 * m) z2 (addShifted 0 z0 (List.replicate (2 * n - 1) 0)))))).length =
      2 * n - 1 := by
  simp only [length_addShifted, List.length_replicate]

theorem karatsubaMult_spec (a b : List R) :
    ofCoeffs (karatsubaMult a b) = ofCoeffs a * ofCoeffs b ∧
      (karatsubaMult a b).length ≤ 2 * max a.length b.length - 1 := by
  induction a, b using karatsubaMult.induct with
  | case1 a b n h =>
    rw [karatsubaMult, if_pos h]
    exact ⟨ofCoeffs_schoolbookMult a b, length_schoolbookMult_le a b⟩
  | case2 a b n h aPadded bPadded m aLow aHigh bLow bHigh ih0 ih2 ih1 =>
    have hm : m = n / 2 := rfl
    have hn : 32 < n := Nat.not_le.mp h
    have ha : aPadded.length = n := length_resize (Nat.le_max_left _ _)
    have hb : bPadded.length = n := length_resize (Nat.le_max_right _ _)
    have hsplitA : ofCoeffs a = ofCoeffs aLow + X ^ m * ofCoeffs aHigh :=
      (ofCoeffs_resize n a).symm.trans (ofCoeffs_take_drop aPadded (by omega))
    have hsplitB : ofCoeffs b = ofCoeffs bLow + X ^ m * ofCoeffs bHigh :=
      (ofCoeffs_resize n b).symm.trans (ofCoeffs_take_drop bPadded (by omega))
    have haLow : aLow.length = m := by rw [List.length_take]; omega
    have hbLow : bLow.length = m := by rw [List.length_take]; omega
    have haHigh : aHigh.length = n - m := by rw [List.length_drop]; omega
    have hbHigh : bHigh.length = n - m := by rw [List.length_drop]; omega
    rw [length_sumHalves, length_sumHalves, ofCoeffs_sumHalves, ofCoeffs_sumHalves, haLow, hbLow,
      haHigh, hbHigh] at ih1
    rw [haLow, hbLow] at ih0
    rw [haHigh, hbHigh] at ih2
    obtain ⟨ih0, hlen0⟩ := ih0
    obtain ⟨ih1, hlen1⟩ := ih1
    obtain ⟨ih2, hlen2⟩ := ih2
    have hfit0 : m + (karatsubaMult aLow bLow).length ≤ 2 * n - 1 := by omega
    have hfit2 : 2 * m + (karatsubaMult aHigh bHigh).length ≤ 2 * n - 1 := by omega
    have hfit1 : m + (karatsubaMult (sumHalves aLow aHigh) (sumHalves bLow bHigh)).length ≤
        2 * n - 1 := by omega
    rw [karatsubaMult, if_neg h]
    constructor
    · refine (ofCoeffs_combine hfit0 hfit2 hfit1).trans ?_
      rw [ih0, ih1, ih2, hsplitA, hsplitB]
      ring
    · exact (length_combine n m _ _ _).le

end

/-! ## Reduction by the trinomial -/

/-- A round of the reduction: `x^(P+k) = x^(k+1) + x^k`.  The wrap-around is never
reached by a product of two elements. -/
def addHighRound (k : Nat) (v : R) (result : List R) : List R :=
  let result := result.modify k (· + v)
  if k + 1 < p then result.modify (k + 1) (· + v)
  else ((result.modify 0 (· + v)).modify 1 (· + v)).modify (k + 1 - p) (· + v)

/-- The rounds, from the coefficient of `x^(P+k)` on. -/
def addHigh : Nat → List R → List R → List R
  | _, [], result => result
  | k, v :: poly, result => addHigh (k + 1) poly (addHighRound k v result)

/-- `reduce_ring_rq` and `reduce_ring_r3`, before the final reduction of the
coefficients. -/
def reduceRing (poly : List R) : List R :=
  addHigh 0 (poly.drop p) (resize p (poly.take p))

theorem length_addHighRound (k : Nat) (v : R) (result : List R) :
    (addHighRound k v result).length = result.length := by
  unfold addHighRound
  split <;> simp only [List.length_modify]

theorem length_addHigh (k : Nat) (poly result : List R) :
    (addHigh k poly result).length = result.length := by
  induction poly generalizing k result with
  | nil => rfl
  | cons v poly ih => rw [addHigh, ih, length_addHighRound]

theorem length_reduceRing (poly : List R) : (reduceRing poly).length = p := by
  rw [reduceRing, length_addHigh, length_resize (by rw [List.length_take]; omega)]

theorem ofCoeffs_addHigh {k : Nat} {poly result : List R} (hlen : result.length = p)
    (h : k + poly.length < p) :
    ofCoeffs (addHigh k poly result) = ofCoeffs result + X ^ k * (X + 1) * ofCoeffs poly := by
  induction poly generalizing k result with
  | nil => simp [addHigh]
  | cons v poly ih =>
    rw [List.length_cons] at h
    rw [addHigh, ih (by rw [length_addHighRound, hlen]) (by omega), addHighRound,
      if_pos (by omega), ofCoeffs_modify (by rw [List.length_modify]; omega),
      ofCoeffs_modify (by omega), ofCoeffs_cons]
    ring

/-- The reduction takes a multiple of the trinomial off. -/
theorem reduceRing_spec {poly : List R} (h : poly.length ≤ 2 * p - 1) :
    ofCoeffs poly = ofCoeffs (reduceRing poly) + trinomial R p * ofCoeffs (poly.drop p) := by
  have hp : p = 761 := rfl
  have hlen : (resize p (poly.take p)).length = p :=
    length_resize (by rw [List.length_take]; omega)
  rw [reduceRing, ofCoeffs_addHigh hlen (by rw [List.length_drop]; omega), ofCoeffs_resize,
    trinomial]
  by_cases hp : p ≤ poly.length
  · rw [ofCoeffs_take_drop poly hp]
    ring
  · rw [List.drop_eq_nil_of_le (by omega), List.take_of_length_le (by omega), ofCoeffs_nil]
    ring

theorem coeff_reduceRing {poly : List R} (h : poly.length ≤ 2 * p - 1) {k : Nat} (hk : k < p) :
    (ofCoeffs (reduceRing poly)).coeff k = foldCoeff p k (ofCoeffs poly) := by
  have hp : p = 761 := rfl
  have hlow := natDegree_ofCoeffs_le (show (reduceRing poly).length ≤ 760 + 1 by
    rw [length_reduceRing])
  have hhigh := natDegree_ofCoeffs_le (show (poly.drop p).length ≤ 759 + 1 by
    rw [List.length_drop]
    omega)
  exact coeff_of_eq_add hk (reduceRing_spec h) (by omega) (by omega)

end Trelis.Sntrup
