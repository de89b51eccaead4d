import Mathlib.Tactic.Linarith
import Trelis.Lib.SignedWord
import Trelis.Sntrup.Encoding

/-!
# Multiplication in machine integers

The multiplications of `poly.rs` as the machine runs them, on `i32` with
overflow checks.

`KaratsubaFits` says of two coefficient lists that no product and no sum of the
recursion leaves the 32 bits, in terms of the products of their blocks.  The
checked multiplication returns the product exactly then
(`karatsubaMultChecked_eq_some`).
-/

namespace Trelis.Sntrup

open Polynomial

/-! ## Karatsuba multiplication -/

/-- `schoolbook_mult`, on `i32`. -/
def schoolbookMultChecked (a b : List Int) : Option (List Int) :=
  if a.isEmpty || b.isEmpty then some []
  else schoolbookRowsChecked 32 b 0 a (List.replicate (a.length + b.length - 1) 0)

/-- The sum of the two halves. -/
def sumHalvesChecked (low high : List Int) : Option (List Int) := do
  let overlap := min low.length high.length
  let sums ← (low.zip high).mapM fun xy => signed 32 (xy.1 + xy.2)
  pure (sums ++ if low.length > high.length then low.drop overlap else high.drop overlap)

/-- The three products at their places. -/
def combineChecked (n m : Nat) (z0 z2 z1Full : List Int) : Option (List Int) := do
  let result := List.replicate (2 * n - 1) 0
  let result ← addRow (addAt 32) 0 z0 result
  let result ← addRow (guarded (addAt 32)) (2 * m) z2 result
  let result ← addRow (guarded (addAt 32)) m z1Full result
  let result ← addRow (guarded (subAt 32)) m z0 result
  addRow (guarded (subAt 32)) m z2 result

theorem sumHalvesChecked_eq_some {low high r : List Int} :
    sumHalvesChecked low high = some r ↔
      AllSigned 32 (List.zipWith (· + ·) low high) ∧ r = sumHalves low high := by
  rw [sumHalvesChecked, sumHalves, ← List.map_uncurry_zip_eq_zipWith]
  simp only [bind, pure, Option.bind_eq_some_iff, Option.some.injEq, mapM_signed_eq_some]
  constructor
  · rintro ⟨_, ⟨hfit, rfl⟩, rfl⟩
    exact ⟨hfit, rfl⟩
  · rintro ⟨hfit, rfl⟩
    exact ⟨_, ⟨hfit, rfl⟩, rfl⟩

theorem length_of_sumHalvesChecked {low high r : List Int}
    (h : sumHalvesChecked low high = some r) : r.length = max low.length high.length := by
  rw [(sumHalvesChecked_eq_some.mp h).2, length_sumHalves]

/-- `karatsuba_mult`, on `i32`. -/
def karatsubaMultChecked (a b : List Int) : Option (List Int) :=
  let n := max a.length b.length
  if n ≤ karatsubaThreshold then schoolbookMultChecked a b
  else do
    let aPadded := resize n a
    let bPadded := resize n b
    let m := n / 2
    let aLow := aPadded.take m
    let aHigh := aPadded.drop m
    let bLow := bPadded.take m
    let bHigh := bPadded.drop m
    let z0 ← karatsubaMultChecked aLow bLow
    let z2 ← karatsubaMultChecked aHigh bHigh
    -- The sums come with their lengths, which the recursion ends by.
    let aSum ← (sumHalvesChecked aLow aHigh).attach
    let bSum ← (sumHalvesChecked bLow bHigh).attach
    let z1Full ← karatsubaMultChecked aSum.val bSum.val
    combineChecked n m z0 z2 z1Full
termination_by max a.length b.length
decreasing_by
  all_goals
    have hthreshold : karatsubaThreshold = 32 := rfl
    have ha : aPadded.length = n := length_resize (Nat.le_max_left _ _)
    have hb : bPadded.length = n := length_resize (Nat.le_max_right _ _)
  · show max aLow.length bLow.length < n
    rw [List.length_take, List.length_take]
    omega
  · show max aHigh.length bHigh.length < n
    rw [List.length_drop, List.length_drop]
    omega
  · show max aSum.val.length bSum.val.length < n
    rw [length_of_sumHalvesChecked aSum.property, length_of_sumHalvesChecked bSum.property,
      List.length_take, List.length_take, List.length_drop, List.length_drop]
    omega

/-! ## When it fits -/

/-- No sum leaves the 32 bits while three products are put at their places. -/
structure CombineFits (m : Nat) (z0 z2 z1 : Int[X]) : Prop where
  low : FitsSigned 32 z0
  high : FitsSigned 32 (z0 + X ^ (2 * m) * z2)
  middle : FitsSigned 32 (z0 + X ^ (2 * m) * z2 + X ^ m * z1)
  sub_low : FitsSigned 32 (z0 + X ^ (2 * m) * z2 + X ^ m * (z1 - z0))
  sub_high : FitsSigned 32 (z0 + X ^ (2 * m) * z2 + X ^ m * (z1 - z0 - z2))

/-- No product and no sum of the recursion leaves the 32 bits. -/
def KaratsubaFits (a b : List Int) : Prop :=
  let n := max a.length b.length
  if n ≤ karatsubaThreshold then SchoolbookFits 32 a b
  else
    let aPadded := resize n a
    let bPadded := resize n b
    let m := n / 2
    let aLow := aPadded.take m
    let aHigh := aPadded.drop m
    let bLow := bPadded.take m
    let bHigh := bPadded.drop m
    (KaratsubaFits aLow bLow ∧ KaratsubaFits aHigh bHigh ∧
      KaratsubaFits (sumHalves aLow aHigh) (sumHalves bLow bHigh)) ∧
    (AllSigned 32 (List.zipWith (· + ·) aLow aHigh) ∧
      AllSigned 32 (List.zipWith (· + ·) bLow bHigh)) ∧
    CombineFits m (ofCoeffs aLow * ofCoeffs bLow) (ofCoeffs aHigh * ofCoeffs bHigh)
      ((ofCoeffs aLow + ofCoeffs aHigh) * (ofCoeffs bLow + ofCoeffs bHigh))
termination_by max a.length b.length
decreasing_by
  all_goals
    simp only [length_sumHalves, List.length_take, List.length_drop,
      length_resize (Nat.le_max_left _ _), length_resize (Nat.le_max_right _ _)]
    have hthreshold : karatsubaThreshold = 32 := rfl
    omega

theorem schoolbookMultChecked_eq_some {a b r : List Int} :
    schoolbookMultChecked a b = some r ↔ SchoolbookFits 32 a b ∧ r = schoolbookMult a b := by
  rw [schoolbookMultChecked, schoolbookMult]
  by_cases h : (a.isEmpty || b.isEmpty) = true
  · rw [if_pos h, if_pos h]
    rw [Bool.or_eq_true, List.isEmpty_iff, List.isEmpty_iff] at h
    have hfits : SchoolbookFits 32 a b := by
      obtain rfl | rfl := h
      · exact ⟨by simp, fun i k => by simp [inSigned_zero]⟩
      · exact ⟨by simp, fun i k => by simp [inSigned_zero]⟩
    simp [hfits, eq_comm]
  · rw [if_neg h, if_neg h, schoolbookRowsChecked_replicate (by omega)]

theorem combineChecked_eq_some {n m : Nat} (z0 z2 z1 r : List Int)
    (h0 : m + z0.length ≤ 2 * n - 1) (h2 : 2 * m + z2.length ≤ 2 * n - 1)
    (h1 : m + z1.length ≤ 2 * n - 1) :
    combineChecked n m z0 z2 z1 = some r ↔
      CombineFits m (ofCoeffs z0) (ofCoeffs z2) (ofCoeffs z1) ∧
        r = addShifted m (z2.map (- ·)) (addShifted m (z0.map (- ·)) (addShifted m z1
          (addShifted (2 * m) z2 (addShifted 0 z0 (List.replicate (2 * n - 1) 0))))) := by
  generalize hs0 : addShifted 0 z0 (List.replicate (2 * n - 1) 0) = s0
  generalize hs2 : addShifted (2 * m) z2 s0 = s2
  generalize hs1 : addShifted m z1 s2 = s1
  generalize ht0 : addShifted m (z0.map (- ·)) s1 = t0
  have hlen0 : s0.length = 2 * n - 1 := by rw [← hs0, length_addShifted, List.length_replicate]
  have hlen2 : s2.length = 2 * n - 1 := by rw [← hs2, length_addShifted, hlen0]
  have hlen1 : s1.length = 2 * n - 1 := by rw [← hs1, length_addShifted, hlen2]
  have hlent : t0.length = 2 * n - 1 := by rw [← ht0, length_addShifted, hlen1]
  have hp0 : ofCoeffs s0 = ofCoeffs z0 := by
    rw [← hs0, ofCoeffs_addShifted (by rw [List.length_replicate]; omega),
      ofCoeffs_replicate_zero]
    ring
  have hp2 : ofCoeffs s2 = ofCoeffs z0 + X ^ (2 * m) * ofCoeffs z2 := by
    rw [← hs2, ofCoeffs_addShifted (by omega), hp0]
  have hp1 : ofCoeffs s1 = ofCoeffs z0 + X ^ (2 * m) * ofCoeffs z2 + X ^ m * ofCoeffs z1 := by
    rw [← hs1, ofCoeffs_addShifted (by omega), hp2]
  have hpt : ofCoeffs t0 = ofCoeffs z0 + X ^ (2 * m) * ofCoeffs z2 +
      X ^ m * (ofCoeffs z1 - ofCoeffs z0) := by
    rw [← ht0, ofCoeffs_addShifted (by rw [List.length_map]; omega), hp1, ofCoeffs_map_neg]
    ring
  -- Each row fits when what it leaves does, given that of the rows before.
  have hrow0 : ∀ r, addRow (addAt 32) 0 z0 (List.replicate (2 * n - 1) 0) = some r ↔
      FitsSigned 32 (ofCoeffs z0) ∧ r = s0 := fun r => by
    rw [addRow_eq_some_fits addsAt_addAt (allSigned_iff.mp (allSigned_replicate_zero _)) rfl
      (congrArg ofCoeffs (List.map_id z0)) (by rw [List.length_replicate]; omega), List.map_id,
      hs0, ofCoeffs_replicate_zero, pow_zero, one_mul, zero_add]
  have hrow2 := fun (hfits : FitsSigned 32 (ofCoeffs z0)) r =>
    addRow_eq_some_fits addsAt_addAt.guarded hfits hp0 (congrArg ofCoeffs (List.map_id z2))
      (show 2 * m + z2.length ≤ s0.length by omega) (r := r)
  have hrow1 := fun (hfits : FitsSigned 32 _) r =>
    addRow_eq_some_fits addsAt_addAt.guarded hfits hp2 (congrArg ofCoeffs (List.map_id z1))
      (show m + z1.length ≤ s2.length by omega) (r := r)
  have hsub0 := fun (hfits : FitsSigned 32 _) r =>
    addRow_eq_some_fits addsAt_subAt.guarded hfits hp1 (ofCoeffs_map_neg z0)
      (show m + z0.length ≤ s1.length by omega) (r := r)
  have hsub2 := fun (hfits : FitsSigned 32 _) r =>
    addRow_eq_some_fits addsAt_subAt.guarded hfits hpt (ofCoeffs_map_neg z2)
      (show m + z2.length ≤ t0.length by omega) (r := r)
  simp only [List.map_id, hs2, hs1, ht0] at hrow2 hrow1 hsub0 hsub2
  have hmid : ofCoeffs z0 + X ^ (2 * m) * ofCoeffs z2 + X ^ m * ofCoeffs z1 +
      X ^ m * -ofCoeffs z0 = ofCoeffs z0 + X ^ (2 * m) * ofCoeffs z2 +
        X ^ m * (ofCoeffs z1 - ofCoeffs z0) := by ring
  have hlast : ofCoeffs z0 + X ^ (2 * m) * ofCoeffs z2 +
      X ^ m * (ofCoeffs z1 - ofCoeffs z0) + X ^ m * -ofCoeffs z2 =
        ofCoeffs z0 + X ^ (2 * m) * ofCoeffs z2 +
          X ^ m * (ofCoeffs z1 - ofCoeffs z0 - ofCoeffs z2) := by ring
  rw [hmid] at hsub0
  rw [hlast] at hsub2
  rw [combineChecked]
  simp only [bind, Option.bind_eq_some_iff, hrow0]
  constructor
  · rintro ⟨_, ⟨f0, rfl⟩, _, h2, _, h1, _, h3, h4⟩
    obtain ⟨f2, rfl⟩ := (hrow2 f0 _).mp h2
    obtain ⟨f1, rfl⟩ := (hrow1 f2 _).mp h1
    obtain ⟨f3, rfl⟩ := (hsub0 f1 _).mp h3
    obtain ⟨f4, rfl⟩ := (hsub2 f3 _).mp h4
    exact ⟨⟨f0, f2, f1, f3, f4⟩, rfl⟩
  · rintro ⟨hfits, rfl⟩
    exact ⟨_, ⟨hfits.low, rfl⟩, _, (hrow2 hfits.low _).mpr ⟨hfits.high, rfl⟩, _,
      (hrow1 hfits.high _).mpr ⟨hfits.middle, rfl⟩, _,
      (hsub0 hfits.middle _).mpr ⟨hfits.sub_low, rfl⟩,
      (hsub2 hfits.sub_low _).mpr ⟨hfits.sub_high, rfl⟩⟩

/-- The checked multiplication returns the product exactly when everything fits. -/
theorem karatsubaMultChecked_eq_some (a b : List Int) :
    ∀ r, karatsubaMultChecked a b = some r ↔ KaratsubaFits a b ∧ r = karatsubaMult a b := by
  induction a, b using karatsubaMult.induct with
  | case1 a b n h =>
    rw [karatsubaMultChecked, karatsubaMult, KaratsubaFits, if_pos h, if_pos h, if_pos h]
    exact fun r => schoolbookMultChecked_eq_some
  | case2 a b n h aPadded bPadded m aLow aHigh bLow bHigh ih0 ih2 ih1 =>
    intro r
    have hm : m = n / 2 := rfl
    have hn : 32 < n := Nat.not_le.mp h
    have ha : aPadded.length = n := length_resize (Nat.le_max_left _ _)
    have hb : bPadded.length = n := length_resize (Nat.le_max_right _ _)
    have haLow : aLow.length = m := by rw [List.length_take]; omega
    have hbLow : bLow.length = m := by rw [List.length_take]; omega
    have haHigh : aHigh.length = n - m := by rw [List.length_drop]; omega
    have hbHigh : bHigh.length = n - m := by rw [List.length_drop]; omega
    obtain ⟨hz0, hlen0⟩ := karatsubaMult_spec aLow bLow
    obtain ⟨hz2, hlen2⟩ := karatsubaMult_spec aHigh bHigh
    obtain ⟨hz1, hlen1⟩ := karatsubaMult_spec (sumHalves aLow aHigh) (sumHalves bLow bHigh)
    rw [haLow, hbLow] at hlen0
    rw [haHigh, hbHigh] at hlen2
    rw [length_sumHalves, length_sumHalves, haLow, hbLow, haHigh, hbHigh] at hlen1
    rw [ofCoeffs_sumHalves, ofCoeffs_sumHalves] at hz1
    have hcombine := fun r => combineChecked_eq_some (n := n) (m := m) (karatsubaMult aLow bLow)
      (karatsubaMult aHigh bHigh) (karatsubaMult (sumHalves aLow aHigh) (sumHalves bLow bHigh)) r
      (by omega) (by omega) (by omega)
    rw [hz0, hz2, hz1] at hcombine
    rw [karatsubaMultChecked, karatsubaMult, KaratsubaFits, if_neg h, if_neg h, if_neg h]
    simp only [bind, Option.bind_eq_some_iff, Option.attach_eq_some_iff, Subtype.exists]
    constructor
    · rintro ⟨_, h0, _, h2, _, haSum, -, _, hbSum, -, _, h1, hresult⟩
      obtain ⟨hfitA, rfl⟩ := sumHalvesChecked_eq_some.mp haSum
      obtain ⟨hfitB, rfl⟩ := sumHalvesChecked_eq_some.mp hbSum
      obtain ⟨hfit0, rfl⟩ := (ih0 _).mp h0
      obtain ⟨hfit2, rfl⟩ := (ih2 _).mp h2
      obtain ⟨hfit1, rfl⟩ := (ih1 _).mp h1
      obtain ⟨hfits, rfl⟩ := (hcombine _).mp hresult
      exact ⟨⟨⟨hfit0, hfit2, hfit1⟩, ⟨hfitA, hfitB⟩, hfits⟩, rfl⟩
    · rintro ⟨⟨⟨hfit0, hfit2, hfit1⟩, ⟨hfitA, hfitB⟩, hfits⟩, rfl⟩
      have haSum := sumHalvesChecked_eq_some.mpr ⟨hfitA, rfl⟩
      have hbSum := sumHalvesChecked_eq_some.mpr ⟨hfitB, rfl⟩
      exact ⟨_, (ih0 _).mpr ⟨hfit0, rfl⟩, _, (ih2 _).mpr ⟨hfit2, rfl⟩, _, haSum, haSum, _, hbSum,
        hbSum, _, (ih1 _).mpr ⟨hfit1, rfl⟩, (hcombine _).mpr ⟨hfits, rfl⟩⟩

/-- The last sums of a multiplication that fits are the coefficients of the product. -/
theorem KaratsubaFits.product_fits {a b : List Int} (h : KaratsubaFits a b) :
    FitsSigned 32 (ofCoeffs a * ofCoeffs b) := by
  rw [KaratsubaFits] at h
  by_cases hn : max a.length b.length ≤ karatsubaThreshold
  · rw [if_pos hn] at h
    have hall := h.2 a.length
    rwa [List.take_length] at hall
  · rw [if_neg hn] at h
    generalize hmax : max a.length b.length = n at h
    have hlena : (resize n a).length = n := length_resize (hmax ▸ Nat.le_max_left _ _)
    have hlenb : (resize n b).length = n := length_resize (hmax ▸ Nat.le_max_right _ _)
    rw [← ofCoeffs_resize n a, ← ofCoeffs_resize n b,
      ofCoeffs_take_drop (resize n a) (show n / 2 ≤ _ by omega),
      ofCoeffs_take_drop (resize n b) (show n / 2 ≤ _ by omega)]
    convert h.2.2.sub_high using 1
    ring

/-! ## A bound that is enough -/

/-- The halves of two small factors, put together. -/
theorem combineFits_of_le {m h : Nat} {aLow aHigh bLow bHigh : List Int} {A B : Int}
    (ha : ∀ x ∈ aLow ++ aHigh, |x| ≤ A) (hb : ∀ y ∈ bLow ++ bHigh, |y| ≤ B) (hA : 0 ≤ A)
    (hB : 0 ≤ B) (haLow : aLow.length = m) (hbLow : bLow.length = m) (haHigh : aHigh.length = h)
    (hm : m ≤ h) (hbound : 5 * (h * (A * B)) < 2 ^ (32 - 1)) :
    CombineFits m (ofCoeffs aLow * ofCoeffs bLow) (ofCoeffs aHigh * ofCoeffs bHigh)
      ((ofCoeffs aLow + ofCoeffs aHigh) * (ofCoeffs bLow + ofCoeffs bHigh)) := by
  rw [List.forall_mem_append] at ha hb
  have hpos : 0 ≤ (h : Int) * (A * B) := by positivity
  have hmono : (m : Int) * (A * B) ≤ h * (A * B) :=
    mul_le_mul_of_nonneg_right (by exact_mod_cast hm) (by positivity)
  have low := (coeffsLe_mul ha.1 hb.1 hB).mono (haLow ▸ hmono)
  have lowHigh := (coeffsLe_mul ha.1 hb.2 hB).mono (haLow ▸ hmono)
  have highLow := (coeffsLe_mul ha.2 hb.1 hB).mono (le_of_eq (by rw [haHigh]))
  have high := (coeffsLe_mul ha.2 hb.2 hB).mono (le_of_eq (by rw [haHigh]))
  have hdeg : (ofCoeffs aLow * ofCoeffs bLow).degree < (2 * m : Nat) := by
    rw [← ofCoeffs_schoolbookMult]
    have hlen := length_schoolbookMult_le aLow bLow
    refine (degree_ofCoeffs_lt _).trans_le ?_
    exact_mod_cast (by omega : (schoolbookMult aLow bLow).length ≤ 2 * m)
  have base := low.add_X_pow_mul high hdeg
  have cross := lowHigh.add highLow
  constructor
  · exact low.fits (by linarith)
  · exact base.fits (by linarith)
  · have h1 := base.add (((low.add cross).add high).X_pow_mul (by linarith) m)
    convert h1.fits (w := 32) (by linarith) using 2
    ring
  · have h1 := base.add ((cross.add high).X_pow_mul (by linarith) m)
    convert h1.fits (w := 32) (by linarith) using 2
    ring
  · have h1 := base.add (cross.X_pow_mul (by linarith) m)
    convert h1.fits (w := 32) (by linarith) using 2
    ring

theorem abs_resize_le {n : Nat} {a : List Int} {A : Int} (ha : ∀ x ∈ a, |x| ≤ A) (hA : 0 ≤ A) :
    ∀ x ∈ resize n a, |x| ≤ A := by
  intro x hx
  obtain hx | hx := List.mem_append.mp hx
  · exact ha x hx
  · rw [List.eq_of_mem_replicate hx, abs_zero]
    exact hA

theorem abs_zipWith_add_le {low high : List Int} {A : Int} (hlow : ∀ x ∈ low, |x| ≤ A)
    (hhigh : ∀ x ∈ high, |x| ≤ A) : ∀ x ∈ List.zipWith (· + ·) low high, |x| ≤ 2 * A := by
  intro x hx
  obtain ⟨k, hk, rfl⟩ := List.getElem_of_mem hx
  rw [List.getElem_zipWith, two_mul]
  exact (abs_add_le _ _).trans
    (add_le_add (hlow _ (List.getElem_mem _)) (hhigh _ (List.getElem_mem _)))

theorem abs_sumHalves_le {low high : List Int} {A : Int} (hlow : ∀ x ∈ low, |x| ≤ A)
    (hhigh : ∀ x ∈ high, |x| ≤ A) (hA : 0 ≤ A) : ∀ x ∈ sumHalves low high, |x| ≤ 2 * A := by
  intro x hx
  obtain hx | hx := List.mem_append.mp hx
  · exact abs_zipWith_add_le hlow hhigh x hx
  · have hone : |x| ≤ A := by
      split at hx
      · exact hlow x (List.mem_of_mem_drop hx)
      · exact hhigh x (List.mem_of_mem_drop hx)
    linarith

/-- Factors of at most `24 * 2^d` entries whose bounds multiply to `AB` reach at most
`30 * 4^d * AB`. -/
theorem karatsubaFits_of_le (d : Nat) {a b : List Int} {A B : Int} (ha : ∀ x ∈ a, |x| ≤ A)
    (hb : ∀ y ∈ b, |y| ≤ B) (hA : 1 ≤ A) (hB : 1 ≤ B) (hlenA : a.length ≤ 24 * 2 ^ d)
    (hlenB : b.length ≤ 24 * 2 ^ d) (hbound : 30 * 4 ^ d * (A * B) < 2 ^ (32 - 1)) :
    KaratsubaFits a b := by
  have hAB : 1 ≤ A * B := one_le_mul_of_one_le_of_one_le hA hB
  induction d generalizing a b A B with
  | zero =>
    have hn : max a.length b.length ≤ karatsubaThreshold := by
      rw [karatsubaThreshold]
      omega
    rw [KaratsubaFits, if_pos hn]
    refine schoolbookFits_of_le ha hb (by omega) (by omega) (by linarith) ?_
    have hlen : (a.length : Int) * (A * B) ≤ 24 * (A * B) :=
      mul_le_mul_of_nonneg_right (by exact_mod_cast hlenA) (by omega)
    linarith
  | succ d ih =>
    have hpow : (1 : Int) ≤ 4 ^ d := one_le_pow₀ (by norm_num)
    have hmono : 120 * (A * B) ≤ 30 * 4 ^ (d + 1) * (A * B) :=
      mul_le_mul_of_nonneg_right (by rw [pow_succ]; linarith) (by omega)
    have hA' : A ≤ A * B := le_mul_of_one_le_right (by omega) hB
    have hB' : B ≤ A * B := le_mul_of_one_le_left (by omega) hA
    by_cases hn : max a.length b.length ≤ karatsubaThreshold
    · rw [KaratsubaFits, if_pos hn]
      refine schoolbookFits_of_le ha hb (by omega) (by omega) (by linarith) ?_
      have hlen : (a.length : Int) * (A * B) ≤ 32 * (A * B) :=
        mul_le_mul_of_nonneg_right
          (by exact_mod_cast (Nat.le_max_left _ _).trans hn) (by omega)
      linarith
    · rw [KaratsubaFits, if_neg hn]
      rw [pow_succ] at hlenA hlenB
      generalize hmax : max a.length b.length = n at hn
      have hpada := abs_resize_le (n := n) ha (by omega)
      have hpadb := abs_resize_le (n := n) hb (by omega)
      have hlena : (resize n a).length = n := length_resize (hmax ▸ Nat.le_max_left _ _)
      have hlenb : (resize n b).length = n := length_resize (hmax ▸ Nat.le_max_right _ _)
      generalize resize n a = a at hpada hlena
      generalize resize n b = b at hpadb hlenb
      have haLow : ∀ x ∈ a.take (n / 2), |x| ≤ A := fun x hx => hpada x (List.mem_of_mem_take hx)
      have hbLow : ∀ y ∈ b.take (n / 2), |y| ≤ B := fun y hy => hpadb y (List.mem_of_mem_take hy)
      have haHigh : ∀ x ∈ a.drop (n / 2), |x| ≤ A := fun x hx => hpada x (List.mem_of_mem_drop hx)
      have hbHigh : ∀ y ∈ b.drop (n / 2), |y| ≤ B := fun y hy => hpadb y (List.mem_of_mem_drop hy)
      have hhalf : 30 * 4 ^ d * (A * B) < 2 ^ (32 - 1) := by
        rw [pow_succ] at hbound
        have hfactor : 0 ≤ 4 ^ d * (A * B) := by positivity
        linarith
      have hdouble : 30 * 4 ^ d * (2 * A * (2 * B)) < 2 ^ (32 - 1) := by
        convert hbound using 1
        ring
      have hh : n - n / 2 ≤ 24 * 2 ^ d := by omega
      refine ⟨⟨ih haLow hbLow hA hB ?_ ?_ hhalf hAB, ih haHigh hbHigh hA hB ?_ ?_ hhalf hAB,
        ih (abs_sumHalves_le haLow haHigh (by omega)) (abs_sumHalves_le hbLow hbHigh (by omega))
          (by omega) (by omega) ?_ ?_ hdouble (by linarith)⟩, ⟨?_, ?_⟩, ?_⟩
      · rw [List.length_take]
        omega
      · rw [List.length_take]
        omega
      · rw [List.length_drop]
        omega
      · rw [List.length_drop]
        omega
      · rw [length_sumHalves, List.length_take, List.length_drop]
        omega
      · rw [length_sumHalves, List.length_take, List.length_drop]
        omega
      · intro x hx
        exact inSigned_of_abs_lt ((abs_zipWith_add_le haLow haHigh x hx).trans_lt (by linarith))
      · intro y hy
        exact inSigned_of_abs_lt ((abs_zipWith_add_le hbLow hbHigh y hy).trans_lt (by linarith))
      · have hgrow : 5 * (((n - n / 2 : Nat) : Int) * (A * B)) < 2 ^ (32 - 1) := by
          have hlen : ((n - n / 2 : Nat) : Int) ≤ 24 * 4 ^ d := by
            exact_mod_cast hh.trans (Nat.mul_le_mul_left _ (Nat.pow_le_pow_left (by omega) d))
          have hprod := mul_le_mul_of_nonneg_right hlen (show 0 ≤ A * B by omega)
          rw [pow_succ] at hbound
          linarith
        refine combineFits_of_le (h := n - n / 2) ?_ ?_ (by omega) (by omega) ?_ ?_ ?_ (by omega)
          hgrow
        · rwa [List.take_append_drop]
        · rwa [List.take_append_drop]
        · rw [List.length_take]
          omega
        · rw [List.length_take]
          omega
        · rw [List.length_drop, hlena]

/-! ## Reduction -/

/-- A round of the reduction. -/
def addHighRoundChecked (k : Nat) (v : Int) (result : List Int) : Option (List Int) := do
  let result ← addAt 32 k v result
  if k + 1 < p then addAt 32 (k + 1) v result
  else do
    let result ← addAt 32 0 v result
    let result ← addAt 32 1 v result
    addAt 32 (k + 1 - p) v result

/-- `reduce_ring_rq` and `reduce_ring_r3`, on `i32`. -/
def reduceRingChecked (poly : List Int) : Option (List Int) :=
  addRow addHighRoundChecked 0 (poly.drop p) (resize p (poly.take p))

/-- What the reduction leaves, and what it leaves on the way. -/
structure ReductionFits (low high : Int[X]) : Prop where
  half : FitsSigned 32 (low + X * high)
  full : FitsSigned 32 (low + X * high + high)

theorem addHighRoundChecked_eq_some {k : Nat} {v : Int} {result r : List Int}
    (hlen : result.length = p) (hk : k + 1 < p) :
    addHighRoundChecked k v result = some r ↔
      InSigned 32 (result.getD k 0 + v) ∧ InSigned 32 (result.getD (k + 1) 0 + v) ∧
        r = addHighRound k v result := by
  have hother := getD_modify_of_ne (show k ≠ k + 1 by omega) (· + v) result
  have hfirst := fun s => addsAt_addAt (w := 32) k v result s (by omega)
  have hsecond := fun r => addsAt_addAt (w := 32) (k + 1) v (result.modify k (· + v)) r
    (by rw [List.length_modify]; omega)
  simp only [id, true_and, hother] at hfirst hsecond
  simp only [addHighRoundChecked, addHighRound, if_pos hk, bind, Option.bind_eq_some_iff, hfirst]
  constructor
  · rintro ⟨_, ⟨hfit, rfl⟩, hrest⟩
    exact ⟨hfit, (hsecond r).mp hrest⟩
  · rintro ⟨hfit, hrest⟩
    exact ⟨_, ⟨hfit, rfl⟩, (hsecond r).mpr hrest⟩

/-- A polynomial with one more monomial. -/
theorem fitsSigned_add_monomial {w : Nat} {f : Int[X]} {k : Nat} {v : Int} :
    FitsSigned w (f + C v * X ^ k) ↔
      InSigned w (f.coeff k + v) ∧ ∀ j, j ≠ k → InSigned w (f.coeff j) := by
  have hcoeff : ∀ j, (f + C v * X ^ k).coeff j = f.coeff j + if j = k then v else 0 := fun j => by
    rw [coeff_add, coeff_C_mul, coeff_X_pow, mul_ite, mul_one, mul_zero]
  constructor
  · intro h
    refine ⟨?_, fun j hj => ?_⟩
    · have hk := h k
      rwa [hcoeff, if_pos rfl] at hk
    · have hj' := h j
      rwa [hcoeff, if_neg hj, add_zero] at hj'
  · rintro ⟨hk, hother⟩ j
    rw [hcoeff]
    by_cases hj : j = k
    · rwa [if_pos hj, hj]
    · rw [if_neg hj, add_zero]
      exact hother j hj

/-- A round finishes one coefficient and starts the next. -/
theorem fits_addHigh {f g : Int[X]} {k : Nat} {v : Int} (hf : FitsSigned 32 f) :
    InSigned 32 (f.coeff k + v) ∧ InSigned 32 (f.coeff (k + 1) + v) ∧
      ReductionFits (f + C v * X ^ k + C v * X ^ (k + 1)) (X ^ (k + 1) * g) ↔
    ReductionFits f (X ^ k * (C v + X * g)) := by
  have hhalf : f + C v * X ^ k + C v * X ^ (k + 1) + X * (X ^ (k + 1) * g) =
      f + X * (X ^ k * (C v + X * g)) + C v * X ^ k := by ring
  have hfull : f + C v * X ^ k + C v * X ^ (k + 1) + X * (X ^ (k + 1) * g) + X ^ (k + 1) * g =
      f + X * (X ^ k * (C v + X * g)) + X ^ k * (C v + X * g) := by ring
  have hk : (X * (X ^ k * (C v + X * g))).coeff k = 0 := by
    rw [← mul_assoc, ← pow_succ', coeff_X_pow_mul', if_neg (by omega)]
  have hnext : (X * (X ^ k * (C v + X * g))).coeff (k + 1) = v := by
    rw [coeff_X_mul, coeff_X_pow_mul', if_pos (le_refl k), Nat.sub_self]
    simp
  have hlow : (X ^ k * (C v + X * g)).coeff k = v := by
    rw [coeff_X_pow_mul', if_pos (le_refl k), Nat.sub_self]
    simp
  constructor
  · rintro ⟨hfirst, hsecond, half, full⟩
    rw [hhalf, fitsSigned_add_monomial] at half
    refine ⟨fun j => ?_, hfull ▸ full⟩
    by_cases hj : j = k
    · rw [hj, coeff_add, hk, add_zero]
      exact hf k
    · exact half.2 j hj
  · rintro ⟨half, full⟩
    have hfirst := full k
    have hsecond := half (k + 1)
    rw [coeff_add, coeff_add, hk, hlow, add_zero] at hfirst
    rw [coeff_add, hnext] at hsecond
    refine ⟨hfirst, hsecond, ?_, hfull ▸ full⟩
    rw [hhalf, fitsSigned_add_monomial, coeff_add, hk, add_zero]
    exact ⟨hfirst, fun j _ => half j⟩

theorem addRow_addHighRoundChecked {k : Nat} {poly result r : List Int}
    (hall : AllSigned 32 result) (hlen : result.length = p) (h : k + poly.length < p) :
    addRow addHighRoundChecked k poly result = some r ↔
      ReductionFits (ofCoeffs result) (X ^ k * ofCoeffs poly) ∧ r = addHigh k poly result := by
  induction poly generalizing k result with
  | nil =>
    have hfits := allSigned_iff.mp hall
    have hred : ReductionFits (ofCoeffs result) 0 := ⟨by simpa using hfits, by simpa using hfits⟩
    simp [addRow, addHigh, hred, eq_comm]
  | cons v poly ih =>
    rw [List.length_cons] at h
    have hround : ofCoeffs (addHighRound k v result) =
        ofCoeffs result + C v * X ^ k + C v * X ^ (k + 1) := by
      rw [addHighRound, if_pos (by omega), ofCoeffs_modify (by rw [List.length_modify]; omega),
        ofCoeffs_modify (by omega)]
    have hstep := fits_addHigh (g := ofCoeffs poly) (k := k) (v := v) (allSigned_iff.mp hall)
    rw [coeff_ofCoeffs, coeff_ofCoeffs, ← hround] at hstep
    rw [addRow, addHigh, ofCoeffs_cons, ← hstep]
    simp only [bind, Option.bind_eq_some_iff,
      addHighRoundChecked_eq_some hlen (show k + 1 < p by omega)]
    have hnext : InSigned 32 (result.getD k 0 + v) → InSigned 32 (result.getD (k + 1) 0 + v) →
        (addRow addHighRoundChecked (k + 1) poly (addHighRound k v result) = some r ↔
          ReductionFits (ofCoeffs (addHighRound k v result)) (X ^ (k + 1) * ofCoeffs poly) ∧
            r = addHigh (k + 1) poly (addHighRound k v result)) := by
      intro hfirst hsecond
      refine ih ?_ (by rw [length_addHighRound, hlen]) (by omega)
      have hother := getD_modify_of_ne (show k ≠ k + 1 by omega) (· + v) result
      rw [addHighRound, if_pos (by omega),
        allSigned_modify ((allSigned_modify hall (by omega)).mpr hfirst)
          (by rw [List.length_modify]; omega), hother]
      exact hsecond
    constructor
    · rintro ⟨_, ⟨hfirst, hsecond, rfl⟩, hrest⟩
      obtain ⟨hred, rfl⟩ := (hnext hfirst hsecond).mp hrest
      exact ⟨⟨hfirst, hsecond, hred⟩, rfl⟩
    · rintro ⟨⟨hfirst, hsecond, hred⟩, rfl⟩
      exact ⟨_, ⟨hfirst, hsecond, rfl⟩, (hnext hfirst hsecond).mpr ⟨hred, rfl⟩⟩

theorem reduceRingChecked_eq_some {poly r : List Int} (hall : AllSigned 32 poly)
    (hlen : poly.length ≤ 2 * p - 1) : reduceRingChecked poly = some r ↔
      ReductionFits (ofCoeffs (poly.take p)) (ofCoeffs (poly.drop p)) ∧ r = reduceRing poly := by
  have hp : p = 761 := rfl
  have hlow : AllSigned 32 (resize p (poly.take p)) := by
    rw [allSigned_iff, ofCoeffs_resize, ← allSigned_iff]
    exact fun x hx => hall x (List.mem_of_mem_take hx)
  rw [reduceRingChecked, reduceRing, addRow_addHighRoundChecked hlow
    (length_resize (by rw [List.length_take]; omega)) (by rw [List.length_drop]; omega),
    ofCoeffs_resize, pow_zero, one_mul]

theorem getD_take (poly : List Int) (k : Nat) :
    (poly.take p).getD k 0 = if k < p then poly.getD k 0 else 0 := by
  rw [List.getD_eq_getElem?_getD, List.getElem?_take]
  split
  · rw [List.getD_eq_getElem?_getD]
  · rfl

theorem getD_drop (poly : List Int) (k : Nat) : (poly.drop p).getD k 0 = poly.getD (p + k) 0 := by
  rw [List.getD_eq_getElem?_getD, List.getElem?_drop, List.getD_eq_getElem?_getD]

/-- The same in coefficients of the polynomial that is reduced. -/
theorem reductionFits_iff {poly : List Int} (hlen : poly.length ≤ 2 * p - 1) :
    ReductionFits (ofCoeffs (poly.take p)) (ofCoeffs (poly.drop p)) ↔
      ∀ k < p, InSigned 32 ((ofCoeffs poly).coeff k +
          if k = 0 then 0 else (ofCoeffs poly).coeff (p + k - 1)) ∧
        InSigned 32 (foldCoeff p k (ofCoeffs poly)) := by
  have hp : p = 761 := rfl
  have hzero : ∀ k, poly.length ≤ k → poly.getD k 0 = 0 := fun k hk => List.getD_eq_default _ _ hk
  have hhalf : ∀ k, (ofCoeffs (poly.take p) + X * ofCoeffs (poly.drop p)).coeff k =
      if k < p then (ofCoeffs poly).coeff k +
        if k = 0 then 0 else (ofCoeffs poly).coeff (p + k - 1) else 0 := by
    intro k
    cases k with
    | zero => simp [coeff_ofCoeffs, hp]
    | succ k =>
      rw [coeff_add, coeff_X_mul]
      simp only [coeff_ofCoeffs, getD_take, getD_drop, Nat.add_eq_zero_iff, one_ne_zero, and_false,
        if_false]
      split
      · rfl
      · rw [zero_add]
        exact hzero _ (by omega)
  have hfull : ∀ k, (ofCoeffs (poly.take p) + X * ofCoeffs (poly.drop p) +
      ofCoeffs (poly.drop p)).coeff k = if k < p then foldCoeff p k (ofCoeffs poly) else 0 := by
    intro k
    rw [coeff_add, hhalf, coeff_ofCoeffs (poly.drop p), getD_drop]
    split
    · rw [foldCoeff, coeff_ofCoeffs poly (p + k)]
      ring
    · rw [zero_add]
      exact hzero _ (by omega)
  constructor
  · intro h k hk
    have half := h.half k
    have full := h.full k
    rw [hhalf, if_pos hk] at half
    rw [hfull, if_pos hk] at full
    exact ⟨half, full⟩
  · intro h
    refine ⟨fun k => ?_, fun k => ?_⟩
    · rw [hhalf]
      split
      · next hk => exact (h k hk).1
      · exact inSigned_zero
    · rw [hfull]
      split
      · next hk => exact (h k hk).2
      · exact inSigned_zero

/-! ## Products of elements -/

/-- The product of two polynomials of length `P`, on `i32`. -/
def ringProductChecked (a b : List Int) : Option (List Int) := do
  let product ← karatsubaMultChecked a b
  reduceRingChecked product

/-- `rq_mult_rq`.  The final reduction divides, and cannot overflow. -/
def rqMultRqChecked (a b : List Int) : Option (List Int) :=
  (ringProductChecked a b).map fun product => product.map reduceModQ

/-- `rq_mult_r3`. -/
def rqMultR3Checked (a b : List Int) : Option (List Int) :=
  (ringProductChecked a b).map fun product => product.map reduceModQ

/-- `r3_mult_r3`. -/
def r3MultR3Checked (a b : List Int) : Option (List Int) :=
  (ringProductChecked a b).map fun product => product.map reduceMod3

/-- No product and no sum leaves the 32 bits: neither in the recursion, nor while the
upper half of the product is added to its lower one. -/
structure ProductFits (a b : List Int) : Prop where
  karatsuba : KaratsubaFits a b
  reduction : ∀ k < p, InSigned 32 ((ofCoeffs a * ofCoeffs b).coeff k +
      if k = 0 then 0 else (ofCoeffs a * ofCoeffs b).coeff (p + k - 1)) ∧
    InSigned 32 (foldCoeff p k (ofCoeffs a * ofCoeffs b))

theorem ringProductChecked_eq_some {a b r : List Int} (ha : a.length = p) (hb : b.length = p) :
    ringProductChecked a b = some r ↔ ProductFits a b ∧ r = ringProduct a b := by
  have hlen := length_karatsubaMult_le ha hb
  have hspec := (karatsubaMult_spec a b).1
  have hreduce : KaratsubaFits a b → (reduceRingChecked (karatsubaMult a b) = some r ↔
      (∀ k < p, InSigned 32 ((ofCoeffs a * ofCoeffs b).coeff k +
          if k = 0 then 0 else (ofCoeffs a * ofCoeffs b).coeff (p + k - 1)) ∧
        InSigned 32 (foldCoeff p k (ofCoeffs a * ofCoeffs b))) ∧ r = ringProduct a b) := by
    intro hfits
    have hall : AllSigned 32 (karatsubaMult a b) := by
      rw [allSigned_iff, hspec]
      exact hfits.product_fits
    rw [reduceRingChecked_eq_some hall hlen, reductionFits_iff hlen, hspec, ringProduct]
  rw [ringProductChecked]
  simp only [bind, Option.bind_eq_some_iff, karatsubaMultChecked_eq_some]
  constructor
  · rintro ⟨_, ⟨hfits, rfl⟩, hrest⟩
    obtain ⟨hreduction, rfl⟩ := (hreduce hfits).mp hrest
    exact ⟨⟨hfits, hreduction⟩, rfl⟩
  · rintro ⟨⟨hfits, hreduction⟩, rfl⟩
    exact ⟨_, ⟨hfits, rfl⟩, (hreduce hfits).mpr ⟨hreduction, rfl⟩⟩

/-- Small coefficients fit. -/
theorem productFits_of_le {a b : List Int} {A B : Int} (ha : ∀ x ∈ a, |x| ≤ A)
    (hb : ∀ y ∈ b, |y| ≤ B) (hA : 1 ≤ A) (hB : 1 ≤ B) (hlenA : a.length = p)
    (hlenB : b.length = p) (hbound : 30720 * (A * B) < 2 ^ (32 - 1)) : ProductFits a b := by
  have hp : p = 761 := rfl
  have hAB : 0 ≤ A * B := by positivity
  have hcoeff := coeffsLe_mul ha hb (by omega)
  rw [hlenA] at hcoeff
  refine ⟨karatsubaFits_of_le 5 ha hb hA hB (by omega) (by omega) (by linarith), ?_⟩
  intro k _
  have hother : |if k = 0 then 0 else (ofCoeffs a * ofCoeffs b).coeff (p + k - 1)| ≤
      (p : Int) * (A * B) := by
    split
    · rw [abs_zero]
      positivity
    · exact hcoeff _
  have hhigh := abs_add_le ((ofCoeffs a * ofCoeffs b).coeff k)
    ((ofCoeffs a * ofCoeffs b).coeff (p + k))
  rw [show (p : Int) = 761 from rfl] at hcoeff hother
  constructor
  · apply inSigned_of_abs_lt
    refine (abs_add_le _ _).trans_lt ?_
    have hk := hcoeff k
    linarith
  · apply inSigned_of_abs_lt
    rw [foldCoeff]
    refine (abs_add_le _ _).trans_lt ?_
    have hk := hcoeff k
    have hpk := hcoeff (p + k)
    linarith

theorem rqMultRqChecked_eq_some {a b r : List Int} (ha : a.length = p) (hb : b.length = p) :
    rqMultRqChecked a b = some r ↔ ProductFits a b ∧ r = (ringProduct a b).map reduceModQ := by
  rw [rqMultRqChecked, Option.map_eq_some_iff]
  simp only [ringProductChecked_eq_some ha hb]
  constructor
  · rintro ⟨_, ⟨hfits, rfl⟩, rfl⟩
    exact ⟨hfits, rfl⟩
  · rintro ⟨hfits, rfl⟩
    exact ⟨_, ⟨hfits, rfl⟩, rfl⟩

/-- `rq_mult_rq` returns the product exactly when nothing leaves the 32 bits. -/
theorem rqMultRq_iff {a b : List Int} (ha : Centred a) (hb : Centred b) :
    (∃ c, rqMultRqChecked a b = some c ∧ Centred c ∧ element q c = element q a * element q b) ↔
      ProductFits a b := by
  constructor
  · rintro ⟨c, hc, -⟩
    exact ((rqMultRqChecked_eq_some ha.length_eq hb.length_eq).mp hc).1
  · intro hfits
    exact ⟨_, (rqMultRqChecked_eq_some ha.length_eq hb.length_eq).mpr ⟨hfits, rfl⟩,
      ⟨length_rqMultR3 a b, abs_rqMultR3_le a b⟩, element_rqMultR3 ha.length_eq hb.length_eq⟩

/-- The polynomial of the largest coefficients. -/
def largest : List Int := List.replicate p 2295

theorem centred_largest : Centred largest where
  length_eq := List.length_replicate
  abs_le := by
    intro c hc
    rw [List.eq_of_mem_replicate hc]
    norm_num

theorem coeff_largest : (ofCoeffs largest * ofCoeffs largest).coeff 760 = 761 * 2295 ^ 2 := by
  have hcoeff : ∀ i ≤ 760, (ofCoeffs largest).coeff i = 2295 := by
    intro i hi
    have hlt : i < largest.length := by
      rw [centred_largest.length_eq, show p = 761 from rfl]
      omega
    rw [coeff_ofCoeffs, List.getD_eq_getElem _ _ hlt]
    exact List.getElem_replicate _
  rw [coeff_mul, Finset.sum_congr rfl (g := fun _ => 2295 ^ 2) ?_]
  · rw [Finset.sum_const, Finset.Nat.card_antidiagonal]
    norm_num
  · intro ij hij
    rw [Finset.HasAntidiagonal.mem_antidiagonal] at hij
    rw [hcoeff _ (by omega), hcoeff _ (by omega)]
    norm_num

/-- The square of that polynomial overflows. -/
theorem rqMultRq_largest : Centred largest ∧ rqMultRqChecked largest largest = none := by
  refine ⟨centred_largest, ?_⟩
  rw [Option.eq_none_iff_forall_ne_some]
  intro c hc
  have hlen := centred_largest.length_eq
  have hfits := ((rqMultRqChecked_eq_some hlen hlen).mp hc).1.karatsuba.product_fits 760
  rw [coeff_largest] at hfits
  exact absurd hfits (by decide)

/-- The product of two polynomials of ones. -/
theorem rqMultRq_iff_ones :
    ∃ c, rqMultRqChecked (List.replicate p 1) (List.replicate p 1) = some c ∧ Centred c ∧
      element q c = element q (List.replicate p 1) * element q (List.replicate p 1) := by
  have hlen : (List.replicate p (1 : Int)).length = p := List.length_replicate
  have hone : ∀ c ∈ List.replicate p (1 : Int), |c| ≤ 1 := fun c hc => by
    rw [List.eq_of_mem_replicate hc, abs_one]
  have hcentred : Centred (List.replicate p 1) :=
    ⟨hlen, fun c hc => (hone c hc).trans (by norm_num)⟩
  exact (rqMultRq_iff hcentred hcentred).mpr
    (productFits_of_le hone hone (le_refl 1) (le_refl 1) hlen hlen (by norm_num))

end Trelis.Sntrup
