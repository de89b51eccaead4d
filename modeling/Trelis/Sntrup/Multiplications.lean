import Trelis.Sntrup.CheckedDecapsulation
import Trelis.Sntrup.CheckedScalar
import Trelis.Sntrup.Ntt

/-!
# The three multiplications

`ntt_mult` and the convolution of `Rq::mult_r3`, on machine integers.

The transform computes the product modulo `998244353`, and the coefficients of the
product of a centred polynomial and a ternary one are below half of that, so the
lifted residues are the coefficients themselves (`nttMultChecked_eq`).  Each
multiplication then reduces the same integer polynomial, on two different ways.
-/

namespace Trelis.Sntrup

open Polynomial Trelis.Butterfly

/-! ## Multiplication by the transform -/

/-- The residue of a coefficient. -/
def toResidue (coeff : Int) : Option Nat :=
  if 0 ≤ coeff then some ((coeff % 2 ^ 64).toNat % nttPrime)
  else do
    let sum ← signed 64 (nttPrime + coeff.tmod nttPrime)
    pure ((sum % 2 ^ 64).toNat % nttPrime)

/-- The array of the residues, padded with zeros. -/
def loadResidues (a : List Int) : Option (Nat → Nat) := do
  let residues ← a.mapM toResidue
  if residues.length ≤ nttSize then some fun i => residues.getD i 0 else none

/-- The coefficient of a residue. -/
def fromResidue (v : Nat) : Option Int :=
  if nttPrime / 2 < v then do
    let diff ← signed 64 (v - nttPrime)
    pure (diff.bmod (2 ^ 32))
  else some ((v : Int).bmod (2 ^ 32))

/-- `ntt_mult`. -/
def nttMultChecked (a b : List Int) : Option (List Int) :=
  if a.isEmpty || b.isEmpty then some []
  else do
    let resultLen := a.length + b.length - 1
    let aNtt ← loadResidues a
    let bNtt ← loadResidues b
    let aNtt ← nttForward aNtt
    let bNtt ← nttForward bNtt
    let product ← eachEntry (fun i x => modMul x (bNtt i)) aNtt
    let product ← nttInverse product
    let result ← (List.range (min resultLen nttSize)).mapM fun i => fromResidue (product i)
    pure (resize resultLen result)

theorem toResidue_stands {x : Int} (hx : InSigned 32 x) :
    ∃ r, toResidue x = some r ∧ Stands r (x : ZMod nttPrime) := by
  rw [InSigned, show (32 - 1 : Nat) = 31 from rfl] at hx
  have hprime : (nttPrime : Int) = 998244353 := rfl
  have hcast : ∀ y : Int, 0 ≤ y → ((y.toNat : Nat) : ZMod nttPrime) = y := fun y hy => by
    rw [← Int.cast_natCast, Int.toNat_of_nonneg hy]
  by_cases hnonneg : 0 ≤ x
  · refine ⟨_, if_pos hnonneg, ?_⟩
    rw [Int.emod_eq_of_lt hnonneg (by omega), ← hcast x hnonneg]
    exact stands_mod _
  · -- The remainder of a negative number is between `-p` and `0`.
    have hneg : -(nttPrime : Int) < x.tmod nttPrime ∧ x.tmod nttPrime ≤ 0 := by
      have hlt := Int.lt_tmod_of_pos x (show (0 : Int) < nttPrime by decide)
      have hle := Int.tmod_nonneg (nttPrime : Int) (show 0 ≤ -x by omega)
      rw [Int.neg_tmod] at hle
      exact ⟨hlt, by omega⟩
    have hsum : InSigned 64 (nttPrime + x.tmod nttPrime) := by
      rw [InSigned, show (64 - 1 : Nat) = 63 from rfl]
      omega
    refine ⟨_, (if_neg hnonneg).trans (bind_eq_of_some (signed_of_inSigned hsum) rfl), ?_⟩
    have hmod : ((nttPrime + x.tmod nttPrime : Int) : ZMod nttPrime) = x := by
      have hdiv := Int.mul_tdiv_add_tmod x nttPrime
      have hcongr := congrArg (Int.cast : Int → ZMod nttPrime) hdiv
      push_cast at hcongr ⊢
      rw [ZMod.natCast_self, zero_mul, zero_add] at hcongr
      rw [ZMod.natCast_self, zero_add, hcongr]
    rw [Int.emod_eq_of_lt (by omega) (by omega), ← hmod, ← hcast _ (by omega)]
    exact stands_mod _

theorem fromResidue_eq {v : Nat} {x : Int} (hv : Stands v (x : ZMod nttPrime))
    (hx : |x| ≤ nttPrime / 2) : fromResidue v = some x := by
  have hprime : (nttPrime : Int) = 998244353 := rfl
  have hnat : nttPrime = 998244353 := rfl
  have hlt := hv.1
  obtain ⟨k, hk⟩ : (nttPrime : Int) ∣ v - x := by
    rw [← ZMod.intCast_zmod_eq_zero_iff_dvd, Int.cast_sub, Int.cast_natCast, hv.2, sub_self]
  rw [hprime] at hk
  rw [abs_le] at hx
  by_cases hhigh : nttPrime / 2 < v
  · have hdiff : (v : Int) - nttPrime = x := by omega
    rw [fromResidue, if_pos hhigh, hdiff]
    refine bind_eq_of_some (signed_of_inSigned ?_) ?_
    · rw [InSigned, show (64 - 1 : Nat) = 63 from rfl]
      omega
    · exact congrArg some (Int.bmod_eq_of_le (by omega) (by omega))
  · have hsame : (v : Int) = x := by omega
    rw [fromResidue, if_neg hhigh, hsame, Int.bmod_eq_of_le (by omega) (by omega)]

/-- The integer polynomial with the given entries, modulo the prime. -/
noncomputable def residues (a : List Int) : Nat → ZMod nttPrime :=
  ((ofCoeffs a).map (Int.castRingHom (ZMod nttPrime))).coeff

theorem mapM_toResidue_stands {a : List Int} (ha : AllSigned 32 a) :
    ∃ rs, a.mapM toResidue = some rs ∧ rs.length = a.length ∧
      ∀ i, Stands (rs.getD i 0) (a.getD i 0 : ZMod nttPrime) := by
  induction a with
  | nil =>
    refine ⟨[], rfl, rfl, ?_⟩
    intro i
    rw [List.getD_nil, List.getD_nil, Int.cast_zero]
    exact ⟨by decide, Nat.cast_zero⟩
  | cons x a ih =>
    obtain ⟨hx, ha⟩ := List.forall_mem_cons.mp ha
    obtain ⟨r, hr, hstands⟩ := toResidue_stands hx
    obtain ⟨rs, hrs, hlen, hrest⟩ := ih ha
    refine ⟨r :: rs, ?_, ?_, ?_⟩
    · rw [List.mapM_cons]
      exact bind_eq_of_some hr (bind_eq_of_some hrs rfl)
    · rw [List.length_cons, List.length_cons, hlen]
    · intro i
      cases i with
      | zero => exact hstands
      | succ i => exact hrest i

theorem loadResidues_holds {a : List Int} (ha : AllSigned 32 a) (hlen : a.length ≤ nttSize) :
    ∃ w, loadResidues a = some w ∧ Holds w (residues a) := by
  obtain ⟨rs, hrs, hlength, hstands⟩ := mapM_toResidue_stands ha
  refine ⟨_, bind_eq_of_some hrs (if_pos (hlength ▸ hlen)), ?_⟩
  intro i
  rw [residues, coeff_map, coeff_ofCoeffs]
  exact hstands i

/-- The multiplication by the transform, of a product that has room in the array and
whose coefficients are below half of the prime. -/
theorem nttMultChecked_eq {a b : List Int} (ha : AllSigned 32 a) (hb : AllSigned 32 b)
    (hposA : 0 < a.length) (hposB : 0 < b.length) (hlen : a.length + b.length - 1 ≤ nttSize)
    (hbound : CoeffsLe (nttPrime / 2) (ofCoeffs a * ofCoeffs b)) :
    nttMultChecked a b = some ((List.range (a.length + b.length - 1)).map
      (ofCoeffs a * ofCoeffs b).coeff) := by
  set φ := Int.castRingHom (ZMod nttPrime) with hφ
  set f := (ofCoeffs a).map φ with hf
  set g := (ofCoeffs b).map φ with hg
  have hdegA : (ofCoeffs a).natDegree ≤ a.length - 1 := natDegree_ofCoeffs_le (by omega)
  have hdegB : (ofCoeffs b).natDegree ≤ b.length - 1 := natDegree_ofCoeffs_le (by omega)
  have hdegF : f.natDegree ≤ a.length - 1 := natDegree_map_le.trans hdegA
  have hdegG : g.natDegree ≤ b.length - 1 := natDegree_map_le.trans hdegB
  have hdegFG : (f * g).natDegree ≤ a.length - 1 + (b.length - 1) :=
    natDegree_mul_le.trans (Nat.add_le_add hdegF hdegG)
  obtain ⟨a₀, hloadA, hholdsA⟩ := loadResidues_holds ha (by omega)
  obtain ⟨b₀, hloadB, hholdsB⟩ := loadResidues_holds hb (by omega)
  obtain ⟨a₁, hforwardA, hholdsA₁⟩ := nttForward_holds hholdsA
  obtain ⟨b₁, hforwardB, hholdsB₁⟩ := nttForward_holds hholdsB
  obtain ⟨c, hpointwise, hholdsC⟩ := eachEntry_holds
    (g := fun i z => z * ditTransform forwardRoot 11 (residues b) i)
    (fun i x z hx => hx.mul (hholdsB₁ i)) hholdsA₁
  obtain ⟨d, hinverse, hstands⟩ := nttInverse_holds hholdsC
  -- The transform of the product is the product of the transforms.
  have hprod : ∀ k < nttSize, (if k < nttSize then ditTransform forwardRoot 11 (residues a) k *
      ditTransform forwardRoot 11 (residues b) k else ditTransform forwardRoot 11 (residues a) k) =
        dft (forwardRoot 10) nttSize (f * g).coeff k := by
    intro k hk
    rw [if_pos hk, forward_transform _ hk, forward_transform _ hk]
    show dft _ _ f.coeff k * dft _ _ g.coeff k = _
    rw [dft_coeff _ (by omega), dft_coeff _ (by omega), dft_coeff _ (by omega), eval_mul]
  have hresult : ∀ i ∈ List.range (min (a.length + b.length - 1) nttSize),
      fromResidue (d i) = some ((ofCoeffs a * ofCoeffs b).coeff i) := by
    intro i hi
    have hi' : i < nttSize := (List.mem_range.mp hi).trans_le (Nat.min_le_right _ _)
    have hentry := hstands i hi'
    rw [inverse_transform _ hprod hi', hf, hg, ← Polynomial.map_mul, coeff_map] at hentry
    exact fromResidue_eq hentry (hbound i)
  have hnonempty : (a.isEmpty || b.isEmpty) = false := by
    rw [Bool.or_eq_false_iff, List.isEmpty_eq_false_iff, List.isEmpty_eq_false_iff]
    exact ⟨List.ne_nil_of_length_pos hposA, List.ne_nil_of_length_pos hposB⟩
  rw [nttMultChecked, hnonempty]
  refine bind_eq_of_some hloadA (bind_eq_of_some hloadB ?_)
  refine bind_eq_of_some hforwardA (bind_eq_of_some hforwardB ?_)
  refine bind_eq_of_some hpointwise (bind_eq_of_some hinverse ?_)
  refine bind_eq_of_some (mapM_eq_some_map hresult) ?_
  rw [Nat.min_eq_left hlen]
  refine congrArg some ?_
  rw [resize, List.length_map, List.length_range, Nat.sub_self, List.replicate_zero,
    List.append_nil]

/-- `rq_mult_r3_ntt`. -/
def rqMultR3NttChecked (a b : List Int) : Option (List Int) := do
  let product ← nttMultChecked a b
  let product ← reduceRingChecked product
  pure (product.map reduceModQ)

/-! ## Multiplication by convolution -/

/-- The convolution, which skips no row. -/
def convolutionRows (f : List Int) : Nat → List Int → List Int → Option (List Int)
  | _, [], fg => some fg
  | i, gi :: g, fg => do
    let fg ← addRow (mulAddAt 32 gi) i f fg
    convolutionRows f (i + 1) g fg

/-- A round of the reduction, which adds an entry to two others. -/
def foldHighRound (fg : List Int) (i : Nat) : Option (List Int) := do
  let v ← fg[i]?
  let fg ← addAt 32 (i - p) v fg
  let v ← fg[i]?
  addAt 32 (i - p + 1) v fg

/-- The reduction modulo `x^p - x - 1`, from the highest entry down to the one at `p`. -/
def foldHigh (fg : List Int) : Option (List Int) :=
  (List.range (p - 1)).foldlM (fun fg k => foldHighRound fg (2 * p - 2 - k)) fg

/-- `Rq::mult_r3`. -/
def multR3Checked (f g : List Int) : Option (List Int) := do
  let fg ← convolutionRows f 0 g (List.replicate (2 * p - 1) 0)
  let fg ← foldHigh fg
  (fg.take p).mapM freezeChecked

/-- A row of zeros. -/
theorem addRow_mulAddAt_zero {off : Nat} {f fg : List Int} (hall : AllSigned 32 fg)
    (hlen : off + f.length ≤ fg.length) : addRow (mulAddAt 32 0) off f fg = some fg := by
  have hsame : addShifted off (f.map (0 * ·)) fg = fg := by
    apply ofCoeffs_inj (length_addShifted _ _ _)
    rw [ofCoeffs_addShifted (by rwa [List.length_map]), ofCoeffs_map_mul, map_zero, zero_mul,
      mul_zero, add_zero]
  rw [addRow_eq_some (addsAt_mulAddAt 0) hall hlen, hsame]
  refine ⟨?_, hall, rfl⟩
  intro y _
  rw [zero_mul]
  exact inSigned_zero

theorem convolutionRows_eq {f g fg : List Int} {off : Nat} (hall : AllSigned 32 fg)
    (hlen : off + g.length + f.length ≤ fg.length + 1) :
    convolutionRows f off g fg = schoolbookRowsChecked 32 f off g fg := by
  induction g generalizing off fg with
  | nil => rfl
  | cons gi g ih =>
    rw [List.length_cons] at hlen
    have hrow : off + f.length ≤ fg.length := by omega
    rw [convolutionRows, schoolbookRowsChecked]
    by_cases hgi : gi = 0
    · subst hgi
      rw [addRow_mulAddAt_zero hall hrow, if_pos rfl]
      exact ih hall (by omega)
    · rw [if_neg hgi]
      cases hadd : addRow (mulAddAt 32 gi) off f fg with
      | none => rfl
      | some fg' =>
        obtain ⟨-, hall', rfl⟩ := (addRow_eq_some (addsAt_mulAddAt gi) hall hrow).mp hadd
        exact ih hall' (by rw [length_addShifted]; omega)

/-- The entries after the reduction has come down to `p + c`. -/
def foldedEntry (fg : List Int) (c k : Nat) : Int :=
  fg.getD k 0 + (if k < p ∧ c ≤ k then fg.getD (p + k) 0 else 0) +
    (if k < p ∧ c < k then fg.getD (p + k - 1) 0 else 0)

section FoldHigh

variable {fg : List Int} {B : Int}

theorem abs_foldedEntry_le (hB : ∀ k, |fg.getD k 0| ≤ B) (c k : Nat) :
    |foldedEntry fg c k| ≤ 3 * B := by
  have hnonneg : 0 ≤ B := (abs_nonneg _).trans (hB 0)
  have hite : ∀ (c : Prop) [Decidable c] (i : Nat), |if c then fg.getD i 0 else 0| ≤ B := by
    intro c _ i
    split
    · exact hB i
    · rwa [abs_zero]
  have hfirst := hB k
  have hsecond := hite (k < p ∧ c ≤ k) (p + k)
  have hthird := hite (k < p ∧ c < k) (p + k - 1)
  rw [foldedEntry]
  rw [abs_le] at hfirst hsecond hthird ⊢
  constructor
  · linarith
  · linarith

/-- A round brings the reduction down by one entry. -/
theorem foldedEntry_step (fg : List Int) {c : Nat} (hc : c + 1 < p) (k : Nat) :
    foldedEntry fg c k = foldedEntry fg (c + 1) k +
      (if k = c then fg.getD (p + c) 0 else 0) + (if k = c + 1 then fg.getD (p + c) 0 else 0) := by
  simp only [foldedEntry]
  by_cases hk : k = c
  · subst hk
    rw [if_pos ⟨by omega, Nat.le_refl k⟩, if_neg (by omega), if_neg (by omega), if_neg (by omega),
      if_pos rfl, if_neg (by omega)]
    ring
  · by_cases hk' : k = c + 1
    · subst hk'
      rw [if_pos ⟨hc, by omega⟩, if_pos ⟨hc, by omega⟩, if_pos ⟨hc, Nat.le_refl _⟩,
        if_neg (by omega), if_neg hk, if_pos rfl, show p + (c + 1) - 1 = p + c by omega]
      ring
    · rw [if_neg hk, if_neg hk', if_congr (show k < p ∧ c ≤ k ↔ k < p ∧ c + 1 ≤ k by omega) rfl rfl,
        if_congr (show k < p ∧ c < k ↔ k < p ∧ c + 1 < k by omega) rfl rfl, add_zero, add_zero]

theorem foldHighRound_eq {s : List Int} (hB : ∀ k, |fg.getD k 0| ≤ B) (hword : 3 * B < 2 ^ (32 - 1))
    {c : Nat} (hc : c + 1 < p) (hlen : s.length = 2 * p - 1)
    (hs : ∀ k, s.getD k 0 = foldedEntry fg (c + 1) k) :
    ∃ s', foldHighRound s (p + c) = some s' ∧ s'.length = 2 * p - 1 ∧
      ∀ k, s'.getD k 0 = foldedEntry fg c k := by
  have hfits : ∀ k, InSigned 32 (foldedEntry fg c k) := fun k =>
    inSigned_of_abs_lt ((abs_foldedEntry_le hB c k).trans_lt hword)
  have hstep := foldedEntry_step fg hc
  set v := fg.getD (p + c) 0 with hv
  have hread : ∀ t : List Int, t.length = 2 * p - 1 → t.getD (p + c) 0 = v →
      t[p + c]? = some v := fun t ht htv => by
    rw [← htv, List.getD_eq_getElem _ _ (by omega), List.getElem?_eq_getElem]
  have hhigh : s.getD (p + c) 0 = v := by
    rw [hs, foldedEntry, if_neg (by omega), if_neg (by omega), add_zero, add_zero]
  have hsame : ∀ k, (s.modify c (· + v)).getD k 0 =
      foldedEntry fg (c + 1) k + if k = c then v else 0 := by
    intro k
    rw [getD_modify, hs k]
    by_cases hk : c = k
    · rw [if_pos ⟨hk, by omega⟩, if_pos hk.symm]
    · rw [if_neg fun h => hk h.1, if_neg fun h => hk h.symm, add_zero]
  have hlen' : (s.modify c (· + v)).length = 2 * p - 1 := by rw [List.length_modify, hlen]
  have hfirst : InSigned 32 (s.getD c 0 + v) := by
    have hentry := hstep c
    rw [if_pos rfl, if_neg (by omega), add_zero, ← hs c] at hentry
    rw [← hentry]
    exact hfits c
  have hsecond : InSigned 32 ((s.modify c (· + v)).getD (c + 1) 0 + v) := by
    have hentry := hstep (c + 1)
    rw [if_pos rfl, ← hsame] at hentry
    rw [← hentry]
    exact hfits (c + 1)
  refine ⟨(s.modify c (· + v)).modify (c + 1) (· + v), ?_, ?_, ?_⟩
  · refine bind_eq_of_some (hread s hlen hhigh) ?_
    rw [Nat.add_sub_cancel_left]
    refine bind_eq_of_some (addAt_of_inSigned (by omega) hfirst) ?_
    refine bind_eq_of_some (hread _ hlen' ?_) ?_
    · rw [hsame, ← hs, hhigh, if_neg (by omega), add_zero]
    · exact addAt_of_inSigned (by omega) hsecond
  · rw [List.length_modify, hlen']
  · intro k
    rw [getD_modify, hsame k, hstep k]
    by_cases hk : c + 1 = k
    · rw [if_pos ⟨hk, by omega⟩, if_pos hk.symm]
    · rw [if_neg fun h => hk h.1, if_neg (show ¬k = c + 1 from fun h => hk h.symm), add_zero]

/-- The reduction leaves the coefficients of the remainder. -/
theorem foldHigh_eq (hB : ∀ k, |fg.getD k 0| ≤ B) (hword : 3 * B < 2 ^ (32 - 1))
    (hlen : fg.length = 2 * p - 1) :
    ∃ s, foldHigh fg = some s ∧ s.length = 2 * p - 1 ∧
      ∀ k < p, s.getD k 0 = foldCoeff p k (ofCoeffs fg) := by
  have hround : ∀ j (s : List Int) (_ : Unit), j < p - 1 →
      (s.length = 2 * p - 1 ∧ ∀ k, s.getD k 0 = foldedEntry fg (p - 1 - j) k) →
      ∃ s', foldHighRound s (2 * p - 2 - j) = some s' ∧
        s'.length = 2 * p - 1 ∧ ∀ k, s'.getD k 0 = foldedEntry fg (p - 1 - (j + 1)) k := by
    intro j s _ hj hs
    rw [show p - 1 - j = p - 1 - (j + 1) + 1 by omega] at hs
    rw [show 2 * p - 2 - j = p + (p - 1 - (j + 1)) by omega]
    exact foldHighRound_eq hB hword (by omega) hs.1 hs.2
  have hstart : fg.length = 2 * p - 1 ∧ ∀ k, fg.getD k 0 = foldedEntry fg (p - 1 - 0) k := by
    refine ⟨hlen, ?_⟩
    intro k
    have hnone : ¬(k < p ∧ p - 1 - 0 < k) := by omega
    rw [foldedEntry, if_neg hnone, add_zero]
    by_cases hk : k < p ∧ p - 1 - 0 ≤ k
    · rw [if_pos hk, List.getD_eq_default (l := fg) 0 (n := p + k) (by omega), add_zero]
    · rw [if_neg hk, add_zero]
  obtain ⟨s, hrun, hs⟩ := foldlM_range_simulates (g := fun t _ => t) (t := ()) hround hstart
  refine ⟨s, hrun, hs.1, ?_⟩
  intro k hk
  rw [hs.2 k, show p - 1 - (p - 1) = 0 by omega, foldedEntry, if_pos ⟨hk, Nat.zero_le k⟩,
    foldCoeff, coeff_ofCoeffs, coeff_ofCoeffs, coeff_ofCoeffs]
  by_cases hzero : k = 0
  · rw [if_neg (by omega), if_pos hzero]
  · rw [if_pos (by omega), if_neg hzero]

end FoldHigh

/-- The convolution is the product. -/
theorem convolutionRows_replicate {f g : List Int} {n : Nat} (hlen : g.length + f.length ≤ n + 1)
    (hfits : SchoolbookFits 32 g f) :
    ∃ fg, convolutionRows f 0 g (List.replicate n 0) = some fg ∧ fg.length = n ∧
      ofCoeffs fg = ofCoeffs g * ofCoeffs f := by
  have hroom : 0 + g.length + f.length ≤ (List.replicate n (0 : Int)).length + 1 := by
    rw [List.length_replicate]
    omega
  refine ⟨schoolbookRows f 0 g (List.replicate n 0), ?_, ?_, ?_⟩
  · rw [convolutionRows_eq (allSigned_replicate_zero _) hroom]
    exact (schoolbookRowsChecked_replicate hlen).mpr ⟨hfits, rfl⟩
  · rw [length_schoolbookRows, List.length_replicate]
  · rw [ofCoeffs_schoolbookRows hroom, ofCoeffs_replicate_zero, zero_add, pow_zero, one_mul]

/-! ## Agreement -/

/-- The product before the reduction modulo `q`, from its coefficients. -/
theorem eq_ringProduct {f g s : List Int} (hlenF : f.length = p) (hlenG : g.length = p)
    (hlen : s.length = p) (hs : ∀ k < p, s.getD k 0 = foldCoeff p k (ofCoeffs f * ofCoeffs g)) :
    s = ringProduct f g := by
  apply List.ext_getElem (by rw [hlen, length_ringProduct])
  intro k hk hk'
  have hcoeff := coeff_reduceRing (length_karatsubaMult_le hlenF hlenG) (hlen ▸ hk)
  rw [coeff_ofCoeffs, (karatsubaMult_spec f g).1, ← ringProduct, ← hs k (hlen ▸ hk),
    List.getD_eq_getElem _ _ hk', List.getD_eq_getElem _ _ hk] at hcoeff
  exact hcoeff.symm

section Agreement

variable {f g : List Int} {A B : Int}

theorem abs_foldCoeff_le {h : Int[X]} (hcoeff : CoeffsLe B h) (k : Nat) :
    |foldCoeff p k h| ≤ 3 * B := by
  have hnonneg : 0 ≤ B := (abs_nonneg _).trans (hcoeff 0)
  have hother : |if k = 0 then 0 else h.coeff (p + k - 1)| ≤ B := by
    split
    · rwa [abs_zero]
    · exact hcoeff _
  have hsum := abs_add_le (h.coeff k + h.coeff (p + k)) (if k = 0 then 0 else h.coeff (p + k - 1))
  have hpair := abs_add_le (h.coeff k) (h.coeff (p + k))
  have hk := hcoeff k
  have hpk := hcoeff (p + k)
  rw [foldCoeff]
  linarith

theorem multR3Checked_eq (hf : ∀ x ∈ f, |x| ≤ A) (hg : ∀ y ∈ g, |y| ≤ B) (hA : 1 ≤ A) (hB : 1 ≤ B)
    (hlenF : f.length = p) (hlenG : g.length = p) (hbound : 2283 * (A * B) ≤ 2 ^ 29) :
    multR3Checked f g = some (rqMultR3 f g) := by
  have hp : p = 761 := rfl
  have hAB : 0 ≤ A * B := by positivity
  have hcoeff := coeffsLe_mul hf hg (by omega)
  rw [hlenF, show (p : Int) = 761 from rfl] at hcoeff
  have hfits : SchoolbookFits 32 g f := by
    refine schoolbookFits_of_le hg hf (by omega) (by omega) ?_ ?_
    · rw [mul_comm]
      omega
    · rw [hlenG, show (p : Int) = 761 from rfl, mul_comm B]
      omega
  obtain ⟨fg, hconvolution, hlen, hproduct⟩ := convolutionRows_replicate (n := 2 * p - 1)
    (by omega) hfits
  rw [mul_comm] at hproduct
  have hentry : ∀ k, |fg.getD k 0| ≤ 761 * (A * B) := fun k => by
    rw [← coeff_ofCoeffs, hproduct]
    exact hcoeff k
  obtain ⟨s, hfold, hlenS, hs⟩ := foldHigh_eq hentry (by omega) hlen
  have htake : s.take p = ringProduct f g := by
    apply eq_ringProduct hlenF hlenG (by rw [List.length_take]; omega)
    intro k hk
    rw [getD_take, if_pos hk, hs k hk, hproduct]
  have hfreeze : ∀ x ∈ ringProduct f g, freezeChecked x = some (reduceModQ x) := by
    intro x hx
    rw [← htake] at hx
    obtain ⟨k, hk, rfl⟩ := List.getElem_of_mem hx
    have hkp : k < p := by
      rw [List.length_take] at hk
      omega
    have habs := abs_foldCoeff_le hcoeff k
    rw [← hproduct, ← hs k hkp, List.getD_eq_getElem _ _ (by omega)] at habs
    have hsmall : |(s.take p)[k]| ≤ 2 ^ 29 := by
      rw [List.getElem_take]
      exact habs.trans (by omega)
    rw [freezeChecked_eq hsmall, freeze_eq hsmall, reduceModQ_eq]
  refine bind_eq_of_some hconvolution (bind_eq_of_some hfold ?_)
  rw [htake]
  exact mapM_eq_some_map hfreeze

/-- The product by the transform is the product by Karatsuba's recursion. -/
theorem rqMultR3NttChecked_eq (hf : ∀ x ∈ f, |x| ≤ A) (hg : ∀ y ∈ g, |y| ≤ B) (hA : 1 ≤ A)
    (hB : 1 ≤ B) (hlenF : f.length = p) (hlenG : g.length = p)
    (hbound : 30720 * (A * B) ≤ nttPrime / 2) :
    rqMultR3NttChecked f g = some (rqMultR3 f g) := by
  have hp : p = 761 := rfl
  have hprime : (nttPrime : Int) = 998244353 := rfl
  have hsize : nttSize = 2048 := rfl
  have hAB : 1 ≤ A * B := one_le_mul_of_one_le_of_one_le hA hB
  have hAAB : A ≤ A * B := le_mul_of_one_le_right (by omega) hB
  have hBAB : B ≤ A * B := le_mul_of_one_le_left (by omega) hA
  rw [hprime] at hbound
  have hcoeff := coeffsLe_mul hf hg (by omega)
  rw [hlenF, show (p : Int) = 761 from rfl] at hcoeff
  have hsignedF : AllSigned 32 f := fun x hx =>
    inSigned_of_abs_lt ((hf x hx).trans_lt (by omega))
  have hsignedG : AllSigned 32 g := fun x hx =>
    inSigned_of_abs_lt ((hg x hx).trans_lt (by omega))
  have hntt := nttMultChecked_eq hsignedF hsignedG (by omega) (by omega) (by omega)
    (hcoeff.mono (by omega))
  have hdeg : (ofCoeffs f * ofCoeffs g).degree < (f.length + g.length - 1 : Nat) := by
    have hdegF : (ofCoeffs f).natDegree ≤ f.length - 1 := natDegree_ofCoeffs_le (by omega)
    have hdegG : (ofCoeffs g).natDegree ≤ g.length - 1 := natDegree_ofCoeffs_le (by omega)
    have hnat := natDegree_mul_le (p := ofCoeffs f) (q := ofCoeffs g)
    refine degree_le_natDegree.trans_lt ?_
    exact_mod_cast (show (ofCoeffs f * ofCoeffs g).natDegree < f.length + g.length - 1 by omega)
  have hproduct := ofCoeffs_map_coeff hdeg
  have hlen : ((List.range (f.length + g.length - 1)).map
      (ofCoeffs f * ofCoeffs g).coeff).length = 2 * p - 1 := by
    rw [List.length_map, List.length_range]
    omega
  generalize (List.range (f.length + g.length - 1)).map (ofCoeffs f * ofCoeffs g).coeff = product
    at hntt hproduct hlen
  have hfits := productFits_of_le hf hg hA hB hlenF hlenG (by omega)
  have hall : AllSigned 32 product := by
    rw [allSigned_iff, hproduct]
    exact hcoeff.fits (by omega)
  have hreduce : reduceRingChecked product = some (reduceRing product) := by
    rw [reduceRingChecked_eq_some hall hlen.le, reductionFits_iff hlen.le, hproduct]
    exact ⟨hfits.reduction, rfl⟩
  have hsame : reduceRing product = ringProduct f g := by
    apply eq_ringProduct hlenF hlenG (length_reduceRing _)
    intro k hk
    rw [← coeff_ofCoeffs, coeff_reduceRing hlen.le hk, hproduct]
  rw [hsame] at hreduce
  exact bind_eq_of_some hntt (bind_eq_of_some hreduce rfl)

end Agreement

/-- The three multiplications of a centred polynomial by a ternary one return the
product. -/
theorem multR3_agree {a b : List Int} (ha : Centred a) (hb : Ternary b) :
    ∃ c, rqMultR3Checked a b = some c ∧ rqMultR3NttChecked a b = some c ∧
      multR3Checked a b = some c ∧ Centred c ∧ element q c = element q a * element q b := by
  refine ⟨rqMultR3 a b, ?_, ?_, ?_, ⟨length_rqMultR3 a b, abs_rqMultR3_le a b⟩, ?_⟩
  · exact rqMultR3Checked_eq ha.abs_le hb.abs_le (by decide) (by decide) ha.length_eq hb.length_eq
      (by decide)
  · exact rqMultR3NttChecked_eq ha.abs_le hb.abs_le (by decide) (by decide) ha.length_eq
      hb.length_eq (by decide)
  · exact multR3Checked_eq ha.abs_le hb.abs_le (by decide) (by decide) ha.length_eq hb.length_eq
      (by decide)
  · exact element_rqMultR3 ha.length_eq hb.length_eq

/-- The largest coefficients that the multiplications are called with. -/
theorem multR3_agree_largest :
    ∃ c, rqMultR3Checked largest (List.replicate p (-1)) = some c ∧
      rqMultR3NttChecked largest (List.replicate p (-1)) = some c ∧
      multR3Checked largest (List.replicate p (-1)) = some c ∧ Centred c ∧
      element q c = element q largest * element q (List.replicate p (-1)) :=
  multR3_agree centred_largest
    ⟨List.length_replicate, fun c hc => by rw [List.eq_of_mem_replicate hc]; decide⟩

end Trelis.Sntrup
