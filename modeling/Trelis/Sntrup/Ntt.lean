import Mathlib.Data.ZMod.Basic
import Trelis.Lib.Barrett
import Trelis.Lib.FastTransform
import Trelis.Lib.SignedWord

/-!
# The number-theoretic transform of sntrup761

Multiplication through a transform of 2048 residues modulo `998244353` (`poly.rs`),
on words with overflow checks.

`Holds` relates an array of words to an array over `Z/998244353`: the words are
reduced, and stand for the entries.  Every loop of the source keeps the relation to
the loop of `FastTransform` that it implements, and none of its operations leaves its
type.
-/

namespace Trelis.Sntrup

open Trelis.Butterfly

/-! ## Residues -/

/-- `NTT_SIZE`. -/
def nttSize : Nat := 2048

/-- `NTT_PRIME`. -/
def nttPrime : Nat := 998244353

/-- `BARRETT_MU`. -/
def barrettMu : Nat := 2 ^ 64 / nttPrime

theorem nttSize_eq : nttSize = 2 ^ 11 := rfl

theorem nttPrime_eq : nttPrime = 998244353 := rfl

instance : NeZero nttPrime := ⟨by decide⟩

/-- `mod_mul`. -/
def modMul (a b : Nat) : Option Nat := do
  let prod ← mulWord 128 a b
  let estimate ← mulWord 128 prod barrettMu
  let q := estimate / 2 ^ 64 % 2 ^ 64
  let part ← mulWord 128 q nttPrime
  let rest ← subWord prod part
  let r := rest % 2 ^ 64
  let mask := if nttPrime ≤ r then 2 ^ 64 - 1 else 0
  subWord r (mask &&& nttPrime)

/-- `mod_add`. -/
def modAdd (a b : Nat) : Option Nat := do
  let sum ← addWord 64 a b
  let mask := if nttPrime ≤ sum then 2 ^ 64 - 1 else 0
  subWord sum (mask &&& nttPrime)

/-- `mod_sub`, which wraps. -/
def modSub (a b : Nat) : Nat :=
  let diff := (a + 2 ^ 64 - b) % 2 ^ 64
  let mask := if a < b then 2 ^ 64 - 1 else 0
  (diff + (mask &&& nttPrime)) % 2 ^ 64

/-- The mask of a comparison selects. -/
theorem select_and (c : Prop) [Decidable c] {m : Nat} (hm : m < 2 ^ 64) :
    (if c then 2 ^ 64 - 1 else 0) &&& m = if c then m else 0 := by
  split
  · rw [Nat.and_comm, Nat.and_two_pow_sub_one_of_lt_two_pow hm]
  · exact Nat.zero_and m

section Residues

variable {a b : Nat}

/-- The last correction of a remainder that is below twice the prime. -/
theorem subWord_select {r : Nat} (h : r < 2 * nttPrime) :
    subWord r ((if nttPrime ≤ r then 2 ^ 64 - 1 else 0) &&& nttPrime) = some (r % nttPrime) := by
  rw [select_and _ (by decide)]
  by_cases hle : nttPrime ≤ r
  · rw [if_pos hle, Nat.mod_eq_sub_mod hle, Nat.mod_eq_of_lt (by omega)]
    exact if_pos hle
  · rw [if_neg hle, Nat.mod_eq_of_lt (by omega)]
    exact if_pos (Nat.zero_le r)

theorem modMul_eq (ha : a < nttPrime) (hb : b < nttPrime) :
    modMul a b = some (a * b % nttPrime) := by
  have hpos : 0 < nttPrime := by decide
  have hprod : a * b < 2 ^ 64 := by
    have hmul : a * b ≤ 998244353 * 998244353 := Nat.mul_le_mul ha.le hb.le
    omega
  have hmu : barrettMu ≤ 2 ^ 64 := Nat.div_le_self _ _
  have hestimate : a * b * barrettMu < 2 ^ 128 := by
    calc a * b * barrettMu ≤ a * b * 2 ^ 64 := Nat.mul_le_mul_left _ hmu
      _ < 2 ^ 64 * 2 ^ 64 := Nat.mul_lt_mul_of_pos_right hprod (by decide)
  have hle : a * b * barrettMu / 2 ^ 64 * nttPrime ≤ a * b := barrett_estimate_mul_le
  have hrest : a * b - a * b * barrettMu / 2 ^ 64 * nttPrime < 2 * nttPrime :=
    barrett_rest_lt_two_mul hpos hprod
  generalize hq : a * b * barrettMu / 2 ^ 64 = quot at hle hrest
  have hquot : quot % 2 ^ 64 = quot := by
    have hone : quot * 1 ≤ quot * nttPrime := Nat.mul_le_mul_left _ hpos
    exact Nat.mod_eq_of_lt (by omega)
  have hword : 2 * nttPrime < 2 ^ 64 := by decide
  have hr : (a * b - quot * nttPrime) % 2 ^ 64 = a * b - quot * nttPrime :=
    Nat.mod_eq_of_lt (hrest.trans hword)
  have hmod : a * b % nttPrime = (a * b - quot * nttPrime) % nttPrime := by
    rw [Nat.mul_comm quot] at hle ⊢
    exact (Nat.sub_mul_mod hle).symm
  rw [hmod]
  refine bind_eq_of_some (mulWord_of_lt (w := 128) (hprod.trans (by decide))) ?_
  refine bind_eq_of_some (mulWord_of_lt hestimate) ?_
  rw [hq, hquot]
  refine bind_eq_of_some (mulWord_of_lt ((hle.trans_lt hprod).trans (by decide))) ?_
  refine bind_eq_of_some (if_pos hle) ?_
  rw [hr]
  exact subWord_select hrest

theorem modAdd_eq (ha : a < nttPrime) (hb : b < nttPrime) :
    modAdd a b = some ((a + b) % nttPrime) := by
  have hsum : a + b < 2 * nttPrime := by omega
  have hword : 2 * nttPrime < 2 ^ 64 := by decide
  refine bind_eq_of_some (addWord_of_lt (hsum.trans hword)) ?_
  exact subWord_select hsum

theorem modSub_eq (ha : a < nttPrime) (hb : b < nttPrime) :
    modSub a b = (a + nttPrime - b) % nttPrime := by
  rw [modSub, select_and _ (by decide)]
  rw [nttPrime_eq] at ha hb ⊢
  by_cases h : a < b
  · rw [if_pos h]
    omega
  · rw [if_neg h]
    omega

end Residues

/-! ## Stage roots -/

/-- `const_mod_mul`, from the lowest bit of the second factor on. -/
def constModMulLoop : Nat → Nat → Nat → Nat → Nat
  | 0, result, _, _ => result
  | bits + 1, result, aShift, bRemaining =>
    if bRemaining = 0 then result
    else constModMulLoop bits (if bRemaining % 2 = 1 then (result + aShift) % nttPrime else result)
      (aShift * 2 % nttPrime) (bRemaining / 2)

/-- `const_mod_mul`. -/
def constModMul (a b : Nat) : Nat := constModMulLoop 64 0 (a % nttPrime) b

/-- The loop of `const_mod_pow`. -/
def constModPowLoop : Nat → Nat → Nat → Nat → Nat
  | 0, result, _, _ => result
  | bits + 1, result, b, e =>
    if e = 0 then result
    else constModPowLoop bits (if e % 2 = 1 then constModMul result b else result)
      (constModMul b b) (e / 2)

/-- `const_mod_pow`. -/
def constModPow (base exp : Nat) : Nat := constModPowLoop 64 1 (base % nttPrime) exp

/-- `FORWARD_ROOTS`. -/
def forwardRoots : List Nat :=
  (List.range 11).map fun i => constModPow 3 ((nttPrime - 1) >>> (i + 1))

/-- `INVERSE_ROOTS`. -/
def inverseRoots : List Nat := forwardRoots.map fun root => constModPow root (nttPrime - 2)

/-- `NTT_SIZE_INV`. -/
def nttSizeInv : Nat := constModPow nttSize (nttPrime - 2)

/-- The tables the constants are computed to. -/
theorem roots_eq :
    forwardRoots =
      [998244352, 911660635, 372528824, 929031873, 452798380, 922799308, 781712469, 476477967,
        166035806, 258648936, 584193783] ∧
    inverseRoots =
      [998244352, 86583718, 509520358, 337190230, 87557064, 609441965, 135236158, 304459705,
        685443576, 381598368, 335559352] ∧
    nttSizeInv = 997756929 := by
  decide +kernel

/-! ## The transform -/

/-- A round of the inner loop: a butterfly, and the next power of the root. -/
def butterflyRound (root half start : Nat) (s : (Nat → Nat) × Nat) (j : Nat) :
    Option ((Nat → Nat) × Nat) := do
  let u := s.1 (start + j)
  let v ← modMul (s.1 (start + j + half)) s.2
  let sum ← modAdd u v
  let a := Function.update s.1 (start + j) sum
  let a := Function.update a (start + j + half) (modSub u v)
  let w ← modMul s.2 root
  pure (a, w)

/-- The inner loop. -/
def butterflyBlock (root half start : Nat) (a : Nat → Nat) : Option (Nat → Nat) := do
  let s ← (List.range half).foldlM (butterflyRound root half start) (a, 1)
  pure s.1

/-- A round of the outer loop, with blocks of `2 * half` entries. -/
def butterflyStage (root half : Nat) (a : Nat → Nat) : Option (Nat → Nat) :=
  (List.range (nttSize / (2 * half))).foldlM
    (fun a b => butterflyBlock root half (2 * half * b) a) a

/-- `bit_reverse`. -/
def bitReverseIndex (x logN : Nat) : Nat := bitReverse 64 x / 2 ^ (64 - logN)

/-- `ntt_forward`, with its table of roots as an argument. -/
def transformWith (roots : List Nat) (a : Nat → Nat) : Option (Nat → Nat) :=
  (List.range 11).foldlM (fun a stage => do
      let root ← roots[stage]?
      butterflyStage root (2 ^ stage) a)
    (permute (fun i => bitReverseIndex i 11) nttSize a)

/-- `ntt_forward`. -/
def nttForward (a : Nat → Nat) : Option (Nat → Nat) := transformWith forwardRoots a

/-- A loop that changes the entries one by one. -/
def eachEntry (f : Nat → Nat → Option Nat) (a : Nat → Nat) : Option (Nat → Nat) :=
  (List.range nttSize).foldlM (fun a i => do
      let x ← f i (a i)
      pure (Function.update a i x))
    a

/-- `ntt_inverse`. -/
def nttInverse (a : Nat → Nat) : Option (Nat → Nat) := do
  let a ← transformWith inverseRoots a
  eachEntry (fun _ x => modMul x nttSizeInv) a

/-! ## What the words stand for -/

/-- A reduced word that stands for a residue. -/
def Stands (x : Nat) (z : ZMod nttPrime) : Prop := x < nttPrime ∧ (x : ZMod nttPrime) = z

/-- An array of words that stands for an array of residues. -/
def Holds (a : Nat → Nat) (f : Nat → ZMod nttPrime) : Prop := ∀ i, Stands (a i) (f i)

section Stands

variable {x y : Nat} {z t : ZMod nttPrime}

theorem stands_mod (n : Nat) : Stands (n % nttPrime) n :=
  ⟨Nat.mod_lt _ (by decide), ZMod.natCast_mod n nttPrime⟩

theorem Stands.mul (hx : Stands x z) (hy : Stands y t) :
    ∃ r, modMul x y = some r ∧ Stands r (z * t) := by
  refine ⟨_, modMul_eq hx.1 hy.1, ?_⟩
  rw [← hx.2, ← hy.2, ← Nat.cast_mul]
  exact stands_mod _

theorem Stands.add (hx : Stands x z) (hy : Stands y t) :
    ∃ r, modAdd x y = some r ∧ Stands r (z + t) := by
  refine ⟨_, modAdd_eq hx.1 hy.1, ?_⟩
  rw [← hx.2, ← hy.2, ← Nat.cast_add]
  exact stands_mod _

theorem Stands.sub (hx : Stands x z) (hy : Stands y t) : Stands (modSub x y) (z - t) := by
  have hle : y ≤ x + nttPrime := hy.1.le.trans (Nat.le_add_left _ _)
  have hcast : ((x + nttPrime - y : Nat) : ZMod nttPrime) = z - t := by
    rw [Nat.cast_sub hle, Nat.cast_add, ZMod.natCast_self, add_zero, hx.2, hy.2]
  rw [modSub_eq hx.1 hy.1, ← hcast]
  exact stands_mod _

theorem stands_one : Stands 1 1 := ⟨by decide, Nat.cast_one⟩

theorem Holds.update {a : Nat → Nat} {f : Nat → ZMod nttPrime} (h : Holds a f) (i : Nat)
    (hx : Stands x z) : Holds (Function.update a i x) (Function.update f i z) := by
  intro j
  by_cases hj : j = i
  · rw [hj, Function.update_self, Function.update_self]
    exact hx
  · rw [Function.update_of_ne hj, Function.update_of_ne hj]
    exact h j

end Stands

section Loops

variable {a : Nat → Nat} {f : Nat → ZMod nttPrime} {root : Nat} {ρ : ZMod nttPrime}

theorem butterflyBlock_holds (h : Holds a f) (hroot : Stands root ρ) {half : Nat} (hhalf : 0 < half)
    (start : Nat) :
    ∃ a', butterflyBlock root half start a = some a' ∧
      Holds a' (block (fun j => forward (ρ ^ j)) half start f) := by
  have hround : ∀ j (s : (Nat → Nat) × Nat) (f : Nat → ZMod nttPrime), j < half →
      Holds s.1 f ∧ Stands s.2 (ρ ^ j) → ∃ s', butterflyRound root half start s j = some s' ∧
        Holds s'.1 (step (forward (ρ ^ j)) half f (start + j)) ∧ Stands s'.2 (ρ ^ (j + 1)) := by
    intro j s f _ hs
    rcases hs with ⟨hf, hw⟩
    obtain ⟨v, hv, hstands⟩ := (hf (start + j + half)).mul hw
    obtain ⟨sum, hsum, hsumStands⟩ := (hf (start + j)).add hstands
    obtain ⟨w', hw', hnext⟩ := hw.mul hroot
    refine ⟨(_, w'), bind_eq_of_some hv (bind_eq_of_some hsum (bind_eq_of_some hw' rfl)), ?_, ?_⟩
    · have hne : start + j + half ≠ start + j := by omega
      rw [step, Function.update_comm hne]
      rw [mul_comm] at hsumStands hstands
      exact (hf.update _ hsumStands).update _ ((hf (start + j)).sub hstands)
    · rw [pow_succ]
      exact hnext
  have hstart : Holds a f ∧ Stands 1 (ρ ^ 0) := by
    rw [pow_zero]
    exact ⟨h, stands_one⟩
  obtain ⟨s', hrun, hholds, -⟩ := foldlM_range_simulates (s := (a, 1)) hround hstart
  exact ⟨s'.1, bind_eq_of_some hrun rfl, hholds⟩

theorem butterflyStage_holds (h : Holds a f) (hroot : Stands root ρ) {half : Nat}
    (hhalf : 0 < half) :
    ∃ a', butterflyStage root half a = some a' ∧
      Holds a' (uniformLayer nttSize (fun j => forward (ρ ^ j)) half f) := by
  refine foldlM_range_simulates (R := fun _ => Holds) ?_ h
  intro b a f _ hf
  exact butterflyBlock_holds hf hroot hhalf (2 * half * b)

theorem Holds.permute (h : Holds a f) (σ : Nat → Nat) (n : Nat) :
    Holds (permute σ n a) (permute σ n f) := by
  induction n with
  | zero => exact h
  | succ n ih =>
    rw [permute_succ, permute_succ]
    split
    · exact (ih.update n (ih (σ n))).update (σ n) (ih n)
    · exact ih

theorem bitReverseIndex_eq {i : Nat} (hi : i < nttSize) : bitReverseIndex i 11 = bitReverse 11 i :=
  bitReverse_div (nttSize_eq ▸ hi) 53

/-- The transform with a table of eleven reduced roots. -/
theorem transformWith_holds {roots : List Nat} {ρ : Nat → ZMod nttPrime} (hlen : roots.length = 11)
    (hroots : ∀ s (hs : s < roots.length), Stands roots[s] (ρ s)) (h : Holds a f) :
    ∃ a', transformWith roots a = some a' ∧ Holds a' (ditTransform ρ 11 f) := by
  have hstart : Holds (permute (fun i => bitReverseIndex i 11) nttSize a)
      (permute (bitReverse 11) (2 ^ 11) f) := by
    have hindex : permute (fun i => bitReverseIndex i 11) nttSize a =
        permute (bitReverse 11) nttSize a := permute_congr (fun i hi => bitReverseIndex_eq hi) a
    rw [hindex, nttSize_eq]
    exact h.permute _ _
  rw [ditTransform, ditLayers]
  refine foldlM_range_simulates (R := fun _ => Holds) ?_ hstart
  intro s a f hs hf
  have hs' : s < roots.length := by omega
  obtain ⟨a', hstage, hholds⟩ := butterflyStage_holds hf (hroots s hs') (Nat.two_pow_pos s)
  refine ⟨a', bind_eq_of_some ?_ hstage, hholds⟩
  exact List.getElem?_eq_getElem hs'

/-- A loop over the entries. -/
theorem eachEntry_holds {op : Nat → Nat → Option Nat} {g : Nat → ZMod nttPrime → ZMod nttPrime}
    (hop : ∀ i x z, Stands x z → ∃ y, op i x = some y ∧ Stands y (g i z)) (h : Holds a f) :
    ∃ a', eachEntry op a = some a' ∧
      Holds a' (fun i => if i < nttSize then g i (f i) else f i) := by
  have hround : ∀ c (a : Nat → Nat) (_ : Unit), c < nttSize →
      Holds a (fun i => if i < c then g i (f i) else f i) →
      ∃ a', (do let x ← op c (a c); pure (Function.update a c x)) = some a' ∧
        Holds a' (fun i => if i < c + 1 then g i (f i) else f i) := by
    intro c a _ _ hc
    obtain ⟨y, hy, hstands⟩ := hop c (a c) (f c) (by simpa using hc c)
    refine ⟨_, bind_eq_of_some hy rfl, ?_⟩
    intro i
    by_cases hi : i = c
    · subst hi
      simpa using hstands
    · have hprev := hc i
      have hiff : i < c + 1 ↔ i < c := by omega
      simp only [Function.update_of_ne hi, hiff]
      exact hprev
  have hstart : Holds a (fun i => if i < 0 then g i (f i) else f i) := h
  obtain ⟨a', hrun, hholds⟩ := foldlM_range_simulates (g := fun t _ => t) (t := ()) hround hstart
  exact ⟨a', hrun, hholds⟩

end Loops

/-! ## Inversion -/

/-- The roots of the forward transform. -/
def forwardRoot (s : Nat) : ZMod nttPrime := (forwardRoots.getD s 0 : Nat)

/-- The roots of the inverse transform. -/
def inverseRoot (s : Nat) : ZMod nttPrime := (inverseRoots.getD s 0 : Nat)

theorem cast_eq_of_mod {x y : Nat} (h : x % nttPrime = y % nttPrime) :
    (x : ZMod nttPrime) = (y : ZMod nttPrime) :=
  (ZMod.natCast_eq_natCast_iff' x y nttPrime).mpr h

/-- A table whose entries are square roots of one another, from `-1` on. -/
theorem layerRoots_of_table {roots : List Nat} (hfirst : roots.getD 0 0 = nttPrime - 1)
    (hsquare : ∀ s < 10, roots.getD (s + 1) 0 ^ 2 % nttPrime = roots.getD s 0 % nttPrime) :
    LayerRoots (fun s => ((roots.getD s 0 : Nat) : ZMod nttPrime)) 11 where
  first _ := by
    have hle : 1 ≤ nttPrime := by decide
    show ((roots.getD 0 0 : Nat) : ZMod nttPrime) = -1
    rw [hfirst, Nat.cast_sub hle, ZMod.natCast_self, Nat.cast_one, zero_sub]
  square s hs := by
    rw [← Nat.cast_pow]
    exact cast_eq_of_mod (hsquare s (by omega))

theorem layerRoots_forward : LayerRoots forwardRoot 11 :=
  layerRoots_of_table (by rw [roots_eq.1]; rfl) (by rw [roots_eq.1]; decide)

theorem layerRoots_inverse : LayerRoots inverseRoot 11 :=
  layerRoots_of_table (by rw [roots_eq.2.1]; rfl) (by rw [roots_eq.2.1]; decide)

/-- The last roots of the two tables are inverse to each other. -/
theorem forwardRoot_mul_inverseRoot : forwardRoot 10 * inverseRoot 10 = 1 := by
  rw [forwardRoot, inverseRoot, roots_eq.1, roots_eq.2.1, ← Nat.cast_mul, ← Nat.cast_one]
  exact cast_eq_of_mod (by decide)

theorem nttSize_mul_nttSizeInv : ((2 ^ 11 : Nat) : ZMod nttPrime) * (nttSizeInv : Nat) = 1 := by
  rw [roots_eq.2.2, ← Nat.cast_mul, ← Nat.cast_one]
  exact cast_eq_of_mod (by decide)

theorem stands_getD {roots : List Nat} (h : ∀ r ∈ roots, r < nttPrime) (s : Nat)
    (hs : s < roots.length) : Stands roots[s] ((roots.getD s 0 : Nat) : ZMod nttPrime) := by
  refine ⟨h _ (List.getElem_mem hs), ?_⟩
  rw [List.getD_eq_getElem?_getD, List.getElem?_eq_getElem hs, Option.getD_some]

section Inversion

variable {a : Nat → Nat} {f : Nat → ZMod nttPrime}

theorem nttForward_holds (h : Holds a f) :
    ∃ a', nttForward a = some a' ∧ Holds a' (ditTransform forwardRoot 11 f) :=
  transformWith_holds (by rw [roots_eq.1]; rfl)
    (stands_getD (by rw [roots_eq.1]; decide)) h

theorem nttInverse_holds (h : Holds a f) :
    ∃ a', nttInverse a = some a' ∧
      ∀ i < nttSize, Stands (a' i) (ditTransform inverseRoot 11 f i * (nttSizeInv : Nat)) := by
  have hroots : ∀ s (hs : s < inverseRoots.length), Stands inverseRoots[s] (inverseRoot s) :=
    stands_getD (by rw [roots_eq.2.1]; decide)
  obtain ⟨a₁, htransform, hholds⟩ :=
    transformWith_holds (by rw [roots_eq.2.1]; rfl) hroots h
  have hinv : Stands nttSizeInv (nttSizeInv : Nat) := ⟨by rw [roots_eq.2.2]; decide, rfl⟩
  obtain ⟨a₂, hscale, hholds₂⟩ := eachEntry_holds
    (g := fun _ z => z * (nttSizeInv : Nat)) (fun i x z hx => hx.mul hinv) hholds
  refine ⟨a₂, bind_eq_of_some htransform hscale, ?_⟩
  intro i hi
  have hentry := hholds₂ i
  beta_reduce at hentry
  rwa [if_pos hi] at hentry

theorem forward_transform (f : Nat → ZMod nttPrime) {i : Nat} (hi : i < nttSize) :
    ditTransform forwardRoot 11 f i = dft (forwardRoot 10) nttSize f i := by
  rw [nttSize_eq] at hi ⊢
  exact ditTransform_eq layerRoots_forward f hi

/-- The inverse transform, up to the factor `2048`. -/
theorem inverse_transform (f : Nat → ZMod nttPrime) {F : Nat → ZMod nttPrime}
    (hF : ∀ k < nttSize, F k = dft (forwardRoot 10) nttSize f k) {i : Nat} (hi : i < nttSize) :
    ditTransform inverseRoot 11 F i * (nttSizeInv : Nat) = f i := by
  rw [nttSize_eq] at hF hi
  rw [ditTransform_eq layerRoots_inverse F hi]
  have hhalf : forwardRoot 10 ^ 2 ^ (11 - 1) = -1 :=
    layerRoots_forward.half_pow (show 10 < 11 by decide)
  show dft (inverseRoot 10) (2 ^ 11) F i * _ = _
  rw [dft_congr hF, dft_dft forwardRoot_mul_inverseRoot hhalf f hi, mul_right_comm]
  have hone := nttSize_mul_nttSizeInv
  rw [Nat.cast_pow, Nat.cast_ofNat] at hone
  rw [hone, one_mul]

end Inversion

end Trelis.Sntrup
