import Trelis.Lib.ExtendedGcd
import Trelis.Sntrup.CheckedScalar
import Trelis.Sntrup.Encoding
import Trelis.Sntrup.Reciprocal

/-!
# Inversion in machine integers

`recip`, `recip_ct` and the two polynomial inversions of `fq.rs` with overflow
checks.  `debug` says whether the program is built with debug assertions, which only
the two inversions of field elements have.

A round of the polynomial inversions keeps every coefficient balanced, and `delta`
within one of what it was.  `rounds_eq` puts the rounds together, and the checked
inversions are then those of `Reciprocal`.
-/

namespace Trelis.Sntrup

/-- `debug_assert!`. -/
def debugAssertion (debug : Bool) (c : Prop) [Decidable c] : Option Unit :=
  if debug then assertion c else some ()

theorem debugAssertion_of {c : Prop} [Decidable c] (debug : Bool) (h : c) :
    debugAssertion debug c = some () := by
  cases debug with
  | false => rfl
  | true => exact if_pos h

/-- A value that fits. -/
theorem signed_of_abs_lt {w : Nat} {x : Int} (h : |x| < 2 ^ (w - 1)) : signed w x = some x :=
  signed_of_inSigned (inSigned_of_abs_lt h)

/-! ## The ratio -/

/-- The argument of `recip`, normalised. -/
def aPosition (a : Int) : Int := if a < 0 then a + q else a

/-- The same on words. -/
def aPositionChecked (a : Int) : Option Int := if a < 0 then signed 32 (a + q) else some a

/-- What the loop of `recip` ends with. -/
def recipEnd (a : Int) : Int × Int := euclid ((aPosition a).natAbs + 1) q (aPosition a) 0 1

/-- `recip`. -/
def recipChecked (debug : Bool) (a : Int) : Option Int := do
  debugAssertion debug (a ≠ 0)
  let aPos ← aPositionChecked a
  let last ← euclidChecked 32 (aPos.natAbs + 1) q aPos 0 1
  debugAssertion debug (last.1 = 1)
  freezeChecked last.2

section Ratio

variable {a : Int}

theorem euclidInv_start (a : Int) : EuclidInv q (aPosition a) q (aPosition a) 0 1 :=
  EuclidInv.start (by decide) _

theorem recipEnd_spec (a : Int) :
    (q : Int) ∣ (recipEnd a).2 * aPosition a - (recipEnd a).1 ∧ |(recipEnd a).2| ≤ q :=
  euclid_spec (euclidInv_start a) (Nat.lt_succ_self _)

theorem cast_aPosition (a : Int) : ((aPosition a : Int) : ZMod q) = a := by
  rw [aPosition]
  split
  · rw [Int.cast_add, Int.cast_natCast, ZMod.natCast_self, add_zero]
  · rfl

/-- No argument overflows, and an argument that the assertions let through is inverted. -/
theorem recipChecked_eq (debug : Bool) (ha : InSigned 16 a)
    (hassert : debug = true → a ≠ 0 ∧ (recipEnd a).1 = 1) :
    recipChecked debug a = some (freeze (recipEnd a).2) := by
  have hq : (q : Int) = 4591 := rfl
  rw [InSigned, show (16 - 1 : Nat) = 15 from rfl] at ha
  have hpos : |aPosition a| < 2 ^ (32 - 1) := by
    rw [abs_lt, aPosition]
    split
    · omega
    · omega
  have hbound := (recipEnd_spec a).2
  have hsmall : |(recipEnd a).2| ≤ 2 ^ 29 := hbound.trans (by decide)
  have hnormal : aPositionChecked a = some (aPosition a) := by
    rw [aPosition, aPositionChecked]
    split
    · apply signed_of_inSigned
      rw [InSigned, show (32 - 1 : Nat) = 31 from rfl]
      omega
    · rfl
  have hloop : euclidChecked 32 ((aPosition a).natAbs + 1) q (aPosition a) 0 1 =
      some (recipEnd a) :=
    euclidChecked_eq (euclidInv_start a) (Nat.lt_succ_self _) (by decide) (by decide) hpos
  have hguard : ∀ (c : Prop) [Decidable c], (debug = true → c) →
      debugAssertion debug c = some () := by
    intro c _ hc
    cases hdebug : debug with
    | false => rfl
    | true => exact if_pos (hc hdebug)
  refine bind_eq_of_some (hguard _ fun h => (hassert h).1) ?_
  refine bind_eq_of_some hnormal (bind_eq_of_some hloop ?_)
  refine bind_eq_of_some (hguard _ fun h => (hassert h).2) ?_
  exact freezeChecked_eq hsmall

/-- The inverse of an argument whose loop ends with one. -/
theorem freeze_recipEnd (hone : (recipEnd a).1 = 1) :
    |freeze (recipEnd a).2| ≤ 2295 ∧ ((freeze (recipEnd a).2 : Int) : ZMod q) * a = 1 := by
  obtain ⟨hdvd, hbound⟩ := recipEnd_spec a
  have hsmall : |(recipEnd a).2| ≤ 2 ^ 29 := hbound.trans (by decide)
  refine ⟨abs_freeze_le hsmall, ?_⟩
  rw [hone, ← ZMod.intCast_zmod_eq_zero_iff_dvd, Int.cast_sub, Int.cast_mul, cast_aPosition,
    Int.cast_one, sub_eq_zero] at hdvd
  rw [cast_freeze hsmall, hdvd]

/-- The loop ends with one for every ratio above `-q` that `q` does not divide. -/
theorem recipEnd_eq_one (hlow : -(q : Int) < a) (hdvd : ¬(q : Int) ∣ a) : (recipEnd a).1 = 1 := by
  have hpos : 0 ≤ aPosition a := by
    rw [aPosition]
    split
    · omega
    · omega
  have hnot : ¬(q : Int) ∣ aPosition a := by
    rw [aPosition]
    split
    · rwa [dvd_add_self_right]
    · exact hdvd
  rw [recipEnd, euclid_fst (Nat.lt_succ_self _) (by decide) hpos]
  have hprime : Nat.Coprime q (aPosition a).natAbs := by
    rw [Nat.Prime.coprime_iff_not_dvd q_prime]
    rwa [← Int.natCast_dvd]
  rw [Int.gcd_eq_natAbs, Int.natAbs_natCast, hprime]
  rfl

end Ratio

/-! ## Constant-time inversion of a field element -/

/-- A round of `recip_ct`, which computes both candidates and selects one. -/
def recipCtRoundChecked (bit : Nat) (s : Int × Int) : Option (Int × Int) := do
  let product ← signed 32 (s.1 * s.2)
  let prod ← freezeChecked product
  let same ← freezeChecked s.1
  let square ← signed 32 (s.2 * s.2)
  let base ← freezeChecked square
  pure (if bit = 1 then prod else same, base)

/-- The rounds of `recip_ct`, from the lowest bit of the exponent on. -/
def recipCtLoopChecked : Nat → Nat → Int × Int → Option (Int × Int)
  | 0, _, s => some s
  | bits + 1, exp, s => do
    let s ← recipCtRoundChecked (exp % 2) s
    recipCtLoopChecked bits (exp / 2) s

/-- `recip_ct`.  The round of the highest bit does not square. -/
def recipCtChecked (debug : Bool) (a : Int) : Option Int := do
  debugAssertion debug (a ≠ 0)
  let aPos ← signed 32 (a + if a < 0 then (q : Int) else 0)
  let s ← recipCtLoopChecked 12 4589 (1, aPos)
  let product ← signed 32 (s.1 * s.2)
  let prod ← freezeChecked product
  let _same ← freezeChecked s.1
  pure prod

theorem signed_mul {x y : Int} (hx : |x| ≤ 4591) (hy : |y| ≤ 4591) :
    signed 32 (x * y) = some (x * y) :=
  signed_of_abs_lt ((abs_mul_le_of hx hy).trans_lt (by decide))

theorem recipCtRoundChecked_eq (bit : Nat) {s : Int × Int} (h1 : |s.1| ≤ 4591) (h2 : |s.2| ≤ 4591) :
    recipCtRoundChecked bit s = some (recipCtRound bit s) := by
  have hone : |s.1| ≤ 2 ^ 29 := h1.trans (by decide)
  refine bind_eq_of_some (signed_mul h1 h2) ?_
  refine bind_eq_of_some (freezeChecked_eq (abs_mul_le_of h1 h2)) ?_
  refine bind_eq_of_some (freezeChecked_eq hone) ?_
  refine bind_eq_of_some (signed_mul h2 h2) ?_
  exact bind_eq_of_some (freezeChecked_eq (abs_mul_le_of h2 h2)) rfl

theorem recipCtLoopChecked_eq (bits exp : Nat) {s : Int × Int} (h1 : |s.1| ≤ 4591)
    (h2 : |s.2| ≤ 4591) : recipCtLoopChecked bits exp s = some (recipCtLoop bits exp s) := by
  induction bits generalizing exp s with
  | zero => rfl
  | succ bits ih =>
    obtain ⟨hsmall1, hsmall2, -⟩ := recipCtRound_spec (Nat.mod_lt exp two_pos) h1 h2
    exact bind_eq_of_some (recipCtRoundChecked_eq _ h1 h2) (ih (exp / 2) hsmall1 hsmall2)

theorem recipCtChecked_eq (debug : Bool) {a : Int} (ha : |a| ≤ 2295) (hne : a ≠ 0) :
    recipCtChecked debug a = some (recipCt a) := by
  obtain ⟨hlo, hhi⟩ := abs_le.mp ha
  have hsame : (a + if a < 0 then (q : Int) else 0) = if a < 0 then a + q else a := by
    split
    · rfl
    · rw [add_zero]
  have hpos : |if a < 0 then a + q else a| ≤ 4591 := by
    rw [abs_le, show (q : Int) = 4591 from rfl]
    split
    · omega
    · omega
  rw [recipCt]
  generalize (if a < 0 then a + (q : Int) else a) = aPos at hsame hpos
  obtain ⟨h1, h2, -⟩ := recipCtLoop_spec 12 4589 (s := (1, aPos)) (by norm_num) hpos
  refine bind_eq_of_some (debugAssertion_of debug hne) ?_
  have hfit : signed 32 (a + if a < 0 then (q : Int) else 0) = some aPos := by
    rw [hsame]
    exact signed_of_abs_lt (hpos.trans_lt (by decide))
  refine bind_eq_of_some hfit ?_
  refine bind_eq_of_some (recipCtLoopChecked_eq 12 4589 (by norm_num) hpos) ?_
  refine bind_eq_of_some (signed_mul h1 h2) ?_
  refine bind_eq_of_some (freezeChecked_eq (abs_mul_le_of h1 h2)) ?_
  exact bind_eq_of_some (freezeChecked_eq (h1.trans (by decide))) rfl

/-! ## The rounds -/

/-- A round of the main loop. -/
def recipRoundChecked (quot : Int → Int → Int → Int → Option Int) (s : RecipState) :
    Option RecipState := do
  let v := shiftRight s.v
  let negDelta ← signed 16 (-s.delta)
  let swap : Bool := negDelta < 0 ∧ head s.g ≠ 0
  let delta ← signed 16 ((if swap then negDelta else s.delta) + 1)
  let f := if swap then s.g else s.f
  let g := if swap then s.f else s.g
  let r := if swap then v else s.r
  let v := if swap then s.r else v
  let f0 := head f
  let g0 := head g
  let g ← (List.zip g f).mapM fun c => quot f0 g0 c.1 c.2
  let r ← (List.zip r v).mapM fun c => quot f0 g0 c.1 c.2
  pure { delta := delta, f := f, g := shiftLeft g, v := v, r := r }

/-- `quotient_update`. -/
def quotientUpdateChecked (f0 g0 out fv : Int) : Option Int := do
  let product ← signed 32 (f0 * out)
  let product' ← signed 32 (g0 * fv)
  let x ← signed 32 (product - product')
  freezeChecked x

/-- `quotient_update_r3`. -/
def quotientUpdateR3Checked (sign out fv : Int) : Option Int := do
  let product ← signed 8 (sign * fv)
  let x ← signed 8 (out + product)
  f3FreezeChecked x

/-- A round of the main loop of `R3::recip`, which takes the sign before the swap. -/
def r3RoundChecked (s : RecipState) : Option RecipState := do
  let neg ← signed 8 (-head s.g)
  let sign ← signed 8 (neg * head s.f)
  recipRoundChecked (fun _ _ => quotientUpdateR3Checked sign) s

/-- The main loop. -/
def roundsChecked (round : RecipState → Option RecipState) (s : RecipState) : Option RecipState :=
  (List.range (2 * p - 1)).foldlM (fun s _ => round s) s

/-- Every coefficient of a state is balanced. -/
structure Balanced (B : Int) (s : RecipState) : Prop where
  f : ∀ c ∈ s.f, |c| ≤ B
  g : ∀ c ∈ s.g, |c| ≤ B
  v : ∀ c ∈ s.v, |c| ≤ B
  r : ∀ c ∈ s.r, |c| ≤ B

section Rounds

variable {n : Nat} {B : Int} {quot : Int → Int → Int → Int → Int} {scalar : Int → ZMod n}
variable {s : RecipState}

theorem abs_head_le {a : List Int} (hB : 0 ≤ B) (h : ∀ c ∈ a, |c| ≤ B) : |head a| ≤ B := by
  cases a with
  | nil => rwa [head, List.getD_nil, abs_zero]
  | cons c a => exact h c List.mem_cons_self

theorem abs_shiftRight_le {a : List Int} (hB : 0 ≤ B) (h : ∀ c ∈ a, |c| ≤ B) :
    ∀ c ∈ shiftRight a, |c| ≤ B := by
  intro c hc
  obtain rfl | hc := List.mem_cons.mp hc
  · rwa [abs_zero]
  · exact h c (List.dropLast_subset a hc)

theorem abs_shiftLeft_le {a : List Int} (hB : 0 ≤ B) (h : ∀ c ∈ a, |c| ≤ B) :
    ∀ c ∈ shiftLeft a, |c| ≤ B := by
  intro c hc
  obtain hc | hc := List.mem_append.mp hc
  · exact h c (List.mem_of_mem_drop hc)
  · rwa [List.mem_singleton.mp hc, abs_zero]

theorem abs_zipWith_le (helim : Eliminates n B quot scalar) {a b : List Int} {f0 g0 : Int}
    (hf0 : |f0| ≤ B) (hg0 : |g0| ≤ B) (ha : ∀ c ∈ a, |c| ≤ B) (hb : ∀ c ∈ b, |c| ≤ B) :
    ∀ c ∈ List.zipWith (quot f0 g0) a b, |c| ≤ B := by
  intro c hc
  obtain ⟨i, hi, rfl⟩ := List.getElem_of_mem hc
  rw [List.getElem_zipWith]
  exact helim.abs_le _ _ _ _ hf0 hg0 (ha _ (List.getElem_mem _)) (hb _ (List.getElem_mem _))

/-- The combinations of a row, when none of them overflows. -/
theorem mapM_zip_eq {quotChecked : Int → Int → Option Int} {quot : Int → Int → Int}
    {a b : List Int} (ha : ∀ c ∈ a, |c| ≤ B) (hb : ∀ c ∈ b, |c| ≤ B)
    (h : ∀ out fv, |out| ≤ B → |fv| ≤ B → quotChecked out fv = some (quot out fv)) :
    ((List.zip a b).mapM fun c => quotChecked c.1 c.2) = some (List.zipWith quot a b) := by
  rw [← List.map_uncurry_zip_eq_zipWith]
  apply mapM_eq_some_map
  intro c hc
  obtain ⟨hout, hfv⟩ := List.of_mem_zip hc
  exact h _ _ (ha _ hout) (hb _ hfv)

/-- A round, when no combination of it overflows. -/
theorem recipRoundChecked_eq {quotChecked : Int → Int → Int → Int → Option Int}
    (helim : Eliminates n B quot scalar) (h : Balanced B s) (hdelta : |s.delta| < 2 ^ 15 - 1)
    (hquot : ∀ f0 g0 out fv, (f0 = head s.f ∧ g0 = head s.g ∨ f0 = head s.g ∧ g0 = head s.f) →
      |out| ≤ B → |fv| ≤ B → quotChecked f0 g0 out fv = some (quot f0 g0 out fv)) :
    recipRoundChecked quotChecked s = some (recipRound quot s) ∧ Balanced B (recipRound quot s) ∧
      |(recipRound quot s).delta| ≤ |s.delta| + 1 := by
  have hB := helim.nonneg
  have hshift := abs_shiftRight_le hB h.v
  have hf := abs_head_le hB h.f
  have hg := abs_head_le hB h.g
  rw [abs_lt] at hdelta
  have hneg : signed 16 (-s.delta) = some (-s.delta) := by
    apply signed_of_inSigned
    rw [InSigned, show (16 - 1 : Nat) = 15 from rfl]
    omega
  have hcond : decide (-s.delta < 0 ∧ head s.g ≠ 0) = decide (0 < s.delta ∧ head s.g ≠ 0) := by
    rw [decide_eq_decide, neg_lt_zero]
  have hfit : ∀ x : Int, |x| ≤ |s.delta| → signed 16 (x + 1) = some (x + 1) := by
    intro x hx
    apply signed_of_inSigned
    have habs := abs_lt.mpr hdelta
    have hx' := abs_le.mp hx
    rw [InSigned, show (16 - 1 : Nat) = 15 from rfl]
    omega
  by_cases hswap : 0 < s.delta ∧ head s.g ≠ 0
  · have hdec := decide_eq_true hswap
    have hrow : ∀ out fv, |out| ≤ B → |fv| ≤ B → quotChecked (head s.g) (head s.f) out fv =
        some (quot (head s.g) (head s.f) out fv) := fun out fv =>
      hquot _ _ out fv (.inr ⟨rfl, rfl⟩)
    have hrowG := mapM_zip_eq h.f h.g hrow
    have hrowR := mapM_zip_eq hshift h.r hrow
    unfold recipRoundChecked recipRound
    simp only [hdec, if_true]
    refine ⟨?_, ⟨h.g, ?_, h.r, ?_⟩, ?_⟩
    · refine bind_eq_of_some hneg ?_
      simp only [hcond, hdec, if_true]
      refine bind_eq_of_some (hfit _ (by rw [abs_neg])) ?_
      exact bind_eq_of_some hrowG (bind_eq_of_some hrowR rfl)
    · exact abs_shiftLeft_le hB (abs_zipWith_le helim hg hf h.f h.g)
    · exact abs_zipWith_le helim hg hf hshift h.r
    · exact (abs_add_le _ _).trans (by rw [abs_neg, abs_one])
  · have hdec := decide_eq_false hswap
    have hrow : ∀ out fv, |out| ≤ B → |fv| ≤ B → quotChecked (head s.f) (head s.g) out fv =
        some (quot (head s.f) (head s.g) out fv) := fun out fv =>
      hquot _ _ out fv (.inl ⟨rfl, rfl⟩)
    have hrowG := mapM_zip_eq h.g h.f hrow
    have hrowR := mapM_zip_eq h.r hshift hrow
    unfold recipRoundChecked recipRound
    simp only [hdec, Bool.false_eq_true, if_false]
    refine ⟨?_, ⟨h.f, ?_, hshift, ?_⟩, ?_⟩
    · refine bind_eq_of_some hneg ?_
      simp only [hcond, hdec, Bool.false_eq_true, if_false]
      refine bind_eq_of_some (hfit _ (le_refl _)) ?_
      exact bind_eq_of_some hrowG (bind_eq_of_some hrowR rfl)
    · exact abs_shiftLeft_le hB (abs_zipWith_le helim hf hg h.g h.f)
    · exact abs_zipWith_le helim hf hg h.r hshift
    · exact (abs_add_le _ _).trans (by rw [abs_one])

/-- The rounds, when each of them does not panic on a balanced state. -/
theorem roundsChecked_eq {round : RecipState → Option RecipState} (h : Balanced B s)
    (hdelta : |s.delta| ≤ 1)
    (hround : ∀ t, Balanced B t → |t.delta| < 2 ^ 15 - 1 →
      round t = some (recipRound quot t) ∧ Balanced B (recipRound quot t) ∧
        |(recipRound quot t).delta| ≤ |t.delta| + 1) :
    roundsChecked round s = some ((recipRound quot)^[2 * p - 1] s) := by
  have hp : p = 761 := rfl
  generalize hn : 2 * p - 1 = rounds
  have hstart : s = s ∧ Balanced B s ∧ |s.delta| ≤ ((0 : Nat) : Int) + 1 :=
    ⟨rfl, h, by rwa [Nat.cast_zero, zero_add]⟩
  have hstep : ∀ j (t u : RecipState), j < rounds →
      t = u ∧ Balanced B t ∧ |t.delta| ≤ (j : Int) + 1 →
      ∃ t', round t = some t' ∧ t' = recipRound quot u ∧ Balanced B t' ∧
        |t'.delta| ≤ ((j + 1 : Nat) : Int) + 1 := by
    intro j t u hj ht
    rcases ht with ⟨rfl, hbalanced, hsmall⟩
    obtain ⟨hrun, hnext, hgrowth⟩ := hround t hbalanced (by omega)
    exact ⟨_, hrun, rfl, hnext, by push_cast; omega⟩
  obtain ⟨t, hrun, heq, -⟩ := foldlM_range_simulates
    (R := fun j t u => t = u ∧ Balanced B t ∧ |t.delta| ≤ (j : Int) + 1) hstep hstart
  rw [roundsChecked, hn, hrun, heq, List.foldl_const, List.length_range]

end Rounds

theorem balanced_init {input : List Int} {r0 : Int} (hB : 1 ≤ B) (hlen : input.length = p)
    (hinput : ∀ c ∈ input, |c| ≤ B) (hr0 : |r0| ≤ B) : Balanced B (RecipState.init r0 input) where
  f := (denotes_init_f (n := q) hB).abs_le
  g := (denotes_reverse (n := q) hB hlen hinput).abs_le
  v := (denotes_zero (n := q) hB).abs_le
  r := (denotes_const (n := q) hB hr0).abs_le

/-! ## Polynomials over the field of `q` elements -/

/-- `Rq::recip::<RATIO>`. -/
def rqRecipChecked (debug : Bool) (ratio : Int) (input : List Int) :
    Option (Except String (List Int)) := do
  let r0 ← recipChecked debug ratio
  let s ← roundsChecked (recipRoundChecked quotientUpdateChecked) (RecipState.init r0 input)
  if s.delta ≠ 0 then pure (.error "Polynomial not invertible")
  else
    let scale ← recipCtChecked debug (head s.f)
    let out ← (List.range p).mapM fun i => do
      let x ← signed 32 (scale * s.v.getD (p - 1 - i) 0)
      freezeChecked x
    pure (.ok out)

theorem quotientUpdateChecked_eq {f0 g0 out fv : Int} (hf0 : |f0| ≤ 2295) (hg0 : |g0| ≤ 2295)
    (hout : |out| ≤ 2295) (hfv : |fv| ≤ 2295) :
    quotientUpdateChecked f0 g0 out fv = some (quotientUpdate f0 g0 out fv) := by
  have hbound : ∀ {x y : Int}, |x| ≤ 2295 → |y| ≤ 2295 → |x * y| ≤ 2295 * 2295 := by
    intro x y hx hy
    rw [abs_mul]
    exact mul_le_mul hx hy (abs_nonneg y) (by decide)
  have hfirst := hbound hf0 hout
  have hsecond := hbound hg0 hfv
  have hdiff : |f0 * out - g0 * fv| ≤ 2 ^ 29 := (abs_sub _ _).trans (by linarith)
  refine bind_eq_of_some (signed_of_abs_lt (hfirst.trans_lt (by decide))) ?_
  refine bind_eq_of_some (signed_of_abs_lt (hsecond.trans_lt (by decide))) ?_
  refine bind_eq_of_some (signed_of_abs_lt (hdiff.trans_lt (by decide))) ?_
  exact freezeChecked_eq hdiff

variable {input : List Int} {r0 ratio : Int}

theorem rqRounds_eq (hinput : Centred input) (hr0 : |r0| ≤ 2295) :
    roundsChecked (recipRoundChecked quotientUpdateChecked) (RecipState.init r0 input) =
      some ((recipRound quotientUpdate)^[2 * p - 1] (RecipState.init r0 input)) := by
  apply roundsChecked_eq (B := 2295) (balanced_init (by decide) hinput.length_eq hinput.abs_le hr0)
    (le_of_eq abs_one)
  intro t ht hdelta
  apply recipRoundChecked_eq eliminates_quotientUpdate ht hdelta
  intro f0 g0 out fv hheads hout hfv
  have hf := abs_head_le (by decide) ht.f
  have hg := abs_head_le (by decide) ht.g
  obtain ⟨rfl, rfl⟩ | ⟨rfl, rfl⟩ := hheads
  · exact quotientUpdateChecked_eq hf hg hout hfv
  · exact quotientUpdateChecked_eq hg hf hout hfv

theorem Inverted.abs_getD_le {n : Nat} {B : Int} {s : RecipState} (h : Inverted n B r0 input s)
    {i : Nat} (hi : i < p) : |s.v.getD i 0| ≤ B := by
  have hlen := h.v_length_eq
  have htake : i < (s.v.take p).length := by
    rw [List.length_take]
    omega
  rw [List.getD_eq_getElem _ _ (by omega), ← List.getElem_take (h := htake)]
  exact h.abs_le _ (List.mem_reverse.mpr (List.getElem_mem htake))

/-- `Rq::recip` does not panic, and inverts the input up to the inverse of the ratio. -/
theorem rqRecipChecked_eq (debug : Bool) (hinput : Centred input)
    (hratio : recipChecked debug ratio = some r0) (hr0 : |r0| ≤ 2295) (hne : (r0 : ZMod q) ≠ 0) :
    rqRecipChecked debug ratio input =
      some ((rqRecip r0 input).elim (.error "Polynomial not invertible") .ok) := by
  have houtcome := recip_outcome r0 eliminates_quotientUpdate (by decide) hinput.length_eq
    hinput.abs_le hr0 hne
  have hrounds := rqRounds_eq hinput hr0
  refine bind_eq_of_some hratio (bind_eq_of_some hrounds ?_)
  unfold rqRecip
  dsimp only at houtcome
  generalize (recipRound quotientUpdate)^[2 * p - 1] (RecipState.init r0 input) = s at houtcome
  obtain ⟨hdelta, hinv⟩ | ⟨hdelta, -⟩ := houtcome
  · rw [if_neg (not_not.mpr hdelta), if_neg (not_not.mpr hdelta)]
    have hhead : head s.f ≠ 0 := fun h0 => hinv.head_ne_zero (by rw [h0, Int.cast_zero])
    have hscale := (recipCt_mul hinv.abs_head_le hinv.head_ne_zero).1
    refine bind_eq_of_some (recipCtChecked_eq debug hinv.abs_head_le hhead) ?_
    refine bind_eq_of_some (mapM_eq_some_map (g := fun i =>
      freeze (recipCt (head s.f) * s.v.getD (p - 1 - i) 0)) ?_) rfl
    intro i hi
    have hi' : p - 1 - i < p := by
      rw [List.mem_range] at hi
      omega
    have hentry := hinv.abs_getD_le hi'
    have hmul := abs_mul_le_of (hscale.trans (by decide)) (hentry.trans (by decide))
    exact bind_eq_of_some (signed_mul (hscale.trans (by decide)) (hentry.trans (by decide)))
      (freezeChecked_eq hmul)
  · rw [if_pos hdelta, if_pos hdelta]
    rfl

/-! ## Polynomials over the field of three elements -/

/-- `R3::recip`. -/
def r3RecipChecked (input : List Int) : Option (Except String (List Int)) := do
  let s ← roundsChecked r3RoundChecked (RecipState.init 1 input)
  if s.delta ≠ 0 then pure (.error "Polynomial not invertible in R3")
  else
    let out ← (List.range p).mapM fun i => signed 8 (head s.f * s.v.getD (p - 1 - i) 0)
    pure (.ok out)

theorem abs_mul_le_one {x y : Int} (hx : |x| ≤ 1) (hy : |y| ≤ 1) : |x * y| ≤ 1 := by
  rw [abs_mul]
  exact mul_le_one₀ hx (abs_nonneg y) hy

theorem quotientUpdateR3Checked_eq {f0 g0 out fv : Int} (hf0 : |f0| ≤ 1) (hg0 : |g0| ≤ 1)
    (hout : |out| ≤ 1) (hfv : |fv| ≤ 1) :
    quotientUpdateR3Checked (-g0 * f0) out fv = some (quotientUpdateR3 f0 g0 out fv) := by
  have hsign : |-g0 * f0| ≤ 1 := abs_mul_le_one (by rwa [abs_neg]) hf0
  have hproduct := abs_mul_le_one hsign hfv
  have hsum : |out + -g0 * f0 * fv| ≤ 2 := (abs_add_le _ _).trans (by linarith)
  refine bind_eq_of_some (signed_of_abs_lt (hproduct.trans_lt (by decide))) ?_
  refine bind_eq_of_some (signed_of_abs_lt (hsum.trans_lt (by decide))) ?_
  exact f3FreezeChecked_eq (hsum.trans (by decide))

theorem r3Rounds_eq (hinput : Ternary input) :
    roundsChecked r3RoundChecked (RecipState.init 1 input) =
      some ((recipRound quotientUpdateR3)^[2 * p - 1] (RecipState.init 1 input)) := by
  apply roundsChecked_eq (B := 1) (balanced_init (le_refl 1) hinput.length_eq hinput.abs_le
    (le_of_eq abs_one)) (le_of_eq abs_one)
  intro t ht hdelta
  have hf := abs_head_le (by decide) ht.f
  have hg := abs_head_le (by decide) ht.g
  have hneg : |-head t.g| ≤ 1 := by rwa [abs_neg]
  have hquot : ∀ f0 g0 out fv,
      (f0 = head t.f ∧ g0 = head t.g ∨ f0 = head t.g ∧ g0 = head t.f) → |out| ≤ 1 → |fv| ≤ 1 →
        quotientUpdateR3Checked (-head t.g * head t.f) out fv =
          some (quotientUpdateR3 f0 g0 out fv) := by
    intro f0 g0 out fv hheads hout hfv
    obtain ⟨rfl, rfl⟩ | ⟨rfl, rfl⟩ := hheads
    · exact quotientUpdateR3Checked_eq hf hg hout hfv
    · -- The sign of the swapped heads is the same.
      rw [neg_mul_comm, mul_comm]
      exact quotientUpdateR3Checked_eq hg hf hout hfv
  have hround := recipRoundChecked_eq eliminates_quotientUpdateR3 ht hdelta hquot
  refine ⟨?_, hround.2⟩
  refine bind_eq_of_some (signed_of_abs_lt (hneg.trans_lt (by decide))) ?_
  refine bind_eq_of_some (signed_of_abs_lt ((abs_mul_le_one hneg hf).trans_lt (by decide))) ?_
  exact hround.1

theorem r3RecipChecked_eq (hinput : Ternary input) :
    r3RecipChecked input =
      some ((r3Recip input).elim (.error "Polynomial not invertible in R3") .ok) := by
  have houtcome := recip_outcome 1 eliminates_quotientUpdateR3 (le_refl 1) hinput.length_eq
    hinput.abs_le (le_of_eq abs_one) (by decide)
  refine bind_eq_of_some (r3Rounds_eq hinput) ?_
  unfold r3Recip
  dsimp only at houtcome
  generalize (recipRound quotientUpdateR3)^[2 * p - 1] (RecipState.init 1 input) = s at houtcome
  obtain ⟨hdelta, hinv⟩ | ⟨hdelta, -⟩ := houtcome
  · rw [if_neg (not_not.mpr hdelta), if_neg (not_not.mpr hdelta)]
    refine bind_eq_of_some (mapM_eq_some_map (g := fun i =>
      head s.f * s.v.getD (p - 1 - i) 0) ?_) rfl
    intro i hi
    have hi' : p - 1 - i < p := by
      rw [List.mem_range] at hi
      omega
    have hmul := abs_mul_le_one hinv.abs_head_le (hinv.abs_getD_le hi')
    exact signed_of_abs_lt (hmul.trans_lt (by decide))
  · rw [if_pos hdelta, if_pos hdelta]
    rfl

/-! ## Results -/

theorem rqRecipChecked_spec (debug : Bool) {a : List Int} (hratio : InSigned 16 ratio)
    (hassert : (recipEnd ratio).1 = 1) (ha : Centred a) :
    ∃ result, rqRecipChecked debug ratio a = some result ∧
      ((∃ out, result = .ok out) ↔ IsUnit (element q (a.map (ratio * ·)))) ∧
      ∀ out, result = .ok out → Centred out ∧
        element q (a.map (ratio * ·)) * element q out = 1 := by
  have hzero : ratio ≠ 0 := by
    rintro rfl
    exact absurd hassert (by decide)
  obtain ⟨hr0, hinverse⟩ := freeze_recipEnd hassert
  have hratioRun := recipChecked_eq debug hratio fun _ => ⟨hzero, hassert⟩
  generalize freeze (recipEnd ratio).2 = r0 at hr0 hinverse hratioRun
  have hne : (r0 : ZMod q) ≠ 0 := left_ne_zero_of_mul_eq_one hinverse
  have hok : ∀ out, rqRecip r0 a = some out → Centred out ∧
      element q (a.map (ratio * ·)) * element q out = 1 := by
    intro out hout
    obtain ⟨hlen, habs, hmul⟩ := rqRecip_eq_some ha.length_eq ha.abs_le hr0 hne hout
    refine ⟨⟨hlen, habs⟩, ?_⟩
    rw [element_map_mul, mul_assoc, mul_comm (element q a), hmul, ← map_mul, mul_comm, hinverse,
      map_one]
  refine ⟨_, rqRecipChecked_eq debug ha hratioRun hr0 hne, ?_, ?_⟩
  · constructor
    · intro hresult
      cases hrun : rqRecip r0 a with
      | none => simp [hrun] at hresult
      | some out => exact IsUnit.of_mul_eq_one _ (hok out hrun).2
    · intro hunit
      rw [element_map_mul] at hunit
      obtain ⟨out, hrun⟩ := Option.isSome_iff_exists.mp
        (rqRecip_isSome ha.length_eq ha.abs_le hr0 hne (isUnit_of_mul_isUnit_right hunit))
      exact ⟨out, by rw [hrun]; rfl⟩
  · intro out hout
    cases hrun : rqRecip r0 a with
    | none => simp [hrun] at hout
    | some out' =>
      obtain rfl : out' = out := by simpa [hrun] using hout
      exact hok out' hrun

theorem r3RecipChecked_spec {b : List Int} (hb : Ternary b) :
    ∃ result, r3RecipChecked b = some result ∧
      ((∃ out, result = .ok out) ↔ IsUnit (element 3 b)) ∧
      ∀ out, result = .ok out → Ternary out ∧ element 3 b * element 3 out = 1 := by
  refine ⟨_, r3RecipChecked_eq hb, ?_, ?_⟩
  · constructor
    · intro hresult
      cases hrun : r3Recip b with
      | none => simp [hrun] at hresult
      | some out =>
        have hmul := (r3Recip_eq_some hb hrun).2
        rw [mul_comm] at hmul
        exact IsUnit.of_mul_eq_one _ hmul
    · intro hunit
      obtain ⟨out, hrun⟩ := Option.isSome_iff_exists.mp (r3Recip_isSome hb hunit)
      exact ⟨out, by rw [hrun]; rfl⟩
  · intro out hout
    cases hrun : r3Recip b with
    | none => simp [hrun] at hout
    | some out' =>
      obtain rfl : out' = out := by simpa [hrun] using hout
      obtain ⟨hternary, hmul⟩ := r3Recip_eq_some hb hrun
      rw [mul_comm] at hmul
      exact ⟨hternary, hmul⟩

/-- The two inversions return an inverse exactly where there is one, and never panic. -/
theorem recip_correct (debug : Bool) {ratio : Int} {a b : List Int} (hratio : InSigned 16 ratio)
    (hassert : (recipEnd ratio).1 = 1) (ha : Centred a) (hb : Ternary b) :
    (∃ result, rqRecipChecked debug ratio a = some result ∧
      ((∃ out, result = .ok out) ↔ IsUnit (element q (a.map (ratio * ·)))) ∧
      ∀ out, result = .ok out → Centred out ∧
        element q (a.map (ratio * ·)) * element q out = 1) ∧
    ∃ result, r3RecipChecked b = some result ∧
      ((∃ out, result = .ok out) ↔ IsUnit (element 3 b)) ∧
      ∀ out, result = .ok out → Ternary out ∧ element 3 b * element 3 out = 1 :=
  ⟨rqRecipChecked_spec debug hratio hassert ha, r3RecipChecked_spec hb⟩

/-- The polynomial `1`. -/
def onePoly : List Int := 1 :: List.replicate (p - 1) 0

theorem element_onePoly (n : Nat) : element n onePoly = 1 := by
  rw [element, residue, onePoly, List.map_cons, List.map_replicate, map_zero, ofCoeffs_cons,
    ofCoeffs_replicate_zero, mul_zero, add_zero, map_one, map_one, map_one]

theorem ternary_onePoly : Ternary onePoly where
  length_eq := by
    rw [onePoly, List.length_cons, List.length_replicate]
    rfl
  abs_le := by
    intro c hc
    obtain rfl | hc := List.mem_cons.mp hc
    · exact le_of_eq abs_one
    · rw [List.eq_of_mem_replicate hc]
      decide

theorem centred_onePoly : Centred onePoly :=
  ⟨ternary_onePoly.length_eq, fun c hc => (ternary_onePoly.abs_le c hc).trans (by decide)⟩

/-- The inversions of `1`, with the ratio of the keys. -/
theorem recip_correct_onePoly :
    (∃ result, rqRecipChecked false 3 onePoly = some result ∧
      ((∃ out, result = .ok out) ↔ IsUnit (element q (onePoly.map (3 * ·)))) ∧
      ∀ out, result = .ok out → Centred out ∧
        element q (onePoly.map (3 * ·)) * element q out = 1) ∧
    ∃ result, r3RecipChecked onePoly = some result ∧
      ((∃ out, result = .ok out) ↔ IsUnit (element 3 onePoly)) ∧
      ∀ out, result = .ok out → Ternary out ∧ element 3 onePoly * element 3 out = 1 :=
  recip_correct false (by decide) (by decide) centred_onePoly ternary_onePoly

/-- A ratio that is no unit: without debug assertions, `1` is still inverted. -/
theorem rqRecip_ratio_q : (∃ out, rqRecipChecked false q onePoly = some (.ok out)) ∧
    ¬IsUnit (element q (onePoly.map (q * ·))) := by
  have hratio : recipChecked false q = some 1 := by
    rw [recipChecked_eq false (by decide) (by simp)]
    decide
  constructor
  · have hunit : IsUnit (element q onePoly) := by
      rw [element_onePoly]
      exact isUnit_one
    have hone : ((1 : Int) : ZMod q) ≠ 0 := by decide
    obtain ⟨out, hrun⟩ := Option.isSome_iff_exists.mp (rqRecip_isSome centred_onePoly.length_eq
      centred_onePoly.abs_le (by decide) hone hunit)
    refine ⟨out, ?_⟩
    rw [rqRecipChecked_eq false centred_onePoly hratio (by decide) hone, hrun]
    rfl
  · rw [element_map_mul, Int.cast_natCast, ZMod.natCast_self, map_zero, zero_mul]
    have hnontrivial : Nontrivial (AdjoinRoot (trinomial (ZMod q) p)) := by
      apply AdjoinRoot.nontrivial
      rw [degree_trinomial two_le_p]
      exact_mod_cast (show p ≠ 0 by decide)
    exact not_isUnit_zero

end Trelis.Sntrup
