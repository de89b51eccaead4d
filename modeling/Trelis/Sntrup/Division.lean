import Mathlib.Data.Int.ModEq
import Trelis.Lib.Transition
import Trelis.Sntrup.CheckedReciprocal
import Trelis.Sntrup.Multiplications

/-!
# Constant-time reductions

`divmod_u14` and `freeze` over everything that they are called with.

`divmod_u14` counts its quotient up before the last correction takes the one off
again, so that a quotient that fills the word panics.  `freeze` panics only when
`Q12` cannot be added (`freezeExact_iff`).  Its arguments are those of `FreezeCall`,
one constructor for each function that calls it.  The coefficients are any values of
their type there, balanced or not: a round of `Rq::recip` combines two arrays of which
at least one has been frozen (`PartlyFrozen`).
-/

namespace Trelis.Sntrup

/-! ## Representatives -/

/-- `r` represents `x` in the centred range. -/
structure CentredResidue (x r : Int) : Prop where
  abs_le : |r| ≤ 2295
  modEq : r ≡ x [ZMOD q]

theorem centredResidue_bmod (x : Int) : CentredResidue x (x.bmod q) :=
  ⟨abs_bmod_q_le x, Int.bmod_emod⟩

/-- There is only one representative. -/
theorem CentredResidue.eq {x r s : Int} (hr : CentredResidue x r) (hs : CentredResidue x s) :
    r = s := by
  apply eq_of_cast_q_eq hr.abs_le hs.abs_le
  exact (ZMod.intCast_eq_intCast_iff r s q).mpr (hr.modEq.trans hs.modEq.symm)

/-- `freeze` returns the only representative of its argument. -/
def FreezeExact (x : Int) : Prop :=
  ∃ r, freezeChecked x = some r ∧ CentredResidue x r ∧ ∀ s, CentredResidue x s → s = r

theorem freezeExact_iff {x : Int} : FreezeExact x ↔ InSigned 32 (x + q12) := by
  constructor
  · rintro ⟨r, hrun, -⟩
    exact (freezeChecked_eq_some.mp hrun).1
  · intro hsum
    exact ⟨_, freezeChecked_of_inSigned hsum, centredResidue_bmod x,
      fun s hs => hs.eq (centredResidue_bmod x)⟩

/-- A reduction that returns is exact. -/
theorem freezeExact_of_eq_some {x r : Int} (h : freezeChecked x = some r) : FreezeExact x :=
  freezeExact_iff.mpr (freezeChecked_eq_some.mp h).1

theorem freezeExact_of_abs_le {x : Int} (h : |x| ≤ 2 ^ 30) : FreezeExact x :=
  freezeExact_iff.mpr (inSigned_add_q12 h)

/-- Whatever is reduced, the result is small. -/
theorem abs_freezeChecked_le {x r : Int} (h : freezeChecked x = some r) : |r| ≤ 2295 := by
  rw [(freezeChecked_eq_some.mp h).2]
  exact abs_bmod_q_le x

/-! ## Inversion of a field element -/

/-- The start of the loop of `recip_ct`. -/
def RecipCtStart (a : Int) (s : Int × Int) : Prop :=
  ∃ aPos, signed 32 (a + if a < 0 then (q : Int) else 0) = some aPos ∧ s = (1, aPos)

/-- The values `result` and `base` that the rounds of `recip_ct` pass through. -/
def RecipCtReached (a : Int) : Int × Int → Prop :=
  Reachable (RecipCtStart a) fun s t => ∃ bit, recipCtRoundChecked bit s = some t

/-- The product is frozen before it is multiplied, and the base before the second round. -/
structure RecipCtInv (s : Int × Int) : Prop where
  result : |s.1| ≤ 2295
  base : |s.2| ≤ 2 ^ 15

theorem RecipCtInv.start {a : Int} {s : Int × Int} (ha : InSigned 16 a) (h : RecipCtStart a s) :
    RecipCtInv s := by
  obtain ⟨aPos, hpos, rfl⟩ := h
  obtain ⟨hlo, hhi⟩ := ha
  rw [(signed_eq_some.mp hpos).2]
  refine ⟨by rw [abs_one]; decide, ?_⟩
  rw [abs_le, show (q : Int) = 4591 from rfl]
  split
  · omega
  · omega

theorem RecipCtInv.round {bit : Nat} {s t : Int × Int} (h : recipCtRoundChecked bit s = some t) :
    RecipCtInv t := by
  simp only [recipCtRoundChecked, bind, pure, Option.bind_eq_some_iff, Option.some.injEq] at h
  obtain ⟨_, _, prod, hprod, same, hsame, _, _, base, hbase, rfl⟩ := h
  refine ⟨?_, (abs_freezeChecked_le hbase).trans (by decide)⟩
  show |if bit = 1 then prod else same| ≤ 2295
  split
  · exact abs_freezeChecked_le hprod
  · exact abs_freezeChecked_le hsame

theorem RecipCtReached.inv {a : Int} {s : Int × Int} (ha : InSigned 16 a)
    (h : RecipCtReached a s) : RecipCtInv s := by
  refine h.invariant (fun s hs => .start ha hs) ?_
  rintro s t - ⟨bit, hround⟩
  exact .round hround

theorem abs_mul_le_mul {x y A B : Int} (hx : |x| ≤ A) (hy : |y| ≤ B) : |x * y| ≤ A * B := by
  rw [abs_mul]
  exact mul_le_mul hx hy (abs_nonneg y) ((abs_nonneg x).trans hx)

/-- The three reductions of a round. -/
theorem RecipCtInv.freezeExact {s : Int × Int} (h : RecipCtInv s) :
    FreezeExact (s.1 * s.2) ∧ FreezeExact s.1 ∧ FreezeExact (s.2 * s.2) :=
  ⟨freezeExact_of_abs_le ((abs_mul_le_mul h.result h.base).trans (by decide)),
    freezeExact_of_abs_le (h.result.trans (by decide)),
    freezeExact_of_abs_le ((abs_mul_le_mul h.base h.base).trans (by decide))⟩

theorem abs_recipCtChecked_le {debug : Bool} {a r : Int} (h : recipCtChecked debug a = some r) :
    |r| ≤ 2295 := by
  simp only [recipCtChecked, bind, pure, Option.bind_eq_some_iff, Option.some.injEq] at h
  obtain ⟨_, _, _, _, _, _, _, _, prod, hprod, _, _, rfl⟩ := h
  exact abs_freezeChecked_le hprod

theorem abs_recipChecked_le {debug : Bool} {a r : Int} (h : recipChecked debug a = some r) :
    |r| ≤ 2295 := by
  simp only [recipChecked, bind, Option.bind_eq_some_iff] at h
  obtain ⟨_, _, _, _, _, _, _, _, hfreeze⟩ := h
  exact abs_freezeChecked_le hfreeze

/-! ## Inversion of a polynomial -/

/-- The arrays of a round after the shift and the swap. -/
def RecipState.swapped (s : RecipState) : RecipState :=
  let swap : Bool := -s.delta < 0 ∧ head s.g ≠ 0
  { s with
    f := if swap then s.g else s.f
    g := if swap then s.f else s.g
    v := if swap then s.r else shiftRight s.v
    r := if swap then shiftRight s.v else s.r }

/-- The arguments of `freeze` in a round, from the arrays after the swap. -/
def quotientArguments (u : RecipState) : List Int :=
  (List.zip u.g u.f ++ List.zip u.r u.v).map fun c => head u.f * c.1 - head u.g * c.2

/-- The states that the main loop of `Rq::recip::<RATIO>` passes through. -/
def RqRecipReached (ratio : Int) (input : List Int) : RecipState → Prop :=
  Reachable (fun s => ∃ debug r0, recipChecked debug ratio = some r0 ∧ s = RecipState.init r0 input)
    fun s t => recipRoundChecked quotientUpdateChecked s = some t

/-- What a round that returns has computed, from the arrays after the swap. -/
theorem recipRoundChecked_eq_some {quot : Int → Int → Int → Int → Option Int} {s t : RecipState}
    (h : recipRoundChecked quot s = some t) :
    ∃ g, ((List.zip s.swapped.g s.swapped.f).mapM fun c =>
        quot (head s.swapped.f) (head s.swapped.g) c.1 c.2) = some g ∧
      ((List.zip s.swapped.r s.swapped.v).mapM fun c =>
        quot (head s.swapped.f) (head s.swapped.g) c.1 c.2) = some t.r ∧
      t.f = s.swapped.f ∧ t.g = shiftLeft g ∧ t.v = s.swapped.v := by
  simp only [recipRoundChecked, bind, pure, Option.bind_eq_some_iff, Option.some.injEq] at h
  obtain ⟨negDelta, hneg, delta, _, g, hg, r, hr, rfl⟩ := h
  obtain rfl := (signed_eq_some.mp hneg).2
  exact ⟨g, hg, hr, rfl, rfl, rfl⟩

/-- A row that has been combined is frozen. -/
theorem abs_quotientUpdateChecked_le {f0 g0 : Int} {xs : List (Int × Int)} {ys : List Int}
    (h : (xs.mapM fun c => quotientUpdateChecked f0 g0 c.1 c.2) = some ys) :
    ∀ y ∈ ys, |y| ≤ 2295 := by
  intro y hy
  have hmem : some y ∈ xs.map fun c => quotientUpdateChecked f0 g0 c.1 c.2 := by
    rw [mapM_eq_some.mp h]
    exact List.mem_map_of_mem hy
  obtain ⟨c, _, hc⟩ := List.mem_map.mp hmem
  simp only [quotientUpdateChecked, bind, Option.bind_eq_some_iff] at hc
  obtain ⟨_, _, _, _, _, _, hfreeze⟩ := hc
  exact abs_freezeChecked_le hfreeze

/-- Of the arrays `f` and `g` one at least has been frozen, and `v` and `r` have. -/
structure PartlyFrozen (s : RecipState) : Prop where
  fg : (∀ c ∈ s.f, |c| ≤ 2295) ∧ (∀ c ∈ s.g, |c| ≤ 2 ^ 15) ∨
    (∀ c ∈ s.f, |c| ≤ 2 ^ 15) ∧ ∀ c ∈ s.g, |c| ≤ 2295
  v : ∀ c ∈ s.v, |c| ≤ 2295
  r : ∀ c ∈ s.r, |c| ≤ 2295

section Invariant

variable {s t u : RecipState} {ratio : Int} {input : List Int}

theorem PartlyFrozen.swapped (h : PartlyFrozen s) : PartlyFrozen s.swapped := by
  have hshift := abs_shiftRight_le (by decide) h.v
  unfold RecipState.swapped
  cases decide (-s.delta < 0 ∧ head s.g ≠ 0) with
  | false => exact ⟨h.fg, hshift, h.r⟩
  | true => exact ⟨h.fg.symm.imp And.symm And.symm, h.r, hshift⟩

theorem abs_le_word {l : List Int} (h : ∀ c ∈ l, |c| ≤ 2295) : ∀ c ∈ l, |c| ≤ 2 ^ 15 :=
  fun c hc => (h c hc).trans (by decide)

theorem PartlyFrozen.round (h : PartlyFrozen s)
    (hround : recipRoundChecked quotientUpdateChecked s = some t) : PartlyFrozen t := by
  obtain ⟨g, hg, hr, hf, htg, hv⟩ := recipRoundChecked_eq_some hround
  have hu := h.swapped
  refine ⟨.inr ⟨?_, ?_⟩, ?_, abs_quotientUpdateChecked_le hr⟩
  · rw [hf]
    exact hu.fg.elim (fun h => abs_le_word h.1) fun h => h.1
  · rw [htg]
    exact abs_shiftLeft_le (by decide) (abs_quotientUpdateChecked_le hg)
  · rw [hv]
    exact hu.v

theorem PartlyFrozen.init {r0 : Int} (hinput : AllSigned 16 input) (hr0 : |r0| ≤ 2295) :
    PartlyFrozen (RecipState.init r0 input) where
  fg := by
    refine .inl ⟨(denotes_init_f (n := q) (by decide)).abs_le, ?_⟩
    intro c hc
    obtain hc | hc := List.mem_append.mp hc
    · exact abs_le_of_inSigned (hinput c (List.mem_reverse.mp hc))
    · rw [List.mem_singleton.mp hc, abs_zero]
      decide
  v := (denotes_zero (n := q) (by decide)).abs_le
  r := (denotes_const (n := q) (by decide) hr0).abs_le

theorem RqRecipReached.partlyFrozen (hinput : AllSigned 16 input)
    (h : RqRecipReached ratio input s) : PartlyFrozen s := by
  refine h.invariant ?_ fun s t hs hround => hs.round hround
  rintro s ⟨debug, r0, hrun, rfl⟩
  exact .init hinput (abs_recipChecked_le hrun)

theorem abs_combination_le {f0 g0 out fv A B C D : Int} (hf0 : |f0| ≤ A) (hout : |out| ≤ B)
    (hg0 : |g0| ≤ C) (hfv : |fv| ≤ D) (hfirst : A * B ≤ 2 ^ 29) (hsecond : C * D ≤ 2 ^ 29) :
    |f0 * out - g0 * fv| ≤ 2 ^ 30 :=
  calc |f0 * out - g0 * fv| ≤ |f0 * out| + |g0 * fv| := abs_sub _ _
    _ ≤ A * B + C * D := add_le_add (abs_mul_le_mul hf0 hout) (abs_mul_le_mul hg0 hfv)
    _ ≤ 2 ^ 30 := by omega

/-- The arguments of a round are small.  In the first row each product has one factor of `f`
and one of `g`, and in the second one a factor of `r` or `v`. -/
theorem PartlyFrozen.abs_quotientArguments_le (h : PartlyFrozen u) :
    ∀ x ∈ quotientArguments u, |x| ≤ 2 ^ 30 := by
  intro x hx
  obtain ⟨c, hc, rfl⟩ := List.mem_map.mp hx
  obtain hc | hc := List.mem_append.mp hc
  · obtain ⟨hout, hfv⟩ := List.of_mem_zip hc
    obtain ⟨hf, hg⟩ | ⟨hf, hg⟩ := h.fg
    · exact abs_combination_le (abs_head_le (by decide) hf) (hg _ hout)
        (abs_head_le (by decide) hg) (hf _ hfv) (by decide) (by decide)
    · exact abs_combination_le (abs_head_le (by decide) hf) (hg _ hout)
        (abs_head_le (by decide) hg) (hf _ hfv) (by decide) (by decide)
  · obtain ⟨hout, hfv⟩ := List.of_mem_zip hc
    have hf : |head u.f| ≤ 2 ^ 15 :=
      h.fg.elim (fun h => abs_head_le (by decide) (abs_le_word h.1))
        fun h => abs_head_le (by decide) h.1
    have hg : |head u.g| ≤ 2 ^ 15 :=
      h.fg.elim (fun h => abs_head_le (by decide) h.2)
        fun h => abs_head_le (by decide) (abs_le_word h.2)
    exact abs_combination_le hf (h.r _ hout) hg (h.v _ hfv) (by decide) (by decide)

theorem PartlyFrozen.abs_getD_le (h : PartlyFrozen s) (i : Nat) : |s.v.getD i 0| ≤ 2295 := by
  by_cases hi : i < s.v.length
  · rw [List.getD_eq_getElem _ _ hi]
    exact h.v _ (List.getElem_mem hi)
  · rw [List.getD_eq_default _ _ (Nat.le_of_not_lt hi), abs_zero]
    decide

end Invariant

/-! ## The calls -/

/-- The arguments that `freeze` is called with.  A coefficient of `Rq` is any value of an
`i16`, and only the second factor of `mult_r3` is known to be small. -/
inductive FreezeCall : Int → Prop
  /-- `recip`. -/
  | recip {a aPos : Int} {last : Int × Int} (ha : InSigned 16 a)
      (hpos : aPositionChecked a = some aPos)
      (hloop : euclidChecked 32 (aPos.natAbs + 1) q aPos 0 1 = some last) : FreezeCall last.2
  /-- `recip_ct`, for the product, the unchanged value and the square. -/
  | recipCt {a x : Int} {s : Int × Int} (ha : InSigned 16 a) (hs : RecipCtReached a s)
      (hx : x ∈ [s.1 * s.2, s.1, s.2 * s.2]) : FreezeCall x
  /-- `quotient_update`, in the rounds of `Rq::recip`. -/
  | quotientUpdate {ratio x : Int} {input : List Int} {s : RecipState}
      (hinput : AllSigned 16 input) (hs : RqRecipReached ratio input s)
      (hx : x ∈ quotientArguments s.swapped) : FreezeCall x
  /-- The scaling at the end of `Rq::recip`. -/
  | scale {debug : Bool} {ratio scale : Int} {input : List Int} {s : RecipState} {i : Nat}
      (hinput : AllSigned 16 input) (hs : RqRecipReached ratio input s)
      (hscale : recipCtChecked debug (head s.f) = some scale) :
      FreezeCall (scale * s.v.getD (p - 1 - i) 0)
  /-- `Rq::mult_r3`. -/
  | multR3 {f g fg folded : List Int} {x : Int} (hlen : f.length = p) (hf : AllSigned 16 f)
      (hg : Ternary g)
      (hconvolution : convolutionRows f 0 g (List.replicate (2 * p - 1) 0) = some fg)
      (hfold : foldHigh fg = some folded) (hx : x ∈ folded.take p) : FreezeCall x
  /-- `Rq::mult_int`. -/
  | multInt {c n : Int} (hc : InSigned 16 c) (hn : InSigned 16 n) : FreezeCall (c * n)
  /-- `R3::rq_from_r3`. -/
  | rqFromR3 {c : Int} (hc : InSigned 8 c) : FreezeCall c

/-- No call panics, and each of them is exact. -/
theorem FreezeCall.exact {x : Int} (h : FreezeCall x) : FreezeExact x := by
  cases h with
  | @recip a aPos last ha hpos hloop =>
    -- Without the assertions the whole function returns.
    have hrun := recipChecked_eq false ha fun h => absurd h Bool.false_ne_true
    simp only [recipChecked, debugAssertion, bind, Option.bind_some, hpos, hloop] at hrun
    exact freezeExact_of_eq_some hrun
  | @recipCt a x s ha hs hx =>
    obtain ⟨hproduct, hsame, hsquare⟩ := (hs.inv ha).freezeExact
    simp only [List.mem_cons, List.not_mem_nil, or_false] at hx
    obtain rfl | rfl | rfl := hx
    · exact hproduct
    · exact hsame
    · exact hsquare
  | quotientUpdate hinput hs hx =>
    exact freezeExact_of_abs_le ((hs.partlyFrozen hinput).swapped.abs_quotientArguments_le _ hx)
  | @scale debug ratio scale input s i hinput hs hscale =>
    have hentry := (hs.partlyFrozen hinput).abs_getD_le (p - 1 - i)
    have hmul := abs_mul_le_mul (abs_recipCtChecked_le hscale) hentry
    exact freezeExact_of_abs_le (hmul.trans (by decide))
  | @multR3 f g fg folded x hlen hf hg hconvolution hfold hx =>
    have hsmall : ∀ c ∈ f, |c| ≤ 2 ^ 15 := fun c hc => abs_le_of_inSigned (hf c hc)
    have hrun := multR3Checked_eq hsmall hg.abs_le (by decide) (by decide) hlen hg.length_eq
      (by decide)
    rw [multR3Checked, hconvolution, Option.bind_eq_bind, Option.bind_some, hfold, Option.bind_some,
      mapM_eq_some] at hrun
    have hmem := List.mem_map_of_mem (f := freezeChecked) hx
    rw [hrun] at hmem
    obtain ⟨r, _, hr⟩ := List.mem_map.mp hmem
    exact freezeExact_of_eq_some hr.symm
  | multInt hc hn =>
    exact freezeExact_of_abs_le (abs_mul_le_mul (abs_le_of_inSigned hc) (abs_le_of_inSigned hn))
  | rqFromR3 hc => exact freezeExact_of_abs_le ((abs_le_of_inSigned hc).trans (by decide))

/-! ## The result -/

/-- `divmod_u14` returns quotient and remainder, unless the quotient fills the word. -/
theorem divmodU14Checked_eq_some {x m : Nat} (hx : x < 2 ^ 32) (hm : 1 ≤ m) (hm14 : m < 2 ^ 14) :
    divmodU14Checked x m = some (x / m, x % m) ↔ ¬(x = 2 ^ 32 - 1 ∧ m = 1) := by
  constructor
  · rintro hrun ⟨rfl, rfl⟩
    exact absurd hrun (by decide)
  · intro hnot
    have hfits : x / m + 1 < 2 ^ 32 := by
      obtain rfl | hm1 : m = 1 ∨ 1 < m := by omega
      · rw [Nat.div_one]
        omega
      · have hhalf : x / m ≤ x / 2 := Nat.div_le_div_left hm1 two_pos
        omega
    rw [divmodU14Checked_eq_of_fits hx hm hm14 hfits, divmodU14_eq_of_fits hx hm hm14 hfits]

/-- The reductions are exact, except for one division. -/
theorem reductions_exact_iff {x m : Nat} (hx : x < 2 ^ 32) (hm : 1 ≤ m) (hm14 : m < 2 ^ 14) :
    (divmodU14Checked x m = some (x / m, x % m) ∧ ∀ y, FreezeCall y → FreezeExact y) ↔
      ¬(x = 2 ^ 32 - 1 ∧ m = 1) := by
  rw [divmodU14Checked_eq_some hx hm hm14]
  exact and_iff_left fun _ => FreezeCall.exact

/-- Where the increment overflows. -/
theorem divmodU14_largest :
    divmodU14Checked 4294967295 1 = none ∧ (4294967295 / 1, 4294967295 % 1) = (4294967295, 0) := by
  decide

/-- The largest dividend of a public key's coefficients, and the largest product of two
balanced ones. -/
theorem reductions_exact_iff_sample :
    divmodU14Checked 4294967295 4591 = some (935518, 4157) ∧ FreezeCall (2295 * 2295) ∧
      FreezeExact (2295 * 2295) := by
  have hcall : FreezeCall (2295 * 2295) := .multInt (by decide) (by decide)
  obtain ⟨hdivmod, hfreeze⟩ := (reductions_exact_iff (x := 4294967295) (m := 4591) (by decide)
    (by decide) (by decide)).mpr (by decide)
  exact ⟨hdivmod, hcall, hfreeze _ hcall⟩

end Trelis.Sntrup
