import Mathlib.Algebra.Polynomial.Eval.Degree
import Mathlib.Algebra.Order.BigOperators.Group.Finset
import Trelis.Lib.CoeffList
import Trelis.Lib.Panic

/-!
# Signed words with overflow checks

Arithmetic on a signed type of `w` bits returns the exact integer or panics.
`signed w` is that check, and the loops of `CoeffList` that accumulate
coefficients are written over it.

A loop of checked additions returns what the loop over all integers returns, and
does so exactly when the values that it leaves fit (`addRow_eq_some`,
`schoolbookRowsChecked_eq_some`).  Of a coefficient list this is a property of its
polynomial, `FitsSigned`, so that whether a computation overflows is a question
about the polynomials that it computes.
-/

namespace Trelis

open Polynomial

variable {w : Nat}

/-! ## Single values -/

/-- The values of a signed type of `w` bits. -/
def InSigned (w : Nat) (x : Int) : Prop := -2 ^ (w - 1) ≤ x ∧ x < 2 ^ (w - 1)

instance (w : Nat) (x : Int) : Decidable (InSigned w x) :=
  inferInstanceAs (Decidable (_ ∧ _))

/-- The result of an operation on a signed type, unless it overflows. -/
def signed (w : Nat) (x : Int) : Option Int := if InSigned w x then some x else none

theorem signed_eq_some {x y : Int} : signed w x = some y ↔ InSigned w x ∧ y = x := by
  unfold signed
  split <;> simp [*, eq_comm]

theorem signed_of_inSigned {x : Int} (h : InSigned w x) : signed w x = some x := if_pos h

theorem inSigned_zero : InSigned w 0 := by
  have hpos : (0 : Int) < 2 ^ (w - 1) := by positivity
  exact ⟨by omega, hpos⟩

theorem inSigned_of_abs_lt {x : Int} (h : |x| < 2 ^ (w - 1)) : InSigned w x := by
  obtain ⟨hlo, hhi⟩ := abs_lt.mp h
  exact ⟨hlo.le, hhi⟩

theorem abs_le_of_inSigned {x : Int} (h : InSigned w x) : |x| ≤ 2 ^ (w - 1) :=
  abs_le.mpr ⟨h.1, h.2.le⟩

/-! ## Lists of values -/

/-- Every entry fits. -/
def AllSigned (w : Nat) (xs : List Int) : Prop := ∀ x ∈ xs, InSigned w x

theorem allSigned_replicate_zero (n : Nat) : AllSigned w (List.replicate n 0) := by
  intro x hx
  rw [List.eq_of_mem_replicate hx]
  exact inSigned_zero

/-- A traversal that checks every result. -/
theorem mapM_signed_eq_some {α : Type} {f : α → Int} {xs : List α} {ys : List Int} :
    xs.mapM (fun x => signed w (f x)) = some ys ↔ AllSigned w (xs.map f) ∧ ys = xs.map f := by
  induction xs generalizing ys with
  | nil => simp [AllSigned, eq_comm]
  | cons x xs ih =>
    rw [List.mapM_cons]
    simp only [bind, pure, Option.bind_eq_some_iff, Option.some.injEq, ih, signed_eq_some,
      AllSigned, List.map_cons, List.forall_mem_cons]
    constructor
    · rintro ⟨_, ⟨hx, rfl⟩, _, ⟨hxs, rfl⟩, rfl⟩
      exact ⟨⟨hx, hxs⟩, rfl⟩
    · rintro ⟨⟨hx, hxs⟩, rfl⟩
      exact ⟨_, ⟨hx, rfl⟩, _, ⟨hxs, rfl⟩, rfl⟩

/-- Every coefficient fits. -/
def FitsSigned (w : Nat) (f : Int[X]) : Prop := ∀ k, InSigned w (f.coeff k)

theorem allSigned_iff {xs : List Int} : AllSigned w xs ↔ FitsSigned w (ofCoeffs xs) := by
  constructor
  · intro h k
    rw [coeff_ofCoeffs]
    by_cases hk : k < xs.length
    · rw [List.getD_eq_getElem _ _ hk]
      exact h _ (List.getElem_mem hk)
    · rw [List.getD_eq_default _ _ (Nat.le_of_not_lt hk)]
      exact inSigned_zero
  · intro h x hx
    obtain ⟨k, hk, rfl⟩ := List.getElem_of_mem hx
    have hcoeff := h k
    rwa [coeff_ofCoeffs, List.getD_eq_getElem _ _ hk] at hcoeff

/-! ## Adding to an array -/

/-- `result[i] = f(result[i])`. -/
def updateAt (w : Nat) (f : Int → Int) (i : Nat) (result : List Int) : Option (List Int) := do
  let x ← result[i]?
  let y ← signed w (f x)
  pure (result.set i y)

/-- `result[i] += v`. -/
def addAt (w i : Nat) (v : Int) : List Int → Option (List Int) := updateAt w (· + v) i

/-- `result[i] -= v`. -/
def subAt (w i : Nat) (v : Int) : List Int → Option (List Int) := updateAt w (· - v) i

/-- `if i < result.len() { .. }`. -/
def guarded {α : Type} (add : Nat → α → List Int → Option (List Int)) (i : Nat) (v : α)
    (result : List Int) : Option (List Int) :=
  if i < result.length then add i v result else some result

/-- The loop over `vs` that calls `add` with the places from `off` on. -/
def addRow {α : Type} (add : Nat → α → List Int → Option (List Int)) :
    Nat → List α → List Int → Option (List Int)
  | _, [], result => some result
  | off, v :: vs, result => do
    let result ← add off v result
    addRow add (off + 1) vs result

/-- `add` adds `g v` at a place of the array, where the values that it computes on
the way fit exactly when `ok v` holds. -/
def AddsAt {α : Type} (w : Nat) (ok : α → Prop) (g : α → Int)
    (add : Nat → α → List Int → Option (List Int)) : Prop :=
  ∀ i v result r, i < result.length → (add i v result = some r ↔
    ok v ∧ InSigned w (result.getD i 0 + g v) ∧ r = result.modify i (· + g v))

theorem set_eq_modify {xs : List Int} {i : Nat} (h : i < xs.length) (v : Int) :
    xs.set i (xs.getD i 0 + v) = xs.modify i (· + v) := by
  rw [List.modify_eq_set_getElem?, List.getElem?_eq_getElem h, List.getD_eq_getElem _ _ h]
  rfl

theorem updateAt_eq_some {f : Int → Int} {i : Nat} {result r : List Int}
    (hi : i < result.length) : updateAt w f i result = some r ↔
      InSigned w (f (result.getD i 0)) ∧ r = result.set i (f (result.getD i 0)) := by
  rw [updateAt, List.getElem?_eq_getElem hi]
  simp only [bind, pure, Option.bind_some, Option.bind_eq_some_iff, signed_eq_some,
    Option.some.injEq, List.getD_eq_getElem _ _ hi]
  constructor
  · rintro ⟨_, ⟨hfit, rfl⟩, rfl⟩
    exact ⟨hfit, rfl⟩
  · rintro ⟨hfit, rfl⟩
    exact ⟨_, ⟨hfit, rfl⟩, rfl⟩

theorem addsAt_addAt : AddsAt w (fun _ => True) id (addAt w) := by
  intro i v result r hi
  rw [addAt, updateAt_eq_some hi, set_eq_modify hi, true_and]
  rfl

theorem addAt_of_inSigned {i : Nat} {v : Int} {xs : List Int} (hi : i < xs.length)
    (h : InSigned w (xs.getD i 0 + v)) : addAt w i v xs = some (xs.modify i (· + v)) :=
  (addsAt_addAt i v xs _ hi).mpr ⟨trivial, h, rfl⟩

theorem addsAt_subAt : AddsAt w (fun _ => True) (- ·) (subAt w) := by
  intro i v result r hi
  rw [subAt, updateAt_eq_some hi, sub_eq_add_neg, set_eq_modify hi, true_and]

theorem AddsAt.guarded {α : Type} {ok : α → Prop} {g : α → Int}
    {add : Nat → α → List Int → Option (List Int)} (hadd : AddsAt w ok g add) :
    AddsAt w ok g (guarded add) := by
  intro i v result r hi
  rw [Trelis.guarded, if_pos hi]
  exact hadd i v result r hi

theorem getD_modify_of_ne {i j : Nat} (h : i ≠ j) (f : Int → Int) (xs : List Int) :
    (xs.modify i f).getD j 0 = xs.getD j 0 := by
  rw [List.getD_eq_getElem?_getD, List.getElem?_modify_ne _ _ h, ← List.getD_eq_getElem?_getD]

theorem getD_modify (f : Int → Int) (xs : List Int) (i j : Nat) :
    (xs.modify i f).getD j 0 = if i = j ∧ j < xs.length then f (xs.getD j 0) else xs.getD j 0 := by
  by_cases hij : i = j
  · subst hij
    by_cases hi : i < xs.length
    · rw [if_pos ⟨rfl, hi⟩, List.getD_eq_getElem _ _ (by rwa [List.length_modify]),
        List.getElem_modify_eq, List.getD_eq_getElem _ _ hi]
    · rw [if_neg fun h => hi h.2, List.getD_eq_default _ _ (by rw [List.length_modify]; omega),
        List.getD_eq_default _ _ (by omega)]
  · rw [if_neg fun h => hij h.1, getD_modify_of_ne hij]

/-- What comes later in a row leaves the earlier entries as they are. -/
theorem getD_addShifted_of_lt {i off : Nat} (h : i < off) (vs result : List Int) :
    (addShifted off vs result).getD i 0 = result.getD i 0 := by
  induction vs generalizing off result with
  | nil => rfl
  | cons v vs ih =>
    rw [addShifted, ih (by omega), getD_modify_of_ne (by omega)]

theorem allSigned_modify {xs : List Int} (h : AllSigned w xs) {i : Nat} (hi : i < xs.length)
    {v : Int} : AllSigned w (xs.modify i (· + v)) ↔ InSigned w (xs.getD i 0 + v) := by
  rw [← set_eq_modify hi]
  constructor
  · intro hset
    exact hset _ (List.mem_set hi _)
  · intro hfit x hx
    obtain hx | rfl := List.mem_or_eq_of_mem_set hx
    · exact h x hx
    · exact hfit

/-- A row is added exactly when the array that it leaves fits. -/
theorem addRow_eq_some {α : Type} {ok : α → Prop} {g : α → Int}
    {add : Nat → α → List Int → Option (List Int)} (hadd : AddsAt w ok g add) {off : Nat}
    {vs : List α} {result r : List Int} (hall : AllSigned w result)
    (hlen : off + vs.length ≤ result.length) :
    addRow add off vs result = some r ↔ (∀ v ∈ vs, ok v) ∧
      AllSigned w (addShifted off (vs.map g) result) ∧ r = addShifted off (vs.map g) result := by
  induction vs generalizing off result with
  | nil => simp [addRow, addShifted, hall, eq_comm]
  | cons v vs ih =>
    rw [List.length_cons] at hlen
    have hoff : off < result.length := by omega
    have hnext : off + 1 + vs.length ≤ (result.modify off (· + g v)).length := by
      rw [List.length_modify]
      omega
    rw [addRow, List.map_cons, addShifted, List.forall_mem_cons]
    simp only [bind, Option.bind_eq_some_iff, hadd off v result _ hoff]
    constructor
    · rintro ⟨_, ⟨hok, hfit, rfl⟩, hrest⟩
      obtain ⟨hoks, hfits, rfl⟩ := (ih ((allSigned_modify hall hoff).mpr hfit) hnext).mp hrest
      exact ⟨⟨hok, hoks⟩, hfits, rfl⟩
    · rintro ⟨⟨hok, hoks⟩, hfits, rfl⟩
      -- The entry at `off` is final after its round.
      have hfit : InSigned w (result.getD off 0 + g v) := by
        have hfinal := allSigned_iff.mp hfits off
        rw [coeff_ofCoeffs, getD_addShifted_of_lt (Nat.lt_succ_self off), ← set_eq_modify hoff,
          List.getD_eq_getElem _ _ (by rwa [List.length_set]), List.getElem_set_self] at hfinal
        exact hfinal
      exact ⟨_, ⟨hok, hfit, rfl⟩,
        (ih ((allSigned_modify hall hoff).mpr hfit) hnext).mpr ⟨hoks, hfits, rfl⟩⟩

/-- The same of additions that do not panic by themselves, as polynomials. -/
theorem addRow_eq_some_fits {α : Type} {g : α → Int}
    {add : Nat → α → List Int → Option (List Int)} (hadd : AddsAt w (fun _ => True) g add)
    {off : Nat} {vs : List α} {result r : List Int} {f h : Int[X]} (hfits : FitsSigned w f)
    (hf : ofCoeffs result = f) (hh : ofCoeffs (vs.map g) = h)
    (hlen : off + vs.length ≤ result.length) :
    addRow add off vs result = some r ↔
      FitsSigned w (f + X ^ off * h) ∧ r = addShifted off (vs.map g) result := by
  rw [addRow_eq_some hadd (allSigned_iff.mpr (hf ▸ hfits)) hlen, allSigned_iff,
    ofCoeffs_addShifted (by rwa [List.length_map]), hf, hh]
  simp only [implies_true, true_and]

/-! ## Schoolbook multiplication -/

/-- `result[i] += ai * bj`. -/
def mulAddAt (w : Nat) (ai : Int) (i : Nat) (bj : Int) (result : List Int) :
    Option (List Int) := do
  let y ← signed w (ai * bj)
  addAt w i y result

/-- The rows of a product, with checked operations.  A zero is skipped. -/
def schoolbookRowsChecked (w : Nat) (b : List Int) :
    Nat → List Int → List Int → Option (List Int)
  | _, [], result => some result
  | off, ai :: a, result => do
    let result ← if ai = 0 then some result else addRow (mulAddAt w ai) off b result
    schoolbookRowsChecked w b (off + 1) a result

theorem addsAt_mulAddAt (ai : Int) :
    AddsAt w (fun bj => InSigned w (ai * bj)) (ai * ·) (mulAddAt w ai) := by
  intro i bj result r hi
  simp only [mulAddAt, bind, Option.bind_eq_some_iff, signed_eq_some]
  constructor
  · rintro ⟨_, ⟨hok, rfl⟩, h⟩
    exact ⟨hok, ((addsAt_addAt i (ai * bj) result r hi).mp h).2⟩
  · rintro ⟨hok, h⟩
    exact ⟨_, ⟨hok, rfl⟩, (addsAt_addAt i (ai * bj) result r hi).mpr ⟨trivial, h⟩⟩

/-- The rows are added exactly when the products of the entries fit, and what each
row leaves. -/
theorem schoolbookRowsChecked_eq_some {a b : List Int} {off : Nat} {result r : List Int}
    (hall : AllSigned w result) (hlen : off + a.length + b.length ≤ result.length + 1) :
    schoolbookRowsChecked w b off a result = some r ↔ (∀ x ∈ a, ∀ y ∈ b, InSigned w (x * y)) ∧
      (∀ i, FitsSigned w (ofCoeffs result + X ^ off * (ofCoeffs (a.take i) * ofCoeffs b))) ∧
        r = schoolbookRows b off a result := by
  induction a generalizing off result with
  | nil =>
    have hfits := allSigned_iff.mp hall
    simp [schoolbookRowsChecked, schoolbookRows, hfits, eq_comm]
  | cons ai a ih =>
    rw [List.length_cons] at hlen
    have hfits := allSigned_iff.mp hall
    have hsplit : ∀ i,
        ofCoeffs result + X ^ off * (ofCoeffs ((ai :: a).take (i + 1)) * ofCoeffs b) =
        ofCoeffs result + X ^ off * (C ai * ofCoeffs b) +
          X ^ (off + 1) * (ofCoeffs (a.take i) * ofCoeffs b) := fun i => by
      rw [List.take_succ_cons, ofCoeffs_cons]
      ring
    rw [schoolbookRowsChecked, schoolbookRows, List.forall_mem_cons, ← Nat.and_forall_add_one,
      List.take_zero, ofCoeffs_nil, zero_mul, mul_zero, add_zero]
    simp only [hsplit, hfits, true_and]
    by_cases hai : ai = 0
    · subst hai
      simp only [if_true, bind, Option.bind_some,
        ih hall (show off + 1 + a.length + b.length ≤ _ by omega), zero_mul, inSigned_zero,
        implies_true, true_and, map_zero, mul_zero, add_zero]
    · have hrow : ofCoeffs (addShifted off (b.map (ai * ·)) result) =
          ofCoeffs result + X ^ off * (C ai * ofCoeffs b) := by
        rw [ofCoeffs_addShifted (by rw [List.length_map]; omega), ofCoeffs_map_mul]
      have hnext : off + 1 + a.length + b.length ≤
          (addShifted off (b.map (ai * ·)) result).length + 1 := by
        rw [length_addShifted]
        omega
      simp only [if_neg hai, bind, Option.bind_eq_some_iff,
        addRow_eq_some (addsAt_mulAddAt ai) hall (show off + b.length ≤ _ by omega)]
      constructor
      · rintro ⟨_, ⟨hok, hrowFits, rfl⟩, h⟩
        obtain ⟨hoks, hrest, rfl⟩ := (ih hrowFits hnext).mp h
        exact ⟨⟨hok, hoks⟩, fun i => hrow ▸ hrest i, rfl⟩
      · rintro ⟨⟨hok, hoks⟩, hrest, rfl⟩
        -- What the row leaves is the case of no further row.
        have hrowFits := hrest 0
        rw [List.take_zero, ofCoeffs_nil, zero_mul, mul_zero, add_zero, ← hrow,
          ← allSigned_iff] at hrowFits
        exact ⟨_, ⟨hok, hrowFits, rfl⟩,
          (ih hrowFits hnext).mpr ⟨hoks, fun i => hrow.symm ▸ hrest i, rfl⟩⟩

/-- The products of the entries fit, and so does what each row leaves. -/
def SchoolbookFits (w : Nat) (a b : List Int) : Prop :=
  (∀ x ∈ a, ∀ y ∈ b, InSigned w (x * y)) ∧
    ∀ i, FitsSigned w (ofCoeffs (a.take i) * ofCoeffs b)

theorem schoolbookRowsChecked_replicate {a b r : List Int} {n : Nat}
    (hlen : a.length + b.length ≤ n + 1) :
    schoolbookRowsChecked w b 0 a (List.replicate n 0) = some r ↔
      SchoolbookFits w a b ∧ r = schoolbookRows b 0 a (List.replicate n 0) := by
  rw [schoolbookRowsChecked_eq_some (allSigned_replicate_zero n)
    (by rw [List.length_replicate]; omega), SchoolbookFits, and_assoc]
  simp only [ofCoeffs_replicate_zero, zero_add, pow_zero, one_mul]

/-! ## Bounds on coefficients -/

/-- Every coefficient is at most `B` in absolute value. -/
def CoeffsLe (B : Int) (f : Int[X]) : Prop := ∀ k, |f.coeff k| ≤ B

namespace CoeffsLe

variable {f g : Int[X]} {B B' : Int}

theorem fits (h : CoeffsLe B f) (hB : B < 2 ^ (w - 1)) : FitsSigned w f :=
  fun k => inSigned_of_abs_lt ((h k).trans_lt hB)

theorem mono (h : CoeffsLe B f) (hB : B ≤ B') : CoeffsLe B' f := fun k => (h k).trans hB

theorem add (hf : CoeffsLe B f) (hg : CoeffsLe B' g) : CoeffsLe (B + B') (f + g) := fun k => by
  rw [coeff_add]
  exact (abs_add_le _ _).trans (add_le_add (hf k) (hg k))

theorem neg (hf : CoeffsLe B f) : CoeffsLe B (-f) := fun k => by
  rw [coeff_neg, abs_neg]
  exact hf k

theorem X_pow_mul (hf : CoeffsLe B f) (hB : 0 ≤ B) (n : Nat) : CoeffsLe B (X ^ n * f) := fun k => by
  rw [coeff_X_pow_mul']
  split
  · exact hf _
  · rwa [abs_zero]

/-- Where the second summand starts above the first one, no two coefficients meet. -/
theorem add_X_pow_mul {n : Nat} (hf : CoeffsLe B f) (hg : CoeffsLe B g) (hdeg : f.degree < n) :
    CoeffsLe B (f + X ^ n * g) := fun k => by
  rw [coeff_add, coeff_X_pow_mul']
  split
  · next hk =>
    rw [coeff_eq_zero_of_degree_lt (hdeg.trans_le (by exact_mod_cast hk)), zero_add]
    exact hg _
  · rw [add_zero]
    exact hf k

end CoeffsLe

theorem coeffsLe_ofCoeffs {a : List Int} {A : Int} (ha : ∀ x ∈ a, |x| ≤ A) (hA : 0 ≤ A) :
    CoeffsLe A (ofCoeffs a) := fun k => by
  rw [coeff_ofCoeffs]
  by_cases hk : k < a.length
  · rw [List.getD_eq_getElem _ _ hk]
    exact ha _ (List.getElem_mem hk)
  · rwa [List.getD_eq_default _ _ (Nat.le_of_not_lt hk), abs_zero]

/-- A coefficient of a product is a sum of at most as many products as a factor has
entries. -/
theorem coeffsLe_mul {a b : List Int} {A B : Int} (ha : ∀ x ∈ a, |x| ≤ A)
    (hb : ∀ y ∈ b, |y| ≤ B) (hB : 0 ≤ B) :
    CoeffsLe (a.length * (A * B)) (ofCoeffs a * ofCoeffs b) := by
  induction a with
  | nil => simp [CoeffsLe]
  | cons x a ih =>
    rw [List.forall_mem_cons] at ha
    have hA : 0 ≤ A := (abs_nonneg x).trans ha.1
    have hfirst : CoeffsLe (A * B) (C x * ofCoeffs b) := fun k => by
      rw [coeff_C_mul, abs_mul]
      exact mul_le_mul ha.1 (coeffsLe_ofCoeffs hb hB k) (abs_nonneg _) hA
    have hrest := (ih ha.2).X_pow_mul (by positivity) 1
    have hsplit : ofCoeffs (x :: a) * ofCoeffs b =
        C x * ofCoeffs b + X ^ 1 * (ofCoeffs a * ofCoeffs b) := by
      rw [ofCoeffs_cons]
      ring
    rw [hsplit]
    refine (hfirst.add hrest).mono (le_of_eq ?_)
    rw [List.length_cons]
    push_cast
    ring

/-- Small entries keep a schoolbook product in range. -/
theorem schoolbookFits_of_le {a b : List Int} {A B : Int} (ha : ∀ x ∈ a, |x| ≤ A)
    (hb : ∀ y ∈ b, |y| ≤ B) (hA : 0 ≤ A) (hB : 0 ≤ B) (hone : A * B < 2 ^ (w - 1))
    (hall : a.length * (A * B) < 2 ^ (w - 1)) : SchoolbookFits w a b := by
  constructor
  · intro x hx y hy
    apply inSigned_of_abs_lt
    rw [abs_mul]
    exact (mul_le_mul (ha x hx) (hb y hy) (abs_nonneg y) hA).trans_lt hone
  · intro i
    have htake := coeffsLe_mul (fun x hx => ha x (List.mem_of_mem_take hx)) hb hB (a := a.take i)
    have hlen : ((a.take i).length : Int) * (A * B) ≤ a.length * (A * B) :=
      mul_le_mul_of_nonneg_right (by rw [List.length_take]; omega) (by positivity)
    exact (htake.mono hlen).fits hall

end Trelis
