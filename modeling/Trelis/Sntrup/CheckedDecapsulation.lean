import Trelis.Lib.CheckedRadix
import Trelis.Sntrup.CheckedMult
import Trelis.Sntrup.Kem

/-!
# Decapsulation in machine integers

`decapsulate` and all that it calls, as the machine runs it: every addition,
subtraction and product of a fixed width is checked, every array ends somewhere,
and a match has a branch that must not be reached.

The coefficients of a decoded key are between -1 and 2 and those of a decoded
ciphertext are any `i16`, since the decoders do not look at what they decode.
Each operation is shown to return on the range that its operands can have there,
and `decapsulateChecked_eq` puts the ranges together.
-/

namespace Trelis.Sntrup

/-! ## Small polynomials -/

/-- Two bits of a byte, as a coefficient. -/
def smallCoeffChecked (x shift : Nat) : Option Int :=
  signed 8 (((x / 2 ^ shift % 4 : Nat) : Int) - 1)

/-- `small_decode`.  The string must have a last byte. -/
def smallDecodeChecked : Bytes → Option (List Int)
  | [] => none
  | [x] => do
    let c ← smallCoeffChecked x.toNat 0
    pure [c]
  | x :: bytes => do
    let c0 ← smallCoeffChecked x.toNat 0
    let c1 ← smallCoeffChecked x.toNat 2
    let c2 ← smallCoeffChecked x.toNat 4
    let c3 ← smallCoeffChecked x.toNat 6
    let coeffs ← smallDecodeChecked bytes
    pure (c0 :: c1 :: c2 :: c3 :: coeffs)

/-- `(c + 1) as u8`, on `i8`. -/
def smallDigitChecked (c : Int) : Option Nat := do
  let d ← signed 8 (c + 1)
  pure (d % 256).toNat

/-- `small_encode`. -/
def smallEncodeChecked : List Int → Option Bytes
  | c0 :: c1 :: c2 :: c3 :: coeffs => do
    let x ← smallDigitChecked c0
    let x1 ← smallDigitChecked c1
    let x ← addWord 8 x (x1 * 4 % 256)
    let x2 ← smallDigitChecked c2
    let x ← addWord 8 x (x2 * 16 % 256)
    let x3 ← smallDigitChecked c3
    let x ← addWord 8 x (x3 * 64 % 256)
    let bytes ← smallEncodeChecked coeffs
    pure (UInt8.ofNat x :: bytes)
  | c :: _ => do
    let x ← smallDigitChecked c
    pure [UInt8.ofNat x]
  | [] => none

theorem smallCoeffChecked_eq (x shift : Nat) :
    smallCoeffChecked x shift = some (smallCoeff x shift) := by
  apply signed_of_inSigned
  rw [InSigned]
  omega

theorem smallDecodeChecked_eq {bytes : Bytes} (h : bytes ≠ []) :
    smallDecodeChecked bytes = some (smallDecode bytes) := by
  induction bytes with
  | nil => exact absurd rfl h
  | cons x bytes ih =>
    cases bytes with
    | nil => simp [smallDecodeChecked, smallCoeffChecked_eq, smallDecode]
    | cons y bytes =>
      rw [smallDecodeChecked, smallDecode_cons (List.cons_ne_nil y bytes),
        ih (List.cons_ne_nil y bytes)]
      · simp [smallCoeffChecked_eq]
      · exact List.cons_ne_nil y bytes

theorem abs_smallCoeff_le (x shift : Nat) : |smallCoeff x shift| ≤ 2 := by
  rw [smallCoeff, abs_le]
  omega

theorem abs_smallDecode_le (bytes : Bytes) : ∀ c ∈ smallDecode bytes, |c| ≤ 2 := by
  induction bytes with
  | nil => simp [smallDecode]
  | cons x bytes ih =>
    cases bytes with
    | nil => simp [smallDecode, abs_smallCoeff_le]
    | cons y bytes =>
      rw [smallDecode_cons (List.cons_ne_nil y bytes)]
      simp only [List.forall_mem_cons, abs_smallCoeff_le, true_and]
      exact ih

theorem length_smallDecode_eq {bytes : Bytes} {n : Nat} (h : bytes.length = n + 1) :
    (smallDecode bytes).length = 4 * n + 1 := by
  induction n generalizing bytes with
  | zero =>
    obtain ⟨x, rfl⟩ := List.length_eq_one_iff.mp h
    rfl
  | succ n ih =>
    obtain ⟨x, bytes, rfl⟩ := List.exists_cons_of_length_pos (show 0 < bytes.length by omega)
    rw [List.length_cons] at h
    rw [smallDecode_cons (List.ne_nil_of_length_pos (by omega))]
    simp only [List.length_cons, ih (show bytes.length = n + 1 by omega)]
    omega

theorem smallDigitChecked_eq {c : Int} (h : |c| ≤ 1) :
    smallDigitChecked c = some (smallDigit c) := by
  rw [abs_le] at h
  have hfit : InSigned 8 (c + 1) := by
    rw [InSigned]
    omega
  simp [smallDigitChecked, signed_of_inSigned hfit, smallDigit]

theorem smallEncodeChecked_eq {coeffs : List Int} (hsmall : ∀ c ∈ coeffs, |c| ≤ 1) {n : Nat}
    (h : coeffs.length = 4 * n + 1) :
    smallEncodeChecked coeffs = some (smallEncode coeffs) := by
  induction n generalizing coeffs with
  | zero =>
    obtain ⟨c, rfl⟩ := List.length_eq_one_iff.mp h
    simp [smallEncodeChecked, smallDigitChecked_eq (hsmall c List.mem_cons_self), smallEncode]
  | succ n ih =>
    obtain ⟨c0, c1, c2, c3, rest, rfl, hrest⟩ := exists_four h
    have h0 := hsmall c0 (by simp)
    have h1 := hsmall c1 (by simp)
    have h2 := hsmall c2 (by simp)
    have h3 := hsmall c3 (by simp)
    have hlt0 := smallDigit_lt h0
    have hlt1 := smallDigit_lt h1
    have hlt2 := smallDigit_lt h2
    have hlt3 := smallDigit_lt h3
    rw [smallEncodeChecked, smallEncode, smallDigitChecked_eq h0, smallDigitChecked_eq h1,
      smallDigitChecked_eq h2, smallDigitChecked_eq h3,
      ih (fun c hc => hsmall c (by simp [hc])) hrest]
    simp only [bind, Option.bind_some, pure,
      Nat.mod_eq_of_lt (show smallDigit c1 * 4 < 256 by omega),
      Nat.mod_eq_of_lt (show smallDigit c2 * 16 < 256 by omega),
      Nat.mod_eq_of_lt (show smallDigit c3 * 64 < 256 by omega)]
    rw [addWord_of_lt (by omega), Option.bind_some, addWord_of_lt (by omega), Option.bind_some,
      addWord_of_lt (by omega), Option.bind_some]

/-! ## The radix codes -/

/-- `divmod_u14`. -/
def divmodU14Checked (x m : Nat) : Option (Nat × Nat) := do
  let _ ← assertion (m ≠ 0)
  let v := 2 ^ 31 / m
  let quot := 0
  let product ← mulWord 64 x v
  let qpart := u32 (product / 2 ^ 31)
  let part ← mulWord 32 qpart m
  let x ← subWord x part
  let quot ← addWord 32 quot qpart
  let product ← mulWord 64 x v
  let qpart := u32 (product / 2 ^ 31)
  let part ← mulWord 32 qpart m
  let x ← subWord x part
  let quot ← addWord 32 quot qpart
  let xMinusM := wrappingSub x m
  let quot ← addWord 32 quot 1
  let mask := wrappingSub 0 (xMinusM / 2 ^ 31)
  let x := u32 (xMinusM + (mask &&& m))
  let quot := u32 (quot + mask)
  pure (quot, x % 2 ^ 16)

/-- `rem as i16 - Q12`. -/
def rqCoeffChecked (r : Nat) : Option Int := signed 16 ((r : Int).bmod (2 ^ 16) - q12)

/-- `rq_decode`. -/
def rqDecodeChecked (bytes : Bytes) : Option (List Int) := do
  let out ← decodeStagesChecked divmodU14Checked 1608 rqStages bytes.reverse
  out.1.mapM rqCoeffChecked

/-- `scale_up`. -/
def scaleUpChecked (v : Nat) : Option Int := do
  let product ← signed 32 (3 * (v : Int))
  let c ← signed 32 (product - q12)
  pure (c.bmod (2 ^ 16))

/-- `rounded_decode`. -/
def roundedDecodeChecked (bytes : Bytes) : Option (List Int) := do
  let out ← decodeStagesChecked divmodU14Checked 65536 roundedStages bytes.reverse
  out.1.mapM scaleUpChecked

/-- A round of `round_rq` and of `rounded_encode`. -/
def roundCoeffChecked (c : Int) : Option Int := do
  let product ← signed 32 (c * 10923)
  let sum ← signed 32 (product + 16384)
  let rounded ← signed 32 (3 * (sum / 2 ^ 15))
  pure (rounded.bmod (2 ^ 16))

/-- A third of a coefficient, moved to the positive side. -/
def roundedDigitChecked (c : Int) : Option Nat := do
  let sum ← signed 32 (c + q12)
  let product ← signed 32 (sum % 16384 * 10923)
  pure (product.toNat / 2 ^ 15 % 2 ^ 16)

/-- `rounded_encode_raw`.  The bytes go to an array of 1007. -/
def roundedEncodeRawChecked (coeffs : List Int) : Option Bytes := do
  let digits ← coeffs.mapM roundedDigitChecked
  let bytes ← encodeStagesChecked roundedStages digits
  let _ ← assertion (bytes.length ≤ 1007)
  pure bytes

/-- `rounded_encode`. -/
def roundedEncodeChecked (coeffs : List Int) : Option Bytes := do
  let rounded ← coeffs.mapM roundCoeffChecked
  roundedEncodeRawChecked rounded

/-- The word of an approximation of the quotient. -/
theorem approx_word {x m : Nat} (hx : x < 2 ^ 32) : x * (2 ^ 31 / m) < 2 ^ 64 := by
  have hv : 2 ^ 31 / m ≤ 2 ^ 31 := Nat.div_le_self _ _
  have hword : x * (2 ^ 31 / m) ≤ 2 ^ 32 * 2 ^ 31 := Nat.mul_le_mul (Nat.le_of_lt hx) hv
  omega

/-- The division does not panic when there is room for the increment before the last
correction. -/
theorem divmodU14Checked_eq_of_fits {x m : Nat} (hx : x < 2 ^ 32) (hm : 0 < m) (hm14 : m < 16384)
    (hfits : x / m + 1 < 2 ^ 32) : divmodU14Checked x m = some (divmodU14 x m) := by
  have hproduct : x * (2 ^ 31 / m) < 2 ^ 64 := approx_word hx
  generalize ha : x * (2 ^ 31 / m) / 2 ^ 31 = a
  have hproduct' : (x - a * m) * (2 ^ 31 / m) < 2 ^ 64 := approx_word (by omega)
  generalize hb : (x - a * m) * (2 ^ 31 / m) / 2 ^ 31 = b
  obtain ⟨hle, hle', -⟩ := u14_estimates hx hm hm14 ha hb
  have hab := u14_quotient_le hm hle hle'
  have hword : ∀ n, n < 2 ^ 32 → u32 n = n := fun n hn => Nat.mod_eq_of_lt hn
  rw [divmodU14Checked, divmodU14, assertion, if_pos (by omega)]
  simp only [bind, Option.bind_some, mulWord, addWord, subWord, if_pos hproduct, ha,
    hword a (by omega), if_pos (show a * m < 2 ^ 32 by omega), if_pos hle, if_pos hproduct', hb,
    hword b (by omega), if_pos (show b * m < 2 ^ 32 by omega), if_pos hle', Nat.zero_add,
    if_pos (show a < 2 ^ 32 by omega), if_pos (show a + b < 2 ^ 32 by omega),
    if_pos (show a + b + 1 < 2 ^ 32 by omega), pure]

theorem divmodU14Checked_eq (x m : Nat) (hx : x < 2 ^ 32) (hm1 : 1 < m) (hm14 : m < 16384) :
    divmodU14Checked x m = some (divmodU14 x m) := by
  have hhalf : x / m ≤ x / 2 := Nat.div_le_div_left hm1 two_pos
  exact divmodU14Checked_eq_of_fits hx (by omega) hm14 (by omega)

theorem stagesSupplied_rqStages : stagesSupplied 1608 rqStages = true := by decide +kernel

theorem stagesSupplied_roundedStages : stagesSupplied 65536 roundedStages = true := by
  decide +kernel

theorem stagesWidth_rqStages : stagesWidth rqStages = 1156 := by decide +kernel

theorem stagesWidth_roundedStages : stagesWidth roundedStages = 1005 := by decide +kernel

theorem rqDecodeChecked_eq {bytes : Bytes} (h : bytes.length = 1158) :
    rqDecodeChecked bytes = some (rqDecode bytes) := by
  have hlt := decodeStages_lt divmodU14_eq (show 0 < 1608 by decide) (by decide) rqStages_read
    bytes.reverse
  have hstages := (decodeStagesChecked_eq divmodU14_eq divmodU14Checked_eq
    (show 0 < 1608 by decide) (by decide) rqStages_read stagesSupplied_rqStages
    (s := bytes.reverse) (by rw [stagesWidth_rqStages, List.length_reverse, h])).1
  rw [decodedBounds_rqStages] at hlt
  rw [rqDecodeChecked, rqDecode, hstages, Option.bind_eq_bind, Option.bind_some]
  apply mapM_eq_some_map
  intro r hr
  have hbound := lt_of_forall₂_lt hlt (fun b hb => (List.eq_of_mem_replicate hb).le) r hr
  have hword : (r : Int).bmod (2 ^ 16) = r := Int.bmod_eq_of_le (by omega) (by omega)
  rw [rqCoeffChecked, hword]
  apply signed_of_inSigned
  rw [InSigned, q12]
  omega

theorem roundedDecodeChecked_eq {bytes : Bytes} (h : bytes.length = 1007) :
    roundedDecodeChecked bytes = some (roundedDecode bytes) := by
  have hlt := decodeStages_lt divmodU14_eq (show 0 < 65536 by decide) (by decide)
    roundedStages_read bytes.reverse
  have hstages := (decodeStagesChecked_eq divmodU14_eq divmodU14Checked_eq
    (show 0 < 65536 by decide) (by decide) roundedStages_read stagesSupplied_roundedStages
    (s := bytes.reverse) (by rw [stagesWidth_roundedStages, List.length_reverse, h])).1
  have hle := decodedBounds_le (show 65536 ≤ 65536 by decide) roundedStages_read
  rw [roundedDecodeChecked, roundedDecode, hstages, Option.bind_eq_bind, Option.bind_some]
  apply mapM_eq_some_map
  intro r hr
  have hbound := lt_of_forall₂_lt hlt hle r hr
  have hproduct : InSigned 32 (3 * (r : Int)) := by
    rw [InSigned]
    omega
  have hdifference : InSigned 32 (3 * (r : Int) - q12) := by
    rw [InSigned, q12]
    omega
  simp [scaleUpChecked, signed_of_inSigned hproduct, signed_of_inSigned hdifference, scaleUp]

/-- Any string decodes to a ciphertext of `i16` coefficients. -/
theorem abs_roundedDecode_le (bytes : Bytes) : ∀ c ∈ roundedDecode bytes, |c| ≤ 32768 := by
  intro c hc
  obtain ⟨v, _, rfl⟩ := List.mem_map.mp hc
  rw [scaleUp, abs_le, Int.bmod_def]
  omega

theorem length_roundedDecode (bytes : Bytes) : (roundedDecode bytes).length = p := by
  have hlt := decodeStages_lt divmodU14_eq (show 0 < 65536 by decide) (by decide)
    roundedStages_read bytes.reverse
  rw [roundedDecode, List.length_map, hlt.length_eq, length_decodedBounds_roundedStages]

theorem roundCoeffChecked_eq {c : Int} (h : |c| ≤ 2295) :
    roundCoeffChecked c = some (roundCoeff c) := by
  have hrounded := abs_le.mp (isRounded_roundCoeff h).1
  rw [roundCoeff] at hrounded
  rw [abs_le] at h
  have hproduct : InSigned 32 (c * 10923) := by
    rw [InSigned]
    omega
  have hsum : InSigned 32 (c * 10923 + 16384) := by
    rw [InSigned]
    omega
  have hresult : InSigned 32 (3 * ((c * 10923 + 16384) / 2 ^ 15)) := by
    rw [InSigned]
    omega
  have hword : (3 * ((c * 10923 + 16384) / 2 ^ 15)).bmod (2 ^ 16) = roundCoeff c := by
    rw [roundCoeff, mul_comm c, Int.bmod_eq_of_le (by omega) (by omega)]
  rw [roundCoeffChecked]
  simp only [bind, signed_of_inSigned hproduct, signed_of_inSigned hsum,
    signed_of_inSigned hresult, Option.bind_some, pure, hword]

theorem roundedDigitChecked_eq {c : Int} (h : |c| ≤ 2295) :
    roundedDigitChecked c = some (roundedDigit c) := by
  rw [abs_le] at h
  have hsum : InSigned 32 (c + q12) := by
    rw [InSigned, q12]
    omega
  have hproduct : InSigned 32 ((c + q12) % 16384 * 10923) := by
    rw [InSigned]
    omega
  have hnat : ((c + q12) % 16384 * 10923).toNat = ((c + q12) % 16384).toNat * 10923 := by omega
  rw [roundedDigitChecked]
  simp only [bind, signed_of_inSigned hsum, signed_of_inSigned hproduct, Option.bind_some, pure,
    hnat, roundedDigit]

theorem roundedEncodeChecked_eq {coeffs : List Int} (hlen : coeffs.length = p)
    (h : ∀ c ∈ coeffs, |c| ≤ 2295) : roundedEncodeChecked coeffs = some (roundedEncode coeffs) := by
  have hrounded : ∀ c ∈ coeffs.map roundCoeff, IsRounded c := by
    intro c hc
    obtain ⟨x, hx, rfl⟩ := List.mem_map.mp hc
    exact isRounded_roundCoeff (h x hx)
  have hlen' : (coeffs.map roundCoeff).length = p := by rw [List.length_map, hlen]
  have hstages := encodeStagesChecked_eq (roundedDigits_fit hlen' hrounded) roundedStages_fit
  have hsize := length_encodeStages (roundedDigits_fit hlen' hrounded) roundedStages_fit
  rw [rounded_encodedLength] at hsize
  rw [roundedEncodeChecked, mapM_eq_some_map fun c hc => roundCoeffChecked_eq (h c hc)]
  simp only [bind, Option.bind_some, roundedEncodeRawChecked,
    mapM_eq_some_map fun c hc => roundedDigitChecked_eq (hrounded c hc).1, hstages,
    assertion, hsize, if_pos (le_refl 1007), pure, roundedEncode, roundedEncodeRaw]

/-! ## Products -/

theorem rqMultR3Checked_eq {a b : List Int} {A B : Int} (ha : ∀ x ∈ a, |x| ≤ A)
    (hb : ∀ y ∈ b, |y| ≤ B) (hA : 1 ≤ A) (hB : 1 ≤ B) (hlenA : a.length = p)
    (hlenB : b.length = p) (hbound : 30720 * (A * B) < 2 ^ (32 - 1)) :
    rqMultR3Checked a b = some (rqMultR3 a b) := by
  have hfits := productFits_of_le ha hb hA hB hlenA hlenB hbound
  rw [rqMultR3Checked, (ringProductChecked_eq_some hlenA hlenB).mpr ⟨hfits, rfl⟩]
  rfl

theorem r3MultR3Checked_eq {a b : List Int} {A B : Int} (ha : ∀ x ∈ a, |x| ≤ A)
    (hb : ∀ y ∈ b, |y| ≤ B) (hA : 1 ≤ A) (hB : 1 ≤ B) (hlenA : a.length = p)
    (hlenB : b.length = p) (hbound : 30720 * (A * B) < 2 ^ (32 - 1)) :
    r3MultR3Checked a b = some (r3MultR3 a b) := by
  have hfits := productFits_of_le ha hb hA hB hlenA hlenB hbound
  rw [r3MultR3Checked, (ringProductChecked_eq_some hlenA hlenB).mpr ⟨hfits, rfl⟩]
  rfl

/-! ## Decapsulation -/

/-- Scaling by 3: the product wraps, the correction is checked. -/
def scaleByThreeChecked (c : Int) : Option Int := do
  let v := (c * 3).bmod (2 ^ 16)
  let v ← if v > 2295 then signed 32 (v - q) else if v < -2295 then signed 32 (v + q) else some v
  pure (v.bmod (2 ^ 16))

/-- The residue modulo 3 of a coefficient.  The last branch is the `unreachable!`. -/
def residueThreeChecked (c : Int) : Option Int := do
  let sum ← signed 32 (c.tmod 3 + 3)
  let r := sum.tmod 3
  if r = 0 then some 0 else if r = 1 then some 1 else if r = 2 then some (-1) else none

/-- `r'`, from the decoded ciphertext. -/
def decryptBodyChecked (c f ginv : List Int) : Option (List Int) := do
  let cf ← rqMultR3Checked c f
  let e ← cf.mapM scaleByThreeChecked
  let eR3 ← e.mapM residueThreeChecked
  r3MultR3Checked eR3 ginv

/-- The ciphertext body, `Round(h * r)`. -/
def encryptBodyChecked (h r : List Int) : Option Bytes := do
  let hr ← rqMultR3Checked h r
  let rounded ← hr.mapM roundCoeffChecked
  roundedEncodeChecked rounded

/-- `decapsulate`. -/
def decapsulateChecked (sha512 : Bytes → FixedBytes 64) (sk : FixedBytes 1763)
    (ct : FixedBytes 1039) : Option (Result Bytes32) := do
  let f ← smallDecodeChecked (keyFBytes sk).val
  let ginv ← smallDecodeChecked (keyGinvBytes sk).val
  let c ← roundedDecodeChecked (ctBody ct).val
  let rPrime ← decryptBodyChecked c f ginv
  let rEnc ← smallEncodeChecked rPrime
  let rHash := hashREncoding sha512 rEnc
  let h ← rqDecodeChecked (publicKey sk).val
  let cPrimeBytes ← encryptBodyChecked h rPrime
  let confirmPrime := hashConfirm sha512 rHash (keyCache sk)
  let valid : Bool := (ctBody ct).val = cPrimeBytes ∧ ctConfirm ct = confirmPrime
  let ssSuccess := hashSession sha512 1 rHash ct
  let ssReject := hashSession sha512 0 (hashREncoding sha512 (keyRho sk).val) ct
  pure (.ok (if valid then ssSuccess else ssReject))

theorem scaleByThreeChecked_eq (c : Int) : scaleByThreeChecked c = some (scaleByThree c) := by
  have hword : -2 ^ 15 ≤ (c * 3).bmod (2 ^ 16) ∧ (c * 3).bmod (2 ^ 16) < 2 ^ 15 := by
    rw [Int.bmod_def]
    omega
  rw [scaleByThreeChecked, scaleByThree]
  generalize (c * 3).bmod (2 ^ 16) = v at hword
  rw [show (q : Int) = 4591 from rfl]
  by_cases hhigh : v > 2295
  · have hfit : InSigned 32 (v - 4591) := by
      rw [InSigned]
      omega
    simp only [if_pos hhigh, bind, signed_of_inSigned hfit, Option.bind_some, pure]
    rw [Int.bmod_eq_of_le (by omega) (by omega)]
  · rw [if_neg hhigh, if_neg hhigh]
    by_cases hlow : v < -2295
    · have hfit : InSigned 32 (v + 4591) := by
        rw [InSigned]
        omega
      simp only [if_pos hlow, bind, signed_of_inSigned hfit, Option.bind_some, pure]
      rw [Int.bmod_eq_of_le (by omega) (by omega)]
    · simp only [if_neg hlow, bind, Option.bind_some, pure]
      rw [Int.bmod_eq_of_le (by omega) (by omega)]

theorem residueThreeChecked_eq (c : Int) : residueThreeChecked c = some (residueThree c) := by
  have hlo : -3 < c.tmod 3 := by
    have := Int.lt_tmod_of_pos c (show (0 : Int) < 3 by decide)
    omega
  have hhi : c.tmod 3 < 3 := Int.tmod_lt_of_pos c (by decide)
  have hfit : InSigned 32 (c.tmod 3 + 3) := by
    rw [InSigned]
    omega
  have hnonneg : 0 ≤ (c.tmod 3 + 3).tmod 3 := Int.tmod_nonneg 3 (by omega)
  have hlt : (c.tmod 3 + 3).tmod 3 < 3 := Int.tmod_lt_of_pos _ (by decide)
  rw [residueThreeChecked, residueThree]
  simp only [bind, signed_of_inSigned hfit, Option.bind_some]
  generalize (c.tmod 3 + 3).tmod 3 = r at hnonneg hlt
  by_cases hzero : r = 0
  · rw [if_pos hzero, if_pos hzero]
  · rw [if_neg hzero, if_neg hzero]
    by_cases hone : r = 1
    · rw [if_pos hone, if_pos hone]
    · rw [if_neg hone, if_neg hone, if_pos (by omega)]

/-- Decryption of any string with any key. -/
theorem decryptBodyChecked_eq (body : FixedBytes 1007) (fBytes gBytes : FixedBytes 191) :
    decryptBodyChecked (roundedDecode body.val) (smallDecode fBytes.val) (smallDecode gBytes.val) =
      some (decryptBody (roundedDecode body.val) (smallDecode fBytes.val)
        (smallDecode gBytes.val)).val := by
  have hlenF : (smallDecode fBytes.val).length = p :=
    length_smallDecode_eq (n := 190) fBytes.property
  have hlenG : (smallDecode gBytes.val).length = p :=
    length_smallDecode_eq (n := 190) gBytes.property
  have hcf := rqMultR3Checked_eq (abs_roundedDecode_le body.val) (abs_smallDecode_le fBytes.val)
    (by norm_num) (by norm_num) (length_roundedDecode body.val) hlenF (by norm_num)
  have hresidues : ∀ x ∈ (scaledProduct (roundedDecode body.val) (smallDecode fBytes.val)).map
      residueThree, |x| ≤ 1 := by
    intro x hx
    obtain ⟨y, _, rfl⟩ := List.mem_map.mp hx
    exact abs_residueThree_le y
  have hr := r3MultR3Checked_eq hresidues (abs_smallDecode_le gBytes.val) (by norm_num)
    (by norm_num) (by rw [List.length_map, scaledProduct, List.length_map, length_rqMultR3]) hlenG
    (by norm_num)
  rw [decryptBodyChecked, hcf, Option.bind_eq_bind, Option.bind_some,
    mapM_eq_some_map fun c _ => scaleByThreeChecked_eq c, Option.bind_some,
    mapM_eq_some_map fun c _ => residueThreeChecked_eq c, Option.bind_some]
  exact hr

/-- Encryption with a small polynomial under a key of any string. -/
theorem encryptBodyChecked_eq (pk : FixedBytes 1158) {r : List Int} (hr : Ternary r) :
    encryptBodyChecked (rqDecode pk.val) r = some (encryptBody (rqDecode pk.val) r).val := by
  have hpk := centred_rqDecode pk.val
  have hproduct := rqMultR3Checked_eq hpk.abs_le hr.abs_le (by norm_num) (by norm_num)
    hpk.length_eq hr.length_eq (by norm_num)
  have hencode : roundedEncodeChecked (roundRq (rqMultR3 (rqDecode pk.val) r)) =
      some (roundedEncode (roundRq (rqMultR3 (rqDecode pk.val) r))) :=
    roundedEncodeChecked_eq (by rw [roundRq, List.length_map, length_rqMultR3])
      fun c hc => (isRounded_roundRq _ _ c hc).1
  rw [encryptBodyChecked, hproduct, Option.bind_eq_bind, Option.bind_some,
    mapM_eq_some_map fun c hc => roundCoeffChecked_eq (abs_rqMultR3_le _ _ c hc),
    Option.bind_some]
  exact hencode

/-- Decapsulation returns, whatever the bytes of the key and of the ciphertext are. -/
theorem decapsulateChecked_eq (sha512 : Bytes → FixedBytes 64) (sk : FixedBytes 1763)
    (ct : FixedBytes 1039) :
    decapsulateChecked sha512 sk ct = some (decapsulate sha512 sk ct) := by
  have hf : smallDecodeChecked (keyFBytes sk).val = some (smallDecode (keyFBytes sk).val) :=
    smallDecodeChecked_eq (List.ne_nil_of_length_pos (by rw [(keyFBytes sk).property]; decide))
  have hginv : smallDecodeChecked (keyGinvBytes sk).val =
      some (smallDecode (keyGinvBytes sk).val) :=
    smallDecodeChecked_eq (List.ne_nil_of_length_pos (by rw [(keyGinvBytes sk).property]; decide))
  have hr : Ternary (decryptR sk ct).val := ternary_r3MultR3 _ _
  have hrEnc := smallEncodeChecked_eq hr.abs_le (n := 190) hr.length_eq
  have hdecrypt : decryptBodyChecked (roundedDecode (ctBody ct).val)
      (smallDecode (keyFBytes sk).val) (smallDecode (keyGinvBytes sk).val) =
        some (decryptR sk ct).val := decryptBodyChecked_eq _ _ _
  have hencrypt := encryptBodyChecked_eq (publicKey sk) hr
  rw [decapsulateChecked, hf, Option.bind_eq_bind, Option.bind_some, hginv, Option.bind_some,
    roundedDecodeChecked_eq (ctBody ct).property, Option.bind_some, hdecrypt, Option.bind_some,
    hrEnc, Option.bind_eq_bind, Option.bind_some, rqDecodeChecked_eq (publicKey sk).property,
    Option.bind_some, hencrypt, Option.bind_some]
  have hvalid : decide ((ctBody ct).val = (encryptBody (rqDecode (publicKey sk).val)
      (decryptR sk ct).val).val ∧ ctConfirm ct =
        hashConfirm sha512 (hashREncoding sha512 (smallEncode (decryptR sk ct).val))
          (keyCache sk)) =
      accepts sha512 sk ct := by
    rw [accepts]
    simp only [Subtype.ext_iff]
  show some (Except.ok (if decide _ = true then _ else _)) = _
  rw [hvalid]
  rfl

end Trelis.Sntrup
