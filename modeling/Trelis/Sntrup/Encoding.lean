import Trelis.Lib.RadixCode
import Trelis.Sntrup.Ring

/-!
# Wire encodings of sntrup761

The three encodings of `encoding.rs`: small polynomials, four coefficients to a
byte; public keys, by the radix code on coefficients modulo `q`; ciphertexts, by
the radix code on coefficients divided by 3.

The moduli and widths of the two radix codes are `rqStages` and
`roundedStages`.  `rqDecode_rqEncode`, `roundedDecode_roundedEncode` and
`smallDecode_smallEncode` are the round trips.
-/

namespace Trelis.Sntrup

/-! ## Small polynomials -/

/-- A coefficient, moved to `0`, `1`, `2`. -/
def smallDigit (c : Int) : Nat := ((c + 1) % 256).toNat

/-- `small_encode`.  Four coefficients go to a byte, the last one alone. -/
def smallEncode : List Int → Bytes
  | c0 :: c1 :: c2 :: c3 :: coeffs =>
    UInt8.ofNat (smallDigit c0 + smallDigit c1 * 4 + smallDigit c2 * 16 + smallDigit c3 * 64) ::
      smallEncode coeffs
  | c :: _ => [UInt8.ofNat (smallDigit c)]
  | [] => []

/-- Two bits of a byte, as a coefficient. -/
def smallCoeff (x : Nat) (shift : Nat) : Int := ((x / 2 ^ shift % 4 : Nat) : Int) - 1

/-- `small_decode`. -/
def smallDecode : Bytes → List Int
  | [] => []
  | [x] => [smallCoeff x.toNat 0]
  | x :: bytes =>
    smallCoeff x.toNat 0 :: smallCoeff x.toNat 2 :: smallCoeff x.toNat 4 ::
      smallCoeff x.toNat 6 :: smallDecode bytes

theorem smallDigit_eq {c : Int} (h : |c| ≤ 1) : ((smallDigit c : Nat) : Int) = c + 1 := by
  rw [abs_le] at h
  rw [smallDigit]
  omega

/-- Reading the bits of a digit back. -/
theorem smallCoeff_eq {c : Int} {x shift : Nat} (h : |c| ≤ 1)
    (hx : x / 2 ^ shift % 4 = smallDigit c) : smallCoeff x shift = c := by
  rw [smallCoeff, hx, smallDigit_eq h]
  ring

theorem smallDigit_lt {c : Int} (h : |c| ≤ 1) : smallDigit c < 3 := by
  have := smallDigit_eq h
  rw [abs_le] at h
  omega

theorem exists_four {coeffs : List Int} {n : Nat} (h : coeffs.length = 4 * (n + 1) + 1) :
    ∃ c0 c1 c2 c3 rest, coeffs = c0 :: c1 :: c2 :: c3 :: rest ∧ rest.length = 4 * n + 1 := by
  obtain ⟨c0, coeffs, rfl⟩ := List.exists_cons_of_length_pos (show 0 < coeffs.length by omega)
  rw [List.length_cons] at h
  obtain ⟨c1, coeffs, rfl⟩ := List.exists_cons_of_length_pos (show 0 < coeffs.length by omega)
  rw [List.length_cons] at h
  obtain ⟨c2, coeffs, rfl⟩ := List.exists_cons_of_length_pos (show 0 < coeffs.length by omega)
  rw [List.length_cons] at h
  obtain ⟨c3, coeffs, rfl⟩ := List.exists_cons_of_length_pos (show 0 < coeffs.length by omega)
  rw [List.length_cons] at h
  exact ⟨c0, c1, c2, c3, coeffs, rfl, by omega⟩

theorem length_smallEncode_eq {coeffs : List Int} {n : Nat} (h : coeffs.length = 4 * n + 1) :
    (smallEncode coeffs).length = n + 1 := by
  induction n generalizing coeffs with
  | zero =>
    obtain ⟨c, rfl⟩ := List.length_eq_one_iff.mp h
    rfl
  | succ n ih =>
    obtain ⟨c0, c1, c2, c3, rest, rfl, hrest⟩ := exists_four h
    rw [smallEncode, List.length_cons, ih hrest]

/-- What follows a byte that is not the last one. -/
theorem smallDecode_cons {x : UInt8} {bytes : Bytes} (h : bytes ≠ []) :
    smallDecode (x :: bytes) =
      smallCoeff x.toNat 0 :: smallCoeff x.toNat 2 :: smallCoeff x.toNat 4 ::
        smallCoeff x.toNat 6 :: smallDecode bytes := by
  obtain ⟨y, bytes, rfl⟩ := List.exists_cons_of_ne_nil h
  rfl

theorem smallDecode_smallEncode_eq {coeffs : List Int} {n : Nat} (hsmall : ∀ c ∈ coeffs, |c| ≤ 1)
    (h : coeffs.length = 4 * n + 1) : smallDecode (smallEncode coeffs) = coeffs := by
  induction n generalizing coeffs with
  | zero =>
    obtain ⟨c, rfl⟩ := List.length_eq_one_iff.mp h
    have hc := hsmall c List.mem_cons_self
    have hlt := smallDigit_lt hc
    show [smallCoeff (UInt8.ofNat (smallDigit c)).toNat 0] = [c]
    rw [UInt8.toNat_ofNat', smallCoeff_eq hc (by omega)]
  | succ n ih =>
    obtain ⟨c0, c1, c2, c3, rest, rfl, hrest⟩ := exists_four h
    have h0 := hsmall c0 (by simp)
    have h1 := hsmall c1 (by simp)
    have h2 := hsmall c2 (by simp)
    have h3 := hsmall c3 (by simp)
    have hlt0 := smallDigit_lt h0
    have hlt1 := smallDigit_lt h1
    have hlt2 := smallDigit_lt h2
    have hlt3 := smallDigit_lt h3
    have hne : smallEncode rest ≠ [] := List.ne_nil_of_length_pos (by
      rw [length_smallEncode_eq hrest]
      omega)
    rw [smallEncode, smallDecode_cons hne, ih (fun c hc => hsmall c (by simp [hc])) hrest,
      UInt8.toNat_ofNat', smallCoeff_eq h0 (by omega), smallCoeff_eq h1 (by omega),
      smallCoeff_eq h2 (by omega), smallCoeff_eq h3 (by omega)]

@[simp] theorem length_smallEncode {coeffs : List Int} (h : coeffs.length = p) :
    (smallEncode coeffs).length = 191 :=
  length_smallEncode_eq (n := 190) h

/-- The round trip of a small polynomial. -/
theorem smallDecode_smallEncode {coeffs : List Int} (h : Ternary coeffs) :
    smallDecode (smallEncode coeffs) = coeffs :=
  smallDecode_smallEncode_eq (n := 190) h.abs_le h.length_eq

/-! ## Division -/

/-- `divmod_u14`. -/
def divmodU14 (x m : Nat) : Nat × Nat :=
  let v := 2 ^ 31 / m
  let qpart := u32 (x * v / 2 ^ 31)
  let x := x - qpart * m
  let quot := qpart
  let qpart := u32 (x * v / 2 ^ 31)
  let x := x - qpart * m
  let quot := quot + qpart
  let xMinusM := wrappingSub x m
  let quot := quot + 1
  let mask := wrappingSub 0 (xMinusM / 2 ^ 31)
  let x := u32 (xMinusM + (mask &&& m))
  let quot := u32 (quot + mask)
  (quot, x % 2 ^ 16)

section Division

variable {x m a b : Nat}

/-- The two approximations, and what they leave. -/
theorem u14_estimates (hx : x < 2 ^ 32) (hm : 0 < m) (hm14 : m < 16384)
    (ha : x * (2 ^ 31 / m) / 2 ^ 31 = a) (hb : (x - a * m) * (2 ^ 31 / m) / 2 ^ 31 = b) :
    a * m ≤ x ∧ b * m ≤ x - a * m ∧ x - a * m - b * m ≤ m := by
  have hres : 2 ^ 31 % m ≤ m := (Nat.mod_lt _ hm).le
  have hfirst : x - a * m < m + 2 * m := by
    rw [← ha]
    apply barrett_rest_lt hm
    calc x * (2 ^ 31 % m) ≤ 2 ^ 32 * m := Nat.mul_le_mul hx.le hres
      _ = 2 * m * 2 ^ 31 := by ring
  have hsecond : x - a * m - b * m < m + 1 := by
    rw [← hb]
    apply barrett_rest_lt hm
    calc (x - a * m) * (2 ^ 31 % m) ≤ 49152 * 16384 := Nat.mul_le_mul (by omega) (by omega)
      _ ≤ 1 * 2 ^ 31 := by decide
  refine ⟨?_, ?_, Nat.le_of_lt_succ hsecond⟩
  · rw [← ha]
    exact barrett_estimate_mul_le
  · rw [← hb]
    exact barrett_estimate_mul_le

/-- The approximations stay below the quotient. -/
theorem u14_quotient_le (hm : 0 < m) (ha : a * m ≤ x) (hb : b * m ≤ x - a * m) :
    a + b ≤ x / m := by
  rw [Nat.le_div_iff_mul_le hm, Nat.add_mul]
  omega

/-- The approximation is exact after its two refinements, when there is room for the
increment before the last correction. -/
theorem divmodU14_eq_of_fits (hx : x < 2 ^ 32) (hm : 0 < m) (hm14 : m < 16384)
    (hfits : x / m + 1 < 2 ^ 32) : divmodU14 x m = (x / m, x % m) := by
  generalize ha : x * (2 ^ 31 / m) / 2 ^ 31 = a
  generalize hb : (x - a * m) * (2 ^ 31 / m) / 2 ^ 31 = b
  obtain ⟨hle, hle', hz⟩ := u14_estimates hx hm hm14 ha hb
  have hab := u14_quotient_le hm hle hle'
  have hword : ∀ n, n < 2 ^ 32 → u32 n = n := fun n hn => Nat.mod_eq_of_lt hn
  have hsum : x = x - a * m - b * m + (a + b) * m := by
    rw [Nat.add_mul]
    omega
  have hcorrect := correct_eq hm hm14 hz (show a + b + 1 < 2 ^ 32 by omega)
  simp only [divmodU14, ha, hword a (by omega), hb, hword b (by omega)]
  exact hcorrect.trans (div_mod_of_rest hm hsum hz).symm

end Division

theorem divmodU14_eq (x m : Nat) (hx : x < 2 ^ 32) (hm1 : 1 < m) (hm14 : m < 16384) :
    divmodU14 x m = (x / m, x % m) := by
  have hhalf : x / m ≤ x / 2 := Nat.div_le_div_left hm1 two_pos
  exact divmodU14_eq_of_fits hx (by omega) hm14 (by omega)

/-! ## Public keys -/

/-- The stages of `rq_encode` and `rq_decode`. -/
def rqStages : List RadixStage :=
  [⟨4591, List.replicate 380 ⟨2, 4591⟩⟩,
   ⟨322, List.replicate 190 ⟨1, 322⟩⟩,
   ⟨406, List.replicate 95 ⟨1, 406⟩⟩,
   ⟨644, List.replicate 47 ⟨1, 644⟩ ++ [⟨1, 4591⟩]⟩,
   ⟨1621, List.replicate 23 ⟨1, 1621⟩ ++ [⟨2, 11550⟩]⟩,
   ⟨10265, List.replicate 11 ⟨2, 10265⟩ ++ [⟨1, 286⟩]⟩,
   ⟨1608, List.replicate 5 ⟨1, 1608⟩ ++ [⟨2, 11468⟩]⟩,
   ⟨10101, List.replicate 2 ⟨2, 10101⟩ ++ [⟨1, 282⟩]⟩,
   ⟨1557, [⟨1, 1557⟩]⟩,
   ⟨9470, [⟨2, 11127⟩]⟩]

/-- A coefficient, moved to the positive side. -/
def rqDigit (c : Int) : Nat := ((c + q12) % 16384).toNat

/-- `rq_encode`. -/
def rqEncode (coeffs : List Int) : Bytes := encodeStages rqStages (coeffs.map rqDigit)

/-- `rq_decode`. -/
def rqDecode (bytes : Bytes) : List Int :=
  (decodeStages divmodU14 1608 rqStages bytes.reverse).1.map fun r : Nat => (r : Int) - q12

/-! ## Ciphertexts -/

/-- The stages of `rounded_encode` and `rounded_decode`.  The decoder does not
clamp, but keeps 16 bits. -/
def roundedStages : List RadixStage :=
  [⟨1531, List.replicate 380 ⟨1, 65536⟩⟩,
   ⟨9157, List.replicate 190 ⟨2, 65536⟩⟩,
   ⟨1280, List.replicate 95 ⟨1, 65536⟩⟩,
   ⟨6400, List.replicate 48 ⟨2, 65536⟩⟩,
   ⟨625, List.replicate 24 ⟨1, 65536⟩⟩,
   ⟨1526, List.replicate 12 ⟨1, 65536⟩⟩,
   ⟨9097, List.replicate 6 ⟨2, 65536⟩⟩,
   ⟨1263, List.replicate 3 ⟨1, 65536⟩⟩,
   ⟨6232, [⟨2, 65536⟩]⟩,
   ⟨593, [⟨1, 65536⟩]⟩]

/-- The nearest multiple of 3. -/
def roundCoeff (c : Int) : Int := 3 * ((10923 * c + 16384) / 2 ^ 15)

/-- `round_rq`. -/
def roundRq (coeffs : List Int) : List Int := coeffs.map roundCoeff

/-- A third of a coefficient, moved to the positive side. -/
def roundedDigit (c : Int) : Nat := ((c + q12) % 16384).toNat * 10923 / 2 ^ 15 % 2 ^ 16

/-- `rounded_encode_raw`. -/
def roundedEncodeRaw (coeffs : List Int) : Bytes :=
  encodeStages roundedStages (coeffs.map roundedDigit)

/-- `rounded_encode`, which rounds once more. -/
def roundedEncode (coeffs : List Int) : Bytes := roundedEncodeRaw (coeffs.map roundCoeff)

/-- `scale_up`. -/
def scaleUp (v : Nat) : Int := (3 * (v : Int) - q12).bmod (2 ^ 16)

/-- `rounded_decode`. -/
def roundedDecode (bytes : Bytes) : List Int :=
  (decodeStages divmodU14 65536 roundedStages bytes.reverse).1.map scaleUp

/-! ## Decoding any string -/

theorem rqStages_read : ∀ st ∈ rqStages, st.Reads := by decide +kernel

theorem roundedStages_read : ∀ st ∈ roundedStages, st.Reads := by decide +kernel

theorem decodedBounds_rqStages : decodedBounds 1608 rqStages = List.replicate 761 4591 := by
  decide +kernel

theorem length_decodedBounds_roundedStages : (decodedBounds 65536 roundedStages).length = 761 := by
  decide +kernel

/-- A polynomial with balanced coefficients. -/
structure Centred (coeffs : List Int) : Prop where
  length_eq : coeffs.length = p
  abs_le : ∀ c ∈ coeffs, |c| ≤ 2295

/-- Any string decodes to a public key with balanced coefficients. -/
theorem centred_rqDecode (bytes : Bytes) : Centred (rqDecode bytes) := by
  have hlt := decodeStages_lt divmodU14_eq (show 0 < 1608 by decide) (by decide) rqStages_read
    bytes.reverse
  rw [decodedBounds_rqStages] at hlt
  refine ⟨?_, ?_⟩
  · rw [rqDecode, List.length_map, hlt.length_eq, List.length_replicate]
  · intro c hc
    obtain ⟨r, hr, rfl⟩ := List.mem_map.mp hc
    have hbound := lt_of_forall₂_lt hlt (fun b hb => (List.eq_of_mem_replicate hb).le) r hr
    rw [q12, abs_le]
    omega

/-! ## Round trips -/

theorem rqStages_fit : stagesFit 1608 rqStages (List.replicate 761 4591) = true := by
  decide +kernel

theorem roundedStages_fit :
    stagesFit 65536 roundedStages (List.replicate 761 1531) = true := by
  decide +kernel

/-- Numbers below one bound, for the codes. -/
theorem forall₂_replicate {vals : List Nat} {b : Nat} (h : ∀ v ∈ vals, v < b) :
    List.Forall₂ (· < ·) vals (List.replicate vals.length b) := by
  induction vals with
  | nil => exact .nil
  | cons v vals ih =>
    exact .cons (h v List.mem_cons_self) (ih fun x hx => h x (List.mem_cons_of_mem _ hx))

/-- A list that is mapped back. -/
theorem map_map_eq_self {α β : Type} {f : α → β} {g : β → α} {l : List α}
    (h : ∀ x ∈ l, g (f x) = x) : (l.map f).map g = l := by
  rw [List.map_map]
  exact (List.map_congr_left h).trans (List.map_id l)

theorem rq_encodedLength : encodedLength rqStages = 1158 := by decide +kernel

theorem rounded_encodedLength : encodedLength roundedStages = 1007 := by decide +kernel

section Rq

variable {coeffs : List Int}

theorem rqDigit_eq {c : Int} (h : |c| ≤ 2295) : ((rqDigit c : Nat) : Int) = c + 2295 := by
  rw [abs_le] at h
  rw [rqDigit, q12]
  omega

theorem rqDigits_fit (hlen : coeffs.length = p) (h : ∀ c ∈ coeffs, |c| ≤ 2295) :
    List.Forall₂ (· < ·) (coeffs.map rqDigit) (List.replicate 761 4591) := by
  have hlt : ∀ v ∈ coeffs.map rqDigit, v < 4591 := by
    intro v hv
    obtain ⟨c, hc, rfl⟩ := List.mem_map.mp hv
    have hdigit := rqDigit_eq (h c hc)
    have hc := abs_le.mp (h c hc)
    omega
  have hfit := forall₂_replicate hlt
  rwa [List.length_map, hlen] at hfit

theorem length_rqEncode (hlen : coeffs.length = p) (h : ∀ c ∈ coeffs, |c| ≤ 2295) :
    (rqEncode coeffs).length = 1158 := by
  rw [rqEncode, length_encodeStages (rqDigits_fit hlen h) rqStages_fit, rq_encodedLength]

/-- The round trip of a public key. -/
theorem rqDecode_rqEncode (hlen : coeffs.length = p) (h : ∀ c ∈ coeffs, |c| ≤ 2295) :
    rqDecode (rqEncode coeffs) = coeffs := by
  have hround := decodeStages_encodeStages divmodU14_eq (rqDigits_fit hlen h) rqStages_fit []
  rw [List.append_nil] at hround
  rw [rqDecode, rqEncode, hround]
  apply map_map_eq_self
  intro c hc
  rw [rqDigit_eq (h c hc), q12]
  omega

end Rq

section Rounded

variable {coeffs : List Int}

/-- A coefficient of a ciphertext: balanced, and a multiple of 3. -/
def IsRounded (c : Int) : Prop := |c| ≤ 2295 ∧ c % 3 = 0

theorem isRounded_roundCoeff {c : Int} (h : |c| ≤ 2295) : IsRounded (roundCoeff c) := by
  rw [abs_le] at h
  rw [IsRounded, roundCoeff, abs_le]
  omega

/-- Rounding moves a coefficient by at most one. -/
theorem abs_roundCoeff_sub_le {c : Int} (h : |c| ≤ 2295) : |roundCoeff c - c| ≤ 1 := by
  rw [abs_le] at h
  rw [roundCoeff, abs_le]
  omega

theorem roundCoeff_eq_self {c : Int} (h : IsRounded c) : roundCoeff c = c := by
  obtain ⟨hc, hmod⟩ := h
  rw [abs_le] at hc
  rw [roundCoeff]
  omega

theorem roundedDigit_eq {c : Int} (h : IsRounded c) :
    3 * ((roundedDigit c : Nat) : Int) = c + 2295 ∧ roundedDigit c < 1531 := by
  obtain ⟨hc, hmod⟩ := h
  rw [abs_le] at hc
  obtain ⟨k, hk⟩ : ∃ k : Nat, c + q12 = ((3 * k : Nat) : Int) := ⟨((c + 2295) / 3).toNat, by
    rw [q12]
    omega⟩
  have hlt : k < 1531 := by
    rw [q12] at hk
    omega
  have hword : ((c + q12) % 16384).toNat = 3 * k := by omega
  have hdigit : roundedDigit c = k := by
    have hdiv : 3 * k * 10923 / 2 ^ 15 = k := by omega
    rw [roundedDigit, hword, hdiv]
    omega
  rw [hdigit]
  rw [q12] at hk
  omega

theorem roundedDigits_fit (hlen : coeffs.length = p) (h : ∀ c ∈ coeffs, IsRounded c) :
    List.Forall₂ (· < ·) (coeffs.map roundedDigit) (List.replicate 761 1531) := by
  have hlt : ∀ v ∈ coeffs.map roundedDigit, v < 1531 := by
    intro v hv
    obtain ⟨c, hc, rfl⟩ := List.mem_map.mp hv
    exact (roundedDigit_eq (h c hc)).2
  have hfit := forall₂_replicate hlt
  rwa [List.length_map, hlen] at hfit

theorem map_roundCoeff_eq_self (h : ∀ c ∈ coeffs, IsRounded c) :
    coeffs.map roundCoeff = coeffs :=
  (List.map_congr_left fun c hc => roundCoeff_eq_self (h c hc)).trans (List.map_id coeffs)

theorem length_roundedEncode (hlen : coeffs.length = p) (h : ∀ c ∈ coeffs, IsRounded c) :
    (roundedEncode coeffs).length = 1007 := by
  rw [roundedEncode, map_roundCoeff_eq_self h, roundedEncodeRaw,
    length_encodeStages (roundedDigits_fit hlen h) roundedStages_fit, rounded_encodedLength]

/-- The round trip of a ciphertext. -/
theorem roundedDecode_roundedEncode (hlen : coeffs.length = p) (h : ∀ c ∈ coeffs, IsRounded c) :
    roundedDecode (roundedEncode coeffs) = coeffs := by
  have hround :=
    decodeStages_encodeStages divmodU14_eq (roundedDigits_fit hlen h) roundedStages_fit []
  rw [List.append_nil] at hround
  rw [roundedEncode, map_roundCoeff_eq_self h, roundedDecode, roundedEncodeRaw, hround]
  apply map_map_eq_self
  intro c hc
  have hdigit := (roundedDigit_eq (h c hc)).1
  have hbound := abs_le.mp (h c hc).1
  rw [scaleUp, hdigit, q12, Int.bmod_eq_of_le (by omega) (by omega)]
  omega

end Rounded

/-! ## The codecs -/

/-- The nearest multiple of 3. -/
def NearestMultiple (c m : Int) : Prop := 3 ∣ m ∧ ∀ n, 3 ∣ n → |m - c| ≤ |n - c|

theorem nearestMultiple_roundCoeff {c : Int} (h : |c| ≤ 2295) :
    NearestMultiple c (roundCoeff c) := by
  have hnear := abs_roundCoeff_sub_le h
  have hdvd : 3 ∣ roundCoeff c := Dvd.intro _ rfl
  refine ⟨hdvd, ?_⟩
  intro n hn
  by_cases hsame : n = roundCoeff c
  · rw [hsame]
  · -- Another multiple is three away from this one, so at least two from `c`.
    rcases abs_cases (roundCoeff c - c) with ⟨habs, _⟩ | ⟨habs, _⟩ <;>
      rcases abs_cases (n - c) with ⟨habs', _⟩ | ⟨habs', _⟩ <;> omega

/-- What a ciphertext keeps of a polynomial is its rounding. -/
theorem roundedDecode_roundedEncode_eq {coeffs : List Int} (h : Centred coeffs) :
    roundedDecode (roundedEncode coeffs) = coeffs.map roundCoeff := by
  have hrounded : ∀ c ∈ coeffs.map roundCoeff, IsRounded c := by
    intro c hc
    obtain ⟨x, hx, rfl⟩ := List.mem_map.mp hc
    exact isRounded_roundCoeff (h.abs_le x hx)
  have hround := roundedDecode_roundedEncode ((List.length_map _).trans h.length_eq) hrounded
  rw [roundedEncode, map_roundCoeff_eq_self hrounded] at hround
  exact hround

/-- The encodings of polynomials are read back, a ciphertext up to its rounding; and
any string of the size of a public key decodes to a polynomial, whose encoding it is
if it is one. -/
theorem codecs :
    (∀ h, Centred h → rqDecode (rqEncode h) = h) ∧
      (∀ c : List Int, c.length = p → (∀ x ∈ c, |x| ≤ 2295 ∧ x % 3 = 0) →
        roundedDecode (roundedEncode c) = c) ∧
      (∀ c, Centred c →
        List.Forall₂ NearestMultiple c (roundedDecode (roundedEncode c))) ∧
      (∀ s, Ternary s → smallDecode (smallEncode s) = s) ∧
      ∀ b : Bytes, b.length = 1158 →
        Centred (rqDecode b) ∧
          (rqEncode (rqDecode b) = b ↔ ∃ h, Centred h ∧ rqEncode h = b) := by
  refine ⟨fun h hh => rqDecode_rqEncode hh.length_eq hh.abs_le,
    fun c hlen hc => roundedDecode_roundedEncode hlen hc, ?_,
    fun s hs => smallDecode_smallEncode hs, ?_⟩
  · intro c hc
    rw [roundedDecode_roundedEncode_eq hc, List.forall₂_map_right_iff, List.forall₂_same]
    exact fun x hx => nearestMultiple_roundCoeff (hc.abs_le x hx)
  · intro b _
    refine ⟨centred_rqDecode b, ?_⟩
    constructor
    · intro heq
      exact ⟨rqDecode b, centred_rqDecode b, heq⟩
    · intro hboth
      rcases hboth with ⟨h, hh, heq⟩
      rw [← heq, rqDecode_rqEncode hh.length_eq hh.abs_le]

end Trelis.Sntrup
