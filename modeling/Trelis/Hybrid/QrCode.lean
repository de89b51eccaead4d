import Mathlib.Tactic.Ring
import Trelis.Hybrid.SafetyNumber
import Trelis.Lib.AsciiText
import Trelis.Lib.Panic

/-!
# The text forms of a safety number

A safety number is shown as sixty decimal digits, and put into a QR code as a
base64url string (`safety_number.rs`).

The digits come from a long division that is repeated sixty times.  One division
keeps the number, as quotient and remainder (`divideByTen_eq`), so that the
remainders are its last sixty digits.

A base64 quadruple stands for three bytes and each determines the other.  The
decoder reads quadruples as long as there are any, and what is left over may be
two or three characters.  A single character that is left over is not looked at,
so the decoder accepts more than what the encoder writes (`decodeLetters_eq_some`).
-/

namespace Trelis.Hybrid

/-! ## Decimal digits -/

/-- One division of `data`, most significant byte first, by ten. -/
def divideByTen : Nat → List Nat → Option (List Nat × Nat)
  | carry, [] => some ([], carry)
  | carry, byte :: data => do
    let scaled ← mulWord 16 carry 256
    let value ← addWord 16 scaled byte
    let (quotient, last) ← divideByTen (value % 10) data
    some (value / 10 :: quotient, last)

/-- The digits, least significant first. -/
def decimalDigits : Nat → List Nat → Option Bytes
  | 0, _ => some []
  | count + 1, data => do
    let (quotient, carry) ← divideByTen 0 data
    let digit ← addWord 8 (carry % 2 ^ 8) 48
    let digits ← decimalDigits count quotient
    some (UInt8.ofNat digit :: digits)

/-- `bytes_to_decimal`. -/
def bytesToDecimal (bytes : Bytes) (numDigits : Nat) : Option String := do
  let digits ← decimalDigits numDigits (bytes.map UInt8.toNat)
  some ((fromUtf8 digits.reverse).getD (String.ofList (List.replicate numDigits '0')))

/-- The number that bytes stand for, most significant first. -/
def bigEndian (data : List Nat) : Nat := data.foldl (fun n byte => n * 256 + byte) 0

/-- The last `width` decimal digits of a number, with zeros in front. -/
def zeroPadded (width n : Nat) : String :=
  String.ofList ((Nat.toDigits 10 (n % 10 ^ width)).leftpad width '0')

theorem foldl_bigEndian (start : Nat) (data : List Nat) :
    data.foldl (fun n byte => n * 256 + byte) start
      = start * 256 ^ data.length + bigEndian data := by
  induction data generalizing start with
  | nil => simp [bigEndian]
  | cons byte data ih =>
    rw [bigEndian, List.foldl_cons, List.foldl_cons, ih, ih (0 * 256 + byte), List.length_cons,
      Nat.pow_succ]
    ring

theorem bigEndian_cons (byte : Nat) (data : List Nat) :
    bigEndian (byte :: data) = byte * 256 ^ data.length + bigEndian data := by
  rw [bigEndian, List.foldl_cons, foldl_bigEndian]
  ring

/-- A division that starts with a carry below ten stays in its words. -/
theorem divideByTen_eq {carry : Nat} {data : List Nat} (hcarry : carry < 10)
    (hdata : ∀ byte ∈ data, byte < 256) :
    ∃ quotient last, divideByTen carry data = some (quotient, last) ∧
      quotient.length = data.length ∧ (∀ byte ∈ quotient, byte < 256) ∧ last < 10 ∧
      carry * 256 ^ data.length + bigEndian data = bigEndian quotient * 10 + last := by
  induction data generalizing carry with
  | nil => exact ⟨[], carry, rfl, rfl, by simp, hcarry, by simp [bigEndian]⟩
  | cons byte data ih =>
    have hbyte : byte < 256 := hdata byte (by simp)
    have hmod : (carry * 256 + byte) % 10 < 10 := Nat.mod_lt _ (by decide)
    obtain ⟨quotient, last, hrun, hlength, hquotient, hlast, hvalue⟩ :=
      ih hmod fun b hb => hdata b (by simp [hb])
    refine ⟨(carry * 256 + byte) / 10 :: quotient, last, ?_, by simp [hlength], ?_, hlast, ?_⟩
    · have hscaled : mulWord 16 carry 256 = some (carry * 256) := by
        rw [mulWord, if_pos (by omega)]
      have hsum : addWord 16 (carry * 256) byte = some (carry * 256 + byte) := by
        rw [addWord, if_pos (by omega)]
      exact bind_eq_of_some hscaled (bind_eq_of_some hsum (bind_eq_of_some hrun rfl))
    · intro b hb
      obtain rfl | hb := List.mem_cons.mp hb
      · omega
      · exact hquotient b hb
    · rw [bigEndian_cons, bigEndian_cons, hlength, List.length_cons, Nat.pow_succ]
      have hsplit := Nat.div_add_mod (carry * 256 + byte) 10
      generalize (carry * 256 + byte) / 10 = high at *
      generalize (carry * 256 + byte) % 10 = low at *
      calc carry * (256 ^ data.length * 256) + (byte * 256 ^ data.length + bigEndian data)
          = (carry * 256 + byte) * 256 ^ data.length + bigEndian data := by ring
        _ = high * 10 * 256 ^ data.length + (low * 256 ^ data.length + bigEndian data) := by
            rw [← hsplit]; ring
        _ = (high * 256 ^ data.length + bigEndian quotient) * 10 + last := by rw [hvalue]; ring

/-- The digits of a number are its remainders by ten. -/
theorem decimalDigits_eq {count : Nat} {data : List Nat} (hdata : ∀ byte ∈ data, byte < 256) :
    decimalDigits count data
      = some ((List.range count).map fun i => UInt8.ofNat (bigEndian data / 10 ^ i % 10 + 48)) := by
  induction count generalizing data with
  | zero => rfl
  | succ count ih =>
    have hzero : 0 < 10 := by decide
    obtain ⟨quotient, last, hrun, _, hquotient, hlast, hvalue⟩ := divideByTen_eq hzero hdata
    have hdigit : addWord 8 (last % 2 ^ 8) 48 = some (last + 48) := by
      rw [addWord, Nat.mod_eq_of_lt (by omega), if_pos (by omega)]
    refine bind_eq_of_some hrun (bind_eq_of_some hdigit (bind_eq_of_some (ih hquotient) ?_))
    rw [List.range_succ_eq_map, List.map_cons, List.map_map]
    have hlow : bigEndian data / 10 ^ 0 % 10 = last := by rw [Nat.pow_zero]; omega
    have hhigh : bigEndian data / 10 = bigEndian quotient := by omega
    refine congrArg some (List.cons_eq_cons.mpr ⟨by rw [hlow], List.map_congr_left ?_⟩)
    intro i _
    show UInt8.ofNat (bigEndian quotient / 10 ^ i % 10 + 48)
      = UInt8.ofNat (bigEndian data / 10 ^ (i + 1) % 10 + 48)
    rw [Nat.pow_succ', ← Nat.div_div_eq_div_mul, hhigh]

theorem toDigits_div_append (n : Nat) (h : 10 ≤ n) :
    Nat.toDigits 10 n = Nat.toDigits 10 (n / 10) ++ [(n % 10).digitChar] := by
  rw [← Nat.toDigits_of_lt_base (Nat.mod_lt n (by decide)),
    Nat.toDigits_append_toDigits (by decide) (by omega) (Nat.mod_lt n (by decide)),
    Nat.div_add_mod]

/-- One more digit at the end of a padded number. -/
theorem leftpad_toDigits_div (width n : Nat) :
    (Nat.toDigits 10 (n / 10)).leftpad (width + 1) '0' ++ [(n % 10).digitChar]
      = (Nat.toDigits 10 n).leftpad (width + 2) '0' := by
  by_cases hn : n < 10
  · rw [Nat.div_eq_of_lt hn, Nat.mod_eq_of_lt hn, Nat.toDigits_zero, Nat.toDigits_of_lt_base hn]
    show List.replicate width '0' ++ ['0'] ++ [n.digitChar]
      = List.replicate (width + 1) '0' ++ [n.digitChar]
    rw [List.replicate_succ']
  · have hpad : width + 2 - ((Nat.toDigits 10 (n / 10)).length + 1)
        = width + 1 - (Nat.toDigits 10 (n / 10)).length := by omega
    rw [toDigits_div_append n (by omega), List.leftpad, List.leftpad, List.length_append,
      List.length_singleton, hpad, List.append_assoc]

theorem reverse_digits (width n : Nat) :
    ((List.range (width + 1)).map fun i => (n / 10 ^ i % 10).digitChar).reverse
      = (Nat.toDigits 10 (n % 10 ^ (width + 1))).leftpad (width + 1) '0' := by
  induction width generalizing n with
  | zero =>
    have hlow : n % 10 < 10 := Nat.mod_lt n (by decide)
    rw [Nat.zero_add, Nat.pow_one, Nat.toDigits_of_lt_base hlow]
    show [(n / 10 ^ 0 % 10).digitChar] = _
    rw [Nat.pow_zero, Nat.div_one]
    rfl
  | succ width ih =>
    have hshift : (fun i => (n / 10 ^ i % 10).digitChar) ∘ Nat.succ
        = fun i => (n / 10 / 10 ^ i % 10).digitChar := by
      funext i
      show (n / 10 ^ (i + 1) % 10).digitChar = _
      rw [Nat.pow_succ', Nat.div_div_eq_div_mul]
    have hhigh : n % 10 ^ (width + 2) / 10 = n / 10 % 10 ^ (width + 1) := by
      rw [Nat.pow_succ', Nat.mod_mul_right_div_self]
    have hlow : n % 10 ^ (width + 2) % 10 = n % 10 := by
      rw [Nat.pow_succ']
      exact Nat.mod_mul_right_mod n 10 _
    rw [List.range_succ_eq_map, List.map_cons, List.map_map, hshift, List.reverse_cons, ih,
      ← leftpad_toDigits_div, hhigh, hlow, Nat.pow_zero, Nat.div_one]

/-- The digits of a number of any length, of which `numDigits` are asked for. -/
theorem bytesToDecimal_eq (bytes : Bytes) {numDigits : Nat} (h : 0 < numDigits) :
    bytesToDecimal bytes numDigits
      = some (zeroPadded numDigits (bigEndian (bytes.map UInt8.toNat))) := by
  have hdata : ∀ byte ∈ bytes.map UInt8.toNat, byte < 256 := by
    intro byte hbyte
    obtain ⟨b, _, rfl⟩ := List.mem_map.mp hbyte
    exact b.toNat_lt
  refine bind_eq_of_some (decimalDigits_eq hdata) ?_
  generalize bigEndian (bytes.map UInt8.toNat) = n
  have htable : ∀ d < 10, UInt8.ofNat (d + 48) < 128 ∧
      Char.ofNat (UInt8.ofNat (d + 48)).toNat = d.digitChar := by decide
  have hdigit : ∀ i, n / 10 ^ i % 10 < 10 := fun i => Nat.mod_lt _ (by decide)
  have hascii : ∀ b ∈ ((List.range numDigits).map
      fun i => UInt8.ofNat (n / 10 ^ i % 10 + 48)).reverse, b < 128 := by
    intro b hb
    obtain ⟨i, _, rfl⟩ := List.mem_map.mp (List.mem_reverse.mp hb)
    exact (htable _ (hdigit i)).1
  obtain ⟨width, rfl⟩ : ∃ width, numDigits = width + 1 := ⟨numDigits - 1, by omega⟩
  rw [fromUtf8_eq hascii, Option.getD_some, ofAscii, List.map_reverse, List.map_map, zeroPadded,
    ← reverse_digits]
  refine congrArg (fun cs => some (String.ofList cs.reverse)) (List.map_congr_left ?_)
  intro i _
  exact (htable _ (hdigit i)).2

/-! ## base64url -/

/-- `ALPHABET`. -/
def alphabet : Bytes := asBytes "ABCDEFGHIJKLMNOPQRSTUVWXYZabcdefghijklmnopqrstuvwxyz0123456789-_"

/-- `ALPHABET[(n >> shift) as usize & 0x3F]`. -/
def letter (n shift : Nat) : UInt8 := alphabet.getD (n >>> shift &&& 0x3F) 0

/-- The letters that `base64_url_encode` writes. -/
def encodedLetters : Bytes → Bytes
  | x :: y :: z :: data =>
    let n := x.toNat <<< 16 ||| y.toNat <<< 8 ||| z.toNat
    letter n 18 :: letter n 12 :: letter n 6 :: letter n 0 :: encodedLetters data
  | [x, y] =>
    let n := x.toNat <<< 16 ||| y.toNat <<< 8
    [letter n 18, letter n 12, letter n 6]
  | [x] =>
    let n := x.toNat <<< 16
    [letter n 18, letter n 12]
  | [] => []

/-- `base64_url_encode`. -/
def base64UrlEncode (data : Bytes) : String := ofAscii (encodedLetters data)

/-- `char_to_value`. -/
def charToValue (c : UInt8) : Option UInt8 :=
  if 65 ≤ c ∧ c ≤ 90 then some (c - 65)
  else if 97 ≤ c ∧ c ≤ 122 then some (c - 97 + 26)
  else if 48 ≤ c ∧ c ≤ 57 then some (c - 48 + 52)
  else if c = 45 then some 62
  else if c = 95 then some 63
  else none

/-- The bytes that `base64_url_decode` reads.  Nothing is done with one letter
that is left over. -/
def decodeLetters : Bytes → Option Bytes
  | p :: q :: r :: s :: rest => do
    let a ← charToValue p
    let b ← charToValue q
    let c ← charToValue r
    let d ← charToValue s
    let data ← decodeLetters rest
    some ((a <<< 2 ||| b >>> 4) :: (b <<< 4 ||| c >>> 2) :: (c <<< 6 ||| d) :: data)
  | [p, q, r] => do
    let a ← charToValue p
    let b ← charToValue q
    let c ← charToValue r
    some [a <<< 2 ||| b >>> 4, b <<< 4 ||| c >>> 2]
  | [p, q] => do
    let a ← charToValue p
    let b ← charToValue q
    some [a <<< 2 ||| b >>> 4]
  | _ => some []

/-- `base64_url_decode`. -/
def base64UrlDecode (s : String) : Option Bytes := decodeLetters (asBytes s)

/-- The letter of a value. -/
theorem charToValue_alphabet {v : Nat} (h : v < 64) :
    charToValue (alphabet.getD v 0) = some (UInt8.ofNat v) := by
  revert v
  decide +kernel

theorem alphabet_lt {v : Nat} (h : v < 64) : alphabet.getD v 0 < 128 := by
  revert v
  decide

/-- Each value has one letter. -/
theorem charToValue_eq_some {c v : UInt8} (h : charToValue c = some v) :
    v.toNat < 64 ∧ c = alphabet.getD v.toNat 0 := by
  have htable : ∀ n < 256, (charToValue (UInt8.ofNat n)).all (fun v =>
      decide (v.toNat < 64 ∧ UInt8.ofNat n = alphabet.getD v.toNat 0)) = true := by
    decide +kernel
  have hc := htable c.toNat c.toNat_lt
  rw [UInt8.ofNat_toNat, h] at hc
  exact of_decide_eq_true hc

theorem letter_eq (n shift : Nat) : letter n shift = alphabet.getD (n / 2 ^ shift % 64) 0 := by
  rw [letter, Nat.shiftRight_eq_div_pow, show 0x3F = 2 ^ 6 - 1 from rfl,
    Nat.and_two_pow_sub_one_eq_mod]

theorem toNat_or {x y : UInt8} {m k : Nat} (hx : x.toNat = m * 2 ^ k) (hy : y.toNat < 2 ^ k) :
    (x ||| y).toNat = m * 2 ^ k + y.toNat := by
  rw [UInt8.toNat_or, hx, ← Nat.shiftLeft_eq, Nat.shiftLeft_add_eq_or_of_lt hy]

section Group

variable {a b c d : UInt8}

/-- The bytes of four values. -/
theorem toNat_first (ha : a.toNat < 64) (hb : b.toNat < 64) :
    (a <<< 2 ||| b >>> 4).toNat = a.toNat * 4 + b.toNat / 16 := by
  have hlow : (b >>> 4).toNat = b.toNat / 16 := by
    rw [UInt8.toNat_shiftRight, Nat.shiftRight_eq_div_pow]
    rfl
  have hhigh : (a <<< 2).toNat = a.toNat * 2 ^ 2 := by
    rw [UInt8.toNat_shiftLeft, Nat.shiftLeft_eq]
    exact Nat.mod_eq_of_lt (show a.toNat * 2 ^ 2 < 2 ^ 8 by omega)
  rw [toNat_or hhigh (by omega), hlow]
  omega

theorem toNat_second (hc : c.toNat < 64) :
    (b <<< 4 ||| c >>> 2).toNat = b.toNat % 16 * 16 + c.toNat / 4 := by
  have hlow : (c >>> 2).toNat = c.toNat / 4 := by
    rw [UInt8.toNat_shiftRight, Nat.shiftRight_eq_div_pow]
    rfl
  have hhigh : (b <<< 4).toNat = b.toNat % 16 * 2 ^ 4 := by
    rw [UInt8.toNat_shiftLeft, Nat.shiftLeft_eq]
    show b.toNat * 2 ^ 4 % 2 ^ 8 = b.toNat % 16 * 2 ^ 4
    omega
  rw [toNat_or hhigh (by omega), hlow]
  omega

theorem toNat_third (hd : d.toNat < 64) :
    (c <<< 6 ||| d).toNat = c.toNat % 4 * 64 + d.toNat := by
  have hhigh : (c <<< 6).toNat = c.toNat % 4 * 2 ^ 6 := by
    rw [UInt8.toNat_shiftLeft, Nat.shiftLeft_eq]
    show c.toNat * 2 ^ 6 % 2 ^ 8 = c.toNat % 4 * 2 ^ 6
    omega
  exact toNat_or hhigh hd

end Group

theorem group_eq (x y z : UInt8) :
    x.toNat <<< 16 ||| y.toNat <<< 8 ||| z.toNat = x.toNat * 65536 + y.toNat * 256 + z.toNat := by
  have hy := y.toNat_lt
  have hz := z.toNat_lt
  have hlow : y.toNat <<< 8 < 2 ^ 16 := by
    rw [Nat.shiftLeft_eq]
    omega
  rw [← Nat.shiftLeft_add_eq_or_of_lt hlow, Nat.shiftLeft_eq, Nat.shiftLeft_eq,
    show x.toNat * 2 ^ 16 + y.toNat * 2 ^ 8 = (x.toNat * 256 + y.toNat) * 2 ^ 8 by omega,
    ← Nat.shiftLeft_eq, ← Nat.shiftLeft_add_eq_or_of_lt hz, Nat.shiftLeft_eq]
  omega

/-- A letter of the encoder is read as the six bits it was made from. -/
theorem charToValue_letter (n shift : Nat) :
    charToValue (letter n shift) = some (UInt8.ofNat (n / 2 ^ shift % 64)) := by
  rw [letter_eq]
  exact charToValue_alphabet (Nat.mod_lt _ (by decide))

theorem toNat_sextet (n : Nat) : (UInt8.ofNat (n % 64)).toNat = n % 64 := by
  rw [UInt8.toNat_ofNat']
  omega

/-- The decoder undoes the encoder on whole groups, whatever single letter
follows. -/
theorem decodeLetters_append {data stray : Bytes} (hdata : data.length % 3 = 0)
    (hstray : stray.length ≤ 1) : decodeLetters (encodedLetters data ++ stray) = some data := by
  fun_induction encodedLetters data with
  | case1 x y z data n ih =>
    have hx := x.toNat_lt
    have hy := y.toNat_lt
    have hz := z.toNat_lt
    have hn : n = x.toNat * 65536 + y.toNat * 256 + z.toNat := group_eq x y z
    have hsextet : ∀ k, (UInt8.ofNat (n / 2 ^ k % 64)).toNat < 64 := by
      intro k
      rw [toNat_sextet]
      omega
    have hrest : decodeLetters (encodedLetters data ++ stray) = some data := by
      refine ih ?_
      rw [List.length_cons, List.length_cons, List.length_cons] at hdata
      omega
    refine bind_eq_of_some (charToValue_letter n 18) (bind_eq_of_some (charToValue_letter n 12)
      (bind_eq_of_some (charToValue_letter n 6) (bind_eq_of_some (charToValue_letter n 0)
      (bind_eq_of_some hrest ?_))))
    refine congrArg some (List.cons_eq_cons.mpr ⟨?_, List.cons_eq_cons.mpr ⟨?_,
      List.cons_eq_cons.mpr ⟨?_, rfl⟩⟩⟩)
    · apply UInt8.toNat_inj.mp
      rw [toNat_first (hsextet 18) (hsextet 12), toNat_sextet, toNat_sextet]
      omega
    · apply UInt8.toNat_inj.mp
      rw [toNat_second (hsextet 6), toNat_sextet, toNat_sextet]
      omega
    · apply UInt8.toNat_inj.mp
      rw [toNat_third (hsextet 0), toNat_sextet, toNat_sextet]
      omega
  | case2 x y => exact absurd hdata (show ¬2 % 3 = 0 by decide)
  | case3 x => exact absurd hdata (show ¬1 % 3 = 0 by decide)
  | case4 =>
    cases stray with
    | nil => rfl
    | cons b stray =>
      rw [List.length_cons] at hstray
      have hnil : stray = [] := List.length_eq_zero_iff.mp (by omega)
      rw [hnil]
      rfl

/-- Whole groups come from the encoder, but for a single letter behind them. -/
theorem decodeLetters_eq_some {s data : Bytes} (hdata : data.length % 3 = 0)
    (h : decodeLetters s = some data) :
    ∃ stray, stray.length ≤ 1 ∧ s = encodedLetters data ++ stray := by
  fun_induction decodeLetters s generalizing data with
  | case1 p q r s rest ih =>
    simp only [bind, Option.bind_eq_some_iff, Option.some.injEq] at h
    obtain ⟨a, ha, b, hb, c, hc, d, hd, tail, htail, rfl⟩ := h
    obtain ⟨halt, rfl⟩ := charToValue_eq_some ha
    obtain ⟨hblt, rfl⟩ := charToValue_eq_some hb
    obtain ⟨hclt, rfl⟩ := charToValue_eq_some hc
    obtain ⟨hdlt, rfl⟩ := charToValue_eq_some hd
    have hlength : tail.length % 3 = 0 := by
      rw [List.length_cons, List.length_cons, List.length_cons] at hdata
      omega
    obtain ⟨stray, hstray, rfl⟩ := ih hlength htail
    refine ⟨stray, hstray, ?_⟩
    rw [encodedLetters]
    simp only [letter_eq, group_eq]
    rw [toNat_first halt hblt, toNat_second hclt, toNat_third hdlt]
    generalize a.toNat = a at *
    generalize b.toNat = b at *
    generalize c.toNat = c at *
    generalize d.toNat = d at *
    generalize hn : (a * 4 + b / 16) * 65536 + (b % 16 * 16 + c / 4) * 256 + (c % 4 * 64 + d) = n
    have h18 : n / 2 ^ 18 % 64 = a := by omega
    have h12 : n / 2 ^ 12 % 64 = b := by omega
    have h6 : n / 2 ^ 6 % 64 = c := by omega
    have h0 : n / 2 ^ 0 % 64 = d := by omega
    rw [h18, h12, h6, h0]
    rfl
  | case2 p q r =>
    simp only [bind, Option.bind_eq_some_iff, Option.some.injEq] at h
    obtain ⟨a, _, b, _, c, _, rfl⟩ := h
    exact absurd hdata (show ¬2 % 3 = 0 by decide)
  | case3 p q =>
    simp only [bind, Option.bind_eq_some_iff, Option.some.injEq] at h
    obtain ⟨a, _, b, _, rfl⟩ := h
    exact absurd hdata (show ¬1 % 3 = 0 by decide)
  | case4 s hfour hthree htwo =>
    cases h
    refine ⟨s, ?_, rfl⟩
    cases s with
    | nil => simp
    | cons p s =>
      cases s with
      | nil => simp
      | cons q s =>
        cases s with
        | nil => exact (htwo p q rfl).elim
        | cons r s =>
          cases s with
          | nil => exact (hthree p q r rfl).elim
          | cons t s => exact (hfour p q r t s rfl).elim

theorem length_encodedLetters {data : Bytes} (hdata : data.length % 3 = 0) :
    (encodedLetters data).length = data.length / 3 * 4 := by
  fun_induction encodedLetters data with
  | case1 x y z data n ih =>
    simp only [List.length_cons] at hdata ⊢
    rw [ih (by omega)]
    omega
  | case2 x y => exact absurd hdata (show ¬2 % 3 = 0 by decide)
  | case3 x => exact absurd hdata (show ¬1 % 3 = 0 by decide)
  | case4 => rfl

theorem letter_lt (n shift : Nat) : letter n shift < 128 := by
  rw [letter_eq]
  exact alphabet_lt (Nat.mod_lt _ (by decide))

theorem encodedLetters_lt (data : Bytes) : ∀ b ∈ encodedLetters data, b < 128 := by
  fun_induction encodedLetters data with
  | case1 x y z data n ih => simpa [letter_lt] using ih
  | case2 x y n => simp [letter_lt]
  | case3 x n => simp [letter_lt]
  | case4 => simp

theorem asBytes_base64UrlEncode (data : Bytes) :
    asBytes (base64UrlEncode data) = encodedLetters data :=
  asBytes_ofAscii (encodedLetters_lt data)

/-- What the decoder reads as whole groups. -/
theorem base64UrlDecode_eq_some {s : String} {data : Bytes} (hdata : data.length % 3 = 0) :
    base64UrlDecode s = some data ↔
      s = base64UrlEncode data ∨ ∃ b, asBytes s = asBytes (base64UrlEncode data) ++ [b] := by
  rw [asBytes_base64UrlEncode]
  constructor
  · intro h
    obtain ⟨stray, hstray, hs⟩ := decodeLetters_eq_some hdata h
    cases stray with
    | nil =>
      rw [List.append_nil, ← asBytes_base64UrlEncode] at hs
      exact .inl (asBytes_inj hs)
    | cons b stray =>
      rw [List.length_cons] at hstray
      have hnil : stray = [] := List.length_eq_zero_iff.mp (by omega)
      exact .inr ⟨b, by rw [hs, hnil]⟩
  · intro h
    rw [base64UrlDecode]
    obtain rfl | ⟨b, hs⟩ := h
    · have hwhole : decodeLetters (encodedLetters data ++ []) = some data :=
        decodeLetters_append hdata (by simp)
      rwa [List.append_nil, ← asBytes_base64UrlEncode] at hwhole
    · rw [hs]
      exact decodeLetters_append hdata (by simp)

/-! ## The QR code -/

namespace SafetyNumber

/-- The decimal digits that `display` shows. -/
def decimal (n : SafetyNumber) : Option String := bytesToDecimal (n.fingerprint.val.take 30) 60

/-- `to_qr_string`. -/
def toQrString (n : SafetyNumber) : String := base64UrlEncode (1 :: n.fingerprint.val)

/-- `from_qr_string`. -/
def fromQrString (s : String) : Option SafetyNumber := do
  let data ← base64UrlDecode s
  if h : data.length = 33 ∧ data.head? = some 1 then
    some ⟨⟨data.drop 1, by rw [List.length_drop, h.1]⟩⟩
  else none

theorem fromQrString_eq_some {s : String} {n : SafetyNumber} :
    fromQrString s = some n ↔ base64UrlDecode s = some (1 :: n.fingerprint.val) := by
  have hlength : (1 :: n.fingerprint.val).length = 33 := by
    rw [List.length_cons, FixedBytes.length_coe]
  constructor
  · intro h
    simp only [fromQrString, bind, Option.bind_eq_some_iff] at h
    obtain ⟨data, hdata, hn⟩ := h
    split at hn
    · next hformat =>
      cases hn
      rw [hdata]
      cases data with
      | nil => exact absurd hformat.1 (by simp)
      | cons version data =>
        have hversion : version = 1 := Option.some.inj hformat.2
        show some (version :: data) = some (1 :: data)
        rw [hversion]
    · cases hn
  · intro h
    refine bind_eq_of_some h ?_
    rw [dif_pos ⟨hlength, rfl⟩]
    rfl

/-- What `from_qr_string` accepts: the string of the number, or that string with one
byte behind it. -/
theorem fromQrString_iff {s : String} {n : SafetyNumber} :
    fromQrString s = some n ↔
      s = toQrString n ∨ ∃ b, asBytes s = asBytes (toQrString n) ++ [b] := by
  rw [fromQrString_eq_some]
  exact base64UrlDecode_eq_some (by simp)

theorem length_asBytes_toQrString (n : SafetyNumber) : (asBytes (toQrString n)).length = 44 := by
  rw [toQrString, asBytes_base64UrlEncode, length_encodedLetters (by simp), List.length_cons,
    FixedBytes.length_coe]

/-- The digits are those of the first thirty bytes, the QR string is read back, and
a string that is accepted is the QR string of the result unless its last byte is
one too many. -/
theorem text_forms_exact (n : SafetyNumber) (s : String) :
    n.decimal = some (zeroPadded 60 (bigEndian ((n.fingerprint.val.take 30).map UInt8.toNat))) ∧
      ((toQrString n).length = 44 ∧ fromQrString (toQrString n) = some n) ∧
      ((∀ m, fromQrString s = some m → s = toQrString m) ↔
        ¬∃ (m : SafetyNumber) (b : UInt8), asBytes s = asBytes (toQrString m) ++ [b]) := by
  refine ⟨bytesToDecimal_eq _ (by decide), ⟨?_, fromQrString_iff.mpr (.inl rfl)⟩, ?_⟩
  · rw [← length_asBytes_toQrString n, toQrString, asBytes_base64UrlEncode]
    exact length_ofAscii _
  · constructor
    · intro hexact hex
      rcases hex with ⟨m, b, hs⟩
      have hsame : s = toQrString m := hexact m (fromQrString_iff.mpr (.inr ⟨b, hs⟩))
      have hlength := congrArg List.length hs
      rw [hsame, List.length_append, List.length_singleton] at hlength
      omega
    · intro hno m h
      obtain hs | ⟨b, hs⟩ := fromQrString_iff.mp h
      · exact hs
      · exact absurd ⟨m, b, hs⟩ hno

/-- The QR string of the number zero with an exclamation mark behind it. -/
theorem stray_character_accepted :
    fromQrString "AQAAAAAAAAAAAAAAAAAAAAAAAAAAAAAAAAAAAAAAAAAA!" = some ⟨FixedBytes.zero 32⟩ ∧
      toQrString ⟨FixedBytes.zero 32⟩ = "AQAAAAAAAAAAAAAAAAAAAAAAAAAAAAAAAAAAAAAAAAAA" ∧
      ¬∀ (s : String) (n : SafetyNumber), fromQrString s = some n → s = toQrString n := by
  have haccepted : fromQrString "AQAAAAAAAAAAAAAAAAAAAAAAAAAAAAAAAAAAAAAAAAAA!"
      = some ⟨FixedBytes.zero 32⟩ := by decide +kernel
  have hwritten : toQrString ⟨FixedBytes.zero 32⟩
      = "AQAAAAAAAAAAAAAAAAAAAAAAAAAAAAAAAAAAAAAAAAAA" := by decide +kernel
  refine ⟨haccepted, hwritten, ?_⟩
  intro h
  have hsame := h _ _ haccepted
  rw [hwritten] at hsame
  exact absurd hsame (by decide +kernel)

end SafetyNumber

end Trelis.Hybrid
