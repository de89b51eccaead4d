import Trelis.Lib.Calls
import Trelis.Lib.PackedWords
import Trelis.Lib.Panic
import Trelis.Lib.Slices
import Trelis.MlDsa.Poly

/-!
# Byte encodings of polynomials

`byte_encode` and `byte_decode` of `mldsa_core/module_lattice/encode.rs`, and
`BitPack` of `mldsa_core/encode.rs`.

Coefficients of `d` bits are packed in groups: `valueStep d` of them fill
`byteStep d` bytes.  Encoding and decoding are inverse in both directions, on the
coefficients below `2 ^ d` (`byteDecode_byteEncode`) and on the byte strings of the
right length (`byteEncode_byteDecode`).  `BitPack` stores `w` as `b - w`, and unpacking
accepts the packed polynomials and nothing else (`checkedUnpack_eq_some`).  The range
`(gamma1 - 1, gamma1)` is all of `d` bits, so that there every byte string of the right
length is a packed polynomial (`pack_unpack`).

The special case of the source for twelve bits, which is that of another scheme,
never reduces anything below `Q` and is left out.
-/

namespace Trelis.MlDsa

/-- `EncodingUnit`: the least common multiple of a coefficient and a byte. -/
def encodingUnit (d : Nat) : Nat := d * 8 / Nat.gcd d 8

/-- `ValueStep`: the coefficients of a group. -/
def valueStep (d : Nat) : Nat := encodingUnit d / d

/-- `ByteStep`: the bytes of a group. -/
def byteStep (d : Nat) : Nat := encodingUnit d / 8

/-- The groups of a polynomial. -/
def groups (d : Nat) : Nat := 256 / valueStep d

/-- `byte_encode`. -/
def byteEncode (d : Nat) (f : Polynomial) : Bytes :=
  (List.range (groups d)).flatMap fun c =>
    leBytes (byteStep d)
      (packWords d (fun j => (Polynomial.coeff f (valueStep d * c + j)).val) (valueStep d))

/-- `byte_decode`. -/
def byteDecode (d : Nat) (bytes : Bytes) : Polynomial := fun i =>
  let group := sliceAt bytes (byteStep d * (i.val / valueStep d)) (byteStep d)
  Elem.new (unpackWord d (leValue group) (i.val % valueStep d))

section Steps

variable {d : Nat}

theorem dvd_encodingUnit (d : Nat) : d ∣ encodingUnit d ∧ 8 ∣ encodingUnit d := by
  have hd : Nat.gcd d 8 ∣ d := Nat.gcd_dvd_left d 8
  have h8 : Nat.gcd d 8 ∣ 8 := Nat.gcd_dvd_right d 8
  refine ⟨⟨8 / Nat.gcd d 8, Nat.mul_div_assoc d h8⟩, ⟨d / Nat.gcd d 8, ?_⟩⟩
  rw [encodingUnit, Nat.mul_comm d 8, Nat.mul_div_assoc 8 hd]

/-- The bits of a group. -/
theorem mul_valueStep (d : Nat) : d * valueStep d = 8 * byteStep d := by
  rw [valueStep, byteStep, Nat.mul_div_cancel' (dvd_encodingUnit d).1,
    Nat.mul_div_cancel' (dvd_encodingUnit d).2]

theorem valueStep_eq (hd : 0 < d) : valueStep d = 8 / Nat.gcd d 8 := by
  rw [valueStep, encodingUnit, Nat.mul_div_assoc d (Nat.gcd_dvd_right d 8),
    Nat.mul_div_cancel_left _ hd]

theorem valueStep_dvd (hd : 0 < d) : valueStep d ∣ 8 := by
  rw [valueStep_eq hd]
  exact Nat.div_dvd_of_dvd (Nat.gcd_dvd_right d 8)

theorem valueStep_pos (hd : 0 < d) : 0 < valueStep d :=
  Nat.pos_of_dvd_of_pos (valueStep_dvd hd) (by decide)

theorem valueStep_mul_groups (hd : 0 < d) : valueStep d * groups d = 256 :=
  Nat.mul_div_cancel' ((valueStep_dvd hd).trans (by decide))

/-- The bytes of a polynomial. -/
theorem byteStep_mul_groups (hd : 0 < d) : byteStep d * groups d = 32 * d := by
  have hbits : 8 * (byteStep d * groups d) = 8 * (32 * d) := by
    calc 8 * (byteStep d * groups d) = d * valueStep d * groups d := by
          rw [← Nat.mul_assoc, mul_valueStep]
      _ = d * 256 := by rw [Nat.mul_assoc, valueStep_mul_groups hd]
      _ = 8 * (32 * d) := by omega
  omega

theorem pow_byteStep (d : Nat) : 256 ^ byteStep d = 2 ^ (d * valueStep d) := by
  rw [mul_valueStep, Nat.pow_mul]

/-- The coefficient of a group, and the group of a coefficient. -/
theorem index_lt {c j : Nat} (hd : 0 < d) (hc : c < groups d) (hj : j < valueStep d) :
    valueStep d * c + j < 256 ∧ (valueStep d * c + j) / valueStep d = c ∧
      (valueStep d * c + j) % valueStep d = j := by
  have hle : valueStep d * (c + 1) ≤ valueStep d * groups d := Nat.mul_le_mul_left _ hc
  rw [valueStep_mul_groups hd, Nat.mul_succ] at hle
  refine ⟨by omega, ?_, ?_⟩
  · rw [Nat.mul_add_div (valueStep_pos hd), Nat.div_eq_of_lt hj, Nat.add_zero]
  · rw [Nat.mul_add_mod, Nat.mod_eq_of_lt hj]

theorem div_valueStep_lt (hd : 0 < d) (i : Fin 256) : i.val / valueStep d < groups d := by
  rw [Nat.div_lt_iff_lt_mul (valueStep_pos hd), Nat.mul_comm, valueStep_mul_groups hd]
  exact i.isLt

end Steps

section RoundTrip

variable {d : Nat} {f : Polynomial} {bytes : Bytes}

theorem length_byteEncode (hd : 0 < d) (f : Polynomial) : (byteEncode d f).length = 32 * d := by
  rw [byteEncode, length_flatMap_range fun c _ => leBytes_length _ _, byteStep_mul_groups hd]

/-- What is encoded is decoded again. -/
theorem byteDecode_byteEncode (hd : 0 < d) (hf : ∀ i, (f i).val < 2 ^ d) :
    byteDecode d (byteEncode d f) = f := by
  have hcoeff : ∀ n, (Polynomial.coeff f n).val < 2 ^ d := by
    intro n
    unfold Polynomial.coeff
    split
    · exact hf _
    · rw [Elem.val_zero]
      exact Nat.two_pow_pos d
  funext i
  have hgroup := div_valueStep_lt hd i
  have hj : i.val % valueStep d < valueStep d := Nat.mod_lt _ (valueStep_pos hd)
  have hpack : packWords d
      (fun j => (Polynomial.coeff f (valueStep d * (i.val / valueStep d) + j)).val) (valueStep d) <
        256 ^ byteStep d := by
    rw [pow_byteStep]
    exact packWords_lt fun j _ => hcoeff _
  simp only [byteDecode, byteEncode]
  rw [sliceAt_flatMap_range (fun c _ => leBytes_length _ _) hgroup, leValue_leBytes hpack,
    unpackWord_packWords (fun j _ => hcoeff _) hj, Nat.div_add_mod, Polynomial.coeff_val,
    Elem.new_val]

/-- A coefficient that was decoded. -/
theorem val_byteDecode (hq : 2 ^ d ≤ q) (i : Fin 256) :
    (byteDecode d bytes i).val =
      unpackWord d (leValue (sliceAt bytes (byteStep d * (i.val / valueStep d)) (byteStep d)))
        (i.val % valueStep d) :=
  Elem.val_new_of_lt ((unpackWord_lt d _ _).trans_le hq)

theorem val_byteDecode_lt (hq : 2 ^ d ≤ q) (i : Fin 256) : (byteDecode d bytes i).val < 2 ^ d := by
  rw [val_byteDecode hq]
  exact unpackWord_lt d _ _

/-- What is decoded is encoded again as the bytes that it was read from. -/
theorem byteEncode_byteDecode (hd : 0 < d) (hq : 2 ^ d ≤ q) (hlen : bytes.length = 32 * d) :
    byteEncode d (byteDecode d bytes) = bytes := by
  have hblocks : bytes.length = byteStep d * groups d := by rw [hlen, byteStep_mul_groups hd]
  conv_rhs => rw [← flatMap_range_sliceAt hblocks]
  rw [byteEncode]
  apply List.flatMap_congr
  intro c hc
  rw [List.mem_range] at hc
  have hend : byteStep d * c + byteStep d ≤ bytes.length := by
    rw [← Nat.mul_succ, hblocks]
    exact Nat.mul_le_mul_left _ hc
  have hslice : (sliceAt bytes (byteStep d * c) (byteStep d)).length = byteStep d :=
    length_sliceAt hend
  have hvalue := leValue_lt (sliceAt bytes (byteStep d * c) (byteStep d))
  rw [hslice, pow_byteStep] at hvalue
  have hwords : packWords d
      (fun j => (Polynomial.coeff (byteDecode d bytes) (valueStep d * c + j)).val) (valueStep d) =
        packWords d (unpackWord d (leValue (sliceAt bytes (byteStep d * c) (byteStep d))))
          (valueStep d) := by
    apply packWords_congr
    intro j hj
    rcases index_lt hd hc hj with ⟨hlt, hdiv, hmod⟩
    rw [Polynomial.coeff_of_lt _ hlt, val_byteDecode hq]
    simp only [hdiv, hmod]
  rw [hwords, packWords_unpackWord, Nat.mod_eq_of_lt hvalue]
  have hback := leBytes_leValue (sliceAt bytes (byteStep d * c) (byteStep d))
  rw [hslice] at hback
  exact hback

end RoundTrip

/-! ## Ranges -/

/-- The assertion of `pack`. -/
def InRange (a b : Nat) (f : Polynomial) : Prop :=
  ∀ i, (f i).val ≤ (Elem.new b).val ∨ (-Elem.new a).val ≤ (f i).val

instance (a b : Nat) (f : Polynomial) : Decidable (InRange a b f) :=
  inferInstanceAs (Decidable (∀ _, _))

/-- `pack`. -/
def pack (a b d : Nat) (f : Polynomial) : Option Bytes :=
  if InRange a b f then some (byteEncode d fun i => Elem.new b - f i) else none

/-- `unpack` without its assertion, that each decoded number is at most `a + b`: it holds
of the ranges whose numbers are all those of `d` bits (`byteDecode_le`). -/
def unpack (b d : Nat) (bytes : Bytes) : Polynomial := fun i => Elem.new b - byteDecode d bytes i

/-- `unpack` with its assertion. -/
def checkedUnpack (a b d : Nat) (bytes : Bytes) : Option Polynomial :=
  if ∀ i, (byteDecode d bytes i).val ≤ (Elem.new a + Elem.new b).val then some (unpack b d bytes)
  else none

/-- The numbers of the range have `d` bits, and the field has room for all of those. -/
structure FitsWidth (a b d : Nat) : Prop where
  pos : 0 < a
  sum_lt : a + b < 2 ^ d
  le : 2 ^ d ≤ q

/-- The range is all of the numbers of `d` bits, and the field has room for it. -/
structure FullRange (a b d : Nat) : Prop where
  pos : 0 < a
  sum_eq : a + b + 1 = 2 ^ d
  le : 2 ^ d ≤ q

section Range

variable {a b d : Nat} {f : Polynomial} {bytes : Bytes}

theorem FullRange.fitsWidth (h : FullRange a b d) : FitsWidth a b d :=
  ⟨h.pos, Nat.lt_of_succ_le h.sum_eq.le, h.le⟩

theorem FitsWidth.width_pos (h : FitsWidth a b d) : 0 < d := by
  rcases Nat.eq_zero_or_pos d with h0 | h0
  · have hsum := h.sum_lt
    have hpos := h.pos
    rw [h0, Nat.pow_zero] at hsum
    omega
  · exact h0

theorem FitsWidth.val_new (h : FitsWidth a b d) :
    (Elem.new b).val = b ∧ (-Elem.new a).val = q - a ∧ (Elem.new a + Elem.new b).val = a + b := by
  have hsum := h.sum_lt
  have hle := h.le
  have hpos := h.pos
  refine ⟨Elem.val_new_of_lt (by omega), ?_, ?_⟩
  · rw [Elem.val_neg, Elem.val_new_of_lt (by omega), Nat.mod_eq_of_lt (by omega)]
  · rw [Elem.val_add, Elem.val_new_of_lt (by omega), Elem.val_new_of_lt (by omega),
      Nat.mod_eq_of_lt (by omega)]

/-- The coefficients in range are those whose distance to `b` is at most `a + b`. -/
theorem inRange_iff (h : FitsWidth a b d) :
    InRange a b f ↔ ∀ i, (Elem.new b - f i).val ≤ a + b := by
  apply forall_congr'
  intro i
  have hlt := (f i).lt
  have hsum := h.sum_lt
  have hle := h.le
  rw [Elem.val_sub, h.val_new.1, h.val_new.2.1]
  by_cases hb : (f i).val ≤ b
  · rw [Nat.mod_eq_sub_mod (by omega), Nat.mod_eq_of_lt (by omega)]
    omega
  · rw [Nat.mod_eq_of_lt (by omega)]
    omega

/-- What was unpacked is in range where the assertion of `unpack` holds. -/
theorem inRange_unpack_iff (h : FitsWidth a b d) (bytes : Bytes) :
    InRange a b (unpack b d bytes) ↔ ∀ i, (byteDecode d bytes i).val ≤ a + b := by
  rw [inRange_iff h]
  apply forall_congr'
  intro i
  rw [unpack, sub_sub_cancel]

theorem pack_eq_some :
    pack a b d f = some bytes ↔
      InRange a b f ∧ byteEncode d (fun i => Elem.new b - f i) = bytes := by
  rw [pack, Option.ite_none_right_eq_some, Option.some.injEq]

/-- What is packed is unpacked again. -/
theorem unpack_pack (h : FitsWidth a b d) (hpack : pack a b d f = some bytes) :
    unpack b d bytes = f := by
  obtain ⟨hrange, hbytes⟩ := pack_eq_some.mp hpack
  have hlt : ∀ i, (Elem.new b - f i).val < 2 ^ d :=
    fun i => ((inRange_iff h).mp hrange i).trans_lt h.sum_lt
  funext i
  rw [unpack, ← hbytes, byteDecode_byteEncode h.width_pos hlt]
  exact sub_sub_cancel _ _

theorem pack_unpack_of_le (h : FitsWidth a b d) (hlen : bytes.length = 32 * d)
    (hle : ∀ i, (byteDecode d bytes i).val ≤ a + b) :
    pack a b d (unpack b d bytes) = some bytes := by
  have hback : (fun i => Elem.new b - unpack b d bytes i) = byteDecode d bytes := by
    funext i
    exact sub_sub_cancel _ _
  rw [pack_eq_some, hback]
  exact ⟨(inRange_unpack_iff h bytes).mpr hle, byteEncode_byteDecode h.width_pos h.le hlen⟩

/-- Unpacking accepts the packed polynomials and nothing else. -/
theorem checkedUnpack_eq_some (h : FitsWidth a b d) (hlen : bytes.length = 32 * d) :
    checkedUnpack a b d bytes = some f ↔ pack a b d f = some bytes := by
  rw [checkedUnpack, Option.ite_none_right_eq_some, h.val_new.2.2, Option.some.injEq]
  constructor
  · intro haccepted
    rw [← haccepted.2]
    exact pack_unpack_of_le h hlen haccepted.1
  · intro hpack
    have hback := unpack_pack h hpack
    refine ⟨(inRange_unpack_iff h bytes).mp ?_, hback⟩
    rw [hback]
    exact (pack_eq_some.mp hpack).1

/-- The assertion of `unpack` holds where the range is full. -/
theorem byteDecode_le (h : FullRange a b d) (bytes : Bytes) (i : Fin 256) :
    (byteDecode d bytes i).val ≤ a + b := by
  have hlt : (byteDecode d bytes i).val < 2 ^ d := val_byteDecode_lt h.le i
  have hsum := h.sum_eq
  omega

/-- Every byte string is packed again as it was. -/
theorem pack_unpack (h : FullRange a b d) (hlen : bytes.length = 32 * d) :
    pack a b d (unpack b d bytes) = some bytes :=
  pack_unpack_of_le h.fitsWidth hlen (byteDecode_le h bytes)

theorem length_pack (hd : 0 < d) (hpack : pack a b d f = some bytes) : bytes.length = 32 * d := by
  rw [← (pack_eq_some.mp hpack).2, length_byteEncode hd]

/-- Coefficients of a small norm are in range. -/
theorem inRange_of_norm_le (h : FitsWidth a b d) (hab : a ≤ b)
    (hf : ∀ i, (f i).infinityNorm ≤ a) : InRange a b f := by
  intro i
  have hnorm := hf i
  have hlt := (f i).lt
  rw [h.val_new.1, h.val_new.2.1]
  unfold Elem.infinityNorm at hnorm
  split at hnorm <;> omega

end Range

/-! ## Vectors -/

/-- `encode` of a vector: the polynomials one after another. -/
def encodeVector {k : Nat} (d : Nat) (v : Vector k) : Bytes :=
  (List.finRange k).flatMap fun r => byteEncode d (v r)

/-- `pack` of a vector. -/
def packVector {l : Nat} (a b d : Nat) (v : Vector l) : Option Bytes := do
  let polys ← (List.finRange l).mapM fun r => pack a b d (v r)
  pure polys.flatten

/-- `unpack` of a vector. -/
def unpackVector {l : Nat} (b d : Nat) (bytes : Bytes) : Vector l := fun r =>
  unpack b d (sliceAt bytes (32 * d * r.val) (32 * d))

/-- `unpack` of a vector, with its assertions. -/
def checkedUnpackVector {l : Nat} (a b d : Nat) (bytes : Bytes) : Option (Vector l) :=
  arrayFromFn fun r => checkedUnpack a b d (sliceAt bytes (32 * d * r.val) (32 * d))

section Vectors

variable {l a b d : Nat} {v : Vector l} {bytes : Bytes}

/-- A vector is packed when each of its polynomials is. -/
theorem packVector_eq_some :
    packVector a b d v = some bytes ↔
      ∃ e : Fin l → Bytes, (∀ r, pack a b d (v r) = some (e r)) ∧
        bytes = (List.finRange l).flatMap e := by
  simp only [packVector, bind, pure, Option.bind_eq_some_iff, Option.some.injEq, mapM_eq_some]
  constructor
  · intro h
    rcases h with ⟨polys, hpolys, hbytes⟩
    have hall : ∀ r, ∃ e, pack a b d (v r) = some e := by
      intro r
      have hmem : pack a b d (v r) ∈ polys.map some := by
        rw [← hpolys]
        exact List.mem_map_of_mem (List.mem_finRange r)
      obtain ⟨e, _, he⟩ := List.mem_map.mp hmem
      exact ⟨e, he.symm⟩
    choose e he using hall
    refine ⟨e, he, ?_⟩
    simp only [he] at hpolys
    have hmap : polys = (List.finRange l).map e := by
      apply List.map_injective_iff.mpr (Option.some_injective _)
      rw [← hpolys, List.map_map]
      rfl
    rw [← hbytes, hmap]
    rfl
  · intro h
    rcases h with ⟨e, he, rfl⟩
    refine ⟨(List.finRange l).map e, ?_, rfl⟩
    simp only [he, List.map_map]
    rfl

theorem length_packVector (hd : 0 < d) (h : packVector a b d v = some bytes) :
    bytes.length = 32 * d * l := by
  obtain ⟨e, he, rfl⟩ := packVector_eq_some.mp h
  exact length_flatMap_finRange fun r => length_pack hd (he r)

theorem unpackVector_packVector (h : FitsWidth a b d) (hpack : packVector a b d v = some bytes) :
    unpackVector b d bytes = v := by
  obtain ⟨e, he, rfl⟩ := packVector_eq_some.mp hpack
  funext r
  rw [unpackVector, sliceAt_flatMap_finRange (fun r => length_pack h.width_pos (he r))]
  exact unpack_pack h (he r)

theorem packVector_unpackVector (h : FullRange a b d) (hlen : bytes.length = 32 * d * l) :
    packVector a b d (unpackVector b d bytes : Vector l) = some bytes := by
  have hend : ∀ r : Fin l, 32 * d * r.val + 32 * d ≤ bytes.length := by
    intro r
    rw [hlen, ← Nat.mul_succ]
    exact Nat.mul_le_mul_left _ r.isLt
  refine packVector_eq_some.mpr ⟨fun r => sliceAt bytes (32 * d * r.val) (32 * d), ?_, ?_⟩
  · intro r
    exact pack_unpack h (length_sliceAt (hend r))
  · exact (flatMap_finRange_sliceAt hlen).symm

/-- Unpacking accepts the packed vectors and nothing else. -/
theorem checkedUnpackVector_eq_some (h : FitsWidth a b d) (hlen : bytes.length = 32 * d * l) :
    checkedUnpackVector a b d bytes = some v ↔ packVector a b d v = some bytes := by
  have hslice : ∀ r : Fin l, (sliceAt bytes (32 * d * r.val) (32 * d)).length = 32 * d := by
    intro r
    apply length_sliceAt
    rw [hlen, ← Nat.mul_succ]
    exact Nat.mul_le_mul_left _ r.isLt
  rw [checkedUnpackVector, arrayFromFn_eq_some, packVector_eq_some]
  constructor
  · intro hrows
    refine ⟨fun r => sliceAt bytes (32 * d * r.val) (32 * d), ?_, ?_⟩
    · intro r
      exact (checkedUnpack_eq_some h (hslice r)).mp (hrows r)
    · exact (flatMap_finRange_sliceAt hlen).symm
  · intro hpack r
    obtain ⟨e, he, rfl⟩ := hpack
    rw [sliceAt_flatMap_finRange fun r => length_pack h.width_pos (he r)]
    exact (checkedUnpack_eq_some h (length_pack h.width_pos (he r))).mpr (he r)

/-- When the assertions hold. -/
theorem exists_checkedUnpackVector_iff (h : FitsWidth a b d) :
    (∃ v : Vector l, checkedUnpackVector a b d bytes = some v) ↔
      ∀ (r : Fin l) i, (byteDecode d (sliceAt bytes (32 * d * r.val) (32 * d)) i).val ≤ a + b := by
  simp only [checkedUnpackVector, arrayFromFn_eq_some, checkedUnpack,
    Option.ite_none_right_eq_some, h.val_new.2.2]
  constructor
  · intro hrows r
    obtain ⟨v, hv⟩ := hrows
    exact (hv r).1
  · intro hrows
    exact ⟨_, fun r => ⟨hrows r, rfl⟩⟩

end Vectors

end Trelis.MlDsa
