import Trelis.Lib.Bytes

/-!
# Text and its bytes

A string is the UTF-8 encoding of its characters.  `asBytes` reads that encoding
as a byte string, and it is injective.  On text whose characters are all below
128 there is one byte for each character, so that such a text can be written
down and read back byte by byte (`asBytes_ofAscii`, `fromUtf8_eq`).
-/

namespace Trelis

/-- `as_bytes`. -/
def asBytes (s : String) : Bytes := s.toByteArray.data.toList

/-- The text with these characters, one for each byte: `as char`. -/
def ofAscii (bytes : Bytes) : String := String.ofList (bytes.map fun b => Char.ofNat b.toNat)

/-- `String::from_utf8`. -/
def fromUtf8 (bytes : Bytes) : Option String := String.fromUTF8? ⟨bytes.toArray⟩

theorem asBytes_inj {s t : String} (h : asBytes s = asBytes t) : s = t := by
  apply String.toByteArray_inj.mp
  apply ByteArray.ext
  exact Array.toList_inj.mp h

theorem asBytes_ofList (cs : List Char) :
    asBytes (String.ofList cs) = cs.flatMap String.utf8EncodeChar := by
  rw [asBytes, String.toByteArray_ofList, List.utf8Encode, List.data_toByteArray]

/-- A byte below 128 is the encoding of its character. -/
theorem utf8EncodeChar_ofNat {b : UInt8} (h : b < 128) :
    String.utf8EncodeChar (Char.ofNat b.toNat) = [b] := by
  have htable : ∀ n < 128, String.utf8EncodeChar (Char.ofNat n) = [UInt8.ofNat n] := by decide
  have hbyte := htable b.toNat (UInt8.lt_iff_toNat_lt.mp h)
  rwa [UInt8.ofNat_toNat] at hbyte

theorem asBytes_ofAscii {bytes : Bytes} (h : ∀ b ∈ bytes, b < 128) :
    asBytes (ofAscii bytes) = bytes := by
  rw [ofAscii, asBytes_ofList]
  induction bytes with
  | nil => rfl
  | cons b bytes ih =>
    rw [List.map_cons, List.flatMap_cons, utf8EncodeChar_ofNat (h b (by simp)),
      ih fun c hc => h c (by simp [hc])]
    rfl

theorem length_ofAscii (bytes : Bytes) : (ofAscii bytes).length = bytes.length := by
  rw [ofAscii, String.length_ofList, List.length_map]

/-- Text is read back from its bytes. -/
theorem fromUtf8_asBytes (s : String) : fromUtf8 (asBytes s) = some s := by
  have harray : (⟨(asBytes s).toArray⟩ : ByteArray) = s.toByteArray := rfl
  rw [fromUtf8, harray, String.fromUTF8?, dif_pos s.isValidUTF8]
  rfl

theorem fromUtf8_eq {bytes : Bytes} (h : ∀ b ∈ bytes, b < 128) :
    fromUtf8 bytes = some (ofAscii bytes) := by
  rw [← fromUtf8_asBytes (ofAscii bytes), asBytes_ofAscii h]

end Trelis
