import Trelis.Lib.Slices

/-!
# Reading fields of fixed sizes

A format that is a row of fields of fixed sizes is read by slicing.
`drop_eq_append_iff` takes one field off the front of what stands behind an
offset, in both directions at once, so that a chain of it turns "the slices are
the fields" into "the bytes are the fields in a row" and back.
-/

namespace Trelis

variable {bytes field rest : Bytes} {start n : Nat}

/-- The first field of what stands behind an offset. -/
theorem drop_eq_append_iff (hn : field.length = n) :
    bytes.drop start = field ++ rest ↔
      sliceAt bytes start n = field ∧ bytes.drop (start + n) = rest := by
  rw [sliceAt, ← List.drop_drop]
  constructor
  · intro h
    rw [h]
    exact ⟨List.take_left' hn, List.drop_left' hn⟩
  · intro hboth
    rcases hboth with ⟨hfield, hrest⟩
    rw [← hfield, ← hrest, List.take_append_drop]

theorem eq_append_iff (hn : field.length = n) :
    bytes = field ++ rest ↔ sliceAt bytes 0 n = field ∧ bytes.drop n = rest := by
  have h : bytes.drop 0 = field ++ rest ↔
      sliceAt bytes 0 n = field ∧ bytes.drop (0 + n) = rest := drop_eq_append_iff hn
  rwa [List.drop_zero, Nat.zero_add] at h

/-- Two fields in a row. -/
theorem sliceAt_add (bytes : Bytes) (start m n : Nat) :
    sliceAt bytes start (m + n) = sliceAt bytes start m ++ sliceAt bytes (start + m) n := by
  rw [sliceAt, List.take_add, List.drop_drop, sliceAt, sliceAt]

/-- The last field. -/
theorem sliceAt_eq_drop (h : bytes.length = start + n) :
    sliceAt bytes start n = bytes.drop start := by
  rw [sliceAt, List.take_of_length_le]
  rw [List.length_drop]
  omega

/-- `u64::from_le_bytes`. -/
def readUInt64 (b : Bytes) : UInt64 := UInt64.ofNat (leValue b)

theorem readUInt64_eq_iff {b : Bytes} {x : UInt64} (h : b.length = 8) :
    readUInt64 b = x ↔ b = leBytes 8 x.toNat := by
  have hlt : leValue b < 2 ^ 64 := by
    have hvalue := leValue_lt b
    rw [h] at hvalue
    exact hvalue
  constructor
  · intro hx
    have hbytes := leBytes_leValue b
    rw [h] at hbytes
    rw [← hx, readUInt64, UInt64.toNat_ofNat_of_lt' hlt, hbytes]
  · intro hb
    rw [hb, readUInt64, leValue_leBytes (lt_word8 x.toNat_lt), UInt64.ofNat_toNat]

/-- A word that is sliced out of a byte string. -/
theorem readUInt64_sliceAt {x : UInt64} (h : start + 8 ≤ bytes.length) :
    readUInt64 (sliceAt bytes start 8) = x ↔ sliceAt bytes start 8 = leBytes 8 x.toNat :=
  readUInt64_eq_iff (length_sliceAt h)

end Trelis
