import Trelis.Lib.Bytes

/-!
# Fixed layouts

Reading a record of a byte string whose fields stand at known offsets: the
`bytes[a..b]`, `copy_from_slice` and `from_le_bytes` of Rust.

A reader takes the proof that its slice is within the byte string, so a decoder
written with it does not panic.  There are two directions.

* `arrayAt_flatten`, `wordAt_flatten` and `drop_flatten` read a field back from
  a byte string that was made of fields.
* `sliceAt_append_drop` puts the slices of a byte string together again.
-/

namespace Trelis

/-- The `n` bytes from `start`. -/
def sliceAt (bytes : Bytes) (start n : Nat) : Bytes := (bytes.drop start).take n

theorem length_sliceAt {bytes : Bytes} {start n : Nat} (h : start + n ≤ bytes.length) :
    (sliceAt bytes start n).length = n := by
  rw [sliceAt, List.length_take, List.length_drop]
  omega

/-- The array at an offset. -/
def arrayAt (n : Nat) (bytes : Bytes) (start : Nat) (h : start + n ≤ bytes.length) :
    FixedBytes n :=
  ⟨sliceAt bytes start n, length_sliceAt h⟩

/-- The little-endian word of `n` bytes at an offset. -/
def wordAt (n : Nat) (bytes : Bytes) (start : Nat) (_h : start + n ≤ bytes.length) : Nat :=
  leValue (sliceAt bytes start n)

theorem wordAt_lt {n : Nat} {bytes : Bytes} {start : Nat} (h : start + n ≤ bytes.length) :
    wordAt n bytes start h < 256 ^ n := by
  have hlt := leValue_lt (sliceAt bytes start n)
  rwa [length_sliceAt h] at hlt

/-- The bytes of a word that was read are the bytes that it was read from. -/
theorem leBytes_wordAt {n : Nat} {bytes : Bytes} {start : Nat} (h : start + n ≤ bytes.length) :
    leBytes n (wordAt n bytes start h) = sliceAt bytes start n := by
  have hbytes := leBytes_leValue (sliceAt bytes start n)
  rwa [length_sliceAt h] at hbytes

/-- The big-endian word of `n` bytes at an offset. -/
def beWordAt (n : Nat) (bytes : Bytes) (start : Nat) (_h : start + n ≤ bytes.length) : Nat :=
  leValue (sliceAt bytes start n).reverse

theorem beWordAt_lt {n : Nat} {bytes : Bytes} {start : Nat} (h : start + n ≤ bytes.length) :
    beWordAt n bytes start h < 256 ^ n := by
  have hlt := leValue_lt (sliceAt bytes start n).reverse
  rwa [List.length_reverse, length_sliceAt h] at hlt

theorem beBytes_beWordAt {n : Nat} {bytes : Bytes} {start : Nat} (h : start + n ≤ bytes.length) :
    beBytes n (beWordAt n bytes start h) = sliceAt bytes start n := by
  have hbytes := leBytes_leValue (sliceAt bytes start n).reverse
  rw [List.length_reverse, length_sliceAt h] at hbytes
  rw [beBytes, beWordAt, hbytes, List.reverse_reverse]

/-- The byte at an offset. -/
def byteAt (bytes : Bytes) (start : Nat) (h : start + 1 ≤ bytes.length) : UInt8 :=
  bytes.get ⟨start, h⟩

theorem singleton_byteAt {bytes : Bytes} {start : Nat} (h : start + 1 ≤ bytes.length) :
    [byteAt bytes start h] = sliceAt bytes start 1 := by
  rw [sliceAt, List.drop_eq_getElem_cons h, List.take_succ_cons, List.take_zero]
  rfl

theorem leBytes_toNat (b : UInt8) : leBytes 1 b.toNat = [b] := by
  have hbytes := leBytes_leValue [b]
  simpa only [leValue, List.length_singleton, Nat.mul_zero, Nat.add_zero] using hbytes

theorem lt_word4 {n : Nat} (h : n < 2 ^ 32) : n < 256 ^ 4 := Nat.lt_of_lt_of_eq h (by decide)

theorem lt_word8 {n : Nat} (h : n < 2 ^ 64) : n < 256 ^ 8 := Nat.lt_of_lt_of_eq h (by decide)

/-! ## From fields to bytes and back -/

section Flatten

variable {fields : List Bytes} {i start : Nat} {field : Bytes}

theorem drop_flatten_take (hstart : ((fields.take i).flatten).length = start) :
    fields.flatten.drop start = (fields.drop i).flatten := by
  have hsplit : fields.flatten = (fields.take i).flatten ++ (fields.drop i).flatten := by
    rw [← List.flatten_append, List.take_append_drop]
  rw [hsplit, List.drop_left' hstart]

/-- The field that stands at an offset. -/
theorem sliceAt_flatten {n : Nat} (hfield : fields[i]? = some field)
    (hstart : ((fields.take i).flatten).length = start) (hlen : field.length = n) :
    sliceAt fields.flatten start n = field := by
  obtain ⟨hi, hget⟩ := List.getElem?_eq_some_iff.mp hfield
  rw [sliceAt, drop_flatten_take hstart, List.drop_eq_getElem_cons hi, hget, List.flatten_cons,
    List.take_left' hlen]

theorem arrayAt_flatten {n : Nat} {a : FixedBytes n} (hfield : fields[i]? = some a.val)
    (hstart : ((fields.take i).flatten).length = start)
    (h : start + n ≤ fields.flatten.length) : arrayAt n fields.flatten start h = a :=
  Subtype.ext (sliceAt_flatten hfield hstart a.property)

theorem wordAt_flatten {n v : Nat} (hfield : fields[i]? = some (leBytes n v))
    (hstart : ((fields.take i).flatten).length = start) (hv : v < 256 ^ n)
    (h : start + n ≤ fields.flatten.length) : wordAt n fields.flatten start h = v := by
  rw [wordAt, sliceAt_flatten hfield hstart (leBytes_length n v), leValue_leBytes hv]

theorem beWordAt_flatten {n v : Nat} (hfield : fields[i]? = some (beBytes n v))
    (hstart : ((fields.take i).flatten).length = start) (hv : v < 256 ^ n)
    (h : start + n ≤ fields.flatten.length) : beWordAt n fields.flatten start h = v := by
  rw [beWordAt, sliceAt_flatten hfield hstart (beBytes_length n v), beBytes, List.reverse_reverse,
    leValue_leBytes hv]

theorem byteAt_flatten {b : UInt8} (hfield : fields[i]? = some [b])
    (hstart : ((fields.take i).flatten).length = start)
    (h : start + 1 ≤ fields.flatten.length) : byteAt fields.flatten start h = b := by
  rw [← List.singleton_inj, singleton_byteAt, sliceAt_flatten hfield hstart List.length_singleton]

/-- What stands behind an offset. -/
theorem drop_flatten (hfields : fields.drop i = [field])
    (hstart : ((fields.take i).flatten).length = start) :
    fields.flatten.drop start = field := by
  rw [drop_flatten_take hstart, hfields, List.flatten_singleton]

end Flatten

/-- Fields of known lengths are determined by what they make up. -/
theorem flatten_inj {l m : List Bytes} (hlen : l.map List.length = m.map List.length)
    (h : l.flatten = m.flatten) : l = m := by
  induction l generalizing m with
  | nil => exact (List.map_eq_nil_iff.mp hlen.symm).symm
  | cons x xs ih =>
    cases m with
    | nil => simp at hlen
    | cons y ys =>
      rw [List.map_cons, List.map_cons, List.cons.injEq] at hlen
      obtain ⟨hx, hrest⟩ := List.append_inj h hlen.1
      rw [hx, ih hlen.2 hrest]

/-! ## From bytes to fields and back -/

/-- A slice, and what stands behind it. -/
theorem sliceAt_append_drop (bytes : Bytes) {start n stop : Nat} (h : start + n = stop) :
    sliceAt bytes start n ++ bytes.drop stop = bytes.drop start := by
  rw [sliceAt, ← h, ← List.drop_drop, List.take_append_drop]

/-! ## Blocks of one size -/

section Blocks

variable {b : Nat → Bytes} {size n c : Nat} {bytes : Bytes}

theorem length_flatMap_range (hb : ∀ c < n, (b c).length = size) :
    ((List.range n).flatMap b).length = size * n := by
  induction n with
  | zero => rfl
  | succ n ih =>
    rw [List.range_succ, List.flatMap_append, List.length_append, ih fun c hc => hb c (by omega),
      List.flatMap_singleton, hb n (Nat.lt_succ_self n), Nat.mul_succ]

/-- A block of a concatenation. -/
theorem sliceAt_flatMap_range (hb : ∀ c < n, (b c).length = size) (hc : c < n) :
    sliceAt ((List.range n).flatMap b) (size * c) size = b c := by
  induction n with
  | zero => exact absurd hc (Nat.not_lt_zero c)
  | succ n ih =>
    have hprev : ∀ c < n, (b c).length = size := fun c hc => hb c (by omega)
    have hlen := length_flatMap_range hprev
    have hlast := hb n (Nat.lt_succ_self n)
    rw [List.range_succ, List.flatMap_append, List.flatMap_singleton, sliceAt]
    rcases Nat.lt_succ_iff_lt_or_eq.mp hc with hlt | rfl
    · have hle : size * c + size ≤ size * n := by
        rw [← Nat.mul_succ]
        exact Nat.mul_le_mul_left size hlt
      rw [List.drop_append_of_le_length (by omega), List.take_append_of_le_length]
      · exact ih hprev hlt
      · rw [List.length_drop]
        omega
    · rw [List.drop_left' hlen, List.take_of_length_le (Nat.le_of_eq hlast)]

/-- A byte string is made of its blocks. -/
theorem flatMap_range_sliceAt (h : bytes.length = size * n) :
    ((List.range n).flatMap fun c => sliceAt bytes (size * c) size) = bytes := by
  have htake : ∀ m, m ≤ n →
      ((List.range m).flatMap fun c => sliceAt bytes (size * c) size) = bytes.take (size * m) := by
    intro m
    induction m with
    | zero => simp
    | succ m ih =>
      intro hm
      rw [List.range_succ, List.flatMap_append, List.flatMap_singleton, ih (by omega), sliceAt,
        Nat.mul_succ, List.take_add]
  rw [htake n (Nat.le_refl n), List.take_of_length_le (Nat.le_of_eq h)]

end Blocks

/-! ## Blocks indexed by a finite type -/

section FinBlocks

variable {n size : Nat} {b : Fin n → Bytes} {bytes : Bytes}

theorem flatMap_finRange (b : Fin n → Bytes) :
    (List.finRange n).flatMap b =
      (List.range n).flatMap fun c => if h : c < n then b ⟨c, h⟩ else [] := by
  rw [← List.map_coe_finRange_eq_range, List.flatMap_map]
  apply List.flatMap_congr
  intro r _
  rw [dif_pos r.isLt]

theorem length_flatMap_finRange (hb : ∀ r, (b r).length = size) :
    ((List.finRange n).flatMap b).length = size * n := by
  rw [flatMap_finRange, length_flatMap_range]
  intro c hc
  rw [dif_pos hc, hb]

theorem sliceAt_flatMap_finRange (hb : ∀ r, (b r).length = size) (r : Fin n) :
    sliceAt ((List.finRange n).flatMap b) (size * r.val) size = b r := by
  rw [flatMap_finRange, sliceAt_flatMap_range _ r.isLt, dif_pos r.isLt]
  intro c hc
  rw [dif_pos hc, hb]

theorem flatMap_finRange_sliceAt (h : bytes.length = size * n) :
    ((List.finRange n).flatMap fun r => sliceAt bytes (size * r.val) size) = bytes := by
  rw [flatMap_finRange]
  conv_rhs => rw [← flatMap_range_sliceAt h]
  apply List.flatMap_congr
  intro c hc
  rw [dif_pos (List.mem_range.mp hc)]

end FinBlocks

end Trelis
