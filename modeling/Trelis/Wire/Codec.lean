import Trelis.Error
import Trelis.Lib.Cursor

/-!
# The wire encoder and decoder

`Encoder` and `Decoder` of the `trelis-wire` crate: integers in little-endian order,
byte strings, the two-byte header and fields behind their length.

A `Field` is one value with the operation that writes it, and its `Shape` the
operation that reads it back.  A field that is written leaves its encoding in the
buffer (`write_eq_ok`), and where the encoding stands the shape reads the field
(`read_of_drop`); so a sequence of writes is undone by the sequence of reads.

The operations of one step check what remains before they move.  Two others do not:
a length prefix is written or read before its body is looked at, and the two bytes
of a header are consumed before they are checked.  `codec_laws` says exactly when a
failed operation has moved the position.
-/

namespace Trelis.Wire

/-! ## The header -/

def protocolVersion : UInt8 := 1
def cipherSuite : UInt8 := 1

/-- `ProtocolVersion`. -/
inductive ProtocolVersion
  | v1
deriving DecidableEq

/-- `CipherSuite`. -/
inductive CipherSuite
  | trelisHybridV1
deriving DecidableEq

/-- `ProtocolVersion::as_byte`. -/
def ProtocolVersion.asByte : ProtocolVersion → UInt8
  | v1 => 1

/-- `CipherSuite::as_byte`. -/
def CipherSuite.asByte : CipherSuite → UInt8
  | trelisHybridV1 => 1

/-- `ProtocolVersion::from_byte`. -/
def ProtocolVersion.fromByte (byte : UInt8) : Result ProtocolVersion :=
  if byte = 1 then .ok v1
  else .error (.unsupportedProtocolVersion byte.toNat protocolVersion.toNat)

/-- `CipherSuite::from_byte`. -/
def CipherSuite.fromByte (byte : UInt8) : Result CipherSuite :=
  if byte = 1 then .ok trelisHybridV1
  else .error (.unsupportedCipherSuite byte.toNat cipherSuite.toNat)

theorem ProtocolVersion.fromByte_eq_ok {byte : UInt8} :
    (∃ version, fromByte byte = .ok version) ↔ byte = 1 := by
  unfold fromByte
  constructor
  · intro hex
    rcases hex with ⟨version, h⟩
    by_contra hne
    rw [if_neg hne] at h
    cases h
  · intro h
    exact ⟨v1, if_pos h⟩

theorem CipherSuite.fromByte_eq_ok {byte : UInt8} :
    (∃ suite, fromByte byte = .ok suite) ↔ byte = 1 := by
  unfold fromByte
  constructor
  · intro hex
    rcases hex with ⟨suite, h⟩
    by_contra hne
    rw [if_neg hne] at h
    cases h
  · intro h
    exact ⟨trelisHybridV1, if_pos h⟩

/-- `Header`. -/
structure Header where
  version : ProtocolVersion
  suite : CipherSuite
deriving DecidableEq

/-- `Header::to_bytes`. -/
def Header.toBytes (header : Header) : FixedBytes 2 :=
  ⟨[header.version.asByte, header.suite.asByte], rfl⟩

/-- `Header::from_bytes`. -/
def Header.fromBytes (bytes : FixedBytes 2) : Result Header := do
  let version ← ProtocolVersion.fromByte (bytes.val.get ⟨0, by simp⟩)
  let suite ← CipherSuite.fromByte (bytes.val.get ⟨1, by simp⟩)
  pure ⟨version, suite⟩

theorem Header.fromBytes_toBytes (header : Header) :
    Header.fromBytes header.toBytes = .ok header := by
  obtain ⟨version, suite⟩ := header
  cases version
  cases suite
  rfl

/-! ## The encoder -/

/-- `Encoder`. -/
abbrev Encoder := Cursor

/-- What the encoder's methods return: `None` is the error without a value. -/
abbrev EncoderM := EStateM Unit Encoder

namespace Encoder

/-- `Encoder::new`. -/
def new (buf : Bytes) : Encoder := ⟨buf, 0, Nat.zero_le _⟩

/-- `Encoder::write_bytes`. -/
def writeBytes (data : Bytes) : EncoderM Unit := fun e =>
  if h : e.remaining < data.length then .error () e else .ok () (e.put data (by omega))

/-- `Encoder::write_u8`. -/
def writeU8 (value : UInt8) : EncoderM Unit := fun e =>
  if h : e.pos ≥ e.buf.length then .error () e
  else .ok () (e.put [value] (by
    show 1 ≤ e.buf.length - e.pos
    omega))

/-- The writes of the wider integers. -/
def writeWord (n value : Nat) : EncoderM Unit := fun e =>
  if h : e.remaining < n then .error () e
  else .ok () (e.put (leBytes n value) (by
    rw [leBytes_length]
    omega))

/-- `Encoder::write_u16`. -/
def writeU16 (value : UInt16) : EncoderM Unit := writeWord 2 value.toNat

/-- `Encoder::write_u32`. -/
def writeU32 (value : UInt32) : EncoderM Unit := writeWord 4 value.toNat

/-- `Encoder::write_u64`. -/
def writeU64 (value : UInt64) : EncoderM Unit := writeWord 8 value.toNat

/-- `Encoder::write_array`. -/
def writeArray {n : Nat} (data : FixedBytes n) : EncoderM Unit := writeBytes data.val

/-- `Encoder::write_header`. -/
def writeHeader (header : Header) : EncoderM Unit := writeBytes header.toBytes.val

/-- `Encoder::write_length_prefixed`. -/
def writeLengthPrefixed (data : Bytes) : EncoderM Unit := do
  let len ← EStateM.lift
    (if data.length < 2 ^ 32 then .ok (UInt32.ofNat data.length) else .error ())
  writeU32 len
  writeBytes data

end Encoder

/-! ## The decoder -/

/-- `DecoderError`. -/
inductive DecoderError
  | unexpectedEof
  | invalidHeader
  | unsupportedProtocolVersion (version : Nat)
  | unsupportedCipherSuite (suite : Nat)
deriving DecidableEq

/-- `Decoder`. -/
abbrev Decoder := Cursor

abbrev DecoderM := EStateM DecoderError Decoder

namespace Decoder

/-- `Decoder::new`. -/
def new (buf : Bytes) : Decoder := ⟨buf, 0, Nat.zero_le _⟩

/-- `Decoder::read_u8`. -/
def readU8 : DecoderM UInt8 := fun d =>
  if h : d.pos ≥ d.buf.length then .error .unexpectedEof d
  else .ok (d.buf.get ⟨d.pos, by omega⟩) (d.advance 1 (by
    show 1 ≤ d.buf.length - d.pos
    omega))

/-- `Decoder::read_bytes`. -/
def readBytes (len : Nat) : DecoderM Bytes := fun d =>
  if h : d.remaining < len then .error .unexpectedEof d
  else .ok (d.next len) (d.advance len (by omega))

/-- The reads of the wider integers. -/
def readWord (n : Nat) : DecoderM Nat := fun d =>
  if h : d.remaining < n then .error .unexpectedEof d
  else .ok (leValue (d.next n)) (d.advance n (by omega))

/-- `Decoder::read_u16`. -/
def readU16 : DecoderM UInt16 := UInt16.ofNat <$> readWord 2

/-- `Decoder::read_u32`. -/
def readU32 : DecoderM UInt32 := UInt32.ofNat <$> readWord 4

/-- `Decoder::read_u64`. -/
def readU64 : DecoderM UInt64 := UInt64.ofNat <$> readWord 8

/-- `Decoder::read_array`. -/
def readArray (n : Nat) : DecoderM (FixedBytes n) := fun d =>
  if h : d.remaining < n then .error .unexpectedEof d
  else .ok ⟨d.next n, Cursor.length_next (by omega)⟩ (d.advance n (by omega))

/-- The errors of `read_header`. -/
def headerError : CryptoError → DecoderError
  | .unsupportedProtocolVersion received _ => .unsupportedProtocolVersion received
  | .unsupportedCipherSuite received _ => .unsupportedCipherSuite received
  | _ => .invalidHeader

/-- `Decoder::read_header`. -/
def readHeader : DecoderM Header := do
  let bytes ← readArray 2
  EStateM.lift ((Header.fromBytes bytes).mapError headerError)

/-- `Decoder::read_length_prefixed`. -/
def readLengthPrefixed : DecoderM Bytes := do
  let len ← readU32
  readBytes len.toNat

/-- `Decoder::skip`. -/
def skip (n : Nat) : DecoderM Unit := fun d =>
  if h : d.remaining < n then .error .unexpectedEof d
  else .ok () (d.advance n (by omega))

end Decoder

/-! ## Fields and shapes -/

/-- A value, with the operation that writes it. -/
inductive Field
  | u8 (value : UInt8)
  | u16 (value : UInt16)
  | u32 (value : UInt32)
  | u64 (value : UInt64)
  | bytes (data : Bytes)
  | array {n : Nat} (data : FixedBytes n)
  | header (header : Header)
  | lengthPrefixed (data : Bytes)

/-- An operation that reads a value. -/
inductive Shape
  | u8
  | u16
  | u32
  | u64
  | bytes (len : Nat)
  | array (n : Nat)
  | header
  | lengthPrefixed

namespace Field

def write : Field → EncoderM Unit
  | u8 value => Encoder.writeU8 value
  | u16 value => Encoder.writeU16 value
  | u32 value => Encoder.writeU32 value
  | u64 value => Encoder.writeU64 value
  | bytes data => Encoder.writeBytes data
  | array data => Encoder.writeArray data
  | header h => Encoder.writeHeader h
  | lengthPrefixed data => Encoder.writeLengthPrefixed data

/-- The operation that reads the field back. -/
def shape : Field → Shape
  | u8 _ => .u8
  | u16 _ => .u16
  | u32 _ => .u32
  | u64 _ => .u64
  | bytes data => .bytes data.length
  | @array n _ => .array n
  | header _ => .header
  | lengthPrefixed _ => .lengthPrefixed

/-- The encoding of the field. -/
def encoding : Field → Bytes
  | u8 value => [value]
  | u16 value => leBytes 2 value.toNat
  | u32 value => leBytes 4 value.toNat
  | u64 value => leBytes 8 value.toNat
  | bytes data => data
  | array data => data.val
  | header h => h.toBytes.val
  | lengthPrefixed data => leBytes 4 data.length ++ data

/-- A body that has a length of four bytes. -/
def Sized : Field → Prop
  | lengthPrefixed data => data.length < 2 ^ 32
  | _ => True

end Field

def Shape.read : Shape → DecoderM Field
  | u8 => .u8 <$> Decoder.readU8
  | u16 => .u16 <$> Decoder.readU16
  | u32 => .u32 <$> Decoder.readU32
  | u64 => .u64 <$> Decoder.readU64
  | bytes len => .bytes <$> Decoder.readBytes len
  | array n => .array <$> Decoder.readArray n
  | header => .header <$> Decoder.readHeader
  | lengthPrefixed => .lengthPrefixed <$> Decoder.readLengthPrefixed

/-! ## Writing -/

namespace Encoder

theorem writeBytes_eq_ok {data : Bytes} {e e' : Encoder} {u : Unit} :
    writeBytes data e = .ok u e' ↔ ∃ h : data.length ≤ e.remaining, e' = e.put data h := by
  unfold writeBytes
  by_cases h : e.remaining < data.length
  · rw [dif_pos h]
    simp
    omega
  · rw [dif_neg h]
    simp [Nat.not_lt.mp h, eq_comm]

theorem writeBytes_eq_error {data : Bytes} {e e' : Encoder} {u : Unit} :
    writeBytes data e = .error u e' ↔ e.remaining < data.length ∧ e' = e := by
  unfold writeBytes
  by_cases h : e.remaining < data.length
  · rw [dif_pos h]
    simp [h, eq_comm]
  · rw [dif_neg h]
    simp [h]

/-- Words are written like the byte strings that they are. -/
theorem writeWord_eq (n value : Nat) : writeWord n value = writeBytes (leBytes n value) := by
  funext e
  unfold writeWord writeBytes
  by_cases h : e.remaining < n
  · rw [dif_pos h, dif_pos (by rw [leBytes_length]; exact h)]
  · rw [dif_neg h, dif_neg (by rw [leBytes_length]; exact h)]

theorem writeU8_eq (value : UInt8) : writeU8 value = writeBytes [value] := by
  funext e
  have hpos := e.pos_le
  have hiff : e.pos ≥ e.buf.length ↔ e.remaining < [value].length := by
    show e.pos ≥ e.buf.length ↔ e.buf.length - e.pos < 1
    omega
  unfold writeU8 writeBytes
  by_cases h : e.pos ≥ e.buf.length
  · rw [dif_pos h, dif_pos (hiff.mp h)]
  · rw [dif_neg h, dif_neg (fun hlt => h (hiff.mpr hlt))]

/-- The length and the body, one after the other. -/
theorem writeLengthPrefixed_of_lt {data : Bytes} (h : data.length < 2 ^ 32) (e : Encoder) :
    writeLengthPrefixed data e =
      (writeBytes (leBytes 4 data.length) >>= fun _ => writeBytes data) e := by
  have hlen : (UInt32.ofNat data.length).toNat = data.length := UInt32.toNat_ofNat_of_lt' h
  unfold writeLengthPrefixed
  rw [if_pos h]
  show (writeU32 (UInt32.ofNat data.length) >>= fun _ => writeBytes data) e = _
  rw [writeU32, writeWord_eq, hlen]

theorem writeLengthPrefixed_of_ge {data : Bytes} (h : ¬data.length < 2 ^ 32) (e : Encoder) :
    writeLengthPrefixed data e = .error () e := by
  unfold writeLengthPrefixed
  rw [if_neg h]
  rfl

end Encoder

namespace Field

/-- A field that is no length-prefixed one is written like a byte string. -/
theorem write_eq_writeBytes {f : Field} (h : ∀ data, f ≠ lengthPrefixed data) :
    f.write = Encoder.writeBytes f.encoding := by
  cases f with
  | u8 value => exact Encoder.writeU8_eq value
  | u16 value => exact Encoder.writeWord_eq 2 _
  | u32 value => exact Encoder.writeWord_eq 4 _
  | u64 value => exact Encoder.writeWord_eq 8 _
  | bytes data => rfl
  | array data => rfl
  | header header => rfl
  | lengthPrefixed data => exact absurd rfl (h data)

/-- A write succeeds when the encoding fits, and puts it at the position. -/
theorem write_eq_ok {f : Field} {e e' : Encoder} :
    f.write e = .ok () e' ↔
      f.Sized ∧ ∃ h : f.encoding.length ≤ e.remaining, e' = e.put f.encoding h := by
  by_cases hf : ∃ data, f = lengthPrefixed data
  · obtain ⟨data, rfl⟩ := hf
    show Encoder.writeLengthPrefixed data e = .ok () e' ↔ data.length < 2 ^ 32 ∧ _
    by_cases hlen : data.length < 2 ^ 32
    · rw [Encoder.writeLengthPrefixed_of_lt hlen]
      simp only [EStateM.bind_eq_ok, Encoder.writeBytes_eq_ok, hlen, true_and, encoding]
      constructor
      · intro hboth
        rcases hboth with ⟨_, e₁, ⟨hlead, hput⟩, hbody, hput'⟩
        subst hput
        have hboth : (leBytes 4 data.length ++ data).length ≤ e.remaining := by
          rw [Cursor.remaining_put] at hbody
          rw [List.length_append]
          omega
        exact ⟨hboth, hput'.trans (Cursor.put_put _ _ hboth)⟩
      · intro hboth
        rcases hboth with ⟨hboth, hput⟩
        have hlead : (leBytes 4 data.length).length ≤ e.remaining := by
          rw [List.length_append] at hboth
          omega
        have hbody : data.length ≤ (e.put _ hlead).remaining := by
          rw [Cursor.remaining_put]
          rw [List.length_append] at hboth
          omega
        exact ⟨(), _, ⟨hlead, rfl⟩, hbody, hput.trans (Cursor.put_put _ _ hboth).symm⟩
    · rw [Encoder.writeLengthPrefixed_of_ge hlen]
      constructor
      · intro h
        cases h
      · intro h
        exact absurd h.1 hlen
  · have hne : ∀ data, f ≠ lengthPrefixed data := fun data heq => hf ⟨data, heq⟩
    have hsized : f.Sized := by
      cases f with
      | lengthPrefixed data => exact absurd rfl (hne data)
      | _ => trivial
    rw [write_eq_writeBytes hne, Encoder.writeBytes_eq_ok]
    simp [hsized]

/-- The body of the field does not fit behind its length, which does. -/
def StopsHalfway (f : Field) (e : Encoder) : Prop :=
  ∃ data, f = lengthPrefixed data ∧ data.length < 2 ^ 32 ∧ 4 ≤ e.remaining ∧
    e.remaining < 4 + data.length

/-- A failed write leaves the position alone unless it stops halfway. -/
theorem write_error_pos {f : Field} {e : Encoder} :
    (∀ u e', f.write e = .error u e' → e'.pos = e.pos) ↔ ¬f.StopsHalfway e := by
  by_cases hf : ∃ data, f = lengthPrefixed data
  · obtain ⟨data, rfl⟩ := hf
    show (∀ u e', Encoder.writeLengthPrefixed data e = .error u e' → e'.pos = e.pos) ↔ _
    have hstops : (lengthPrefixed data).StopsHalfway e ↔
        data.length < 2 ^ 32 ∧ 4 ≤ e.remaining ∧ e.remaining < 4 + data.length := by
      constructor
      · intro hex
        rcases hex with ⟨data', heq, hstop⟩
        cases heq
        exact hstop
      · intro hstop
        exact ⟨data, rfl, hstop⟩
    rw [hstops]
    by_cases hlen : data.length < 2 ^ 32
    · simp only [Encoder.writeLengthPrefixed_of_lt hlen, EStateM.bind_eq_error,
        Encoder.writeBytes_eq_ok, Encoder.writeBytes_eq_error, leBytes_length]
      constructor
      · intro h hboth
        rcases hboth with ⟨_, hlead, hbody⟩
        have hfit : (leBytes 4 data.length).length ≤ e.remaining := by
          rw [leBytes_length]
          exact hlead
        have hpos := h () (e.put _ hfit)
          (.inr ⟨(), _, ⟨hlead, rfl⟩, by
            rw [Cursor.remaining_put, leBytes_length]
            omega, rfl⟩)
        have hmoved : (e.put _ hfit).pos = e.pos + 4 := by
          show e.pos + (leBytes 4 data.length).length = e.pos + 4
          rw [leBytes_length]
        omega
      · intro h u e' hfail
        rcases hfail with ⟨_, rfl⟩ | ⟨_, e₁, ⟨hlead, rfl⟩, hbody, _⟩
        · rfl
        · rw [Cursor.remaining_put, leBytes_length] at hbody
          exact absurd ⟨hlen, hlead, by omega⟩ h
    · rw [Encoder.writeLengthPrefixed_of_ge hlen]
      constructor
      · intro _ hstop
        exact hlen hstop.1
      · intro _ u e' hfail
        cases hfail
        rfl
  · have hne : ∀ data, f ≠ lengthPrefixed data := fun data heq => hf ⟨data, heq⟩
    have hno : ¬f.StopsHalfway e := by
      intro hstop
      rcases hstop with ⟨data, heq, _⟩
      exact hne data heq
    simp only [hno, not_false_eq_true, iff_true, write_eq_writeBytes hne,
      Encoder.writeBytes_eq_error]
    intro u e' hfail
    rw [hfail.2]

end Field

/-! ## Reading -/

namespace Decoder

theorem readBytes_eq_ok {len : Nat} {d d' : Decoder} {data : Bytes} :
    readBytes len d = .ok data d' ↔
      ∃ h : len ≤ d.remaining, data = d.next len ∧ d' = d.advance len h := by
  unfold readBytes
  by_cases h : d.remaining < len
  · rw [dif_pos h]
    simp
    omega
  · rw [dif_neg h]
    simp [Nat.not_lt.mp h, eq_comm]

theorem readBytes_eq_error {len : Nat} {d d' : Decoder} {err : DecoderError} :
    readBytes len d = .error err d' ↔
      d.remaining < len ∧ err = .unexpectedEof ∧ d' = d := by
  unfold readBytes
  by_cases h : d.remaining < len
  · rw [dif_pos h]
    simp [h, eq_comm]
  · rw [dif_neg h]
    simp [h]

theorem readBytes_of_lt {len : Nat} {d : Decoder} (h : d.remaining < len) :
    readBytes len d = .error .unexpectedEof d := readBytes_eq_error.mpr ⟨h, rfl, rfl⟩

theorem readBytes_of_le {len : Nat} {d : Decoder} (h : len ≤ d.remaining) :
    readBytes len d = .ok (d.next len) (d.advance len h) := readBytes_eq_ok.mpr ⟨h, rfl, rfl⟩

/-- The reads of one step are reads of byte strings, with the value made of them. -/
theorem readWord_eq (n : Nat) : readWord n = leValue <$> readBytes n := by
  funext d
  unfold readWord
  by_cases h : d.remaining < n
  · rw [dif_pos h, EStateM.map_eq_error.mpr (readBytes_of_lt h)]
  · rw [dif_neg h, EStateM.map_eq_ok.mpr ⟨_, readBytes_of_le (Nat.not_lt.mp h), rfl⟩]

/-- A skip is a read whose bytes are dropped. -/
theorem skip_eq (n : Nat) : skip n = (fun _ => ()) <$> readBytes n := by
  funext d
  unfold skip
  by_cases h : d.remaining < n
  · rw [dif_pos h, EStateM.map_eq_error.mpr (readBytes_of_lt h)]
  · rw [dif_neg h, EStateM.map_eq_ok.mpr ⟨_, readBytes_of_le (Nat.not_lt.mp h), rfl⟩]

theorem next_one {d : Decoder} (h : d.pos < d.buf.length) :
    d.next 1 = [d.buf.get ⟨d.pos, h⟩] := by
  rw [Cursor.next, sliceAt, List.drop_eq_getElem_cons h]
  rfl

theorem readU8_eq : readU8 = (fun data => data.headD 0) <$> readBytes 1 := by
  funext d
  have hpos := d.pos_le
  have hiff : d.pos ≥ d.buf.length ↔ d.remaining < 1 := by
    show d.pos ≥ d.buf.length ↔ d.buf.length - d.pos < 1
    omega
  unfold readU8
  by_cases h : d.pos ≥ d.buf.length
  · rw [dif_pos h, EStateM.map_eq_error.mpr (readBytes_of_lt (hiff.mp h))]
  · have hle : 1 ≤ d.remaining := Nat.not_lt.mp (fun hlt => h (hiff.mpr hlt))
    rw [dif_neg h, EStateM.map_eq_ok.mpr ⟨_, readBytes_of_le hle, rfl⟩, next_one (by omega)]
    rfl

theorem readArray_eq_ok {n : Nat} {d d' : Decoder} {data : FixedBytes n} :
    readArray n d = .ok data d' ↔
      ∃ h : n ≤ d.remaining, data.val = d.next n ∧ d' = d.advance n h := by
  unfold readArray
  by_cases h : d.remaining < n
  · rw [dif_pos h]
    simp
    omega
  · rw [dif_neg h]
    simp [Nat.not_lt.mp h, eq_comm, Subtype.ext_iff]

theorem readArray_eq_error {n : Nat} {d d' : Decoder} {err : DecoderError} :
    readArray n d = .error err d' ↔ d.remaining < n ∧ err = .unexpectedEof ∧ d' = d := by
  unfold readArray
  by_cases h : d.remaining < n
  · rw [dif_pos h]
    simp [h, eq_comm]
  · rw [dif_neg h]
    simp [h]

/-- Where a word stands, it is read. -/
theorem readWord_of_drop {n v : Nat} (hv : v < 256 ^ n) {d : Decoder} {rest : Bytes}
    (h : d.buf.drop d.pos = leBytes n v ++ rest) :
    readWord n d = .ok v (d.advance (leBytes n v).length (Cursor.le_remaining_of_drop h)) := by
  have hle : n ≤ d.remaining := by
    have hlen := Cursor.le_remaining_of_drop h
    rw [leBytes_length] at hlen
    exact hlen
  have hnext := Cursor.next_of_drop h
  rw [leBytes_length] at hnext
  rw [readWord_eq, EStateM.map_eq_ok]
  refine ⟨d.next n, readBytes_eq_ok.mpr ⟨hle, rfl, ?_⟩, by rw [hnext, leValue_leBytes hv]⟩
  exact Cursor.advance_congr (leBytes_length n v) _ _

/-- Where an array stands, it is read. -/
theorem readArray_of_drop {n : Nat} {data : FixedBytes n} {d : Decoder} {rest : Bytes}
    (h : d.buf.drop d.pos = data.val ++ rest) :
    readArray n d = .ok data (d.advance data.val.length (Cursor.le_remaining_of_drop h)) := by
  have hle : n ≤ d.remaining := by
    have hlen := Cursor.le_remaining_of_drop h
    rw [data.property] at hlen
    exact hlen
  have hnext := Cursor.next_of_drop h
  rw [data.property] at hnext
  exact readArray_eq_ok.mpr ⟨hle, hnext.symm, Cursor.advance_congr data.property _ _⟩

end Decoder

namespace Field

/-- Where the encoding of a field stands, its shape reads the field and the position
moves behind it. -/
theorem read_of_drop {f : Field} (hsized : f.Sized) {d : Decoder} {rest : Bytes}
    (h : d.buf.drop d.pos = f.encoding ++ rest) :
    f.shape.read d = .ok f (d.advance f.encoding.length (Cursor.le_remaining_of_drop h)) := by
  have hle := Cursor.le_remaining_of_drop h
  have hnext := Cursor.next_of_drop h
  cases f with
  | u8 value =>
    refine EStateM.map_eq_ok.mpr ⟨value, ?_, rfl⟩
    rw [Decoder.readU8_eq, EStateM.map_eq_ok]
    exact ⟨_, Decoder.readBytes_of_le hle, by rw [hnext]; rfl⟩
  | u16 value =>
    exact EStateM.map_eq_ok.mpr ⟨value, EStateM.map_eq_ok.mpr
      ⟨_, Decoder.readWord_of_drop value.toNat_lt h, UInt16.ofNat_toNat⟩, rfl⟩
  | u32 value =>
    exact EStateM.map_eq_ok.mpr ⟨value, EStateM.map_eq_ok.mpr
      ⟨_, Decoder.readWord_of_drop (lt_word4 value.toNat_lt) h, UInt32.ofNat_toNat⟩, rfl⟩
  | u64 value =>
    exact EStateM.map_eq_ok.mpr ⟨value, EStateM.map_eq_ok.mpr
      ⟨_, Decoder.readWord_of_drop (lt_word8 value.toNat_lt) h, UInt64.ofNat_toNat⟩, rfl⟩
  | bytes data =>
    exact EStateM.map_eq_ok.mpr ⟨data, Decoder.readBytes_eq_ok.mpr ⟨hle, hnext.symm, rfl⟩, rfl⟩
  | array data =>
    exact EStateM.map_eq_ok.mpr ⟨data, Decoder.readArray_of_drop h, rfl⟩
  | header header =>
    refine EStateM.map_eq_ok.mpr ⟨header, EStateM.bind_eq_ok.mpr
      ⟨header.toBytes, _, Decoder.readArray_of_drop h, ?_⟩, rfl⟩
    rw [Header.fromBytes_toBytes]
    rfl
  | lengthPrefixed data =>
    -- The prefix stands in front of the body, and the body in front of the rest.
    have hsized' : data.length < 2 ^ 32 := hsized
    have hlead : d.buf.drop d.pos = leBytes 4 data.length ++ (data ++ rest) := by
      rw [h, encoding, List.append_assoc]
    have hbody := Cursor.drop_advance hlead
    have hlen : (UInt32.ofNat data.length).toNat = data.length := UInt32.toNat_ofNat_of_lt' hsized'
    refine EStateM.map_eq_ok.mpr ⟨data, EStateM.bind_eq_ok.mpr
      ⟨UInt32.ofNat data.length, _, EStateM.map_eq_ok.mpr
        ⟨_, Decoder.readWord_of_drop (lt_word4 hsized') hlead, rfl⟩, ?_⟩, rfl⟩
    rw [hlen]
    refine Decoder.readBytes_eq_ok.mpr
      ⟨Cursor.le_remaining_of_drop hbody, (Cursor.next_of_drop hbody).symm, ?_⟩
    have hboth : (leBytes 4 data.length).length + data.length ≤ d.remaining := by
      rw [encoding, List.length_append] at hle
      exact hle
    rw [Cursor.advance_advance _ _ hboth]
    exact Cursor.advance_congr List.length_append _ _

end Field

/-- The header of the only version and suite. -/
theorem Header.fromBytes_eq_ok {bytes : FixedBytes 2} :
    (∃ header, Header.fromBytes bytes = .ok header) ↔ bytes.val = [1, 1] := by
  have hsplit : bytes.val = [bytes.val.get ⟨0, by simp⟩, bytes.val.get ⟨1, by simp⟩] := by
    apply List.ext_get (by simp)
    intro n hn hn'
    have hcases : n = 0 ∨ n = 1 := by
      rw [bytes.property] at hn
      omega
    obtain rfl | rfl := hcases <;> rfl
  have hiff : bytes.val = [1, 1] ↔
      bytes.val.get ⟨0, by simp⟩ = 1 ∧ bytes.val.get ⟨1, by simp⟩ = 1 := by
    conv_lhs => rw [hsplit]
    simp
  rw [hiff]
  unfold Header.fromBytes
  generalize bytes.val.get ⟨0, by simp⟩ = version
  generalize bytes.val.get ⟨1, by simp⟩ = suite
  constructor
  · intro hboth
    rcases hboth with ⟨header, h⟩
    obtain ⟨_, hversion, _, hsuite, _⟩ := by
      simpa only [Except.bind_eq_ok] using h
    exact ⟨(ProtocolVersion.fromByte_eq_ok.mp ⟨_, hversion⟩),
      (CipherSuite.fromByte_eq_ok.mp ⟨_, hsuite⟩)⟩
  · intro hboth
    rcases hboth with ⟨hversion, hsuite⟩
    subst hversion hsuite
    exact ⟨_, rfl⟩

namespace Shape

/-- What the shape consumes before it fails: a length whose body is not there, or
two bytes that are no header. -/
def StopsHalfway (s : Shape) (d : Decoder) : Prop :=
  (s = .lengthPrefixed ∧ 4 ≤ d.remaining ∧ d.remaining < 4 + leValue (d.next 4)) ∨
    s = .header ∧ 2 ≤ d.remaining ∧ d.next 2 ≠ [1, 1]

theorem stopsHalfway_header {d : Decoder} :
    header.StopsHalfway d ↔ 2 ≤ d.remaining ∧ d.next 2 ≠ [1, 1] := by
  simp [StopsHalfway]

theorem stopsHalfway_lengthPrefixed {d : Decoder} :
    lengthPrefixed.StopsHalfway d ↔
      4 ≤ d.remaining ∧ d.remaining < 4 + leValue (d.next 4) := by
  simp [StopsHalfway]

theorem readHeader_error_pos {d : Decoder} :
    (∀ err d', Decoder.readHeader d = .error err d' → d'.pos = d.pos) ↔
      ¬(2 ≤ d.remaining ∧ d.next 2 ≠ [1, 1]) := by
  simp only [Decoder.readHeader, EStateM.bind_eq_error, Decoder.readArray_eq_error,
    Decoder.readArray_eq_ok, EStateM.lift_eq_error]
  constructor
  · intro h hboth
    rcases hboth with ⟨hle, hne⟩
    have hfail : ¬∃ header, Header.fromBytes ⟨d.next 2, Cursor.length_next hle⟩ = .ok header := by
      rw [Header.fromBytes_eq_ok]
      exact hne
    cases hread : Header.fromBytes ⟨d.next 2, Cursor.length_next hle⟩ with
    | ok header => exact hfail ⟨header, hread⟩
    | error err =>
      have hpos := h (Decoder.headerError err) (d.advance 2 hle)
        (.inr ⟨_, _, ⟨hle, rfl, rfl⟩, by rw [hread]; rfl, rfl⟩)
      have hmoved : (d.advance 2 hle).pos = d.pos + 2 := rfl
      omega
  · intro h err d' hfail
    rcases hfail with ⟨_, _, rfl⟩ | ⟨bytes, d₁, ⟨hle, hbytes, rfl⟩, herr, rfl⟩
    · rfl
    · have hok : bytes.val = [1, 1] := by
        rw [hbytes]
        by_contra hne
        exact h ⟨hle, hne⟩
      obtain ⟨header, hheader⟩ := Header.fromBytes_eq_ok.mpr hok
      rw [hheader] at herr
      cases herr

theorem readLengthPrefixed_error_pos {d : Decoder} :
    (∀ err d', Decoder.readLengthPrefixed d = .error err d' → d'.pos = d.pos) ↔
      ¬(4 ≤ d.remaining ∧ d.remaining < 4 + leValue (d.next 4)) := by
  simp only [Decoder.readLengthPrefixed, Decoder.readU32, Decoder.readWord_eq,
    EStateM.bind_eq_error, EStateM.map_eq_error, EStateM.map_eq_ok, Decoder.readBytes_eq_error,
    Decoder.readBytes_eq_ok]
  have hvalue : ∀ hle : 4 ≤ d.remaining,
      (UInt32.ofNat (leValue (d.next 4))).toNat = leValue (d.next 4) := by
    intro hle
    have hlt := leValue_lt (d.next 4)
    rw [Cursor.length_next hle] at hlt
    exact UInt32.toNat_ofNat_of_lt' hlt
  constructor
  · intro h hboth
    rcases hboth with ⟨hle, hbody⟩
    have hpos := h .unexpectedEof (d.advance 4 hle)
      (.inr ⟨_, _, ⟨_, ⟨_, ⟨hle, rfl, rfl⟩, rfl⟩, rfl⟩, by
        rw [hvalue hle, Cursor.remaining_advance]
        omega, rfl, rfl⟩)
    have hmoved : (d.advance 4 hle).pos = d.pos + 4 := rfl
    omega
  · intro h err d' hfail
    rcases hfail with ⟨_, _, rfl⟩ | ⟨len, d₁, ⟨v, ⟨data, ⟨hle, rfl, rfl⟩, rfl⟩, rfl⟩, hbody, _, rfl⟩
    · rfl
    · rw [hvalue hle, Cursor.remaining_advance] at hbody
      exact absurd ⟨hle, by omega⟩ h

/-- A failed read leaves the position alone unless it stops halfway. -/
theorem read_error_pos {s : Shape} {d : Decoder} :
    (∀ err d', s.read d = .error err d' → d'.pos = d.pos) ↔ ¬s.StopsHalfway d := by
  by_cases hheader : s = header
  · subst hheader
    rw [stopsHalfway_header, ← readHeader_error_pos]
    simp only [read, EStateM.map_eq_error]
  by_cases hprefixed : s = lengthPrefixed
  · subst hprefixed
    rw [stopsHalfway_lengthPrefixed, ← readLengthPrefixed_error_pos]
    simp only [read, EStateM.map_eq_error]
  have hno : ¬s.StopsHalfway d := by
    simp [StopsHalfway, hheader, hprefixed]
  have hstay : ∀ err d', s.read d = .error err d' → d' = d := by
    intro err d' hfail
    cases s with
    | header => exact absurd rfl hheader
    | lengthPrefixed => exact absurd rfl hprefixed
    | u8 =>
      rw [read, EStateM.map_eq_error, Decoder.readU8_eq, EStateM.map_eq_error,
        Decoder.readBytes_eq_error] at hfail
      exact hfail.2.2
    | bytes len =>
      rw [read, EStateM.map_eq_error, Decoder.readBytes_eq_error] at hfail
      exact hfail.2.2
    | array n =>
      rw [read, EStateM.map_eq_error, Decoder.readArray_eq_error] at hfail
      exact hfail.2.2
    | u16 =>
      rw [read, EStateM.map_eq_error, Decoder.readU16, EStateM.map_eq_error, Decoder.readWord_eq,
        EStateM.map_eq_error, Decoder.readBytes_eq_error] at hfail
      exact hfail.2.2
    | u32 =>
      rw [read, EStateM.map_eq_error, Decoder.readU32, EStateM.map_eq_error, Decoder.readWord_eq,
        EStateM.map_eq_error, Decoder.readBytes_eq_error] at hfail
      exact hfail.2.2
    | u64 =>
      rw [read, EStateM.map_eq_error, Decoder.readU64, EStateM.map_eq_error, Decoder.readWord_eq,
        EStateM.map_eq_error, Decoder.readBytes_eq_error] at hfail
      exact hfail.2.2
  simp only [hno, not_false_eq_true, iff_true]
  intro err d' hfail
  rw [hstay err d' hfail]

end Shape

/-! ## Sequences -/

/-- A sequence of writes. -/
def writeAll (fields : List Field) : EncoderM Unit := fields.forM Field.write

/-- A sequence of reads. -/
def readAll (shapes : List Shape) : DecoderM (List Field) := shapes.mapM Shape.read

/-- A sequence of writes leaves the encodings in the buffer. -/
theorem writes_of_writeAll {fields : List Field} {e e' : Encoder} {u : Unit}
    (h : writeAll fields e = .ok u e') :
    (∀ f ∈ fields, f.Sized) ∧ e.Writes e' (fields.flatMap Field.encoding) := by
  induction fields generalizing e with
  | nil =>
    cases h
    exact ⟨by simp, Cursor.Writes.refl _⟩
  | cons f fields ih =>
    change (f.write >>= fun _ => writeAll fields) e = .ok u e' at h
    rw [EStateM.bind_eq_ok] at h
    obtain ⟨_, e₁, hwrite, hrest⟩ := h
    obtain ⟨hsized, hfit, rfl⟩ := Field.write_eq_ok.mp hwrite
    obtain ⟨hsizeds, hwrites⟩ := ih hrest
    refine ⟨List.forall_mem_cons.mpr ⟨hsized, hsizeds⟩, ?_⟩
    exact (Cursor.writes_put hfit).append hwrites

/-- Where the encodings stand, the shapes read the fields. -/
theorem readAll_of_drop {fields : List Field} (hsized : ∀ f ∈ fields, f.Sized) {d : Decoder}
    {rest : Bytes} (h : d.buf.drop d.pos = fields.flatMap Field.encoding ++ rest) :
    readAll (fields.map Field.shape) d =
      .ok fields (d.advance (fields.flatMap Field.encoding).length
        (Cursor.le_remaining_of_drop h)) := by
  induction fields generalizing d with
  | nil => rfl
  | cons f fields ih =>
    obtain ⟨hf, hfields⟩ := List.forall_mem_cons.mp hsized
    have hfirst : d.buf.drop d.pos =
        f.encoding ++ (fields.flatMap Field.encoding ++ rest) := by
      rw [h, List.flatMap_cons, List.append_assoc]
    have hnext := Cursor.drop_advance hfirst
    rw [readAll, List.map_cons, List.mapM_cons, EStateM.bind_eq_ok]
    refine ⟨f, _, Field.read_of_drop hf hfirst, ?_⟩
    rw [EStateM.bind_eq_ok]
    refine ⟨fields, _, ih hfields hnext, ?_⟩
    rw [EStateM.pure_eq_ok]
    refine ⟨rfl, ?_⟩
    have hboth : f.encoding.length + (fields.flatMap Field.encoding).length ≤ d.remaining := by
      have hle := Cursor.le_remaining_of_drop h
      rw [List.flatMap_cons, List.length_append] at hle
      exact hle
    rw [Cursor.advance_advance _ _ hboth]
    exact Cursor.advance_congr (by rw [List.flatMap_cons, List.length_append]) _ _

/-- A sequence of writes that succeeds is undone by the reads from the same start,
which end where it ended. -/
theorem readAll_writeAll {fields : List Field} {e e' : Encoder} {u : Unit}
    (h : writeAll fields e = .ok u e') :
    (Decoder.skip e.pos >>= fun _ => readAll (fields.map Field.shape)) (Decoder.new e'.buf) =
      .ok fields e' := by
  obtain ⟨hsized, hwrites⟩ := writes_of_writeAll h
  have hpos : e.pos ≤ e'.buf.length := by
    have hle := e'.pos_le
    have heq := hwrites.pos_eq
    omega
  have hskip : e.pos ≤ (Decoder.new e'.buf).remaining := hpos
  rw [EStateM.bind_eq_ok]
  refine ⟨(), (Decoder.new e'.buf).advance e.pos hskip, ?_, ?_⟩
  · rw [Decoder.skip_eq]
    exact EStateM.map_eq_ok.mpr ⟨_, Decoder.readBytes_of_le hskip, rfl⟩
  · have hdrop : ((Decoder.new e'.buf).advance e.pos hskip).buf.drop
        ((Decoder.new e'.buf).advance e.pos hskip).pos =
          fields.flatMap Field.encoding ++ e.buf.drop e'.pos := by
      show e'.buf.drop (0 + e.pos) = _
      rw [Nat.zero_add]
      exact hwrites.drop_pos
    rw [readAll_of_drop hsized hdrop]
    have hend : ((Decoder.new e'.buf).advance e.pos hskip).advance
        (fields.flatMap Field.encoding).length (Cursor.le_remaining_of_drop hdrop) = e' := by
      refine Cursor.ext (by rfl) ?_
      show 0 + e.pos + _ = e'.pos
      rw [hwrites.pos_eq, Nat.zero_add]
    rw [hend]

/-! ## The laws -/

/-- A sequence of writes that succeeds is undone by the reads from the same start.
A failed write or read leaves the position alone, unless its prefix or its header
was there and what belongs to it was not. -/
theorem codec_laws (fields : List Field) (f : Field) (s : Shape) (n : Nat) (e : Encoder)
    (d : Decoder) :
    (∀ e', writeAll fields e = .ok () e' →
      (Decoder.skip e.pos >>= fun _ => readAll (fields.map Field.shape)) (Decoder.new e'.buf) =
        .ok fields e') ∧
      ((∀ u e', f.write e = .error u e' → e'.pos = e.pos) ↔ ¬f.StopsHalfway e) ∧
      ((∀ err d', s.read d = .error err d' → d'.pos = d.pos) ↔ ¬s.StopsHalfway d) ∧
      ∀ err d', Decoder.skip n d = .error err d' → d'.pos = d.pos := by
  refine ⟨fun e' h => readAll_writeAll h, Field.write_error_pos, Shape.read_error_pos, ?_⟩
  intro err d' h
  rw [Decoder.skip_eq, EStateM.map_eq_error, Decoder.readBytes_eq_error] at h
  rw [h.2.2]

/-- In a buffer of four bytes a length fits and its body does not; of two zero bytes
the decoder makes no header, and is behind them. -/
theorem failed_operations_move :
    ¬(∀ (f : Field) (e : Encoder) (u : Unit) (e' : Encoder),
        f.write e = .error u e' → e'.pos = e.pos) ∧
      ¬∀ (s : Shape) (d : Decoder) (err : DecoderError) (d' : Decoder),
        s.read d = .error err d' → d'.pos = d.pos := by
  constructor
  · intro h
    have hfail : (Field.lengthPrefixed [7]).write (Encoder.new [0, 0, 0, 0]) =
        .error () ⟨[1, 0, 0, 0], 4, by decide⟩ := rfl
    exact absurd (h _ _ _ _ hfail) (by decide)
  · intro h
    have hfail : Shape.header.read (Decoder.new [0, 0]) =
        .error (.unsupportedProtocolVersion 0) ⟨[0, 0], 2, by decide⟩ := rfl
    exact absurd (h _ _ _ _ hfail) (by decide)

end Trelis.Wire
