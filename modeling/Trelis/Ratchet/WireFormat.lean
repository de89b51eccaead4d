import Trelis.Lib.Panic
import Trelis.Lib.Slices
import Trelis.Ratchet.Sample
import Trelis.Wasm.Sample

/-!
# The wire format of ratchet messages

`header.rs` of the ratchet crate: the bytes of a header and of a message, and
their parsers.

A header has three length fields in front of parts whose size is fixed, and the
parser skips them.  So a message determines its bytes up to these fields and to
what stands behind the ciphertext (`RatchetMessage.fromBytes_eq_ok`).
-/

namespace Trelis.Ratchet

variable {P : RatchetPrimitives}

/-! ## Headers -/

/-- The three length fields of a header. -/
structure HeaderLengths where
  headerLen : Nat
  pkLen : Nat
  encapLen : Nat
deriving DecidableEq

/-- The lengths that are written. -/
def HeaderLengths.actual : HeaderLengths := ⟨headerSize, hybridKemPkSize, hybridEncapSize⟩

/-- The lengths are `u32` values. -/
structure HeaderLengths.Fits (l : HeaderLengths) : Prop where
  headerLen : l.headerLen < 2 ^ 32
  pkLen : l.pkLen < 2 ^ 32
  encapLen : l.encapLen < 2 ^ 32

namespace MessageHeader

/-- The bytes of a header whose length fields are arbitrary. -/
def bytesWith (l : HeaderLengths) (h : MessageHeader P) : Bytes :=
  [leBytes 1 h.version, leBytes 1 h.cipherSuite, leBytes 4 l.headerLen, leBytes 8 h.recipientKeyId,
    leBytes 4 l.pkLen, P.publicKeyToBytes h.senderPublicKey, leBytes 4 l.encapLen,
    P.encapsulationToBytes h.encapsulation, leBytes 8 h.messageNumber].flatten

theorem toBytes_eq (h : MessageHeader P) : h.toBytes = h.bytesWith .actual := by
  simp only [toBytes, bytesWith, HeaderLengths.actual, List.flatten_cons, List.flatten_nil,
    List.append_nil, List.append_assoc]

def fromBytes (P : RatchetPrimitives) (bytes : Bytes) : Result (MessageHeader P) :=
  if h : bytes.length < headerSize then .error .malformedMessage
  else do
    have h : 2339 ≤ bytes.length := Nat.le_of_not_lt h
    let version := (byteAt bytes 0 (by omega)).toNat
    rejectIf (version ≠ protocolVersion) (.unsupportedProtocolVersion version protocolVersion)
    let cipherSuite := (byteAt bytes 1 (by omega)).toNat
    rejectIf (cipherSuite ≠ Ratchet.cipherSuite)
      (.unsupportedCipherSuite cipherSuite Ratchet.cipherSuite)
    -- the header length at 2 is skipped
    let recipientKeyId := wordAt 8 bytes 6 (by omega)
    -- the key length at 14 is skipped
    let senderPublicKey ← P.publicKeyFromBytes (sliceAt bytes 18 hybridKemPkSize)
    -- the encapsulation length at 1232 is skipped
    let encapsulation ← P.encapsulationFromBytes (sliceAt bytes 1236 hybridEncapSize)
    let messageNumber := wordAt 8 bytes 2331 (by omega)
    pure { version, cipherSuite, recipientKeyId, senderPublicKey, encapsulation, messageNumber }

/-- The header is of this version, its integers have values of their types, and
the key and the encapsulation have their sizes and are known to their decoders. -/
structure Fits (h : MessageHeader P) : Prop where
  version : h.version = protocolVersion
  cipherSuite : h.cipherSuite = Ratchet.cipherSuite
  recipientKeyId : h.recipientKeyId < 2 ^ 64
  length_senderPublicKey : (P.publicKeyToBytes h.senderPublicKey).length = hybridKemPkSize
  senderPublicKey : P.publicKeyFromBytes (P.publicKeyToBytes h.senderPublicKey) =
    .ok h.senderPublicKey
  length_encapsulation : (P.encapsulationToBytes h.encapsulation).length = hybridEncapSize
  encapsulation : P.encapsulationFromBytes (P.encapsulationToBytes h.encapsulation) =
    .ok h.encapsulation
  messageNumber : h.messageNumber < 2 ^ 64

theorem Fits.length_bytesWith {h : MessageHeader P} (hfits : h.Fits) (l : HeaderLengths) :
    (h.bytesWith l).length = headerSize := by
  simp only [bytesWith, List.flatten_cons, List.flatten_nil, List.length_append, leBytes_length,
    hfits.length_senderPublicKey, hfits.length_encapsulation, List.length_nil, headerSize,
    hybridKemPkSize, hybridEncapSize]

theorem fromBytes_bytesWith {h : MessageHeader P} (hfits : h.Fits) (l : HeaderLengths) :
    fromBytes P (h.bytesWith l) = .ok h := by
  have hlen := hfits.length_bytesWith l
  have hpk := hfits.length_senderPublicKey
  have henc := hfits.length_encapsulation
  have hversion : leBytes 1 h.version = [1] := by
    rw [hfits.version]
    rfl
  have hsuite : leBytes 1 h.cipherSuite = [1] := by
    rw [hfits.cipherSuite]
    rfl
  have hversionAt : byteAt (h.bytesWith l) 0 (by rw [hlen]; decide) = 1 :=
    byteAt_flatten (i := 0) (congrArg some hversion) rfl _
  have hsuiteAt : byteAt (h.bytesWith l) 1 (by rw [hlen]; decide) = 1 :=
    byteAt_flatten (i := 1) (congrArg some hsuite) (by simp) _
  have hpkAt : sliceAt (h.bytesWith l) 18 hybridKemPkSize =
      P.publicKeyToBytes h.senderPublicKey := sliceAt_flatten (i := 5) rfl (by simp) hpk
  have hencAt : sliceAt (h.bytesWith l) 1236 hybridEncapSize =
      P.encapsulationToBytes h.encapsulation :=
    sliceAt_flatten (i := 7) rfl (by simp [hpk, hybridKemPkSize]) henc
  have hkeyId : wordAt 8 (h.bytesWith l) 6 (by rw [hlen]; decide) = h.recipientKeyId :=
    wordAt_flatten (i := 3) rfl (by simp) (lt_word8 hfits.recipientKeyId) _
  have hnumber : wordAt 8 (h.bytesWith l) 2331 (by rw [hlen]; decide) = h.messageNumber :=
    wordAt_flatten (i := 8) rfl (by simp [hpk, henc, hybridKemPkSize, hybridEncapSize])
      (lt_word8 hfits.messageNumber) _
  rw [fromBytes, dif_neg (by rw [hlen]; exact lt_irrefl _)]
  simp only [hversionAt, hsuiteAt, hpkAt, hencAt, hkeyId, hnumber, hfits.senderPublicKey,
    hfits.encapsulation, Except.bind_eq_ok, rejectIf_eq_ok, exists_const, Except.ok.injEq,
    exists_eq_left', Except.pure_eq_ok]
  refine ⟨by decide, by decide, ?_⟩
  cases h with
  | mk version suite recipientKeyId senderPublicKey encapsulation messageNumber =>
    rw [mk.injEq]
    exact ⟨hfits.version.symm, hfits.cipherSuite.symm, rfl, rfl, rfl, rfl⟩

/-- A header is decoded whatever its length fields say. -/
theorem fromBytes_eq_ok (hkeys : P.ExactKeys) (hencs : P.ExactEncapsulations) {bytes : Bytes}
    (hlen : bytes.length = headerSize) {h : MessageHeader P} :
    fromBytes P bytes = .ok h ↔ h.Fits ∧ ∃ l : HeaderLengths, l.Fits ∧ bytes = h.bytesWith l := by
  constructor
  · intro hok
    have hsize : 2339 = bytes.length := hlen.symm
    rw [fromBytes, dif_neg (by rw [hlen]; exact lt_irrefl _)] at hok
    simp only [Except.bind_eq_ok, rejectIf_eq_ok, exists_const, Except.pure_eq_ok, ne_eq,
      not_not] at hok
    obtain ⟨hversion, hsuite, pk, hpk, encapsulation, henc, rfl⟩ := hok
    have hpkBytes := hkeys.toBytes_fromBytes hpk
    have hencBytes := hencs.toBytes_fromBytes henc
    have hpkLen : (sliceAt bytes 18 hybridKemPkSize).length = hybridKemPkSize :=
      length_sliceAt (by rw [hlen]; decide)
    have hencLen : (sliceAt bytes 1236 hybridEncapSize).length = hybridEncapSize :=
      length_sliceAt (by rw [hlen]; decide)
    constructor
    · constructor
      · exact hversion
      · exact hsuite
      · exact wordAt_lt (by rw [hlen]; decide)
      · rw [hpkBytes, hpkLen]
      · rw [hpkBytes, hpk]
      · rw [hencBytes, hencLen]
      · rw [hencBytes, henc]
      · exact wordAt_lt (by rw [hlen]; decide)
    · have h2 : 2 + 4 ≤ bytes.length := by rw [hlen]; decide
      have h14 : 14 + 4 ≤ bytes.length := by rw [hlen]; decide
      have h1232 : 1232 + 4 ≤ bytes.length := by rw [hlen]; decide
      refine ⟨⟨wordAt 4 bytes 2 h2, wordAt 4 bytes 14 h14, wordAt 4 bytes 1232 h1232⟩,
        ⟨wordAt_lt h2, wordAt_lt h14, wordAt_lt h1232⟩, ?_⟩
      have hlast : sliceAt bytes 2331 8 = bytes.drop 2331 :=
        List.take_of_length_le (by rw [List.length_drop, hlen]; decide)
      simp only [bytesWith, leBytes_toNat, singleton_byteAt, leBytes_wordAt, hpkBytes, hencBytes,
        hlast, List.flatten_cons, List.flatten_nil, List.append_nil]
      simp (disch := rfl) only [sliceAt_append_drop, hybridEncapSize, hybridKemPkSize]
      rfl
  · intro hfits
    rcases hfits with ⟨hfits, l, _, rfl⟩
    exact fromBytes_bytesWith hfits l

end MessageHeader

/-! ## Messages -/

namespace RatchetMessage

def nonceSize : Nat := 24

/-- The bytes of a message whose header has arbitrary length fields. -/
def bytesWith (l : HeaderLengths) (m : RatchetMessage P) : Bytes :=
  [m.header.bytesWith l, m.nonce.val, leBytes 4 m.ciphertext.length, m.ciphertext].flatten

/-- The header, the nonce, the length of the ciphertext in a `u32`, and the
ciphertext. -/
def toBytes (m : RatchetMessage P) : Bytes :=
  m.header.toBytes ++ m.nonce.val ++ leBytes 4 m.ciphertext.length ++ m.ciphertext

theorem toBytes_eq (m : RatchetMessage P) : m.toBytes = m.bytesWith .actual := by
  simp only [toBytes, bytesWith, MessageHeader.toBytes_eq, List.flatten_cons, List.flatten_nil,
    List.append_nil, List.append_assoc]

def fromBytes (P : RatchetPrimitives) (bytes : Bytes) : Result (RatchetMessage P) :=
  if h : bytes.length < headerSize + nonceSize + 4 then .error .malformedMessage
  else do
    have h : 2367 ≤ bytes.length := Nat.le_of_not_lt h
    let header ← MessageHeader.fromBytes P (sliceAt bytes 0 headerSize)
    let nonce := arrayAt 24 bytes 2339 (by omega)
    let ctLen := wordAt 4 bytes 2363 (by omega)
    let stop ← checkedAdd 64 2367 ctLen .malformedMessage
    rejectIf (bytes.length < stop) .malformedMessage
    let ciphertext := sliceAt bytes 2367 (stop - 2367)
    pure { header, nonce, ciphertext }

/-- The header fits, and so does the length of the ciphertext. -/
structure Fits (m : RatchetMessage P) : Prop where
  header : m.header.Fits
  ciphertext : m.ciphertext.length < 2 ^ 32

theorem bytesWith_append (l : HeaderLengths) (m : RatchetMessage P) (rest : Bytes) :
    m.bytesWith l ++ rest = [m.header.bytesWith l, m.nonce.val, leBytes 4 m.ciphertext.length,
      m.ciphertext, rest].flatten := by
  simp only [bytesWith, List.flatten_cons, List.flatten_nil, List.append_nil, List.append_assoc]

theorem Fits.length_bytesWith {m : RatchetMessage P} (hfits : m.Fits) (l : HeaderLengths) :
    (m.bytesWith l).length = 2367 + m.ciphertext.length := by
  simp only [bytesWith, List.flatten_cons, List.flatten_nil, List.length_append,
    hfits.header.length_bytesWith, FixedBytes.length_coe, leBytes_length, List.length_nil,
    headerSize]
  omega

theorem fromBytes_append {m : RatchetMessage P} (hfits : m.Fits) (l : HeaderLengths)
    (rest : Bytes) : fromBytes P (m.bytesWith l ++ rest) = .ok m := by
  have hheader := hfits.header.length_bytesWith l
  have hlen : (m.bytesWith l ++ rest).length = 2367 + m.ciphertext.length + rest.length := by
    rw [List.length_append, hfits.length_bytesWith]
  have hmin : 2367 ≤ (m.bytesWith l ++ rest).length := by omega
  have hheaderAt : sliceAt (m.bytesWith l ++ rest) 0 headerSize = m.header.bytesWith l := by
    rw [bytesWith_append]
    exact sliceAt_flatten (i := 0) rfl rfl hheader
  have hctLen : wordAt 4 (m.bytesWith l ++ rest) 2363 hmin = m.ciphertext.length := by
    simp only [bytesWith_append]
    exact wordAt_flatten (i := 2) rfl (by simp [hheader, headerSize]) (lt_word4 hfits.ciphertext) _
  have hstop : 2367 + m.ciphertext.length < 2 ^ 64 := by
    have hct := hfits.ciphertext
    omega
  have hmin' : ¬ (m.bytesWith l ++ rest).length < headerSize + nonceSize + 4 :=
    Nat.not_lt.mpr hmin
  rw [fromBytes, dif_neg hmin']
  simp only [hctLen, hheaderAt, MessageHeader.fromBytes_bytesWith hfits.header]
  rw [checkedAdd, if_pos hstop]
  simp only [Except.bind_eq_ok, Except.ok.injEq, exists_eq_left', rejectIf_eq_ok, exists_const,
    Except.pure_eq_ok]
  refine ⟨by omega, ?_⟩
  cases m with
  | mk header nonce ciphertext =>
    rw [mk.injEq]
    simp only [bytesWith_append]
    refine ⟨trivial, ?_, ?_⟩
    · exact arrayAt_flatten (i := 1) rfl (by simp [hheader, headerSize]) _
    · exact sliceAt_flatten (i := 3) rfl (by simp [hheader, headerSize])
        (by rw [Nat.add_sub_cancel_left])

/-- What a byte string decodes to determines it, but for the length fields of
the header and what stands at the end. -/
theorem fromBytes_eq_ok (hkeys : P.ExactKeys) (hencs : P.ExactEncapsulations) {bytes : Bytes}
    {m : RatchetMessage P} :
    fromBytes P bytes = .ok m ↔
      m.Fits ∧ ∃ l : HeaderLengths, l.Fits ∧ ∃ rest, bytes = m.bytesWith l ++ rest := by
  constructor
  · intro h
    unfold fromBytes at h
    split at h
    · cases h
    · next hmin =>
      have hmin : 2367 ≤ bytes.length := Nat.le_of_not_lt hmin
      simp only [Except.bind_eq_ok, checkedAdd_eq_ok, rejectIf_eq_ok, Except.pure_eq_ok,
        exists_const] at h
      obtain ⟨header, hheader, stop, ⟨_, rfl⟩, hstop, rfl⟩ := h
      have hstop := Nat.le_of_not_lt hstop
      have hheaderLen : (sliceAt bytes 0 headerSize).length = headerSize :=
        length_sliceAt (by rw [headerSize]; omega)
      obtain ⟨hfits, l, hl, hheaderBytes⟩ :=
        (MessageHeader.fromBytes_eq_ok hkeys hencs hheaderLen).mp hheader
      have hct : (sliceAt bytes 2367 (wordAt 4 bytes 2363 hmin)).length =
          wordAt 4 bytes 2363 hmin := length_sliceAt hstop
      simp only [Nat.add_sub_cancel_left]
      refine ⟨⟨hfits, ?_⟩, l, hl, bytes.drop (2367 + wordAt 4 bytes 2363 hmin), ?_⟩
      · rw [hct]
        exact wordAt_lt hmin
      · simp only [bytesWith, ← hheaderBytes, arrayAt, hct, leBytes_wordAt, List.flatten_cons,
          List.flatten_nil, List.append_nil, List.append_assoc, headerSize]
        simp (disch := rfl) only [sliceAt_append_drop]
        rfl
  · intro h
    rcases h with ⟨hfits, l, _, rest, rfl⟩
    exact fromBytes_append hfits l rest

end RatchetMessage

/-! ## Exactness -/

/-- The length fields of a header. -/
def headerLengths (bytes : Bytes) : HeaderLengths :=
  ⟨leValue (sliceAt bytes 2 4), leValue (sliceAt bytes 14 4), leValue (sliceAt bytes 1232 4)⟩

/-- The length that a message announces for its ciphertext. -/
def ciphertextLength (bytes : Bytes) : Nat := leValue (sliceAt bytes 2363 4)

theorem headerLengths_append {m : RatchetMessage P} (hfits : m.Fits) {l : HeaderLengths}
    (hl : l.Fits) (rest : Bytes) : headerLengths (m.bytesWith l ++ rest) = l := by
  have hpk := hfits.header.length_senderPublicKey
  have hflat : m.bytesWith l ++ rest = [leBytes 1 m.header.version, leBytes 1 m.header.cipherSuite,
      leBytes 4 l.headerLen, leBytes 8 m.header.recipientKeyId, leBytes 4 l.pkLen,
      P.publicKeyToBytes m.header.senderPublicKey, leBytes 4 l.encapLen,
      P.encapsulationToBytes m.header.encapsulation, leBytes 8 m.header.messageNumber,
      m.nonce.val, leBytes 4 m.ciphertext.length, m.ciphertext, rest].flatten := by
    simp only [RatchetMessage.bytesWith, MessageHeader.bytesWith, List.flatten_cons,
      List.flatten_nil, List.append_nil, List.append_assoc]
  have hheader : sliceAt (m.bytesWith l ++ rest) 2 4 = leBytes 4 l.headerLen := by
    rw [hflat]
    exact sliceAt_flatten (i := 2) rfl (by simp) (leBytes_length 4 _)
  have hpkLen : sliceAt (m.bytesWith l ++ rest) 14 4 = leBytes 4 l.pkLen := by
    rw [hflat]
    exact sliceAt_flatten (i := 4) rfl (by simp) (leBytes_length 4 _)
  have hencap : sliceAt (m.bytesWith l ++ rest) 1232 4 = leBytes 4 l.encapLen := by
    rw [hflat]
    exact sliceAt_flatten (i := 6) rfl (by simp [hpk, hybridKemPkSize]) (leBytes_length 4 _)
  rw [headerLengths, hheader, hpkLen, hencap, leValue_leBytes (lt_word4 hl.headerLen),
    leValue_leBytes (lt_word4 hl.pkLen), leValue_leBytes (lt_word4 hl.encapLen)]

theorem ciphertextLength_append {m : RatchetMessage P} (hfits : m.Fits) (l : HeaderLengths)
    (rest : Bytes) : ciphertextLength (m.bytesWith l ++ rest) = m.ciphertext.length := by
  have hslice : sliceAt (m.bytesWith l ++ rest) 2363 4 = leBytes 4 m.ciphertext.length := by
    rw [RatchetMessage.bytesWith_append]
    exact sliceAt_flatten (i := 2) rfl
      (by simp [hfits.header.length_bytesWith, headerSize]) (leBytes_length 4 _)
  rw [ciphertextLength, hslice, leValue_leBytes (lt_word4 hfits.ciphertext)]

theorem HeaderLengths.fits_actual : HeaderLengths.actual.Fits where
  headerLen := by decide
  pkLen := by decide
  encapLen := by decide

/-- A message that fits is read back.  What is read is written back as the same
bytes when the three length fields have the lengths of what follows them, and the
byte string ends with the ciphertext. -/
theorem ratchet_codec_exact_iff (hkeys : P.ExactKeys) (hencs : P.ExactEncapsulations) :
    (∀ m : RatchetMessage P, m.Fits → RatchetMessage.fromBytes P m.toBytes = .ok m) ∧
      ∀ bytes m, RatchetMessage.fromBytes P bytes = .ok m →
        (m.toBytes = bytes ↔
          headerLengths bytes = .actual ∧ bytes.length = 2367 + ciphertextLength bytes) := by
  constructor
  · intro m hfits
    rw [RatchetMessage.toBytes_eq, ← List.append_nil (m.bytesWith _)]
    exact RatchetMessage.fromBytes_append hfits _ []
  · intro bytes m h
    obtain ⟨hfits, l, hl, rest, rfl⟩ := (RatchetMessage.fromBytes_eq_ok hkeys hencs).mp h
    rw [headerLengths_append hfits hl, ciphertextLength_append hfits, List.length_append,
      hfits.length_bytesWith, Nat.add_eq_left, List.length_eq_zero_iff, RatchetMessage.toBytes_eq]
    constructor
    · intro heq
      have hlengths := headerLengths_append hfits hl rest
      rw [← heq, ← List.append_nil (m.bytesWith .actual),
        headerLengths_append hfits HeaderLengths.fits_actual] at hlengths
      subst hlengths
      exact ⟨rfl, List.self_eq_append_right.mp heq⟩
    · intro h
      rcases h with ⟨rfl, rfl⟩
      rw [List.append_nil]

section Sample

open Symbolic Wasm

/-- An encapsulation that is filled up with zeros. -/
def readEncapsulation (bytes : Bytes) : Result (Bytes32 × Bytes32) := do
  let pk ← unpad 32 0 (bytes.take 32)
  let k ← unpad 32 1031 (bytes.drop 32)
  pure (pk, k)

/-- The symbolic ratchet with keys and encapsulations of the sizes that the wire
has. -/
def framedRatchet : RatchetPrimitives :=
  { symbolicRatchet with
    publicKeyToBytes := fun pk => (padded 1182 pk).val
    publicKeyFromBytes := unpad 32 1182
    encapsulationToBytes := fun c => (padded 0 c.1).val ++ (padded 1031 c.2).val
    encapsulationFromBytes := readEncapsulation }

theorem framedRatchet_exactKeys : framedRatchet.ExactKeys where
  toBytes_fromBytes h := padded_unpad h

theorem readEncapsulation_eq_ok {bytes : Bytes} {c : Bytes32 × Bytes32} :
    readEncapsulation bytes = .ok c ↔ bytes = (padded 0 c.1).val ++ (padded 1031 c.2).val := by
  constructor
  · intro h
    simp only [readEncapsulation, Except.bind_eq_ok, Except.pure_eq_ok] at h
    obtain ⟨pk, hpk, k, hk, rfl⟩ := h
    rw [padded_unpad hpk, padded_unpad hk, List.take_append_drop]
  · intro h
    have hpk : (padded 0 c.1).val.length = 32 := (padded 0 c.1).property
    rw [h, readEncapsulation, List.take_left' hpk, List.drop_left' hpk, unpad_padded, unpad_padded]
    rfl

theorem framedRatchet_exactEncapsulations : framedRatchet.ExactEncapsulations where
  toBytes_fromBytes h := (readEncapsulation_eq_ok.mp h).symm

/-- Every header of this version fits. -/
theorem framedRatchet_fits (pk : Bytes32) (c : Bytes32 × Bytes32) :
    (MessageHeader.new (P := framedRatchet) (0 : Nat) pk c 0).Fits where
  version := rfl
  cipherSuite := rfl
  recipientKeyId := show (0 : Nat) < 2 ^ 64 by decide
  length_senderPublicKey := (padded 1182 pk).property
  senderPublicKey := unpad_padded 1182 pk
  length_encapsulation := by
    show ((padded 0 c.1).val ++ (padded 1031 c.2).val).length = 1095
    rw [List.length_append, (padded 0 c.1).property, (padded 1031 c.2).property]
  encapsulation := readEncapsulation_eq_ok.mpr rfl
  messageNumber := show (0 : Nat) < 2 ^ 64 by decide

/-- A message with an empty ciphertext. -/
def emptyMessage : RatchetMessage framedRatchet where
  header := MessageHeader.new (0 : Nat) (word 1) (word 2, word 3) 0
  nonce := FixedBytes.zero 24
  ciphertext := []

theorem emptyMessage_fits : emptyMessage.Fits where
  header := framedRatchet_fits (word 1) (word 2, word 3)
  ciphertext := by decide

/-- A message whose length fields are all zero, with a byte at its end. -/
def misframed : Bytes := emptyMessage.bytesWith ⟨0, 0, 0⟩ ++ [0]

theorem ratchet_codec_not_exact :
    ∃ m, RatchetMessage.fromBytes framedRatchet misframed = .ok m ∧ m.toBytes ≠ misframed := by
  refine ⟨emptyMessage, RatchetMessage.fromBytes_append emptyMessage_fits _ _, ?_⟩
  intro heq
  have hlen := congrArg List.length heq
  rw [RatchetMessage.toBytes_eq, misframed, List.length_append, emptyMessage_fits.length_bytesWith,
    emptyMessage_fits.length_bytesWith, List.length_singleton] at hlen
  omega

theorem ratchet_codec_exact_sample :
    RatchetMessage.fromBytes framedRatchet emptyMessage.toBytes = .ok emptyMessage :=
  (ratchet_codec_exact_iff framedRatchet_exactKeys framedRatchet_exactEncapsulations).1 emptyMessage
    emptyMessage_fits

end Sample

end Trelis.Ratchet
