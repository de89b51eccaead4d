import Trelis.Cocoa.Messaging
import Trelis.Cocoa.Welcome
import Trelis.Lib.Panic
import Trelis.Lib.Slices
import Trelis.Symbolic

/-!
# Wire codecs

The parsers of group messages, of the signed content of a commit and of the tree
info in a welcome, and how exact each of them is.

The content of a commit has one encoding (`CommitContent.fromBytes_eq_ok`).  The
other two parsers accept more than what is written: a message may have bytes
behind its ciphertext (`EncryptedMessage.fromBytes_eq_ok`), and a node of a tree
info counts as blank on every state flag but 1.
-/

namespace Trelis.Cocoa

variable {P : Primitives}

/-! ## Group messages -/

namespace EncryptedMessage

def headerSize : Nat := 8 + 4 + 8 + 4

/-- The epoch, the leaf, the counter, the length of the ciphertext in a `u32`,
and the ciphertext. -/
def toBytes (m : EncryptedMessage) : Bytes :=
  [leBytes 8 m.epoch, leBytes 4 m.senderLeafPosition, leBytes 8 m.counter,
    leBytes 4 m.ciphertext.length, m.ciphertext].flatten

def fromBytes (bytes : Bytes) : Result EncryptedMessage :=
  if h : bytes.length < headerSize then .error .malformedMessage
  else do
    have h : 24 ≤ bytes.length := Nat.le_of_not_lt h
    let epoch := wordAt 8 bytes 0 (by omega)
    let senderLeafPosition := wordAt 4 bytes 8 (by omega)
    let counter := wordAt 8 bytes 12 (by omega)
    let ctLen := wordAt 4 bytes 20 (by omega)
    let stop ← checkedAdd 64 headerSize ctLen .malformedMessage
    rejectIf (bytes.length < stop) .malformedMessage
    let ciphertext := sliceAt bytes headerSize (stop - headerSize)
    pure { epoch, senderLeafPosition, counter, ciphertext }

/-- The integers have values of their types, and the length of the ciphertext
fits in its field. -/
structure Fits (m : EncryptedMessage) : Prop where
  epoch : m.epoch < 2 ^ 64
  senderLeafPosition : m.senderLeafPosition < 2 ^ 32
  counter : m.counter < 2 ^ 64
  ciphertext : m.ciphertext.length < 2 ^ 32

theorem length_toBytes (m : EncryptedMessage) :
    m.toBytes.length = headerSize + m.ciphertext.length := by
  simp only [toBytes, List.flatten_cons, List.flatten_nil, List.length_append, leBytes_length,
    List.length_nil, headerSize]
  omega

theorem toBytes_append (m : EncryptedMessage) (rest : Bytes) :
    m.toBytes ++ rest = [leBytes 8 m.epoch, leBytes 4 m.senderLeafPosition, leBytes 8 m.counter,
      leBytes 4 m.ciphertext.length, m.ciphertext, rest].flatten := by
  simp only [toBytes, List.flatten_cons, List.flatten_nil, List.append_nil, List.append_assoc]

theorem fromBytes_append {m : EncryptedMessage} (h : m.Fits) (rest : Bytes) :
    fromBytes (m.toBytes ++ rest) = .ok m := by
  have hlen : (m.toBytes ++ rest).length = headerSize + m.ciphertext.length + rest.length := by
    rw [List.length_append, length_toBytes]
  have hheader : headerSize ≤ (m.toBytes ++ rest).length := by omega
  have hctLen : wordAt 4 (m.toBytes ++ rest) 20 hheader = m.ciphertext.length := by
    simp only [toBytes_append]
    exact wordAt_flatten (i := 3) rfl rfl (lt_word4 h.ciphertext) _
  have hstop : headerSize + m.ciphertext.length < 2 ^ 64 := by
    have hct := h.ciphertext
    rw [headerSize]
    omega
  rw [fromBytes, dif_neg (Nat.not_lt.mpr hheader)]
  simp only [hctLen]
  rw [checkedAdd, if_pos hstop]
  simp only [Except.bind_eq_ok, Except.ok.injEq, exists_eq_left', rejectIf_eq_ok, exists_const,
    Except.pure_eq_ok]
  refine ⟨by omega, ?_⟩
  cases m with
  | mk epoch senderLeafPosition counter ciphertext =>
    rw [mk.injEq]
    simp only [toBytes_append]
    refine ⟨?_, ?_, ?_, ?_⟩
    · exact wordAt_flatten (i := 0) rfl rfl (lt_word8 h.epoch) _
    · exact wordAt_flatten (i := 1) rfl rfl (lt_word4 h.senderLeafPosition) _
    · exact wordAt_flatten (i := 2) rfl rfl (lt_word8 h.counter) _
    · exact sliceAt_flatten (i := 4) rfl rfl (by rw [Nat.add_sub_cancel_left])

/-- A byte string decodes to what it begins with. -/
theorem fromBytes_eq_ok {bytes : Bytes} {m : EncryptedMessage} :
    fromBytes bytes = .ok m ↔ m.Fits ∧ ∃ rest, bytes = m.toBytes ++ rest := by
  constructor
  · intro h
    unfold fromBytes at h
    split at h
    · cases h
    · next hheader =>
      have hheader : 24 ≤ bytes.length := Nat.le_of_not_lt hheader
      simp only [Except.bind_eq_ok, checkedAdd_eq_ok, rejectIf_eq_ok, Except.pure_eq_ok,
        exists_const] at h
      obtain ⟨stop, ⟨hword, rfl⟩, hstop, rfl⟩ := h
      have hstop := Nat.le_of_not_lt hstop
      have hlen : (sliceAt bytes headerSize (wordAt 4 bytes 20 (by omega))).length =
          wordAt 4 bytes 20 (by omega) := length_sliceAt hstop
      have hct : wordAt 4 bytes 20 (by omega) < 256 ^ 4 := wordAt_lt _
      simp only [Nat.add_sub_cancel_left]
      constructor
      · constructor
        · exact wordAt_lt (Nat.le_trans (by decide) hheader)
        · exact wordAt_lt (Nat.le_trans (by decide) hheader)
        · exact wordAt_lt (Nat.le_trans (by decide) hheader)
        · rw [hlen]
          exact hct
      · refine ⟨bytes.drop (headerSize + wordAt 4 bytes 20 (by omega)), ?_⟩
        simp only [toBytes, hlen, leBytes_wordAt, List.flatten_cons, List.flatten_nil,
          List.append_nil, List.append_assoc]
        simp (disch := rfl) only [sliceAt_append_drop, headerSize]
        rfl
  · intro h
    rcases h with ⟨hfits, rest, rfl⟩
    exact fromBytes_append hfits rest

/-- The length that a byte string announces for its ciphertext. -/
def lengthField (bytes : Bytes) : Nat := leValue (sliceAt bytes 20 4)

theorem lengthField_append {m : EncryptedMessage} (h : m.Fits) (rest : Bytes) :
    lengthField (m.toBytes ++ rest) = m.ciphertext.length := by
  have hslice : sliceAt (m.toBytes ++ rest) 20 4 = leBytes 4 m.ciphertext.length := by
    rw [toBytes_append]
    exact sliceAt_flatten (i := 3) rfl rfl (leBytes_length 4 _)
  rw [lengthField, hslice, leValue_leBytes (lt_word4 h.ciphertext)]

/-- A message is what it was decoded from when there is nothing behind the
ciphertext. -/
theorem toBytes_eq_iff {bytes : Bytes} {m : EncryptedMessage} (h : fromBytes bytes = .ok m) :
    m.toBytes = bytes ↔ bytes.length = headerSize + lengthField bytes := by
  obtain ⟨hfits, rest, rfl⟩ := fromBytes_eq_ok.mp h
  rw [lengthField_append hfits, List.length_append, length_toBytes, Nat.add_eq_left,
    List.length_eq_zero_iff]
  exact List.self_eq_append_right

end EncryptedMessage

/-! ## The signed content of a commit -/

def CommitType.fromByte (byte : UInt8) : Result CommitType :=
  if byte = 0x01 then .ok .add
  else if byte = 0x02 then .ok .remove
  else if byte = 0x03 then .ok .update
  else .error .malformedMessage

theorem CommitType.fromByte_eq_ok {byte : UInt8} {t : CommitType} :
    CommitType.fromByte byte = .ok t ↔ byte = t.asByte := by
  unfold CommitType.fromByte
  constructor
  · intro h
    split at h
    · next hbyte => cases h; exact hbyte
    · split at h
      · next hbyte => cases h; exact hbyte
      · split at h
        · next hbyte => cases h; exact hbyte
        · cases h
  · intro h
    subst h
    cases t <;> rfl

namespace CommitContent

def commitContentSize : Nat := 141

def fromBytes (bytes : Bytes) : Result CommitContent :=
  if h : bytes.length ≠ commitContentSize then .error .malformedMessage
  else do
    have h : bytes.length = 141 := not_not.mp h
    let groupId := arrayAt 32 bytes 0 (by omega)
    let epoch := beWordAt 8 bytes 32 (by omega)
    let commitType ← CommitType.fromByte (byteAt bytes 40 (by omega))
    let roundHash := arrayAt 32 bytes 41 (by omega)
    let pathUpdatesHash := arrayAt 32 bytes 73 (by omega)
    let committerLeafPosition := wordAt 4 bytes 105 (by omega)
    let committerUserId := arrayAt 32 bytes 109 (by omega)
    pure { groupId, epoch, commitType, roundHash, pathUpdatesHash, committerLeafPosition
           committerUserId }

/-- The integers have values of their types. -/
structure Fits (c : CommitContent) : Prop where
  epoch : c.epoch < 2 ^ 64
  committerLeafPosition : c.committerLeafPosition < 2 ^ 32

theorem toBytes_eq_flatten (c : CommitContent) :
    c.toBytes = [c.groupId.val, beBytes 8 c.epoch, [c.commitType.asByte], c.roundHash.val,
      c.pathUpdatesHash.val, leBytes 4 c.committerLeafPosition, c.committerUserId.val].flatten := by
  simp only [toBytes, List.flatten_cons, List.flatten_nil, List.append_nil, List.append_assoc]

theorem length_toBytes (c : CommitContent) : c.toBytes.length = commitContentSize := by
  simp only [toBytes, List.length_append, FixedBytes.length_coe, beBytes_length, leBytes_length,
    List.length_singleton, commitContentSize]

/-- A content has one encoding. -/
theorem fromBytes_eq_ok {bytes : Bytes} {c : CommitContent} :
    fromBytes bytes = .ok c ↔ c.Fits ∧ c.toBytes = bytes := by
  constructor
  · intro h
    unfold fromBytes at h
    split at h
    · cases h
    · next hsize =>
      have hsize : bytes.length = 141 := not_not.mp hsize
      simp only [Except.bind_eq_ok, CommitType.fromByte_eq_ok, Except.pure_eq_ok] at h
      obtain ⟨commitType, htype, rfl⟩ := h
      have hbyte : [commitType.asByte] = sliceAt bytes 40 1 := by
        rw [← htype, singleton_byteAt]
      constructor
      · exact ⟨beWordAt_lt (by omega), wordAt_lt (by omega)⟩
      · simp only [toBytes_eq_flatten, arrayAt, leBytes_wordAt, beBytes_beWordAt, hbyte,
          List.flatten_cons, List.flatten_nil, List.append_nil]
        have hlast : sliceAt bytes 109 32 = bytes.drop 109 :=
          List.take_of_length_le (by rw [List.length_drop, hsize])
        rw [hlast]
        simp (disch := rfl) only [sliceAt_append_drop]
        rfl
  · intro h
    rcases h with ⟨hfits, rfl⟩
    have hsize := c.length_toBytes
    rw [fromBytes, dif_neg (not_not.mpr hsize)]
    have hbyte : byteAt c.toBytes 40 (by rw [hsize]; decide) = c.commitType.asByte := by
      simp only [toBytes_eq_flatten]
      exact byteAt_flatten (i := 2) rfl (by simp) _
    simp only [Except.bind_eq_ok, CommitType.fromByte_eq_ok, Except.pure_eq_ok]
    refine ⟨c.commitType, hbyte, ?_⟩
    cases c with
    | mk groupId epoch commitType roundHash pathUpdatesHash committerLeafPosition committerUserId =>
      rw [mk.injEq]
      simp only [toBytes_eq_flatten]
      refine ⟨?_, ?_, trivial, ?_, ?_, ?_, ?_⟩
      · exact arrayAt_flatten (i := 0) rfl rfl _
      · exact beWordAt_flatten (i := 1) rfl (by simp) (lt_word8 hfits.epoch) _
      · exact arrayAt_flatten (i := 3) rfl (by simp) _
      · exact arrayAt_flatten (i := 4) rfl (by simp) _
      · exact wordAt_flatten (i := 5) rfl (by simp) (lt_word4 hfits.committerLeafPosition) _
      · exact arrayAt_flatten (i := 6) rfl (by simp) _

/-- Two contents with the same bytes are the same content. -/
theorem toBytes_inj {c c' : CommitContent} (h : c.Fits) (h' : c'.Fits)
    (hbytes : c.toBytes = c'.toBytes) : c = c' := by
  have hread : fromBytes c.toBytes = .ok c := fromBytes_eq_ok.mpr ⟨h, rfl⟩
  have hread' : fromBytes c.toBytes = .ok c' := fromBytes_eq_ok.mpr ⟨h', hbytes.symm⟩
  exact Except.ok.inj (hread.symm.trans hread')

end CommitContent

/-! ## Tree info -/

/-- One record of a tree info: a populated node, or another one with its state
flag, of which the parser asks only that it is not 1. -/
inductive TreeInfoRecord (P : Primitives) where
  | populated (nodeIndex : NodeIndex) (publicKey : P.PublicKey) (parentHash : Bytes32 × Bytes32)
  | unpopulated (nodeIndex : NodeIndex) (stateFlag : UInt8)

namespace TreeInfoRecord

def toBytes : TreeInfoRecord P → Bytes
  | populated nodeIndex publicKey parentHash =>
    [leBytes 4 nodeIndex.depth, leBytes 4 nodeIndex.position, [1],
      leBytes 2 (P.publicKeyToBytes publicKey).length, P.publicKeyToBytes publicKey,
      parentHash.1.val, parentHash.2.val].flatten
  | unpopulated nodeIndex stateFlag =>
    [leBytes 4 nodeIndex.depth, leBytes 4 nodeIndex.position, [stateFlag]].flatten

def stateFlag : TreeInfoRecord P → UInt8
  | populated .. => 1
  | unpopulated _ stateFlag => stateFlag

/-- The node that a record describes. -/
def node? : TreeInfoRecord P → Option (NodeUpdate P)
  | populated nodeIndex publicKey parentHash => some ⟨nodeIndex, publicKey, parentHash, []⟩
  | unpopulated .. => none

/-- The index and the length of the key fit in their fields.  The key is one that
its decoder knows, and a flag that stands for no key is not 1. -/
def Fits : TreeInfoRecord P → Prop
  | populated nodeIndex publicKey _ =>
    nodeIndex.depth < 2 ^ 32 ∧ nodeIndex.position < 2 ^ 32 ∧
      (P.publicKeyToBytes publicKey).length < 2 ^ 16 ∧
      P.publicKeyFromBytes (P.publicKeyToBytes publicKey) = .ok publicKey
  | unpopulated nodeIndex stateFlag =>
    nodeIndex.depth < 2 ^ 32 ∧ nodeIndex.position < 2 ^ 32 ∧ stateFlag ≠ 1

theorem length_toBytes (r : TreeInfoRecord P) : 9 ≤ r.toBytes.length := by
  cases r with
  | populated i pk h =>
    simp [toBytes]
    omega
  | unpopulated i flag => simp [toBytes]

end TreeInfoRecord

/-- The records of a tree info, one behind the other. -/
def encodeTreeInfo (records : List (TreeInfoRecord P)) : Bytes :=
  records.flatMap TreeInfoRecord.toBytes

section Records

variable {i : NodeIndex} {pk : P.PublicKey} {h : Bytes32 × Bytes32} {flag : UInt8} {n : Nat}
  {rest : Bytes} {nodes : List (NodeUpdate P)}

/-- The fields at the front of a record. -/
theorem header_fields (hdepth : i.depth < 2 ^ 32) (hposition : i.position < 2 ^ 32)
    {bytes : Bytes} (hbytes : bytes = leBytes 4 i.depth ++ (leBytes 4 i.position ++ flag :: rest)) :
    9 ≤ bytes.length ∧ leValue (bytes.take 4) = i.depth ∧
      leValue ((bytes.drop 4).take 4) = i.position ∧ (bytes.drop 8).headD 0 = flag ∧
      bytes.drop 9 = rest := by
  have hdrop4 : bytes.drop 4 = leBytes 4 i.position ++ flag :: rest := by
    rw [hbytes, List.drop_left' (leBytes_length 4 _)]
  have hdrop8 : bytes.drop 8 = flag :: rest := by
    rw [← List.drop_drop (i := 4) (j := 4), hdrop4, List.drop_left' (leBytes_length 4 _)]
  refine ⟨?_, ?_, ?_, ?_, ?_⟩
  · rw [hbytes, List.length_append, List.length_append, leBytes_length, leBytes_length,
      List.length_cons]
    omega
  · rw [hbytes, List.take_left' (leBytes_length 4 _), leValue_leBytes (lt_word4 hdepth)]
  · rw [hdrop4, List.take_left' (leBytes_length 4 _), leValue_leBytes (lt_word4 hposition)]
  · rw [hdrop8, List.headD_cons]
  · rw [← List.drop_drop (i := 1) (j := 8), hdrop8, List.drop_one, List.tail_cons]

theorem toBytes_unpopulated_append (i : NodeIndex) (flag : UInt8) (rest : Bytes) :
    (TreeInfoRecord.unpopulated (P := P) i flag).toBytes ++ rest =
      leBytes 4 i.depth ++ (leBytes 4 i.position ++ flag :: rest) := by
  simp [TreeInfoRecord.toBytes]

theorem toBytes_populated_append (i : NodeIndex) (pk : P.PublicKey) (h : Bytes32 × Bytes32)
    (rest : Bytes) :
    (TreeInfoRecord.populated i pk h).toBytes ++ rest =
      leBytes 4 i.depth ++ (leBytes 4 i.position ++ 1 ::
        (leBytes 2 (P.publicKeyToBytes pk).length ++
          [P.publicKeyToBytes pk, h.1.val, h.2.val, rest].flatten)) := by
  simp [TreeInfoRecord.toBytes]

theorem parseWelcomeTreeInfoAux_unpopulated
    (hfits : (TreeInfoRecord.unpopulated (P := P) i flag).Fits) :
    parseWelcomeTreeInfoAux P (n + 1)
        ((TreeInfoRecord.unpopulated (P := P) i flag).toBytes ++ rest) =
      parseWelcomeTreeInfoAux P n rest := by
  obtain ⟨hdepth, hposition, hflag⟩ := hfits
  obtain ⟨hlen, _, _, hhead, hdrop⟩ :=
    header_fields hdepth hposition (toBytes_unpopulated_append (P := P) i flag rest)
  rw [parseWelcomeTreeInfoAux, if_neg, rejectIf, if_neg (Nat.not_lt.mpr hlen), hhead, if_neg hflag,
    hdrop]
  · rfl
  · rw [List.isEmpty_iff_length_eq_zero]
    omega

/-- What the parser reads of a populated record. -/
theorem parseWelcomeTreeInfoAux_populated (hfits : (TreeInfoRecord.populated i pk h).Fits)
    (hrest : parseWelcomeTreeInfoAux P n rest = .ok nodes) :
    parseWelcomeTreeInfoAux P (n + 1) ((TreeInfoRecord.populated i pk h).toBytes ++ rest) =
      .ok (⟨i, pk, h, []⟩ :: nodes) := by
  obtain ⟨hdepth, hposition, hpkLen, hread⟩ := hfits
  obtain ⟨hlen, hdepth, hposition, hhead, hdrop⟩ :=
    header_fields hdepth hposition (toBytes_populated_append i pk h rest)
  have hkey : (P.publicKeyToBytes pk).length < 256 ^ 2 := Nat.lt_of_lt_of_eq hpkLen (by decide)
  have hpk : [P.publicKeyToBytes pk, h.1.val, h.2.val, rest].flatten.take
      (P.publicKeyToBytes pk).length = P.publicKeyToBytes pk :=
    sliceAt_flatten (i := 0) rfl rfl rfl
  have hh1 : ([P.publicKeyToBytes pk, h.1.val, h.2.val, rest].flatten.drop
      (P.publicKeyToBytes pk).length).take 32 = h.1.val :=
    sliceAt_flatten (i := 1) rfl (by simp) h.1.property
  have hh2 : ([P.publicKeyToBytes pk, h.1.val, h.2.val, rest].flatten.drop
      ((P.publicKeyToBytes pk).length + 32)).take 32 = h.2.val :=
    sliceAt_flatten (i := 2) rfl (by simp) h.2.property
  have hend : [P.publicKeyToBytes pk, h.1.val, h.2.val, rest].flatten.drop
      ((P.publicKeyToBytes pk).length + 64) = rest := by
    rw [drop_flatten_take (i := 3) (by simp)]
    exact List.append_nil rest
  have hsize : (P.publicKeyToBytes pk).length + 64 ≤
      [P.publicKeyToBytes pk, h.1.val, h.2.val, rest].flatten.length := by
    simp only [List.flatten_cons, List.flatten_nil, List.length_append, FixedBytes.length_coe]
    omega
  generalize [P.publicKeyToBytes pk, h.1.val, h.2.val, rest].flatten = tail at *
  rw [parseWelcomeTreeInfoAux, if_neg, rejectIf, if_neg (Nat.not_lt.mpr hlen), hhead, hdepth,
    hposition, hdrop]
  · simp only [↓reduceIte, List.take_left' (leBytes_length 2 _), leValue_leBytes hkey,
      List.drop_left' (leBytes_length 2 _), hpk, hread, hh1, hh2, hend, hrest]
    simp only [Except.bind_eq_ok, rejectIf_eq_ok, exists_const, toArray_eq_ok, Except.ok.injEq,
      exists_eq_left', Except.pure_eq_ok, List.length_append, leBytes_length]
    exact ⟨trivial, by omega, by omega, h.1, rfl, h.2, rfl, rfl⟩
  · rw [List.isEmpty_iff_length_eq_zero]
    omega

/-- The front of a byte string, cut into the fields of a record. -/
theorem header_split {bytes : Bytes} (hlen : 9 ≤ bytes.length) :
    bytes = leBytes 4 (leValue (bytes.take 4)) ++
        (leBytes 4 (leValue ((bytes.drop 4).take 4)) ++ (bytes.drop 8).headD 0 :: bytes.drop 9) ∧
      leValue (bytes.take 4) < 2 ^ 32 ∧ leValue ((bytes.drop 4).take 4) < 2 ^ 32 := by
  have hword : ∀ b : Bytes, 4 ≤ b.length →
      leBytes 4 (leValue (b.take 4)) = b.take 4 ∧ leValue (b.take 4) < 2 ^ 32 := by
    intro b hb
    have hfour : (b.take 4).length = 4 := List.length_take_of_le hb
    have hbytes := leBytes_leValue (b.take 4)
    have hlt := leValue_lt (b.take 4)
    rw [hfour] at hbytes hlt
    exact ⟨hbytes, hlt⟩
  obtain ⟨hdepth, hdepth_lt⟩ := hword bytes (by omega)
  obtain ⟨hposition, hposition_lt⟩ := hword (bytes.drop 4) (by rw [List.length_drop]; omega)
  refine ⟨?_, hdepth_lt, hposition_lt⟩
  have hhead : (bytes.drop 8).headD 0 :: bytes.drop 9 = bytes.drop 8 := by
    rw [List.drop_eq_getElem_cons (i := 8) (by omega), List.headD_cons]
  rw [hdepth, hposition, hhead, ← List.drop_drop (i := 4) (j := 4), List.take_append_drop,
    List.take_append_drop]

/-- What is parsed begins with a record. -/
theorem record_of_parsed (hread : ∀ {b pk}, P.publicKeyFromBytes b = .ok pk →
      P.publicKeyToBytes pk = b) {bytes : Bytes} (hne : bytes.isEmpty = false)
    (h : parseWelcomeTreeInfoAux P (n + 1) bytes = .ok nodes) :
    ∃ r rest nodes', TreeInfoRecord.Fits r ∧ bytes = r.toBytes ++ rest ∧
      parseWelcomeTreeInfoAux P n rest = .ok nodes' ∧ nodes = r.node?.toList ++ nodes' := by
  rw [parseWelcomeTreeInfoAux, hne] at h
  simp only [Bool.false_eq_true, ↓reduceIte, Except.bind_eq_ok, rejectIf_eq_ok,
    exists_const] at h
  obtain ⟨hlen, h⟩ := h
  obtain ⟨hsplit, hdepth, hposition⟩ := header_split (Nat.le_of_not_lt hlen)
  split at h
  · next hflag =>
    simp only [Except.bind_eq_ok, rejectIf_eq_ok, exists_const, toArray_eq_ok,
      Except.pure_eq_ok] at h
    obtain ⟨hlen2, hsize, pk, hpk, h1, hh1, h2, hh2, nodes', hrest, rfl⟩ := h
    have hkey := hread hpk
    have htwo : ((bytes.drop 9).take 2).length = 2 :=
      List.length_take_of_le (Nat.le_of_not_lt hlen2)
    have hprefix := leBytes_leValue ((bytes.drop 9).take 2)
    have hlt := leValue_lt ((bytes.drop 9).take 2)
    rw [htwo] at hprefix hlt
    have hkeyLen : (P.publicKeyToBytes pk).length = leValue ((bytes.drop 9).take 2) := by
      rw [hkey, List.length_take_of_le (by omega)]
    refine ⟨.populated ⟨_, _⟩ pk (h1, h2), _, nodes', ?_, ?_, hrest, rfl⟩
    · refine ⟨hdepth, hposition, ?_, ?_⟩
      · rw [hkeyLen]
        exact hlt
      · rw [hkey, hpk]
    · have htail : [P.publicKeyToBytes pk, h1.val, h2.val,
          ((bytes.drop 9).drop 2).drop (leValue ((bytes.drop 9).take 2) + 64)].flatten =
            (bytes.drop 9).drop 2 := by
        rw [hkey, ← hh1, ← hh2]
        simp only [List.flatten_cons, List.flatten_nil, List.append_nil]
        generalize (bytes.drop 9).drop 2 = tail
        generalize leValue ((bytes.drop 9).take 2) = pkLen
        have hhashes : tail.drop (pkLen + 64) = (tail.drop (pkLen + 32)).drop 32 := by
          rw [List.drop_drop]
        rw [hhashes, List.take_append_drop, ← List.drop_drop, List.take_append_drop,
          List.take_append_drop]
      rw [toBytes_populated_append, htail, hkeyLen, hprefix, List.take_append_drop, ← hflag]
      exact hsplit
  · next hflag =>
    exact ⟨.unpopulated ⟨_, _⟩ _, bytes.drop 9, nodes, ⟨hdepth, hposition, hflag⟩,
      by rw [toBytes_unpopulated_append]; exact hsplit, h, rfl⟩

end Records

/-- A list of records is parsed to its populated nodes. -/
theorem parseWelcomeTreeInfoAux_encode {rs : List (TreeInfoRecord P)} (hfits : ∀ r ∈ rs, r.Fits)
    {n : Nat} (hn : (encodeTreeInfo rs).length ≤ n) :
    parseWelcomeTreeInfoAux P n (encodeTreeInfo rs) = .ok (rs.filterMap TreeInfoRecord.node?) := by
  induction rs generalizing n with
  | nil => cases n <;> rfl
  | cons r rs ih =>
    have hcons : encodeTreeInfo (r :: rs) = r.toBytes ++ encodeTreeInfo rs := List.flatMap_cons
    have hlen := r.length_toBytes
    rw [hcons, List.length_append] at hn
    obtain ⟨n, rfl⟩ : ∃ m, n = m + 1 := ⟨n - 1, by omega⟩
    have hrest := ih (fun x hx => hfits x (List.mem_cons_of_mem _ hx)) (n := n) (by omega)
    have hr := hfits r List.mem_cons_self
    rw [hcons]
    cases r with
    | populated i pk h => exact parseWelcomeTreeInfoAux_populated hr hrest
    | unpopulated i flag =>
      rw [parseWelcomeTreeInfoAux_unpopulated hr, hrest]
      rfl

/-- What is parsed is a list of records. -/
theorem records_of_parsed (hread : ∀ {b pk}, P.publicKeyFromBytes b = .ok pk →
      P.publicKeyToBytes pk = b) {n : Nat} {bytes : Bytes} {nodes : List (NodeUpdate P)}
    (hn : bytes.length ≤ n) (h : parseWelcomeTreeInfoAux P n bytes = .ok nodes) :
    ∃ rs : List (TreeInfoRecord P), (∀ r ∈ rs, r.Fits) ∧ encodeTreeInfo rs = bytes ∧
      rs.filterMap TreeInfoRecord.node? = nodes := by
  induction n generalizing bytes nodes with
  | zero =>
    cases h
    exact ⟨[], by simp, (List.length_eq_zero_iff.mp (by omega)).symm, rfl⟩
  | succ n ih =>
    cases hempty : bytes.isEmpty with
    | true =>
      rw [parseWelcomeTreeInfoAux, hempty] at h
      cases h
      exact ⟨[], by simp, (List.isEmpty_iff.mp hempty).symm, rfl⟩
    | false =>
      obtain ⟨r, rest, nodes', hr, rfl, hrest, rfl⟩ := record_of_parsed hread hempty h
      have hlen := r.length_toBytes
      rw [List.length_append] at hn
      obtain ⟨rs, hrs, rfl, rfl⟩ := ih (by omega) hrest
      refine ⟨r :: rs, List.forall_mem_cons.mpr ⟨hr, hrs⟩, List.flatMap_cons, ?_⟩
      rw [List.filterMap_cons]
      cases r.node? <;> rfl

/-- The state flags that the parser meets in a tree info. -/
def stateFlagsAux : Nat → Bytes → List UInt8
  | 0, _ => []
  | n + 1, bytes =>
    if bytes.isEmpty then []
    else
      let stateFlag := (bytes.drop 8).headD 0
      let body := bytes.drop 9
      stateFlag :: stateFlagsAux n
        (if stateFlag = 1 then (body.drop 2).drop (leValue (body.take 2) + 64) else body)

def stateFlags (treeInfo : Bytes) : List UInt8 := stateFlagsAux treeInfo.length treeInfo

theorem stateFlagsAux_record {r : TreeInfoRecord P} (hr : r.Fits) (n : Nat) (rest : Bytes) :
    stateFlagsAux (n + 1) (r.toBytes ++ rest) = r.stateFlag :: stateFlagsAux n rest := by
  have hne : (r.toBytes ++ rest).isEmpty = false := by
    have hlen := r.length_toBytes
    rw [List.isEmpty_eq_false_iff, ← List.length_pos_iff, List.length_append]
    omega
  rw [stateFlagsAux, hne]
  cases r with
  | populated i pk h =>
    obtain ⟨hdepth, hposition, hpkLen, _⟩ := hr
    obtain ⟨_, _, _, hhead, hdrop⟩ :=
      header_fields hdepth hposition (toBytes_populated_append i pk h rest)
    have hkey : (P.publicKeyToBytes pk).length < 256 ^ 2 := Nat.lt_of_lt_of_eq hpkLen (by decide)
    have hend : [P.publicKeyToBytes pk, h.1.val, h.2.val, rest].flatten.drop
        ((P.publicKeyToBytes pk).length + 64) = rest := by
      rw [drop_flatten_take (i := 3) (by simp)]
      exact List.append_nil rest
    simp only [hhead, hdrop, Bool.false_eq_true, ↓reduceIte, List.drop_left' (leBytes_length 2 _),
      List.take_left' (leBytes_length 2 _), leValue_leBytes hkey, hend]
    rfl
  | unpopulated i flag =>
    obtain ⟨hdepth, hposition, hflag⟩ := hr
    obtain ⟨_, _, _, hhead, hdrop⟩ :=
      header_fields hdepth hposition (toBytes_unpopulated_append (P := P) i flag rest)
    simp only [hhead, hdrop, Bool.false_eq_true, ↓reduceIte, if_neg hflag]
    rfl

theorem stateFlags_encode {rs : List (TreeInfoRecord P)} (hfits : ∀ r ∈ rs, r.Fits) :
    stateFlags (encodeTreeInfo rs) = rs.map TreeInfoRecord.stateFlag := by
  suffices haux : ∀ n, (encodeTreeInfo rs).length ≤ n →
      stateFlagsAux n (encodeTreeInfo rs) = rs.map TreeInfoRecord.stateFlag from haux _ le_rfl
  induction rs with
  | nil =>
    intro n _
    cases n <;> rfl
  | cons r rs ih =>
    intro n hn
    have hcons : encodeTreeInfo (r :: rs) = r.toBytes ++ encodeTreeInfo rs := List.flatMap_cons
    have hlen := r.length_toBytes
    rw [hcons, List.length_append] at hn
    obtain ⟨n, rfl⟩ : ∃ m, n = m + 1 := ⟨n - 1, by omega⟩
    rw [hcons, stateFlagsAux_record (hfits r List.mem_cons_self),
      ih (fun x hx => hfits x (List.mem_cons_of_mem _ hx)) n (by omega), List.map_cons]

/-! ### The tree info of a session -/

/-- The record of a node of a tree. -/
def treeInfoRecord (t : PartialTreeView P) (i : NodeIndex) : TreeInfoRecord P :=
  match (t.get i).bind fun node => node.state.publicKey.map fun pk => (node, pk) with
  | some (node, pk) => .populated i pk (node.state.parentHash.getD (zero32, zero32))
  | none => .unpopulated i 0

theorem serialiseTreeInfoNode_eq (t : PartialTreeView P) (i : NodeIndex) :
    serialiseTreeInfoNode t i = (treeInfoRecord t i).toBytes := by
  unfold serialiseTreeInfoNode treeInfoRecord
  cases t.get i with
  | none => simp [TreeInfoRecord.toBytes]
  | some node =>
    cases hpk : node.state.publicKey <;> simp [hpk, TreeInfoRecord.toBytes]

/-- The populated nodes on a session's path. -/
def CocoaSession.pathNodes (session : CocoaSession P) : List (NodeUpdate P) :=
  (pathToRoot session.ourLeafNode).filterMap fun i => (treeInfoRecord session.tree i).node?

theorem serialiseTreeInfo_eq (session : CocoaSession P) :
    serialiseTreeInfo session =
      encodeTreeInfo ((pathToRoot session.ourLeafNode).map (treeInfoRecord session.tree)) := by
  rw [serialiseTreeInfo, encodeTreeInfo, List.flatMap_map]
  exact List.flatMap_congr fun i _ => serialiseTreeInfoNode_eq session.tree i

theorem parseWelcomeTreeInfo_serialise {session : CocoaSession P}
    (hfits : ∀ i ∈ pathToRoot session.ourLeafNode, (treeInfoRecord session.tree i).Fits) :
    parseWelcomeTreeInfo P (serialiseTreeInfo session) = .ok session.pathNodes := by
  rw [serialiseTreeInfo_eq, parseWelcomeTreeInfo,
    parseWelcomeTreeInfoAux_encode (List.forall_mem_map.mpr hfits) le_rfl, List.filterMap_map]
  rfl

/-! ## Exactness -/

/-- The record of a node that was parsed. -/
def recordOf (node : NodeUpdate P) : TreeInfoRecord P :=
  .populated node.nodeIndex node.publicKey node.parentHash

/-- The encoder writes the state flags 0 and 1. -/
def Written (r : TreeInfoRecord P) : Prop := r.Fits ∧ r.stateFlag ≤ 1

/-- A parsed tree info is one that the encoder writes when its flags are 0 and 1. -/
theorem exists_written_iff (hkeys : P.ExactKeys) {bytes : Bytes} {nodes : List (NodeUpdate P)}
    (h : parseWelcomeTreeInfo P bytes = .ok nodes) :
    (∃ rs : List (TreeInfoRecord P), (∀ r ∈ rs, Written r) ∧ encodeTreeInfo rs = bytes ∧
      rs.filterMap TreeInfoRecord.node? = nodes) ↔ ∀ flag ∈ stateFlags bytes, flag ≤ 1 := by
  constructor
  · intro hrs
    rcases hrs with ⟨rs, hwritten, rfl, _⟩
    rw [stateFlags_encode fun r hr => (hwritten r hr).1, List.forall_mem_map]
    exact fun r hr => (hwritten r hr).2
  · intro hflags
    obtain ⟨rs, hfits, rfl, hnodes⟩ := records_of_parsed hkeys.toBytes_fromBytes le_rfl h
    rw [stateFlags_encode hfits, List.forall_mem_map] at hflags
    exact ⟨rs, fun r hr => ⟨hfits r hr, hflags r hr⟩, rfl, hnodes⟩

/-- Records that all have flag 1 are the records of their nodes. -/
theorem map_recordOf {rs : List (TreeInfoRecord P)} (hfits : ∀ r ∈ rs, r.Fits)
    (hflags : ∀ r ∈ rs, r.stateFlag = 1) :
    (rs.filterMap TreeInfoRecord.node?).map recordOf = rs := by
  induction rs with
  | nil => rfl
  | cons r rs ih =>
    have hrest := ih (fun x hx => hfits x (List.mem_cons_of_mem _ hx)) fun x hx =>
      hflags x (List.mem_cons_of_mem _ hx)
    cases r with
    | populated i pk h =>
      rw [List.filterMap_cons]
      show recordOf _ :: _ = _
      rw [hrest]
      rfl
    | unpopulated i flag =>
      have hr := hfits _ List.mem_cons_self
      exact absurd (hflags _ List.mem_cons_self) hr.2.2

/-- The populated nodes alone give a tree info back when it has no other record. -/
theorem encode_nodes_eq_iff (hkeys : P.ExactKeys) {bytes : Bytes} {nodes : List (NodeUpdate P)}
    (h : parseWelcomeTreeInfo P bytes = .ok nodes) :
    encodeTreeInfo (nodes.map recordOf) = bytes ↔ ∀ flag ∈ stateFlags bytes, flag = 1 := by
  obtain ⟨rs, hfits, rfl, rfl⟩ := records_of_parsed hkeys.toBytes_fromBytes le_rfl h
  have hnodes : ∀ r ∈ (rs.filterMap TreeInfoRecord.node?).map recordOf, r.Fits := by
    intro r hr
    obtain ⟨node, hnode, rfl⟩ := List.mem_map.mp hr
    obtain ⟨r, hmem, hsome⟩ := List.mem_filterMap.mp hnode
    cases r with
    | populated i pk h =>
      cases hsome
      exact hfits _ hmem
    | unpopulated i flag => cases hsome
  rw [stateFlags_encode hfits, List.forall_mem_map]
  constructor
  · intro heq
    have hflags := stateFlags_encode hnodes
    rw [heq, stateFlags_encode hfits] at hflags
    intro r hr
    have hmem : r.stateFlag ∈ rs.map TreeInfoRecord.stateFlag := List.mem_map_of_mem hr
    rw [hflags, List.map_map, List.mem_map] at hmem
    obtain ⟨_, _, hone⟩ := hmem
    exact hone.symm
  · intro hflags
    rw [map_recordOf hfits hflags]

/-- The three codecs: what is written is read back, and when what is read is
what was written.  A message has to end with its ciphertext, a content always is,
and in a tree info the flags have to be 0 and 1 (to give the bytes back without
the blank nodes, 1). -/
theorem wire_codecs_exact_iff (hkeys : P.ExactKeys) :
    ((∀ m : EncryptedMessage, m.Fits → EncryptedMessage.fromBytes m.toBytes = .ok m) ∧
      ∀ bytes m, EncryptedMessage.fromBytes bytes = .ok m →
        (m.toBytes = bytes ↔
          bytes.length = EncryptedMessage.headerSize + EncryptedMessage.lengthField bytes)) ∧
    ((∀ c : CommitContent, c.Fits → CommitContent.fromBytes c.toBytes = .ok c) ∧
      ∀ bytes c, CommitContent.fromBytes bytes = .ok c → c.toBytes = bytes) ∧
    (∀ session : CocoaSession P,
      (∀ i ∈ pathToRoot session.ourLeafNode, (treeInfoRecord session.tree i).Fits) →
        parseWelcomeTreeInfo P (serialiseTreeInfo session) = .ok session.pathNodes) ∧
    ∀ bytes nodes, parseWelcomeTreeInfo P bytes = .ok nodes →
      ((∃ rs : List (TreeInfoRecord P), (∀ r ∈ rs, Written r) ∧ encodeTreeInfo rs = bytes ∧
        rs.filterMap TreeInfoRecord.node? = nodes) ↔ ∀ flag ∈ stateFlags bytes, flag ≤ 1) ∧
      (encodeTreeInfo (nodes.map recordOf) = bytes ↔ ∀ flag ∈ stateFlags bytes, flag = 1) := by
  refine ⟨⟨?_, fun bytes m => EncryptedMessage.toBytes_eq_iff⟩, ⟨?_, ?_⟩, ?_, ?_⟩
  · intro m hm
    exact EncryptedMessage.fromBytes_eq_ok.mpr ⟨hm, [], (List.append_nil _).symm⟩
  · intro c hc
    exact CommitContent.fromBytes_eq_ok.mpr ⟨hc, rfl⟩
  · intro bytes c hc
    exact (CommitContent.fromBytes_eq_ok.mp hc).2
  · intro session hfits
    exact parseWelcomeTreeInfo_serialise hfits
  · intro bytes nodes h
    exact ⟨exists_written_iff hkeys h, encode_nodes_eq_iff hkeys h⟩

section Sample

open Symbolic

theorem exactKeys : symbolic.ExactKeys where
  toBytes_fromBytes := by
    intro b pk h
    change publicKeyFromBytes b = .ok pk at h
    unfold publicKeyFromBytes at h
    cases hb : FixedBytes.ofBytes? 32 b with
    | none => simp [hb] at h
    | some a =>
      rw [hb] at h
      cases h
      exact (FixedBytes.ofBytes?_eq_some.mp hb).symm

/-- A byte behind an empty ciphertext is dropped. -/
def trailingMessage : Bytes := List.replicate 25 0

/-- A blank node with the state flag 2. -/
def strangeTreeInfo : Bytes := List.replicate 8 0 ++ [2]

theorem wire_codecs_not_exact :
    (EncryptedMessage.fromBytes trailingMessage = .ok ⟨0, 0, 0, []⟩ ∧
      EncryptedMessage.toBytes ⟨0, 0, 0, []⟩ ≠ trailingMessage) ∧
    parseWelcomeTreeInfo symbolic strangeTreeInfo = .ok [] ∧
      encodeTreeInfo (P := symbolic) [] ≠ strangeTreeInfo := by
  refine ⟨⟨rfl, by decide⟩, rfl, by decide⟩

/-- A message with three bytes of ciphertext. -/
def messageBytes : Bytes := leBytes 8 1 ++ leBytes 4 2 ++ leBytes 8 3 ++ leBytes 4 3 ++ [7, 8, 9]

/-- A tree info with a leaf that has the key number 5, and a blank root behind it. -/
def leafAndRoot : Bytes :=
  leBytes 4 1 ++ leBytes 4 0 ++ [1] ++ leBytes 2 32 ++ (word 5).val ++ (word 6).val ++
    (word 7).val ++ List.replicate 9 0

/-- The message, and the tree info with its key, are what is written.  The leaf
alone is another tree info. -/
theorem wire_codecs_exact_sample :
    EncryptedMessage.toBytes ⟨1, 2, 3, [7, 8, 9]⟩ = messageBytes ∧
      (∃ rs : List (TreeInfoRecord symbolic), (∀ r ∈ rs, Written r) ∧
        encodeTreeInfo rs = leafAndRoot ∧
        rs.filterMap TreeInfoRecord.node? = [⟨⟨1, 0⟩, word 5, (word 6, word 7), []⟩]) ∧
      encodeTreeInfo (P := symbolic) [.populated ⟨1, 0⟩ (word 5) (word 6, word 7)] ≠
        leafAndRoot := by
  obtain ⟨⟨_, hmessage⟩, _, _, htree⟩ := wire_codecs_exact_iff exactKeys
  have hflags : stateFlags leafAndRoot = [1, 0] := rfl
  have hparse : parseWelcomeTreeInfo symbolic leafAndRoot =
      .ok [⟨⟨1, 0⟩, word 5, (word 6, word 7), []⟩] := rfl
  obtain ⟨hwritten, hnodes⟩ := htree leafAndRoot _ hparse
  rw [hflags] at hwritten hnodes
  refine ⟨(hmessage messageBytes _ rfl).mpr rfl, hwritten.mpr (by simp), ?_⟩
  intro hleaf
  exact absurd (hnodes.mp hleaf) (by simp)

end Sample

end Trelis.Cocoa
