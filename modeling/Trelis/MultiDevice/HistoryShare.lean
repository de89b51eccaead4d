import Trelis.Lib.Panic
import Trelis.MultiDevice.SignedStatements
import Trelis.X3dh.KeyCodec

/-!
# History key shares

The wire form of `HistoryKeyShareMessage` (`history.rs`), on targets with words of 32
and of 64 bits.  Additions, slices and the allocation of the vector may panic, and
`fromBytes` is a `MachineM`.  A byte string has at most `isize::MAX` bytes, on every
target.

The count of the keys is read as a `u64` and cast to `usize`.  The checks behind the
cast rule out every panic (`fromBytes_eq`), but on a target of 32 bits the cast drops
the upper half of the count, so that the count of an accepted string is known only
modulo `2 ^ 32`.
-/

namespace Trelis.MultiDevice

open X3dh MachineM

variable {P : HandshakePrimitives}

/-! ## Retained keys -/

/-- `RetainedKey::from_bytes`. -/
def RetainedKey.fromBytes (bytes : Bytes) : Result RetainedKey := do
  rejectIf (bytes.length ≠ 80) .malformedMessage
  -- The slices have the lengths of the arrays, so that the copies do not fail.
  let messageId ← arrayFromBytes 32 (sliceAt bytes 0 32) .malformedMessage
  let messageKey ← arrayFromBytes 32 (sliceAt bytes 32 32) .malformedMessage
  let sequence := readUInt64 (sliceAt bytes 64 8)
  let timestamp := readUInt64 (sliceAt bytes 72 8)
  pure { messageId, messageKey, sequence, timestamp }

theorem RetainedKey.fromBytes_eq_ok {bytes : Bytes} {key : RetainedKey} :
    fromBytes bytes = .ok key ↔ bytes = key.toBytes := by
  have hid : key.messageId.val.length = 32 := FixedBytes.length_coe _
  have hkey : key.messageKey.val.length = 32 := FixedBytes.length_coe _
  have hsequence : (leBytes 8 key.sequence.toNat).length = 8 := leBytes_length _ _
  have hsplit : key.toBytes = key.messageId.val ++ (key.messageKey.val ++
      (leBytes 8 key.sequence.toNat ++ leBytes 8 key.timestamp.toNat)) := by
    simp [toBytes]
  have hlast (h : bytes.length = 80) : sliceAt bytes 72 8 = bytes.drop 72 :=
    sliceAt_eq_drop h
  simp only [fromBytes, Except.bind_eq_ok, rejectIf_eq_ok, not_not, arrayFromBytes_eq_ok,
    Except.pure_eq_ok]
  constructor
  · intro hboth
    rcases hboth with ⟨_, hlength, id, h1, messageKey, h2, hmade⟩
    subst hmade
    rw [hsplit]
    refine (eq_append_iff hid).mpr ⟨h1, (drop_eq_append_iff hkey).mpr ⟨h2, ?_⟩⟩
    refine (drop_eq_append_iff hsequence).mpr ⟨(readUInt64_sliceAt (by omega)).mp rfl, ?_⟩
    rw [← hlast hlength]
    exact (readUInt64_sliceAt (by omega)).mp rfl
  · intro h
    have hlength : bytes.length = 80 := by
      rw [h]
      simp [toBytes]
    rw [hsplit] at h
    obtain ⟨h1, hrest⟩ := (eq_append_iff hid).mp h
    obtain ⟨h2, hrest⟩ := (drop_eq_append_iff hkey).mp hrest
    obtain ⟨h3, h4⟩ := (drop_eq_append_iff hsequence).mp hrest
    refine ⟨(), hlength, key.messageId, h1, key.messageKey, h2, ?_⟩
    rw [(readUInt64_sliceAt (by omega)).mpr h3,
      (readUInt64_sliceAt (by omega)).mpr ((hlast hlength).trans h4)]

/-- Every string of the right length is a key. -/
theorem RetainedKey.exists_of_length {bytes : Bytes} (h : bytes.length = 80) :
    ∃ key : RetainedKey, bytes = key.toBytes := by
  have hid : (sliceAt bytes 0 32).length = 32 := length_sliceAt (by omega)
  have hkey : (sliceAt bytes 32 32).length = 32 := length_sliceAt (by omega)
  refine ⟨⟨⟨_, hid⟩, ⟨_, hkey⟩, readUInt64 (sliceAt bytes 64 8), readUInt64 (sliceAt bytes 72 8)⟩,
    RetainedKey.fromBytes_eq_ok.mp ?_⟩
  simp only [fromBytes, Except.bind_eq_ok, rejectIf_eq_ok, not_not, arrayFromBytes_eq_ok,
    Except.pure_eq_ok]
  exact ⟨(), h, ⟨_, hid⟩, rfl, ⟨_, hkey⟩, rfl, rfl⟩

/-! ## Messages -/

/-- The targets. -/
inductive Target where
  | word32
  | word64
deriving DecidableEq

/-- The bits of a `usize`. -/
def Target.bits : Target → Nat
  | word32 => 32
  | word64 => 64

/-- `HistoryKeyShareMessage`. -/
structure HistoryKeyShareMessage (P : HandshakePrimitives) where
  threadId : Bytes32
  keys : List RetainedKey
  signature : CanonicalSignature P
  sharedAt : UInt64

namespace HistoryKeyShareMessage

/-- The fields behind a given count. -/
def encodeWith (m : HistoryKeyShareMessage P) (keyCount : Nat) : Bytes :=
  m.threadId.val ++ (leBytes 8 keyCount ++ (hashedKeys m.keys ++
    (leBytes 8 m.sharedAt.toNat ++ m.signature.val.toBytes.val)))

/-- `HistoryKeyShareMessage::to_bytes`. -/
def toBytes (m : HistoryKeyShareMessage P) : Bytes := m.encodeWith m.keys.length

/-- The loop that reads the keys, from an offset. -/
def readKeys (w : Nat) (bytes : Bytes) : Nat → Nat → MachineM CryptoError (List RetainedKey × Nat)
  | 0, offset => pure ([], offset)
  | n + 1, offset => do
    let stop ← arith (addWord w offset 80)
    let field ← arith (slice bytes offset stop)
    let key ← returns (RetainedKey.fromBytes field)
    let offset ← arith (addWord w offset 80)
    let (keys, offset) ← readKeys w bytes n offset
    pure (key :: keys, offset)

/-- The end of `from_bytes`, behind the checks on the size. -/
def readBody (D : KeyDecoders P) (t : Target) (bytes : Bytes) (threadId : Bytes32)
    (keyCount : Nat) : MachineM CryptoError (HistoryKeyShareMessage P) := do
  -- `Vec::with_capacity` panics beyond `isize::MAX` bytes.
  arith (assertion (keyCount * 80 < 2 ^ (t.bits - 1)))
  let (keys, offset) ← readKeys t.bits bytes keyCount 40
  let stop ← arith (addWord t.bits offset 8)
  let atField ← arith (slice bytes offset stop)
  let offset ← arith (addWord t.bits offset 8)
  let rest ← arith (slice bytes offset bytes.length)
  let signature ←
    returns ((CanonicalSignature.fromBytes D rest).mapError fun _ => .malformedMessage)
  pure { threadId, keys, signature, sharedAt := readUInt64 atField }

/-- `HistoryKeyShareMessage::from_bytes`. -/
def fromBytes (D : KeyDecoders P) (t : Target) (bytes : Bytes) :
    MachineM CryptoError (HistoryKeyShareMessage P) := do
  returns (rejectIf (bytes.length < 48) .malformedMessage)
  let threadId ← arith ((slice bytes 0 32).bind (FixedBytes.ofBytes? 32))
  let countField ← arith (slice bytes 32 40)
  -- `as usize`
  let keyCount := leValue countField % 2 ^ t.bits
  let keysSize ← returns (checkedMul t.bits keyCount 80 .malformedMessage)
  let stop ← returns (checkedAdd t.bits 40 keysSize .malformedMessage)
  let required ← returns (checkedAdd t.bits stop 8 .malformedMessage)
  returns (rejectIf (bytes.length < required) .malformedMessage)
  readBody D t bytes threadId keyCount

/-- The count as it stands in the bytes. -/
def countWord (bytes : Bytes) : Nat := leValue (sliceAt bytes 32 8)

/-! ## Reading the keys -/

variable {bytes : Bytes}

theorem slice_sliceAt {start n : Nat} (h : start + n ≤ bytes.length) :
    slice bytes start (start + n) = some (sliceAt bytes start n) := by
  rw [slice_of_le (Nat.le_add_right _ _) h, Nat.add_sub_cancel_left, sliceAt]

/-- The loop reads what is there. -/
theorem readKeys_eq {w : Nat} (hlen : bytes.length < 2 ^ w) (n : Nat) {offset : Nat}
    (h : offset + 80 * n ≤ bytes.length) :
    ∃ keys : List RetainedKey, readKeys w bytes n offset = returns (.ok (keys, offset + 80 * n)) ∧
      keys.length = n ∧ sliceAt bytes offset (80 * n) = hashedKeys keys := by
  induction n generalizing offset with
  | zero => exact ⟨[], rfl, rfl, by simp [sliceAt, hashedKeys]⟩
  | succ n ih =>
    have hfield : (sliceAt bytes offset 80).length = 80 := length_sliceAt (by omega)
    obtain ⟨key, hkey⟩ := RetainedKey.exists_of_length hfield
    obtain ⟨keys, hread, hcount, hkeys⟩ := ih (show offset + 80 + 80 * n ≤ bytes.length by omega)
    have hnext : offset + 80 + 80 * n = offset + 80 * (n + 1) := by omega
    refine ⟨key :: keys, ?_, by rw [List.length_cons, hcount], ?_⟩
    · rw [readKeys, addWord_of_lt (by omega), arith_some, returns_ok_bind,
        slice_sliceAt (by omega), arith_some, returns_ok_bind,
        RetainedKey.fromBytes_eq_ok.mpr hkey, returns_ok_bind, returns_ok_bind, hread,
        returns_ok_bind, hnext]
      rfl
    · rw [show 80 * (n + 1) = 80 + 80 * n by omega, sliceAt_add, hkey, hkeys]
      rfl

/-! ## Decoding -/

variable {D : KeyDecoders P} {t : Target}

theorem pred_bits_lt (t : Target) : 2 ^ (t.bits - 1) < 2 ^ t.bits := by cases t <;> decide

/-- The number of keys that is read. -/
def keyCount (t : Target) (bytes : Bytes) : Nat := countWord bytes % 2 ^ t.bits

/-- The checks on the size, whose additions and product may leave the word. -/
theorem sizeChecks_eq {α : Type} {w n len : Nat} {e : CryptoError} {f : MachineM CryptoError α}
    (hlen : len < 2 ^ w) :
    (returns (checkedMul w n 80 e) >>= fun keysSize => returns (checkedAdd w 40 keysSize e) >>=
      fun stop => returns (checkedAdd w stop 8 e) >>= fun required =>
        returns (rejectIf (len < required) e) >>= fun _ => f) =
      (returns (rejectIf (len < 48 + 80 * n) e) >>= fun _ => f) := by
  by_cases hshort : len < 48 + 80 * n
  · rw [rejectIf, if_pos hshort, returns_error_bind]
    unfold checkedMul
    by_cases hmul : n * 80 < 2 ^ w
    · rw [if_pos hmul, returns_ok_bind]
      unfold checkedAdd
      by_cases hadd : 40 + n * 80 < 2 ^ w
      · rw [if_pos hadd, returns_ok_bind]
        by_cases hlast : 40 + n * 80 + 8 < 2 ^ w
        · rw [if_pos hlast, returns_ok_bind, rejectIf, if_pos (by omega), returns_error_bind]
        · rw [if_neg hlast, returns_error_bind]
      · rw [if_neg hadd, returns_error_bind]
    · rw [if_neg hmul, returns_error_bind]
  · rw [rejectIf, if_neg hshort, returns_ok_bind, checkedMul, if_pos (by omega), returns_ok_bind,
      checkedAdd, if_pos (by omega), returns_ok_bind, checkedAdd, if_pos (by omega),
      returns_ok_bind, rejectIf, if_neg (by omega), returns_ok_bind]

/-- The checks, as one. -/
theorem fromBytes_of_le (hlen : bytes.length < 2 ^ (t.bits - 1)) (hfixed : 48 ≤ bytes.length) :
    ∃ threadId : Bytes32, threadId.val = sliceAt bytes 0 32 ∧
      fromBytes D t bytes =
        (returns (rejectIf (bytes.length < 48 + 80 * keyCount t bytes) .malformedMessage) >>=
          fun _ => readBody D t bytes threadId (keyCount t bytes)) := by
  have hid : (sliceAt bytes 0 32).length = 32 := length_sliceAt (by omega)
  have hcopy : FixedBytes.ofBytes? 32 (sliceAt bytes 0 32) = some ⟨sliceAt bytes 0 32, hid⟩ :=
    FixedBytes.ofBytes?_eq_some.mpr rfl
  have hfirst : slice bytes 0 32 = some (sliceAt bytes 0 32) :=
    slice_sliceAt (show 0 + 32 ≤ bytes.length by omega)
  have hcount : slice bytes 32 40 = some (sliceAt bytes 32 8) :=
    slice_sliceAt (show 32 + 8 ≤ bytes.length by omega)
  have hword := pred_bits_lt t
  refine ⟨⟨sliceAt bytes 0 32, hid⟩, rfl, ?_⟩
  rw [← sizeChecks_eq (show bytes.length < 2 ^ t.bits by omega), fromBytes, rejectIf,
    if_neg (by omega), returns_ok_bind, hfirst, Option.bind_some, hcopy, arith_some,
    returns_ok_bind, hcount, arith_some, returns_ok_bind]
  rfl

/-- Behind the checks nothing panics. -/
theorem readBody_eq (hlen : bytes.length < 2 ^ (t.bits - 1)) (threadId : Bytes32) {n : Nat}
    (h : 48 + 80 * n ≤ bytes.length) :
    ∃ keys : List RetainedKey, keys.length = n ∧ sliceAt bytes 40 (80 * n) = hashedKeys keys ∧
      readBody D t bytes threadId n = returns
        (((CanonicalSignature.fromBytes D (bytes.drop (48 + 80 * n))).mapError
          fun _ => .malformedMessage) >>= fun signature =>
            .ok ⟨threadId, keys, signature, readUInt64 (sliceAt bytes (40 + 80 * n) 8)⟩) := by
  have hword := pred_bits_lt t
  obtain ⟨keys, hread, hcount, hkeys⟩ :=
    readKeys_eq (show bytes.length < 2 ^ t.bits by omega) n (show 40 + 80 * n ≤ _ by omega)
  refine ⟨keys, hcount, hkeys, ?_⟩
  have hrest : slice bytes (40 + 80 * n + 8) bytes.length = some (bytes.drop (48 + 80 * n)) := by
    rw [slice_of_le (by omega) (Nat.le_refl _), show 40 + 80 * n + 8 = 48 + 80 * n by omega,
      List.take_of_length_le (by rw [List.length_drop])]
  rw [readBody, assertion, if_pos (by omega), arith_some, returns_ok_bind, hread, returns_ok_bind]
  show (arith (addWord t.bits (40 + 80 * n) 8) >>= _) = _
  rw [addWord_of_lt (by omega), arith_some, returns_ok_bind, slice_sliceAt (by omega), arith_some,
    returns_ok_bind, returns_ok_bind, hrest, arith_some, returns_ok_bind]
  exact returns_bind_eq fun signature _ => rfl

theorem length_hashedKeys (keys : List RetainedKey) :
    (hashedKeys keys).length = 80 * keys.length := by
  induction keys with
  | nil => rfl
  | cons key keys ih =>
    show (key.toBytes ++ hashedKeys keys).length = _
    rw [List.length_append, ih, List.length_cons]
    simp [RetainedKey.toBytes]
    omega

@[simp] theorem length_encodeWith (m : HistoryKeyShareMessage P) (c : Nat) :
    (m.encodeWith c).length = 3414 + 80 * m.keys.length := by
  simp only [encodeWith, List.length_append, FixedBytes.length_coe, leBytes_length,
    length_hashedKeys]
  omega

/-- The fields of an encoding. -/
theorem eq_encodeWith_iff {m : HistoryKeyShareMessage P} {c : Nat} :
    bytes = m.encodeWith c ↔ sliceAt bytes 0 32 = m.threadId.val ∧
      sliceAt bytes 32 8 = leBytes 8 c ∧
      sliceAt bytes 40 (80 * m.keys.length) = hashedKeys m.keys ∧
      sliceAt bytes (40 + 80 * m.keys.length) 8 = leBytes 8 m.sharedAt.toNat ∧
      bytes.drop (48 + 80 * m.keys.length) = m.signature.val.toBytes.val := by
  rw [encodeWith, eq_append_iff m.threadId.property, drop_eq_append_iff (leBytes_length 8 c),
    drop_eq_append_iff (length_hashedKeys m.keys), drop_eq_append_iff (leBytes_length 8 _),
    show 32 + 8 + 80 * m.keys.length + 8 = 48 + 80 * m.keys.length by omega]

/-- The count of an encoding. -/
theorem countWord_encodeWith {m : HistoryKeyShareMessage P} {c : Nat} (hc : c < 2 ^ 64) :
    countWord (m.encodeWith c) = c := by
  obtain ⟨_, hcount, _⟩ := eq_encodeWith_iff.mp (rfl : m.encodeWith c = m.encodeWith c)
  rw [countWord, hcount, leValue_leBytes (lt_word8 hc)]

/-- What a string decodes to: any message whose fields stand around a count that the cast
takes to the number of its keys. -/
theorem fromBytes_spec (hD : D.Exact) (hlen : bytes.length < 2 ^ (t.bits - 1)) :
    ∃ r : Result (HistoryKeyShareMessage P), fromBytes D t bytes = returns r ∧
      ∀ m, r = .ok m ↔
        ∃ c < 2 ^ 64, c % 2 ^ t.bits = m.keys.length ∧ bytes = m.encodeWith c := by
  by_cases hshort : bytes.length < 48 + 80 * keyCount t bytes
  · refine ⟨.error .malformedMessage, ?_, ?_⟩
    · by_cases hfixed : bytes.length < 48
      · rw [fromBytes, rejectIf, if_pos hfixed, returns_error_bind]
      · obtain ⟨threadId, _, hchecks⟩ := fromBytes_of_le (D := D) hlen (by omega)
        rw [hchecks, rejectIf, if_pos hshort, returns_error_bind]
    · intro m
      constructor
      · intro h
        cases h
      · intro hex
        rcases hex with ⟨c, hc, hcount, hbytes⟩
        have hkeys : keyCount t bytes = m.keys.length := by
          rw [keyCount, hbytes, countWord_encodeWith hc, hcount]
        rw [hkeys, hbytes, length_encodeWith] at hshort
        omega
  · obtain ⟨threadId, hid, hchecks⟩ := fromBytes_of_le (D := D) hlen (by omega)
    obtain ⟨keys, hcount, hkeys, hbody⟩ :=
      readBody_eq (D := D) hlen threadId (Nat.le_of_not_lt hshort)
    have hword : (sliceAt bytes 32 8).length = 8 := length_sliceAt (by omega)
    have hcountField : sliceAt bytes 32 8 = leBytes 8 (countWord bytes) := by
      have hfield := leBytes_leValue (sliceAt bytes 32 8)
      rw [hword] at hfield
      exact hfield.symm
    have hcountLt : countWord bytes < 2 ^ 64 := by
      have hlt := leValue_lt (sliceAt bytes 32 8)
      rw [hword] at hlt
      exact hlt
    rw [hchecks, rejectIf, if_neg hshort, returns_ok_bind, hbody]
    refine ⟨_, rfl, ?_⟩
    intro m
    simp only [Except.bind_eq_ok, Except.mapError_eq_ok, CanonicalSignature.fromBytes_eq_ok hD]
    constructor
    · intro hex
      rcases hex with ⟨signature, hsignature, hm⟩
      obtain rfl := Except.ok.inj hm
      refine ⟨countWord bytes, hcountLt, hcount.symm, eq_encodeWith_iff.mpr ?_⟩
      rw [hcount]
      exact ⟨hid.symm, hcountField, hkeys, (readUInt64_sliceAt (by omega)).mp rfl, hsignature⟩
    · intro hex
      rcases hex with ⟨c, hc, hcast, hbytes⟩
      have hread : keyCount t bytes = m.keys.length := by
        rw [keyCount, hbytes, countWord_encodeWith hc, hcast]
      obtain ⟨hfirst, _, hthird, hfourth, hlast⟩ := eq_encodeWith_iff.mp hbytes
      rw [hread] at hkeys hshort ⊢
      refine ⟨m.signature, hlast, ?_⟩
      have hthread : threadId = m.threadId := Subtype.ext (hid.trans hfirst)
      have hsame : keys = m.keys := hashedKeys_inj (hkeys.symm.trans hthird)
      rw [hthread, hsame, (readUInt64_sliceAt (by omega)).mpr hfourth]

theorem fromBytes_eq_returns_ok (hD : D.Exact) (hlen : bytes.length < 2 ^ (t.bits - 1))
    {m : HistoryKeyShareMessage P} :
    fromBytes D t bytes = returns (.ok m) ↔
      ∃ c < 2 ^ 64, c % 2 ^ t.bits = m.keys.length ∧ bytes = m.encodeWith c := by
  obtain ⟨r, hrun, hr⟩ := fromBytes_spec (t := t) hD hlen
  rw [hrun, ← hr]
  constructor
  · intro h
    exact Option.some.inj h
  · intro h
    rw [h]

theorem bits_le (t : Target) : 2 ^ t.bits ≤ 2 ^ 64 := by cases t <;> decide

/-- On either target: what is encoded is read back, nothing panics, and an accepted string
re-encodes to itself, with as many keys as it says, exactly when its count is a `usize`. -/
theorem share_codec (hD : D.Exact) (t : Target) :
    (∀ m : HistoryKeyShareMessage P, m.toBytes.length < 2 ^ (t.bits - 1) →
      fromBytes D t m.toBytes = returns (.ok m)) ∧
    (∀ bytes : Bytes, bytes.length < 2 ^ (t.bits - 1) → ¬(fromBytes D t bytes).Panics) ∧
    ∀ (bytes : Bytes) (m : HistoryKeyShareMessage P), bytes.length < 2 ^ (t.bits - 1) →
      fromBytes D t bytes = returns (.ok m) →
        ((m.toBytes = bytes ∧ m.keys.length = countWord bytes) ↔
          countWord bytes < 2 ^ t.bits) := by
  have hword := pred_bits_lt t
  have hbits := bits_le t
  refine ⟨?_, ?_, ?_⟩
  · intro m hlen
    have hcount : m.keys.length < 2 ^ t.bits := by
      have hlength := hlen
      rw [toBytes, length_encodeWith] at hlength
      omega
    exact (fromBytes_eq_returns_ok hD hlen).mpr
      ⟨m.keys.length, by omega, Nat.mod_eq_of_lt hcount, rfl⟩
  · intro bytes hlen
    obtain ⟨r, hrun, _⟩ := fromBytes_spec (t := t) hD hlen
    rw [hrun, panics_returns]
    exact not_false
  · intro bytes m hlen h
    obtain ⟨c, hc, hcast, hbytes⟩ := (fromBytes_eq_returns_ok hD hlen).mp h
    have hcount : countWord bytes = c := by rw [hbytes, countWord_encodeWith hc]
    rw [hcount, ← hcast, hbytes]
    constructor
    · intro hboth
      rcases hboth with ⟨_, hsame⟩
      rw [← hsame]
      exact Nat.mod_lt _ (Nat.two_pow_pos _)
    · intro hlt
      have hsame := Nat.mod_eq_of_lt hlt
      rw [hsame] at hcast
      exact ⟨by rw [toBytes, ← hcast], hsame⟩

end HistoryKeyShareMessage

/-! ## A sample share -/

section Sample

open HistoryKeyShareMessage

/-- A share of one key. -/
def sampleShare (C : MontgomeryCurve) : HistoryKeyShareMessage (samplePrimitives C) where
  threadId := Hybrid.filled 32 1
  keys := [⟨Hybrid.filled 32 2, Hybrid.filled 32 3, 4, 5⟩]
  signature := blankSignature C
  sharedAt := 6

theorem length_encodeWith_sampleShare (C : MontgomeryCurve) (c : Nat) :
    ((sampleShare C).encodeWith c).length < 2 ^ (Target.word32.bits - 1) := by
  rw [length_encodeWith]
  show 3414 + 80 * 1 < 2 ^ (32 - 1)
  decide

theorem share_codec_sample :
    fromBytes (sampleDecoders rfc7748Curve) .word32 (sampleShare rfc7748Curve).toBytes
      = returns (.ok (sampleShare rfc7748Curve)) :=
  (share_codec (sampleDecoders_exact rfc7748Curve) .word32).1 _
    (length_encodeWith_sampleShare rfc7748Curve _)

/-- With a word of 32 bits a share of one key is read from a string that counts
`2 ^ 32 + 1` of them. -/
theorem miscounted_share_accepted :
    fromBytes (sampleDecoders rfc7748Curve) .word32
        ((sampleShare rfc7748Curve).encodeWith (2 ^ 32 + 1))
      = returns (.ok (sampleShare rfc7748Curve)) ∧
    (sampleShare rfc7748Curve).toBytes ≠ (sampleShare rfc7748Curve).encodeWith (2 ^ 32 + 1) := by
  constructor
  · exact (fromBytes_eq_returns_ok (sampleDecoders_exact rfc7748Curve)
      (length_encodeWith_sampleShare rfc7748Curve _)).mpr ⟨2 ^ 32 + 1, by decide, rfl, rfl⟩
  · intro h
    have hone : countWord (sampleShare rfc7748Curve).toBytes = 1 :=
      countWord_encodeWith (show 1 < 2 ^ 64 by decide)
    rw [h, countWord_encodeWith (show 2 ^ 32 + 1 < 2 ^ 64 by decide)] at hone
    exact absurd hone (by decide)

end Sample

end Trelis.MultiDevice
