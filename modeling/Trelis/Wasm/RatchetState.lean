import Trelis.Ratchet.Run
import Trelis.Ratchet.Sample
import Trelis.Wasm.Sample

/-!
# Stored ratchet states

`serialize_ratchet_state` and `deserialize_ratchet_state` of the WASM crate.
Every send and every receive of JavaScript goes through them.

What is read is built by `init_responder`, which takes a session key and derives
a root key from it.  Given the stored root key, it derives from that, so the
root key moves at every load; and the old key pairs are not stored at all.
`restored` is the state that comes back (`deserialize_serialize`).
-/

namespace Trelis.Wasm

open Ratchet

/-- The primitives of the ratchet, with the wire forms of their values. -/
structure RatchetWire extends RatchetPrimitives, WirePrimitives

variable {W : RatchetWire}

/-- A state over these primitives. -/
abbrev RatchetState (W : RatchetWire) := KemRatchet W.toRatchetPrimitives

/-! ## The codec -/

def statusToByte : RatchetStatus → Nat
  | .uninitialised => 0
  | .active => 1
  | .awaitingReply => 2
  | .stale => 3
  | .compromised => 4

def statusOfByte : Nat → RatchetStatus
  | 0 => .uninitialised
  | 1 => .active
  | 2 => .awaitingReply
  | 3 => .stale
  | _ => .compromised

/-- `u8::from(has_their_pk)`. -/
def peerFlag {α : Type} (theirPk : Option α) : Nat := if theirPk.isSome then 1 else 0

/-- The bytes of the peer key, if there is one. -/
def peerToBytes (theirPk : Option W.PublicKey) : Bytes :=
  match theirPk with
  | some pk => W.publicKeyToBytes pk
  | none => []

/-- `serialize_ratchet_state`. -/
def serializeRatchetState (s : RatchetState W) : Bytes :=
  [(W.keyPairToBytes s.ourKeypair).val, s.rootKey.val, leBytes 1 (peerFlag s.theirPublicKey),
    peerToBytes s.theirPublicKey, leBytes 8 s.sendCount, leBytes 8 s.recvCount,
    leBytes 1 (statusToByte s.status), leBytes 8 s.lastActivity].flatten

/-- Sets the peer key, if there is one. -/
def setPeer (theirPk : Option W.PublicKey) (state : RatchetState W) : RatchetState W :=
  match theirPk with
  | some pk => state.setTheirPublicKey pk
  | none => state

/-- `set_recv_count` stores its argument plus one. -/
def restoreRecvCount (recvCount : Nat) (state : RatchetState W) : Except Failure (RatchetState W) :=
  if 0 < recvCount then
    match state.setRecvCount (recvCount - 1) with
    | some state => .ok state
    | none => .error .panic
  else .ok state

/-- The state made of what was read: a new session of the responder, with the
fields set one after the other. -/
def rebuild (W : RatchetWire) (ourKeypair : W.KeyPair) (rootKey : Bytes32)
    (theirPk : Option W.PublicKey) (sendCount recvCount statusByte lastActivity : Nat) :
    Except Failure (RatchetState W) := do
  let state := setPeer theirPk (KemRatchet.initResponder rootKey ourKeypair lastActivity)
  let state ← (state.setSendCount sendCount).mapError .error
  let state ← restoreRecvCount recvCount state
  pure (state.setStatus (statusOfByte statusByte))

/-- The peer key, if the flag says that there is one. -/
def peerFromBytes (W : RatchetWire) (flag : Nat) (bytes : Bytes) :
    Except Failure (Option W.PublicKey) :=
  if flag = 1 then some <$> (W.publicKeyFromBytes bytes).mapError .error else pure none

/-- `deserialize_ratchet_state`. -/
def deserializeRatchetState (W : RatchetWire) (bytes : Bytes) : Except Failure (RatchetState W) :=
  if h : bytes.length < 1819 + 32 + 1 + 16 + 1 + 8 then .error (.error .malformedMessage)
  else do
    let ourKeypair ← (W.keyPairFromBytes (sliceAt bytes 0 1819)).mapError .error
    let rootKey := arrayAt 32 bytes 1819 (by omega)
    let flag := wordAt 1 bytes 1851 (by omega)
    let offset := 1852 + if flag = 1 then 1214 else 0
    if hrest : bytes.length < offset + 8 + 8 + 1 + 8 then .error (.error .malformedMessage)
    else do
      let theirPk ← peerFromBytes W flag (sliceAt bytes 1852 1214)
      rebuild W ourKeypair rootKey theirPk (wordAt 8 bytes offset (by omega))
        (wordAt 8 bytes (offset + 8) (by omega)) (wordAt 1 bytes (offset + 16) (by omega))
        (wordAt 8 bytes (offset + 17) (by omega))

/-! ## What comes back -/

/-- The state that `rebuild` makes. -/
def rebuilt (W : RatchetWire) (ourKeypair : W.KeyPair) (rootKey : Bytes32)
    (theirPk : Option W.PublicKey) (sendCount recvCount statusByte lastActivity : Nat) :
    RatchetState W where
  ourKeypair := ourKeypair
  ourKeyId := deriveKeyId W.toRatchetPrimitives (W.publicKey ourKeypair)
  previousKeypairs := []
  theirPublicKey := theirPk
  theirKeyId := theirPk.map (deriveKeyId W.toRatchetPrimitives)
  rootKey := deriveInitialRootKey W.toRatchetPrimitives rootKey
  sendCount := sendCount
  recvCount := recvCount
  status := statusOfByte statusByte
  lastActivity := lastActivity

theorem restoreRecvCount_eq {recvCount : Nat} (hrecv : recvCount < counterRange)
    {state : RatchetState W} (h : state.recvCount = 0) :
    restoreRecvCount recvCount state = .ok { state with recvCount } := by
  unfold restoreRecvCount
  split
  · next hpos =>
    have hback : recvCount - 1 + 1 = recvCount := by omega
    rw [KemRatchet.setRecvCount, hback, if_pos hrecv]
  · next hpos =>
    have hzero : recvCount = state.recvCount := by omega
    rw [hzero]

theorem setPeer_initResponder (theirPk : Option W.PublicKey) (rootKey : Bytes32)
    (ourKeypair : W.KeyPair) (lastActivity : Nat) :
    setPeer theirPk (KemRatchet.initResponder rootKey ourKeypair lastActivity) =
      rebuilt W ourKeypair rootKey theirPk 0 0 1 lastActivity := by
  cases theirPk <;> rfl

theorem rebuild_eq_ok {ourKeypair : W.KeyPair} {rootKey : Bytes32} {theirPk : Option W.PublicKey}
    {sendCount recvCount statusByte lastActivity : Nat} (hrecv : recvCount < counterRange)
    {s : RatchetState W} :
    rebuild W ourKeypair rootKey theirPk sendCount recvCount statusByte lastActivity = .ok s ↔
      sendCount < sessionExhaustionThreshold ∧
        rebuilt W ourKeypair rootKey theirPk sendCount recvCount statusByte lastActivity = s := by
  simp only [rebuild, setPeer_initResponder, Except.bind_eq_ok, Except.mapError_eq_ok,
    KemRatchet.setSendCount_eq_ok, Except.pure_eq_ok]
  constructor
  · rintro ⟨_, ⟨⟨_, hcount⟩, rfl⟩, t, ht, rfl⟩
    rw [restoreRecvCount_eq hrecv rfl, Except.ok.injEq] at ht
    exact ⟨hcount, by rw [← ht]; rfl⟩
  · rintro ⟨hcount, rfl⟩
    exact ⟨_, ⟨⟨Nat.zero_le _, hcount⟩, rfl⟩, _, restoreRecvCount_eq hrecv rfl, rfl⟩

/-- The state that a stored state comes back as: without the old key pairs, and
with a root key that was derived from the stored one. -/
def restored (s : RatchetState W) : RatchetState W :=
  { s with
    previousKeypairs := []
    rootKey := deriveInitialRootKey W.toRatchetPrimitives s.rootKey }

theorem statusOfByte_statusToByte (status : RatchetStatus) :
    statusOfByte (statusToByte status) = status := by
  cases status <;> rfl

theorem statusToByte_lt (status : RatchetStatus) : statusToByte status < 256 ^ 1 := by
  cases status <;> decide

theorem peerFlag_lt {α : Type} (theirPk : Option α) : peerFlag theirPk < 256 ^ 1 := by
  unfold peerFlag
  split <;> decide

theorem peerFromBytes_peerToBytes (hpk : W.PublicKeyWire) {theirPk : Option W.PublicKey}
    {bytes : Bytes} (h : (peerToBytes theirPk).length = 1214 → bytes = peerToBytes theirPk) :
    peerFromBytes W (peerFlag theirPk) bytes = .ok theirPk := by
  cases theirPk with
  | none => rfl
  | some pk =>
    have hok : W.publicKeyFromBytes (W.publicKeyToBytes pk) = .ok pk := hpk.fromBytes_toBytes pk
    rw [h (hpk.length_toBytes pk), peerToBytes, peerFromBytes, hok]
    rfl

theorem length_peerToBytes (hpk : W.PublicKeyWire) (theirPk : Option W.PublicKey) :
    (peerToBytes theirPk).length = if peerFlag theirPk = 1 then 1214 else 0 := by
  cases theirPk with
  | none => rfl
  | some pk => exact hpk.length_toBytes pk

theorem length_serializeRatchetState (hpk : W.PublicKeyWire) (s : RatchetState W) :
    (serializeRatchetState s).length =
      1852 + (if peerFlag s.theirPublicKey = 1 then 1214 else 0) + 25 := by
  simp [serializeRatchetState, length_peerToBytes hpk]
  omega

/-! ### The fields of a stored state -/

section Fields

variable (s : RatchetState W)

theorem sliceAt_keypair :
    sliceAt (serializeRatchetState s) 0 1819 = (W.keyPairToBytes s.ourKeypair).val :=
  sliceAt_flatten (i := 0) rfl rfl (by simp)

theorem sliceAt_rootKey : sliceAt (serializeRatchetState s) 1819 32 = s.rootKey.val :=
  sliceAt_flatten (i := 1) rfl (by simp) (by simp)

theorem wordAt_flag (h : 1851 + 1 ≤ (serializeRatchetState s).length) :
    wordAt 1 (serializeRatchetState s) 1851 h = peerFlag s.theirPublicKey :=
  wordAt_flatten (i := 2) rfl (by simp) (peerFlag_lt _) h

variable {s} {offset : Nat} (hoffset : 1852 + (peerToBytes s.theirPublicKey).length = offset)

include hoffset

theorem wordAt_sendCount (hcount : s.sendCount < 2 ^ 64)
    (h : offset + 8 ≤ (serializeRatchetState s).length) :
    wordAt 8 (serializeRatchetState s) offset h = s.sendCount :=
  wordAt_flatten (i := 4) rfl (by simp; omega) (lt_word8 hcount) h

theorem wordAt_recvCount (hcount : s.recvCount < 2 ^ 64)
    (h : offset + 8 + 8 ≤ (serializeRatchetState s).length) :
    wordAt 8 (serializeRatchetState s) (offset + 8) h = s.recvCount :=
  wordAt_flatten (i := 5) rfl (by simp; omega) (lt_word8 hcount) h

theorem wordAt_status (h : offset + 16 + 1 ≤ (serializeRatchetState s).length) :
    wordAt 1 (serializeRatchetState s) (offset + 16) h = statusToByte s.status :=
  wordAt_flatten (i := 6) rfl (by simp; omega) (statusToByte_lt _) h

theorem wordAt_lastActivity (htime : s.lastActivity < 2 ^ 64)
    (h : offset + 17 + 8 ≤ (serializeRatchetState s).length) :
    wordAt 8 (serializeRatchetState s) (offset + 17) h = s.lastActivity :=
  wordAt_flatten (i := 7) rfl (by simp; omega) (lt_word8 htime) h

end Fields

/-- A stored state is loaded if its send counter is below the threshold. -/
theorem deserialize_serialize_eq_ok (hkp : W.KeyPairCodec) (hpk : W.PublicKeyWire)
    {s t : RatchetState W} (h : s.WellFormed) :
    deserializeRatchetState W (serializeRatchetState s) = .ok t ↔
      s.sendCount < sessionExhaustionThreshold ∧ restored s = t := by
  have hlen := length_serializeRatchetState hpk s
  have hpeer := length_peerToBytes hpk s.theirPublicKey
  have hoffset : 1852 + (peerToBytes s.theirPublicKey).length =
      1852 + if peerFlag s.theirPublicKey = 1 then 1214 else 0 := by rw [hpeer]
  have hroot : arrayAt 32 (serializeRatchetState s) 1819 (by omega) = s.rootKey :=
    Subtype.ext (sliceAt_rootKey s)
  have hkeypair : W.keyPairFromBytes (W.keyPairToBytes s.ourKeypair).val = .ok s.ourKeypair :=
    hkp.fromBytes_toBytes s.ourKeypair
  have hpk' : peerFromBytes W (peerFlag s.theirPublicKey)
      (sliceAt (serializeRatchetState s) 1852 1214) = .ok s.theirPublicKey :=
    peerFromBytes_peerToBytes hpk fun hlen => sliceAt_flatten (i := 3) rfl (by simp) hlen
  have hcount : s.sendCount < 2 ^ 64 := h.sendCount.trans_lt (by decide)
  have hrebuilt : rebuilt W s.ourKeypair s.rootKey s.theirPublicKey s.sendCount s.recvCount
      (statusToByte s.status) s.lastActivity = restored s := by
    simp [rebuilt, restored, statusOfByte_statusToByte, ← h.ourKeyId, ← h.theirKeyId]
  unfold deserializeRatchetState
  rw [dif_neg (by omega)]
  simp only [sliceAt_keypair, hroot, wordAt_flag, hpk', wordAt_status hoffset,
    wordAt_sendCount hoffset hcount, wordAt_recvCount hoffset h.recvCount,
    wordAt_lastActivity hoffset h.lastActivity]
  have hmin : ¬ (serializeRatchetState s).length <
      (1852 + if peerFlag s.theirPublicKey = 1 then 1214 else 0) + 8 + 8 + 1 + 8 := by omega
  simp only [hkeypair, Except.mapError, Except.bind_eq_ok, Except.ok.injEq, exists_eq_left',
    dif_neg hmin, rebuild_eq_ok h.recvCount, hrebuilt]

/-- What is read of a stored state. -/
theorem deserialize_serialize (hkp : W.KeyPairCodec) (hpk : W.PublicKeyWire) {s : RatchetState W}
    (h : s.WellFormed) (hcount : s.sendCount < sessionExhaustionThreshold) :
    deserializeRatchetState W (serializeRatchetState s) = .ok (restored s) :=
  (deserialize_serialize_eq_ok hkp hpk h).mpr ⟨hcount, rfl⟩

/-- A state comes back as it was exactly when it holds no old key pair, and the
derivation does not move its root key. -/
theorem restored_eq_iff {s : RatchetState W} :
    restored s = s ↔
      s.previousKeypairs = [] ∧
        deriveInitialRootKey W.toRatchetPrimitives s.rootKey = s.rootKey := by
  cases s
  simp [restored, eq_comm]

/-! ## Byte strings that are accepted -/

/-- The byte at an offset. -/
def byteAt (bytes : Bytes) (start : Nat) : Nat := leValue (sliceAt bytes start 1)

/-- Where the counters of a stored state stand, by its flag. -/
def countersAt (bytes : Bytes) : Nat := 1852 + if byteAt bytes 1851 = 1 then 1214 else 0

/-- A byte string that is what it is read as: nothing stands behind it, its
flag, its status and its key pair are written as the encoder writes them, and
the derivation does not move its root key. -/
structure CanonicalState (W : RatchetWire) (bytes : Bytes) : Prop where
  length : bytes.length = countersAt bytes + 25
  flag : byteAt bytes 1851 ≤ 1
  status : byteAt bytes (countersAt bytes + 16) ≤ 4
  keypair : clamp (sliceAt bytes 0 1819) = sliceAt bytes 0 1819
  rootKey : (W.deriveKey kdfInit (sliceAt bytes 1819 32)).val = sliceAt bytes 1819 32

/-- What an accepted byte string is read as. -/
theorem deserialize_eq_ok {bytes : Bytes} {s : RatchetState W}
    (h : deserializeRatchetState W bytes = .ok s) :
    ∃ (hlen : countersAt bytes + 25 ≤ bytes.length) (ourKeypair : W.KeyPair)
      (theirPk : Option W.PublicKey),
      W.keyPairFromBytes (sliceAt bytes 0 1819) = .ok ourKeypair ∧
      peerFromBytes W (byteAt bytes 1851) (sliceAt bytes 1852 1214) = .ok theirPk ∧
      s = rebuilt W ourKeypair (arrayAt 32 bytes 1819 (by unfold countersAt at hlen; omega)) theirPk
        (wordAt 8 bytes (countersAt bytes) (by omega))
        (wordAt 8 bytes (countersAt bytes + 8) (by omega)) (byteAt bytes (countersAt bytes + 16))
        (wordAt 8 bytes (countersAt bytes + 17) (by omega)) := by
  unfold deserializeRatchetState at h
  split at h
  · cases h
  · next hmin =>
    obtain ⟨ourKeypair, hkeypair, h⟩ := Except.bind_eq_ok.mp h
    by_cases hrest : bytes.length <
        (1852 + if wordAt 1 bytes 1851 (by omega) = 1 then 1214 else 0) + 8 + 8 + 1 + 8
    · simp only [dif_pos hrest] at h
      cases h
    · simp only [dif_neg hrest] at h
      obtain ⟨theirPk, hpeer, h⟩ := Except.bind_eq_ok.mp h
      have hlen : countersAt bytes + 25 ≤ bytes.length := Nat.not_lt.mp hrest
      have hrecv : wordAt 8 bytes (countersAt bytes + 8) (by omega) < counterRange := wordAt_lt _
      exact ⟨hlen, ourKeypair, theirPk, Except.mapError_eq_ok.mp hkeypair, hpeer,
        ((rebuild_eq_ok hrecv).mp h).2.symm⟩

theorem countersAt_ge (bytes : Bytes) : 1852 ≤ countersAt bytes := Nat.le_add_right _ _

theorem peerFlag_of_peerFromBytes {flag : Nat} {bytes : Bytes} {theirPk : Option W.PublicKey}
    (h : peerFromBytes W flag bytes = .ok theirPk) :
    peerFlag theirPk = if flag = 1 then 1 else 0 := by
  unfold peerFromBytes at h
  split at h
  · next hflag =>
    obtain ⟨pk, _, rfl⟩ := Except.map_eq_ok.mp h
    rw [if_pos hflag]
    rfl
  · next hflag =>
    rw [← Except.ok.inj h, if_neg hflag]
    rfl

theorem peerToBytes_of_peerFromBytes (hpk : W.PublicKeyWire) {flag : Nat} {bytes : Bytes}
    {theirPk : Option W.PublicKey} (h : peerFromBytes W flag bytes = .ok theirPk) :
    peerToBytes theirPk = if flag = 1 then bytes else [] := by
  unfold peerFromBytes at h
  split at h
  · next hflag =>
    obtain ⟨pk, hok, rfl⟩ := Except.map_eq_ok.mp h
    rw [if_pos hflag]
    exact hpk.toBytes_fromBytes (Except.mapError_eq_ok.mp hok)
  · next hflag =>
    rw [← Except.ok.inj h, if_neg hflag]
    rfl

theorem peerFlag_le {α : Type} (theirPk : Option α) : peerFlag theirPk ≤ 1 := by
  unfold peerFlag
  split <;> decide

theorem statusToByte_le (status : RatchetStatus) : statusToByte status ≤ 4 := by
  cases status <;> decide

theorem statusToByte_statusOfByte :
    ∀ {byte : Nat}, byte ≤ 4 → statusToByte (statusOfByte byte) = byte
  | 0, _ | 1, _ | 2, _ | 3, _ | 4, _ => rfl
  | n + 5, h => absurd h (by omega)

/-- A byte string that its result is written as is canonical. -/
theorem CanonicalState.of_serialize (hkp : W.KeyPairCodec) (hpk : W.PublicKeyWire) {bytes : Bytes}
    {s : RatchetState W} (h : deserializeRatchetState W bytes = .ok s)
    (hbytes : serializeRatchetState s = bytes) : CanonicalState W bytes := by
  obtain ⟨hlen, ourKeypair, theirPk, hkeypair, hpeer, hs⟩ := deserialize_eq_ok h
  have hclamped : (W.keyPairToBytes s.ourKeypair).val = clamp (sliceAt bytes 0 1819) := by
    rw [hs]
    exact hkp.toBytes_fromBytes hkeypair
  have hroot : s.rootKey = W.deriveKey kdfInit (sliceAt bytes 1819 32) := by
    rw [hs]
    rfl
  have hflag : peerFlag s.theirPublicKey = if byteAt bytes 1851 = 1 then 1 else 0 := by
    rw [hs]
    exact peerFlag_of_peerFromBytes hpeer
  have hcounters : 1852 + (peerToBytes s.theirPublicKey).length = countersAt bytes := by
    rw [length_peerToBytes hpk, hflag, countersAt]
    by_cases hone : byteAt bytes 1851 = 1 <;> simp [hone]
  have hge := countersAt_ge bytes
  constructor
  · rw [← hbytes, length_serializeRatchetState hpk, hbytes, ← length_peerToBytes hpk, hcounters]
  · have hword := wordAt_flag s (by rw [hbytes]; omega)
    simp only [hbytes] at hword
    exact hword.trans_le (peerFlag_le _)
  · have hword := wordAt_status hcounters (by rw [hbytes]; omega)
    simp only [hbytes] at hword
    exact hword.trans_le (statusToByte_le _)
  · rw [← hclamped, ← sliceAt_keypair, hbytes]
  · rw [← hroot, ← sliceAt_rootKey, hbytes]

/-- The encoding of the result of a canonical byte string is the byte string. -/
theorem CanonicalState.serialize (hkp : W.KeyPairCodec) (hpk : W.PublicKeyWire) {bytes : Bytes}
    (hcanonical : CanonicalState W bytes) {s : RatchetState W}
    (h : deserializeRatchetState W bytes = .ok s) : serializeRatchetState s = bytes := by
  obtain ⟨hlen, ourKeypair, theirPk, hkeypair, hpeer, rfl⟩ := deserialize_eq_ok h
  have hge := countersAt_ge bytes
  have hclamped : (W.keyPairToBytes ourKeypair).val = sliceAt bytes 0 1819 :=
    (hkp.toBytes_fromBytes hkeypair).trans hcanonical.keypair
  have hflag : leBytes 1 (peerFlag theirPk) = sliceAt bytes 1851 1 := by
    have hbyte : peerFlag theirPk = byteAt bytes 1851 := by
      have hle := hcanonical.flag
      rw [peerFlag_of_peerFromBytes hpeer]
      split_ifs <;> omega
    rw [hbyte]
    exact leBytes_wordAt (show 1851 + 1 ≤ bytes.length by omega)
  have hpk' : peerToBytes theirPk = sliceAt bytes 1852 (countersAt bytes - 1852) := by
    rw [peerToBytes_of_peerFromBytes hpk hpeer, countersAt]
    split_ifs with hone
    · rfl
    · simp [sliceAt]
  have hstatus : leBytes 1 (statusToByte (statusOfByte (byteAt bytes (countersAt bytes + 16)))) =
      sliceAt bytes (countersAt bytes + 16) 1 := by
    rw [statusToByte_statusOfByte hcanonical.status]
    exact leBytes_wordAt (by omega)
  have hlast : sliceAt bytes (countersAt bytes + 17) 8 = bytes.drop (countersAt bytes + 17) := by
    have hend : bytes.drop (countersAt bytes + 25) = [] := by
      rw [← hcanonical.length, List.drop_length]
    have happend := sliceAt_append_drop bytes
      (show countersAt bytes + 17 + 8 = countersAt bytes + 25 from rfl)
    rwa [hend, List.append_nil] at happend
  have hroot : (deriveInitialRootKey W.toRatchetPrimitives
      (arrayAt 32 bytes 1819 (by omega))).val = sliceAt bytes 1819 32 := hcanonical.rootKey
  simp only [serializeRatchetState, rebuilt, hclamped, hflag, hpk', hstatus, leBytes_wordAt, hroot,
    hlast, List.flatten_cons, List.flatten_nil, List.append_nil]
  simp (disch := omega) only [sliceAt_append_drop]
  rfl

/-- In every state that an end of a session reaches, storing and loading returns
the state exactly when it holds no old key pair and the derivation does not move
its root key; and a byte string that is loaded is what its result is stored as
exactly when it is canonical. -/
theorem storage_faithful_iff (hkp : W.KeyPairCodec) (hpk : W.PublicKeyWire) :
    (∀ s : RatchetState W, Reachable KemRatchet.Starts KemRatchet.Moves s →
      s.sendCount < sessionExhaustionThreshold →
        (deserializeRatchetState W (serializeRatchetState s) = .ok s ↔
          s.previousKeypairs = [] ∧
            deriveInitialRootKey W.toRatchetPrimitives s.rootKey = s.rootKey)) ∧
    ∀ bytes (s : RatchetState W), deserializeRatchetState W bytes = .ok s →
      (serializeRatchetState s = bytes ↔ CanonicalState W bytes) := by
  constructor
  · intro s hs hcount
    rw [deserialize_serialize hkp hpk (KemRatchet.wellFormed_of_reachable hs) hcount,
      Except.ok.injEq, restored_eq_iff]
  · intro bytes s h
    constructor
    · intro hbytes
      exact .of_serialize hkp hpk h hbytes
    · intro hcanonical
      exact hcanonical.serialize hkp hpk h

section Sample

open Symbolic

/-- The primitives of `wireSample` with the ratchet's own two, and with public
keys of the size that the wire has. -/
def ratchetSample : RatchetWire :=
  { wireSample with
    publicKeyToBytes := fun pk => (padded 1182 pk).val
    publicKeyFromBytes := unpad 32 1182
    encrypt := Symbolic.encryptCommitting
    decrypt := Symbolic.decryptCommitting
    hash := Symbolic.deriveKey "" }

theorem ratchetSample_keyPairCodec : ratchetSample.KeyPairCodec where
  fromBytes_toBytes := readKeyPair_wireKeyPair
  toBytes_fromBytes h := readKeyPair_eq_ok h

theorem ratchetSample_publicKeyWire : ratchetSample.PublicKeyWire where
  length_toBytes pk := (padded 1182 pk).property
  fromBytes_toBytes pk := unpad_padded 1182 pk
  toBytes_fromBytes h := padded_unpad h

/-- The owner of the key pair number 2, who answers a session. -/
def storedResponder : RatchetState ratchetSample :=
  KemRatchet.initResponder (word 7) (word 2) (0 : Nat)

/-- The other end of the session, with the key pair number 1. -/
def storedInitiator : RatchetState ratchetSample :=
  { KemRatchet.initResponder (word 7) (word 1) (0 : Nat) with
    theirPublicKey := some (word 2)
    theirKeyId := some (deriveKeyId ratchetSample.toRatchetPrimitives (word 2)) }

theorem starts_storedInitiator : storedInitiator.Starts :=
  .initiator KemRatchet.counterRange_pos
    (show KemRatchet.initInitiator (word 7) (word 2) 0 (1 : Nat) = .ok storedInitiator from rfl)

theorem storage_faithful_iff_initiator :
    deserializeRatchetState ratchetSample (serializeRatchetState storedInitiator) ≠
      .ok storedInitiator := by
  obtain ⟨hstored, _⟩ := storage_faithful_iff ratchetSample_keyPairCodec ratchetSample_publicKeyWire
  have hmoved : deriveInitialRootKey ratchetSample.toRatchetPrimitives storedInitiator.rootKey ≠
      storedInitiator.rootKey := by decide +kernel
  intro hsame
  exact hmoved ((hstored _ (.start starts_storedInitiator) (by decide)).mp hsame).2

/-- How the peer ends that receives what a state sends. -/
def peerReceives (s : RatchetState ratchetSample) :
    EStateM.Result Failure (RatchetState ratchetSample) Bytes :=
  match sendMessage (ascii "hello") 1 ⟨(11 : Nat), (111 : Nat), .ok (FixedBytes.zero 16)⟩ s with
  | .ok result _ => receiveMessage result.message 2 storedResponder
  | .error e _ => .error e storedResponder

/-- A message from the state in memory opens at the peer, and the same message
from the state that was stored and loaded does not. -/
theorem stored_state_diverges :
    ∃ t, Reachable KemRatchet.Starts KemRatchet.Moves storedInitiator ∧
      deserializeRatchetState ratchetSample (serializeRatchetState storedInitiator) = .ok t ∧
      (∃ s', peerReceives storedInitiator = .ok (ascii "hello") s') ∧
      ∃ s', peerReceives t = .error (.error .aeadAuthenticationFailed) s' := by
  refine ⟨restored storedInitiator, .start starts_storedInitiator, ?_, ?_, ?_⟩
  · exact deserialize_serialize ratchetSample_keyPairCodec ratchetSample_publicKeyWire
      (.of_starts starts_storedInitiator) (by decide)
  · have hopens : okAnd (peerReceives storedInitiator) (fun pt _ => pt == ascii "hello") := by
      decide +kernel
    obtain ⟨pt, s', hreceive, hpt⟩ := okAnd_eq_true.mp hopens
    rw [beq_iff_eq.mp hpt] at hreceive
    exact ⟨s', hreceive⟩
  · exact failsWith_eq_true.mp (by decide +kernel)

end Sample

end Trelis.Wasm
