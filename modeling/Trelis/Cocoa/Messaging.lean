import Mathlib.Data.Prod.Lex
import Trelis.Cocoa.Session

/-!
# Message counters

The messages of `session.rs` and `epoch.rs`: the counter of an epoch, the
encryption of a message under it, the decryption, and the restoring of a session
behind a watermark (`session_watermark.rs`).

Counters are natural numbers here.  The Rust counter is a `u64`, and the send
that would take it past the last value panics; `nextMessageKey` and `encrypt`
have no result there.

The position of a session is its epoch number and its message counter, ordered
lexicographically.  `encrypt_ok` says what a send does to the counter, and
`restoreSessionChecked_eq_ok` that a restore is not below the watermark.
-/

namespace Trelis.Cocoa

variable {P : Primitives}

/-- An epoch number and a message counter, in lexicographic order. -/
abbrev Position := ℕ ×ₗ ℕ

/-! ## The counter of an epoch -/

def messageKeyContext : String := "cocoa-sa-message-key-v1"
def messageNonceContext : String := "cocoa-sa-message-nonce-v1"

/-- The number of values of a `u64`. -/
def counterRange : Nat := 2 ^ 64

/-- The key of one message. -/
structure MessageKey where
  key : Bytes32
  nonce : FixedBytes 24
  senderLeafPosition : Nat
  counter : Nat

/-- The key of the message with the given counter. -/
def deriveMessageKey (P : Primitives) (appSecret : Bytes32) (senderLeafPosition counter : Nat) :
    Bytes32 :=
  P.deriveKey messageKeyContext
    (appSecret.val ++ leBytes 4 senderLeafPosition ++ leBytes 8 counter)

/-- The nonce of the message with the given counter. -/
def deriveMessageNonce (P : Primitives) (appSecret : Bytes32) (senderLeafPosition counter : Nat) :
    FixedBytes 24 :=
  let hash := P.deriveKey messageNonceContext
    (appSecret.val ++ leBytes 4 senderLeafPosition ++ leBytes 8 counter)
  ⟨hash.val.take 24, by simp⟩

/-- The key and the nonce of one message of an epoch. -/
def EpochSecrets.deriveMessageKey (secrets : EpochSecrets P) (senderLeafPosition counter : Nat) :
    MessageKey where
  key := Cocoa.deriveMessageKey P secrets.appSecret senderLeafPosition counter
  nonce := deriveMessageNonce P secrets.appSecret senderLeafPosition counter
  senderLeafPosition := senderLeafPosition
  counter := counter

namespace Epoch

/-- An epoch with a stored epoch secret, at a stored number. -/
def restore (epochSecret transcriptHash : Bytes32) (number : Nat) : Epoch P where
  number := number
  secrets := .derive epochSecret
  messageCounter := 0
  transcriptHash := transcriptHash

/-- The key of our next message; the counter moves on.  No result where it
would overflow. -/
def nextMessageKey (e : Epoch P) (ourLeafPosition : Nat) : Option (MessageKey × Epoch P) :=
  let key := e.secrets.deriveMessageKey ourLeafPosition e.messageCounter
  if e.messageCounter + 1 < counterRange then
    some (key, { e with messageCounter := e.messageCounter + 1 })
  else none

/-- The key of a message of the given sender. -/
def messageKeyForCounter (e : Epoch P) (senderLeafPosition counter : Nat) : MessageKey :=
  e.secrets.deriveMessageKey senderLeafPosition counter

/-- Moves the counter forward. -/
def setMessageCounter (e : Epoch P) (counter : Nat) : Result (Epoch P) := do
  rejectIf (counter < e.messageCounter) .messageCounterTooOld
  pure { e with messageCounter := counter }

end Epoch

/-! ## Sending -/

/-- `aead::encrypt` and `aead::decrypt`: key, nonce, plaintext or ciphertext,
associated data. -/
abbrev MessageCipher := Bytes32 → FixedBytes 24 → Bytes → Bytes → Result Bytes

/-- A message on the wire. -/
structure EncryptedMessage where
  epoch : Nat
  senderLeafPosition : Nat
  counter : Nat
  ciphertext : Bytes

namespace CocoaSession

/-- The position of the next message. -/
def position (s : CocoaSession P) : Position := toLex (s.epoch.number, s.epoch.messageCounter)

/-- Encrypts a message.  The counter moves on before the cipher runs, so it does
so where the cipher fails, too. -/
def encrypt (cipher : MessageCipher) (plaintext : Bytes) (s : CocoaSession P) :
    Option (EStateM.Result CryptoError (CocoaSession P) EncryptedMessage) :=
  match checkSizeLimits plaintext.length 0 0 0 0 with
  | .error e => some (.error e s)
  | .ok () =>
    (s.epoch.nextMessageKey s.ourLeafPosition).map fun (messageKey, epoch) =>
      let s' := { s with epoch }
      let aad := s.groupId.val ++ leBytes 8 s.epoch.number ++ leBytes 4 s.ourLeafPosition ++
        leBytes 8 messageKey.counter
      match cipher messageKey.key messageKey.nonce plaintext aad with
      | .error e => .error e s'
      | .ok ciphertext =>
        .ok { epoch := s.epoch.number, senderLeafPosition := s.ourLeafPosition
              counter := messageKey.counter, ciphertext } s'

/-- Decrypts a message of the current epoch. -/
def decrypt (cipher : MessageCipher) (message : EncryptedMessage) (s : CocoaSession P) :
    Result Bytes := do
  checkSizeLimits message.ciphertext.length 0 0 0 0
  rejectIf (message.epoch ≠ s.epoch.number) (.epochMismatch s.epoch.number message.epoch)
  let messageKey := s.epoch.messageKeyForCounter message.senderLeafPosition message.counter
  let aad := s.groupId.val ++ leBytes 8 message.epoch ++ leBytes 4 message.senderLeafPosition ++
    leBytes 8 message.counter
  cipher messageKey.key messageKey.nonce message.ciphertext aad

/-- Moves the counter of the current epoch forward. -/
def setMessageCounter (s : CocoaSession P) (counter : Nat) : Result (CocoaSession P) := do
  let epoch ← s.epoch.setMessageCounter counter
  pure { s with epoch }

end CocoaSession

/-! ## Restoring -/

/-- The highest position that a member has committed to. -/
structure SessionWatermark where
  epochNumber : Nat
  messageCounter : Nat

namespace SessionWatermark

def position (w : SessionWatermark) : Position := toLex (w.epochNumber, w.messageCounter)

/-- The position of a session. -/
def ofSession (s : CocoaSession P) : SessionWatermark := ⟨s.epoch.number, s.epoch.messageCounter⟩

/-- Rejects a position strictly below the watermark. -/
def check (w : SessionWatermark) (epochNumber messageCounter : Nat) : Result Unit :=
  rejectIf (toLex (epochNumber, messageCounter) < w.position) .messageCounterTooOld

/-- The higher of the watermark and a position. -/
def advanced (w : SessionWatermark) (epochNumber messageCounter : Nat) : SessionWatermark :=
  if w.position ≤ toLex (epochNumber, messageCounter) then ⟨epochNumber, messageCounter⟩ else w

end SessionWatermark

/-- What is stored of a session. -/
structure Snapshot (P : Primitives) where
  groupId : GroupId
  ourUserId : UserId
  ourKeypair : P.KeyPair
  ourPosition : Nat
  treeDepth : Nat
  memberCount : Nat
  epochSecret : Bytes32
  transcriptHash : Bytes32
  epochNumber : Nat
  messageCounter : Nat

namespace Snapshot

def position (snap : Snapshot P) : Position := toLex (snap.epochNumber, snap.messageCounter)

/-- What is stored of a live session. -/
def ofSession (s : CocoaSession P) : Snapshot P where
  groupId := s.groupId
  ourUserId := s.ourUserId
  ourKeypair := s.ourKeypair
  ourPosition := s.ourLeafPosition
  treeDepth := s.tree.treeDepth
  memberCount := s.memberCount
  epochSecret := s.currentEpochSecret
  transcriptHash := s.transcriptHash
  epochNumber := s.epochNumber
  messageCounter := s.epoch.messageCounter

/-- A session with what was stored, and with an empty tree. -/
def restoreSession (snap : Snapshot P) : CocoaSession P where
  groupId := snap.groupId
  ourUserId := snap.ourUserId
  ourLeafPosition := snap.ourPosition
  ourKeypair := snap.ourKeypair
  tree := (PartialTreeView.new P snap.ourPosition snap.treeDepth).setMemberCount snap.memberCount
  epoch := .restore snap.epochSecret snap.transcriptHash snap.epochNumber
  transcriptHash := snap.transcriptHash
  members := {snap.ourUserId}

/-- Restores a session unless it is below the watermark. -/
def restoreSessionChecked (watermark : SessionWatermark) (snap : Snapshot P) :
    Result (CocoaSession P) := do
  watermark.check snap.epochNumber snap.messageCounter
  snap.restoreSession.setMessageCounter snap.messageCounter

end Snapshot

/-! ## What a call does to the position -/

theorem setMessageCounter_eq_ok {s s' : CocoaSession P} {counter : Nat} :
    s.setMessageCounter counter = .ok s' ↔
      s.epoch.messageCounter ≤ counter ∧
        s' = { s with epoch := { s.epoch with messageCounter := counter } } := by
  simp only [CocoaSession.setMessageCounter, Epoch.setMessageCounter, Except.bind_eq_ok,
    rejectIf_eq_ok, Except.pure_eq_ok, Nat.not_lt]
  constructor
  · rintro ⟨_, ⟨_, h, rfl⟩, rfl⟩
    exact ⟨h, rfl⟩
  · rintro ⟨h, rfl⟩
    exact ⟨_, ⟨(), h, rfl⟩, rfl⟩

/-- A restore succeeds exactly where the stored position is not below the
watermark, and then continues at the stored position. -/
theorem restoreSessionChecked_eq_ok {w : SessionWatermark} {snap : Snapshot P}
    {s : CocoaSession P} (h : snap.restoreSessionChecked w = .ok s) :
    w.position ≤ snap.position ∧ s.position = snap.position := by
  simp only [Snapshot.restoreSessionChecked, SessionWatermark.check, Except.bind_eq_ok,
    rejectIf_eq_ok, setMessageCounter_eq_ok, not_lt] at h
  rcases h with ⟨_, hle, _, rfl⟩
  exact ⟨hle, rfl⟩

theorem restoreSessionChecked_of_lt {w : SessionWatermark} {snap : Snapshot P}
    (h : snap.position < w.position) :
    snap.restoreSessionChecked w = .error .messageCounterTooOld := by
  have hcheck : w.check snap.epochNumber snap.messageCounter = .error .messageCounterTooOld := by
    rw [SessionWatermark.check, rejectIf]
    exact if_pos h
  rw [Snapshot.restoreSessionChecked, hcheck]
  rfl

theorem position_le_advanced (w : SessionWatermark) (epochNumber messageCounter : Nat) :
    w.position ≤ (w.advanced epochNumber messageCounter).position := by
  unfold SessionWatermark.advanced
  split
  · next h => exact h
  · exact le_rfl

theorem le_position_advanced (w : SessionWatermark) (epochNumber messageCounter : Nat) :
    toLex (epochNumber, messageCounter) ≤ (w.advanced epochNumber messageCounter).position := by
  unfold SessionWatermark.advanced
  split
  · exact le_rfl
  · next h => exact (not_le.mp h).le

/-- The session after its counter has moved on. -/
def CocoaSession.counted (s : CocoaSession P) : CocoaSession P :=
  { s with epoch := { s.epoch with messageCounter := s.epoch.messageCounter + 1 } }

/-- A send that has a result: the message, if there is one, is at the position
that the session leaves, and the counter has not overflowed. -/
theorem encrypt_ok {cipher : MessageCipher} {plaintext : Bytes} {s s' : CocoaSession P}
    {m : EncryptedMessage} (h : s.encrypt cipher plaintext = some (.ok m s')) :
    toLex (m.epoch, m.counter) = s.position ∧ m.senderLeafPosition = s.ourLeafPosition ∧
      s.epoch.messageCounter + 1 < counterRange ∧ s' = s.counted := by
  unfold CocoaSession.encrypt at h
  split at h
  · cases h
  · simp only [Epoch.nextMessageKey] at h
    split at h
    · next hlt =>
      simp only [Option.map_some, Option.some.injEq] at h
      split at h
      · cases h
      · cases h
        exact ⟨rfl, rfl, hlt, rfl⟩
    · cases h

/-- A send that fails leaves the session as it was, or has moved the counter
on. -/
theorem encrypt_error {cipher : MessageCipher} {plaintext : Bytes} {s s' : CocoaSession P}
    {e : CryptoError} (h : s.encrypt cipher plaintext = some (.error e s')) :
    s' = s ∨ s' = s.counted := by
  unfold CocoaSession.encrypt at h
  split at h
  · cases h
    exact .inl rfl
  · simp only [Epoch.nextMessageKey] at h
    split at h
    · simp only [Option.map_some, Option.some.injEq] at h
      split at h
      · cases h
        exact .inr rfl
      · cases h
    · cases h

/-- At the last counter a send has no result. -/
theorem encrypt_exhausted (cipher : MessageCipher) {plaintext : Bytes} {s : CocoaSession P}
    (hsize : plaintext.length ≤ maxMessageSize) (h : counterRange ≤ s.epoch.messageCounter + 1) :
    s.encrypt cipher plaintext = none := by
  have hgate : checkSizeLimits plaintext.length 0 0 0 0 = .ok () :=
    checkSizeLimits_eq_ok.mpr ⟨hsize, Nat.zero_le _, Nat.zero_le _, Nat.zero_le _, Nat.zero_le _⟩
  rw [CocoaSession.encrypt, hgate]
  simp [Epoch.nextMessageKey, Nat.not_lt.mpr h]

end Trelis.Cocoa
