import Trelis.Ratchet.State

/-!
# Messages of the KEM ratchet

Sending and receiving (`send.rs` and `receive.rs` of the ratchet crate), with
the header, the key derivation and the nonce that they use.

A send encapsulates to the stored key of the peer and moves the root key on by
the secret.  A receive decapsulates with the key pair that the header names and
moves the root key on in the same way.  Both change the state at their end only.
`sendMessage_eq_ok` and `receiveMessage_eq_ok` say what a successful call has
done.
-/

namespace Trelis.Ratchet

variable {P : RatchetPrimitives}

/-! ## Headers -/

def protocolVersion : Nat := 1
def cipherSuite : Nat := 1
def headerSize : Nat := 2339
def hybridKemPkSize : Nat := 1214
def hybridEncapSize : Nat := 1095

/-- What stands before the ciphertext, and is its associated data. -/
structure MessageHeader (P : RatchetPrimitives) where
  version : Nat
  cipherSuite : Nat
  recipientKeyId : KeyId
  senderPublicKey : P.PublicKey
  encapsulation : P.Encapsulation
  messageNumber : Nat

namespace MessageHeader

/-- A header of this version. -/
def new (recipientKeyId : KeyId) (senderPublicKey : P.PublicKey) (encapsulation : P.Encapsulation)
    (messageNumber : Nat) : MessageHeader P where
  version := protocolVersion
  cipherSuite := Ratchet.cipherSuite
  recipientKeyId := recipientKeyId
  senderPublicKey := senderPublicKey
  encapsulation := encapsulation
  messageNumber := messageNumber

def toBytes (h : MessageHeader P) : Bytes :=
  leBytes 1 h.version ++ leBytes 1 h.cipherSuite ++ leBytes 4 headerSize ++
    leBytes 8 h.recipientKeyId ++ leBytes 4 hybridKemPkSize ++
    P.publicKeyToBytes h.senderPublicKey ++ leBytes 4 hybridEncapSize ++
    P.encapsulationToBytes h.encapsulation ++ leBytes 8 h.messageNumber

end MessageHeader

/-- A message on the wire. -/
structure RatchetMessage (P : RatchetPrimitives) where
  header : MessageHeader P
  nonce : FixedBytes 24
  ciphertext : Bytes

/-! ## Keys -/

def kdfRoot : String := "trelis-pq-ratchet-root-v1"
def kdfMessage : String := "trelis-pq-ratchet-message-v1"
def nonceContext : String := "trelis-ratchet-nonce-v1"

/-- What a KEM secret turns a root key into. -/
structure KdfOutput where
  newRootKey : Bytes32
  messageKey : Bytes32

def kdfRk (P : RatchetPrimitives) (rootKey sharedSecret : Bytes32) : KdfOutput where
  newRootKey := P.deriveKey kdfRoot (rootKey.val ++ sharedSecret.val)
  messageKey := P.deriveKey kdfMessage (rootKey.val ++ sharedSecret.val)

/-- The nonce of a message, from its counter, its key and randomness. -/
def deriveNonceWithRandom (P : RatchetPrimitives) (counter : Nat) (messageKey : Bytes32)
    (randomComponent : FixedBytes 16) : FixedBytes 24 :=
  let derived := P.deriveKey nonceContext
    (beBytes 8 counter ++ messageKey.val ++ randomComponent.val)
  ⟨derived.val.take 24, by simp⟩

/-- The nonce, where the randomness is drawn. -/
def deriveHedgedNonce (P : RatchetPrimitives) (counter : Nat) (messageKey : Bytes32)
    (draw : Result (FixedBytes 16)) : Result (FixedBytes 24) := do
  let randomComponent ← draw
  pure (deriveNonceWithRandom P counter messageKey randomComponent)

/-! ## Sending and receiving -/

/-- The random draws of a send. -/
structure SendDraws (P : RatchetPrimitives) where
  keypair : P.Coins
  encapsulation : P.Coins
  nonce : Result (FixedBytes 16)

/-- What a send returns. -/
structure SendResult (P : RatchetPrimitives) where
  message : RatchetMessage P
  stateUpdated : Bool

/-- The state after a send. -/
def KemRatchet.sent (newKeypair : P.KeyPair) (newRootKey : Bytes32) (currentTime : Nat)
    (s : KemRatchet P) : KemRatchet P :=
  ((((s.rotateKeypair newKeypair).setRootKey newRootKey).incrementSendCount).setStatus
    .awaitingReply).setLastActivity currentTime

/-- Encrypts a plaintext to the peer. -/
def sendMessage (plaintext : Bytes) (currentTime : Nat) (draws : SendDraws P) :
    EStateM Failure (KemRatchet P) (SendResult P) := do
  let s ← get
  orFail s.validateCanSend
  let newKeypair ← orFail (P.generate draws.keypair)
  let theirPk ← expect s.theirPublicKey
  let (sharedSecret, encapsulation) ← orFail (P.encapsulate theirPk draws.encapsulation)
  let kdfOutput := kdfRk P s.rootKey sharedSecret
  let theirKeyId ← expect s.theirKeyId
  let header := MessageHeader.new theirKeyId (P.publicKey newKeypair) encapsulation s.sendCount
  let nonce ← orFail (deriveHedgedNonce P s.sendCount kdfOutput.messageKey draws.nonce)
  let ciphertext ← orFail (P.encrypt kdfOutput.messageKey nonce plaintext header.toBytes)
  set (s.sent newKeypair kdfOutput.newRootKey currentTime)
  pure { message := { header, nonce, ciphertext }, stateUpdated := true }

/-- The sender of a message is not stored with the key that it announces. -/
def KemRatchet.senderKeyChanged (s : KemRatchet P) (message : RatchetMessage P) : Bool :=
  s.theirPublicKey.map P.publicKeyToBytes ≠
    some (P.publicKeyToBytes message.header.senderPublicKey)

/-- Decrypts a message of the peer. -/
def receiveMessage (message : RatchetMessage P) (currentTime : Nat) :
    EStateM Failure (KemRatchet P) Bytes := do
  let s ← get
  orFail s.validateCanReceive
  orFail (rejectIf (message.header.messageNumber ≠ s.recvCount)
    (.messageOrderViolation s.recvCount message.header.messageNumber))
  orFail (rejectIf ((s.findKeypair message.header.recipientKeyId).isNone) .unknownRecipientKeyId)
  let senderKeyChanged := s.senderKeyChanged message
  let keypair ← expect (s.findKeypair message.header.recipientKeyId)
  let sharedSecret ← orFail (P.decapsulate keypair message.header.encapsulation)
  let kdfOutput := kdfRk P s.rootKey sharedSecret
  let plaintext ← orFail
    (P.decrypt kdfOutput.messageKey message.nonce message.ciphertext message.header.toBytes)
  modify (·.setRootKey kdfOutput.newRootKey)
  modify fun t =>
    if senderKeyChanged then t.setTheirPublicKey message.header.senderPublicKey else t
  set (← expect ((← get).setRecvCount message.header.messageNumber))
  modify (·.setStatus .active)
  modify (·.setLastActivity currentTime)
  pure plaintext

/-- The state after a receive. -/
def KemRatchet.received (message : RatchetMessage P) (newRootKey : Bytes32) (currentTime : Nat)
    (s : KemRatchet P) : KemRatchet P :=
  let learned :=
    if s.senderKeyChanged message then s.setTheirPublicKey message.header.senderPublicKey else s
  { learned with
    rootKey := newRootKey
    recvCount := message.header.messageNumber + 1
    status := .active
    lastActivity := currentTime }

/-! ## Successful calls -/

/-- What a send that returns has done. -/
theorem sendMessage_eq_ok {plaintext : Bytes} {currentTime : Nat} {draws : SendDraws P}
    {s s' : KemRatchet P} {result : SendResult P}
    (h : sendMessage plaintext currentTime draws s = .ok result s') :
    (s.Usable ∧ s.sendCount < sessionExhaustionThreshold) ∧
      ∃ newKeypair theirPk theirKeyId secret header,
        P.generate draws.keypair = .ok newKeypair ∧
        s.theirPublicKey = some theirPk ∧ s.theirKeyId = some theirKeyId ∧
        header = MessageHeader.new theirKeyId (P.publicKey newKeypair) header.encapsulation
          s.sendCount ∧
        P.encapsulate theirPk draws.encapsulation = .ok (secret, header.encapsulation) ∧
        result.message.header = header ∧
        P.encrypt (kdfRk P s.rootKey secret).messageKey result.message.nonce plaintext
          header.toBytes = .ok result.message.ciphertext ∧
        s' = s.sent newKeypair (kdfRk P s.rootKey secret).newRootKey currentTime := by
  simp only [sendMessage, EStateM.get_bind_apply, orFail_bind_eq_ok, expect_bind_eq_ok,
    EStateM.set_bind_apply, EStateM.pure_eq_ok, KemRatchet.validateCanSend_eq_ok] at h
  obtain ⟨_, ⟨husable, hcount, _, _⟩, newKeypair, hnew, theirPk, hpk, ⟨secret, encapsulation⟩, henc,
    theirKeyId, hid, nonce, _, ciphertext, hct, hresult, hstate⟩ := h
  rw [← hresult, hstate]
  exact ⟨⟨husable, hcount⟩, newKeypair, theirPk, theirKeyId, secret, _, hnew, hpk, hid, rfl, henc,
    rfl, hct, rfl⟩

/-- A message that is expected, and opens, is received. -/
theorem receiveMessage_eq_ok {message : RatchetMessage P} {currentTime : Nat} {s s' : KemRatchet P}
    {plaintext : Bytes} :
    receiveMessage message currentTime s = .ok plaintext s' ↔
      s.Usable ∧ message.header.messageNumber = s.recvCount ∧
        message.header.messageNumber + 1 < counterRange ∧
        ∃ keypair secret, s.findKeypair message.header.recipientKeyId = some keypair ∧
          P.decapsulate keypair message.header.encapsulation = .ok secret ∧
          P.decrypt (kdfRk P s.rootKey secret).messageKey message.nonce message.ciphertext
            message.header.toBytes = .ok plaintext ∧
          s' = s.received message (kdfRk P s.rootKey secret).newRootKey currentTime := by
  simp only [receiveMessage, EStateM.get_bind_apply, orFail_bind_eq_ok, expect_bind_eq_ok,
    EStateM.modify_bind_apply, EStateM.set_bind_apply, EStateM.pure_eq_ok,
    KemRatchet.validateCanReceive_eq_ok, rejectIf_eq_ok, KemRatchet.setRecvCount_eq_some]
  constructor
  · rintro ⟨_, husable, _, hnumber, _, _, keypair, hkeypair, secret, hsecret, _, hplain, _,
      ⟨hrange, rfl⟩, rfl, rfl⟩
    refine ⟨husable, not_not.mp hnumber, hrange, keypair, secret, hkeypair, hsecret, hplain, ?_⟩
    unfold KemRatchet.received
    split <;> rfl
  · rintro ⟨husable, hnumber, hrange, keypair, secret, hkeypair, hsecret, hplain, rfl⟩
    refine ⟨(), husable, (), not_not.mpr hnumber, (), by simp [hkeypair], keypair, hkeypair, secret,
      hsecret, plaintext, hplain, _, ⟨hrange, rfl⟩, rfl, ?_⟩
    unfold KemRatchet.received
    split <;> rfl

/-! ## Failed calls -/

/-- A send that fails leaves the state as it was. -/
theorem failsClean_sendMessage (plaintext : Bytes) (currentTime : Nat) (draws : SendDraws P)
    (s : KemRatchet P) :
    FailsClean (fun _ => True) (sendMessage plaintext currentTime draws) s := by
  unfold sendMessage
  refine .get_bind ?_
  refine failsClean_orFail_bind fun _ => ?_
  refine failsClean_orFail_bind fun _ => ?_
  refine failsClean_expect_bind fun _ => ?_
  refine failsClean_orFail_bind fun _ => ?_
  refine failsClean_expect_bind fun _ => ?_
  refine failsClean_orFail_bind fun _ => ?_
  refine failsClean_orFail_bind fun _ => ?_
  exact .set_bind_pure

/-- Behind the check of the ciphertext, only the addition can fail. -/
theorem eq_panic_of_finish {messageNumber currentTime : Nat} {plaintext : Bytes}
    {g h : KemRatchet P → KemRatchet P} {s s' : KemRatchet P} {e : Failure}
    (hrun : (do
      modify g
      modify h
      set (← expect ((← get).setRecvCount messageNumber))
      modify (·.setStatus .active)
      modify (·.setLastActivity currentTime)
      pure plaintext : EStateM Failure (KemRatchet P) Bytes) s = .error e s') : e = .panic := by
  change (expect ((h (g s)).setRecvCount messageNumber) >>= _) (h (g s)) = _ at hrun
  cases hset : (h (g s)).setRecvCount messageNumber with
  | none =>
    rw [hset] at hrun
    cases hrun
    rfl
  | some t =>
    rw [hset] at hrun
    cases hrun

/-- So does a receive that fails with an error. -/
theorem failsClean_receiveMessage (message : RatchetMessage P) (currentTime : Nat)
    (s : KemRatchet P) :
    FailsClean (· ≠ .panic) (receiveMessage message currentTime) s := by
  unfold receiveMessage
  refine .get_bind ?_
  refine failsClean_orFail_bind fun _ => ?_
  refine failsClean_orFail_bind fun _ => ?_
  refine failsClean_orFail_bind fun _ => ?_
  refine failsClean_expect_bind fun _ => ?_
  refine failsClean_orFail_bind fun _ => ?_
  refine failsClean_orFail_bind fun _ => ?_
  intro e s' he hrun
  exact absurd (eq_panic_of_finish hrun) he

end Trelis.Ratchet
