import Trelis.Lib.Transition
import Trelis.Ratchet.Message

/-!
# The runs of one end

The states that an end of a session goes through when it sends messages and
receives whatever it is given.  In all of them the key ids belong to the stored
keys, and the counters and the time are 64-bit words (`WellFormed`).
-/

namespace Trelis.Ratchet

variable {P : RatchetPrimitives}

namespace KemRatchet

/-- A session that was just opened, at either end. -/
inductive Starts : KemRatchet P → Prop
  | initiator {sessionKey theirPublicKey currentTime coins s} (htime : currentTime < counterRange)
      (h : initInitiator sessionKey theirPublicKey currentTime coins = .ok s) : Starts s
  | responder {sessionKey ourKeypair currentTime} (htime : currentTime < counterRange) :
      Starts (initResponder sessionKey ourKeypair currentTime)

/-- A call of `send_message` or `receive_message` that does not panic. -/
inductive Moves : KemRatchet P → KemRatchet P → Prop
  | sent {plaintext currentTime draws s result s'} (htime : currentTime < counterRange)
      (h : sendMessage plaintext currentTime draws s = .ok result s') : Moves s s'
  | sendFailed {plaintext currentTime draws s e s'}
      (h : sendMessage plaintext currentTime draws s = .error e s') (he : e ≠ .panic) : Moves s s'
  | received {message currentTime s plaintext s'} (htime : currentTime < counterRange)
      (h : receiveMessage message currentTime s = .ok plaintext s') : Moves s s'
  | receiveFailed {message currentTime s e s'}
      (h : receiveMessage message currentTime s = .error e s') (he : e ≠ .panic) : Moves s s'

/-- The key ids are those of the stored keys, and the numbers are words. -/
structure WellFormed (s : KemRatchet P) : Prop where
  ourKeyId : s.ourKeyId = deriveKeyId P (P.publicKey s.ourKeypair)
  theirKeyId : s.theirKeyId = s.theirPublicKey.map (deriveKeyId P)
  sendCount : s.sendCount ≤ sessionExhaustionThreshold
  recvCount : s.recvCount < counterRange
  lastActivity : s.lastActivity < counterRange

theorem counterRange_pos : 0 < counterRange := by decide

theorem WellFormed.of_starts {s : KemRatchet P} (h : s.Starts) : s.WellFormed := by
  cases h with
  | initiator htime h =>
    simp only [initInitiator, Except.bind_eq_ok, Except.pure_eq_ok] at h
    obtain ⟨ourKeypair, _, rfl⟩ := h
    exact ⟨rfl, rfl, Nat.zero_le _, counterRange_pos, htime⟩
  | responder htime => exact ⟨rfl, rfl, Nat.zero_le _, counterRange_pos, htime⟩

theorem WellFormed.sent {s : KemRatchet P} (h : s.WellFormed)
    (hcount : s.sendCount < sessionExhaustionThreshold) (newKeypair : P.KeyPair)
    (newRootKey : Bytes32) {currentTime : Nat} (htime : currentTime < counterRange) :
    (s.sent newKeypair newRootKey currentTime).WellFormed :=
  ⟨rfl, h.theirKeyId, hcount, h.recvCount, htime⟩

theorem WellFormed.received {s : KemRatchet P} (h : s.WellFormed) {message : RatchetMessage P}
    (hrange : message.header.messageNumber + 1 < counterRange) (newRootKey : Bytes32)
    {currentTime : Nat} (htime : currentTime < counterRange) :
    (s.received message newRootKey currentTime).WellFormed := by
  unfold KemRatchet.received
  split
  · exact ⟨h.ourKeyId, rfl, h.sendCount, hrange, htime⟩
  · exact ⟨h.ourKeyId, h.theirKeyId, h.sendCount, hrange, htime⟩

theorem WellFormed.moves {s s' : KemRatchet P} (h : s.WellFormed) (hmove : Moves s s') :
    s'.WellFormed := by
  cases hmove with
  | sent htime hsend =>
    obtain ⟨⟨_, hcount⟩, newKeypair, _, _, _, _, _, _, _, _, _, _, _, rfl⟩ :=
      sendMessage_eq_ok hsend
    exact h.sent hcount newKeypair _ htime
  | sendFailed hsend he => rwa [failsClean_sendMessage _ _ _ _ _ _ trivial hsend]
  | received htime hreceive =>
    obtain ⟨_, _, hrange, _, _, _, _, _, rfl⟩ := receiveMessage_eq_ok.mp hreceive
    exact h.received hrange _ htime
  | receiveFailed hreceive he => rwa [failsClean_receiveMessage _ _ _ _ _ he hreceive]

theorem wellFormed_of_reachable {s : KemRatchet P} (h : Reachable Starts Moves s) : s.WellFormed :=
  h.invariant (fun _ => .of_starts) fun _ _ hs => hs.moves

end KemRatchet

end Trelis.Ratchet
