import Mathlib.Logic.Function.Basic
import Trelis.Lib.Transition
import Trelis.Ratchet.Sample

/-!
# Two ends of a session

The initiator and the responder of a session send messages to each other, and
the transport delivers those of one direction in the order in which they were
sent.

Both ends keep a single root key, and every message moves it on.  So they stay
together only if one of them speaks at a time: a party that sends while a
message to it is in flight mixes its own secret into the root key first, and
cannot open the message any more.  `Polite` is the condition that no party does.

Under it, one end has received everything, and the other one catches up by
receiving what is in flight (`CatchesUp`): it opens each message, and is in step
with its peer behind the last (`InStep`).  A send adds one message to what has
to be caught up with (`CatchesUp.send`), and a receive removes one.
-/

namespace Trelis.Ratchet

variable {P : RatchetPrimitives}

/-! ## The two parties -/

inductive Party where
  | initiator
  | responder
deriving DecidableEq

def Party.other : Party → Party
  | .initiator => .responder
  | .responder => .initiator

@[simp] theorem Party.other_other (p : Party) : p.other.other = p := by
  cases p <;> rfl

@[simp] theorem Party.other_ne (p : Party) : p.other ≠ p := by
  cases p <;> decide

theorem Party.eq_or_eq_other (p q : Party) : q = p ∨ q = p.other := by
  cases p <;> cases q <;> simp [Party.other]

/-- A message in flight, with the plaintext that was sent. -/
structure Flight (P : RatchetPrimitives) where
  message : RatchetMessage P
  plaintext : Bytes

/-- The two ends, and the messages that are in flight to each. -/
structure Conversation (P : RatchetPrimitives) where
  state : Party → KemRatchet P
  inFlight : Party → List (Flight P)

/-- What happens next. -/
inductive Action (P : RatchetPrimitives) where
  /-- A party sends a message. -/
  | send (sender : Party) (plaintext : Bytes) (currentTime : Nat) (draws : SendDraws P)
  /-- The oldest message in flight to a party is delivered. -/
  | deliver (receiver : Party) (currentTime : Nat)

/-- The state that a call leaves behind. -/
def finalState {α : Type} : EStateM.Result Failure (KemRatchet P) α → KemRatchet P
  | .ok _ s => s
  | .error _ s => s

namespace Conversation

/-- A send puts its message behind those in flight; one that fails puts
nothing. -/
def send (c : Conversation P) (p : Party) (plaintext : Bytes) (currentTime : Nat)
    (draws : SendDraws P) : Conversation P :=
  match sendMessage plaintext currentTime draws (c.state p) with
  | .ok result s =>
    { state := Function.update c.state p s
      inFlight :=
        Function.update c.inFlight p.other (c.inFlight p.other ++ [⟨result.message, plaintext⟩]) }
  | .error _ s => { c with state := Function.update c.state p s }

/-- The oldest message in flight is received. -/
def deliver (c : Conversation P) (p : Party) (currentTime : Nat) : Conversation P :=
  match c.inFlight p with
  | [] => c
  | flight :: rest =>
    { state :=
        Function.update c.state p
          (finalState (receiveMessage flight.message currentTime (c.state p)))
      inFlight := Function.update c.inFlight p rest }

def act (c : Conversation P) : Action P → Conversation P
  | .send sender plaintext currentTime draws => c.send sender plaintext currentTime draws
  | .deliver receiver currentTime => c.deliver receiver currentTime

/-- The two ends of a new session: they have the session key in common, and the
initiator has the public key of the responder. -/
def Opens (c : Conversation P) : Prop :=
  ∃ sessionKey keypair coins openedAt answeredAt,
    KemRatchet.initInitiator sessionKey (P.publicKey keypair) openedAt coins =
      .ok (c.state .initiator) ∧
    c.state .responder = KemRatchet.initResponder sessionKey keypair answeredAt ∧
    ∀ p, c.inFlight p = []

/-- The action is not a send by a party to which a message is in flight. -/
def Polite (c : Conversation P) : Action P → Prop
  | .send sender _ _ _ => c.inFlight sender = []
  | .deliver _ _ => True

/-- Any action. -/
def Step (c c' : Conversation P) : Prop := ∃ a, c' = c.act a

/-- An action in turn. -/
def PoliteStep (c c' : Conversation P) : Prop := ∃ a, c.Polite a ∧ c' = c.act a

/-- Every message that is delivered next decrypts to the plaintext that was
sent. -/
def Delivers (c : Conversation P) : Prop :=
  ∀ p flight rest, c.inFlight p = flight :: rest → ∀ currentTime, ∃ s',
    receiveMessage flight.message currentTime (c.state p) = .ok flight.plaintext s'

end Conversation

/-! ## Being in step -/

namespace KemRatchet

/-- One end has the root key of its peer, has received what that sent, and
stores no key but the current one of it. -/
structure AgreesWith (s peer : KemRatchet P) : Prop where
  rootKey : s.rootKey = peer.rootKey
  recvCount : s.recvCount = peer.sendCount
  theirPublicKey : ∀ pk, s.theirPublicKey = some pk → pk = P.publicKey peer.ourKeypair
  theirKeyId : ∀ keyId, s.theirKeyId = some keyId →
    keyId = deriveKeyId P (P.publicKey peer.ourKeypair)

/-- The key id is that of the current key. -/
def OwnsKeyId (s : KemRatchet P) : Prop := s.ourKeyId = deriveKeyId P (P.publicKey s.ourKeypair)

/-- If a peer is stored at all, it is the given one, with its current key. -/
def Knows (s peer : KemRatchet P) : Prop :=
  (s.theirPublicKey = none ∧ s.theirKeyId = none) ∨
    (s.theirPublicKey = some (P.publicKey peer.ourKeypair) ∧
      s.theirKeyId = some (deriveKeyId P (P.publicKey peer.ourKeypair)))

/-- Two ends that have received everything. -/
structure InStep (r s : KemRatchet P) : Prop where
  rootKey : r.rootKey = s.rootKey
  recv : r.recvCount = s.sendCount
  sent : s.recvCount = r.sendCount
  knows : r.Knows s
  known : s.Knows r
  usable : r.Usable ∧ s.Usable
  owns : r.OwnsKeyId ∧ s.OwnsKeyId

theorem InStep.symm {r s : KemRatchet P} (h : InStep r s) : InStep s r where
  rootKey := h.rootKey.symm
  recv := h.sent
  sent := h.recv
  knows := h.known
  known := h.knows
  usable := h.usable.symm
  owns := h.owns.symm

theorem InStep.agreesWith {r s : KemRatchet P} (h : InStep r s) : r.AgreesWith s where
  rootKey := h.rootKey
  recvCount := h.recv
  theirPublicKey := by
    intro pk hpk
    obtain ⟨hnone, _⟩ | ⟨hsome, _⟩ := h.knows
    · simp [hnone] at hpk
    · rw [hsome, Option.some.injEq] at hpk
      exact hpk.symm
  theirKeyId := by
    intro keyId hid
    obtain ⟨_, hnone⟩ | ⟨_, hsome⟩ := h.knows
    · simp [hnone] at hid
    · rw [hsome, Option.some.injEq] at hid
      exact hid.symm

/-- The receiver opens the messages in order, at whatever times, and is then in
step with the sender. -/
def CatchesUp (r s : KemRatchet P) : List (Flight P) → Prop
  | [] => InStep r s
  | flight :: rest => ∀ currentTime, ∃ r',
      receiveMessage flight.message currentTime r = .ok flight.plaintext r' ∧ CatchesUp r' s rest

/-! ## One message -/

@[simp] theorem sent_rootKey (s : KemRatchet P) (kp : P.KeyPair) (root : Bytes32) (now : Nat) :
    (s.sent kp root now).rootKey = root := rfl

@[simp] theorem sent_sendCount (s : KemRatchet P) (kp : P.KeyPair) (root : Bytes32) (now : Nat) :
    (s.sent kp root now).sendCount = s.sendCount + 1 := rfl

@[simp] theorem sent_recvCount (s : KemRatchet P) (kp : P.KeyPair) (root : Bytes32) (now : Nat) :
    (s.sent kp root now).recvCount = s.recvCount := rfl

@[simp] theorem sent_ourKeypair (s : KemRatchet P) (kp : P.KeyPair) (root : Bytes32) (now : Nat) :
    (s.sent kp root now).ourKeypair = kp := rfl

theorem sent_ownsKeyId (s : KemRatchet P) (kp : P.KeyPair) (root : Bytes32) (now : Nat) :
    (s.sent kp root now).OwnsKeyId := rfl

theorem sent_usable (s : KemRatchet P) (kp : P.KeyPair) (root : Bytes32) (now : Nat) :
    (s.sent kp root now).Usable := by
  simp [Usable, sent, setStatus, setLastActivity]

section Received

variable (s : KemRatchet P) (message : RatchetMessage P) (root : Bytes32) (now : Nat)

@[simp] theorem received_rootKey : (s.received message root now).rootKey = root := rfl

@[simp] theorem received_recvCount :
    (s.received message root now).recvCount = message.header.messageNumber + 1 := rfl

@[simp] theorem received_sendCount : (s.received message root now).sendCount = s.sendCount := by
  unfold received
  split <;> rfl

@[simp] theorem received_ourKeypair : (s.received message root now).ourKeypair = s.ourKeypair := by
  unfold received
  split <;> rfl

@[simp] theorem received_ourKeyId : (s.received message root now).ourKeyId = s.ourKeyId := by
  unfold received
  split <;> rfl

theorem received_usable : (s.received message root now).Usable := by
  simp [Usable, received]

end Received

/-- Behind a received message, the peer is stored with the key that it
announces. -/
theorem received_knows {size : Nat} (hcodec : P.PublicKeyCodec size) {r s peer : KemRatchet P}
    {message : RatchetMessage P} {root : Bytes32} {now : Nat} (h : r.Knows s)
    (hsender : message.header.senderPublicKey = P.publicKey peer.ourKeypair) :
    (r.received message root now).Knows peer := by
  right
  unfold received
  split
  · simp [setTheirPublicKey, hsender]
  · next hsame =>
    -- the stored key has the bytes of the announced one
    simp only [senderKeyChanged, decide_eq_true_eq, not_not] at hsame
    obtain ⟨hnone, _⟩ | ⟨hpk, hid⟩ := h
    · simp [hnone] at hsame
    · rw [hpk, Option.map_some, Option.some.injEq, hsender] at hsame
      have hkey := hcodec.publicKey_inj hsame
      exact ⟨by rw [hpk, hkey], by rw [hid, hkey]⟩

/-- What one end sends, the other one opens, and they are in step again. -/
theorem InStep.exchange {size : Nat} (hcodec : P.PublicKeyCodec size) (hkem : P.IdealKem)
    (haead : P.CorrectAead) {r s s' : KemRatchet P} (h : InStep r s) {plaintext : Bytes}
    {sentAt : Nat} {draws : SendDraws P} {result : SendResult P}
    (hsend : sendMessage plaintext sentAt draws s = .ok result s') (receivedAt : Nat) :
    ∃ r', receiveMessage result.message receivedAt r = .ok plaintext r' ∧ InStep r' s' := by
  obtain ⟨⟨_, hcount⟩, newKeypair, theirPk, theirKeyId, secret, header, _, hpk, hid, hheader, henc,
    hmsg, hct, rfl⟩ := sendMessage_eq_ok hsend
  obtain ⟨hpeer, hpeerId⟩ : theirPk = P.publicKey r.ourKeypair ∧ theirKeyId = r.ourKeyId := by
    obtain ⟨hnone, _⟩ | ⟨hpk', hid'⟩ := h.known
    · simp [hnone] at hpk
    · rw [hpk, Option.some.injEq] at hpk'
      rw [hid, Option.some.injEq, ← h.owns.1] at hid'
      exact ⟨hpk', hid'⟩
  have hnumber : header.messageNumber = s.sendCount := by rw [hheader]; rfl
  have hrecipient : header.recipientKeyId = r.ourKeyId := by rw [hheader]; exact hpeerId
  have hsender : header.senderPublicKey = P.publicKey newKeypair := by rw [hheader]; rfl
  subst hmsg
  refine ⟨r.received result.message (kdfRk P s.rootKey secret).newRootKey receivedAt, ?_, ?_⟩
  · rw [receiveMessage_eq_ok, hnumber, h.recv]
    refine ⟨h.usable.1, rfl, ?_, r.ourKeypair, secret, ?_, ?_, ?_, ?_⟩
    · have hthreshold : sessionExhaustionThreshold + 1 ≤ counterRange := by decide
      omega
    · rw [hrecipient, findKeypair_ourKeyId]
    · rw [hpeer] at henc
      exact hkem.decapsulate_match henc
    · rw [h.rootKey]
      exact haead.decrypt_match hct
    · rw [h.rootKey]
  · exact
      { rootKey := rfl
        recv := by simp [hnumber]
        sent := by simp [h.sent]
        knows := received_knows hcodec h.knows (by simpa using hsender)
        known := by
          right
          rw [received_ourKeypair]
          exact ⟨by rw [← hpeer, ← hpk]; rfl, by rw [← h.owns.1, ← hpeerId, ← hid]; rfl⟩
        usable := ⟨received_usable .., sent_usable ..⟩
        owns := ⟨by simpa [OwnsKeyId] using h.owns.1, sent_ownsKeyId ..⟩ }

/-- A send adds a message to those that have to be caught up with. -/
theorem CatchesUp.send {size : Nat} (hcodec : P.PublicKeyCodec size) (hkem : P.IdealKem)
    (haead : P.CorrectAead) {s s' : KemRatchet P} {plaintext : Bytes} {sentAt : Nat}
    {draws : SendDraws P} {result : SendResult P}
    (hsend : sendMessage plaintext sentAt draws s = .ok result s') {queue : List (Flight P)}
    {r : KemRatchet P} (h : CatchesUp r s queue) :
    CatchesUp r s' (queue ++ [⟨result.message, plaintext⟩]) := by
  induction queue generalizing r with
  | nil => exact InStep.exchange hcodec hkem haead h hsend
  | cons flight rest ih =>
    intro receivedAt
    obtain ⟨r', hreceive, hrest⟩ := h receivedAt
    exact ⟨r', hreceive, ih hrest⟩

end KemRatchet

/-! ## Whole conversations -/

namespace Conversation

/-- One of the two has received everything, and the other one can catch up. -/
def Settled (c : Conversation P) : Prop :=
  ∃ p, c.inFlight p = [] ∧
    KemRatchet.CatchesUp (c.state p.other) (c.state p) (c.inFlight p.other)

theorem Opens.settled {c : Conversation P} (h : c.Opens) : c.Settled := by
  obtain ⟨sessionKey, keypair, coins, openedAt, answeredAt, hinit, hresp, hempty⟩ := h
  simp only [KemRatchet.initInitiator, Except.bind_eq_ok, Except.pure_eq_ok] at hinit
  obtain ⟨ourKeypair, _, hinit⟩ := hinit
  refine ⟨.initiator, hempty _, ?_⟩
  rw [hempty, Party.other, hresp, ← hinit]
  exact
    { rootKey := rfl
      recv := rfl
      sent := rfl
      knows := .inl ⟨rfl, rfl⟩
      known := .inr ⟨rfl, rfl⟩
      usable := ⟨KemRatchet.usable_of_active rfl, KemRatchet.usable_of_active rfl⟩
      owns := ⟨rfl, rfl⟩ }

/-- The party to which messages are in flight can receive them. -/
theorem Settled.catchesUp {c : Conversation P} (h : c.Settled) {q : Party}
    (hq : c.inFlight q ≠ []) :
    c.inFlight q.other = [] ∧
      KemRatchet.CatchesUp (c.state q) (c.state q.other) (c.inFlight q) := by
  obtain ⟨p, hp, hcatch⟩ := h
  obtain rfl | rfl := p.eq_or_eq_other q
  · exact absurd hp hq
  · rw [Party.other_other]
    exact ⟨hp, hcatch⟩

theorem Settled.delivers {c : Conversation P} (h : c.Settled) : c.Delivers := by
  intro q flight rest hq now
  have hcatch := (h.catchesUp (q := q) (by simp [hq])).2
  rw [hq] at hcatch
  obtain ⟨s', hreceive, _⟩ := hcatch now
  exact ⟨s', hreceive⟩

theorem Settled.deliver {c : Conversation P} (h : c.Settled) (q : Party) (now : Nat) :
    (c.deliver q now).Settled := by
  unfold Conversation.deliver
  cases hq : c.inFlight q with
  | nil => exact h
  | cons flight rest =>
    obtain ⟨hother, hcatch⟩ := h.catchesUp (q := q) (by simp [hq])
    rw [hq] at hcatch
    obtain ⟨s', hreceive, hrest⟩ := hcatch now
    refine ⟨q.other, ?_, ?_⟩
    · simpa only [Function.update_of_ne (Party.other_ne q)] using hother
    · simpa only [hreceive, finalState, Party.other_other, Function.update_self,
        Function.update_of_ne (Party.other_ne q)] using hrest

section Laws

variable {size : Nat} (hcodec : P.PublicKeyCodec size) (hkem : P.IdealKem)
  (haead : P.CorrectAead)

include hcodec hkem haead

/-- A party sends to which nothing is in flight. -/
theorem Settled.send {c : Conversation P} (h : c.Settled) {q : Party} (hq : c.inFlight q = [])
    (plaintext : Bytes) (now : Nat) (draws : SendDraws P) :
    (c.send q plaintext now draws).Settled := by
  -- the sender is the party that has received everything, or both have
  have hcatch : KemRatchet.CatchesUp (c.state q.other) (c.state q) (c.inFlight q.other) := by
    obtain ⟨p, hp, hcatch⟩ := h
    obtain rfl | rfl := p.eq_or_eq_other q
    · exact hcatch
    · rw [hq] at hcatch
      rw [Party.other_other, hp]
      exact KemRatchet.InStep.symm hcatch
  refine ⟨q, ?_⟩
  unfold Conversation.send
  cases hsend : sendMessage plaintext now draws (c.state q) with
  | ok result s' =>
    refine ⟨by simpa [Function.update_of_ne (Party.other_ne q).symm] using hq, ?_⟩
    simp only [Function.update_self, Function.update_of_ne (Party.other_ne q)]
    exact hcatch.send hcodec hkem haead hsend
  | error e s' =>
    have hsame := failsClean_sendMessage plaintext now draws (c.state q) e s' trivial hsend
    subst hsame
    refine ⟨hq, ?_⟩
    simpa only [Function.update_eq_self] using hcatch

theorem Settled.step {c c' : Conversation P} (h : c.Settled) (hstep : c.PoliteStep c') :
    c'.Settled := by
  obtain ⟨a, hpolite, rfl⟩ := hstep
  cases a with
  | send sender plaintext now draws => exact h.send hcodec hkem haead hpolite plaintext now draws
  | deliver receiver now => exact h.deliver receiver now

theorem settled_of_reachable {c : Conversation P} (h : Reachable Opens PoliteStep c) : c.Settled :=
  h.invariant (fun _ hc => hc.settled) fun _ _ hc hstep => hc.step hcodec hkem haead hstep

/-- In a conversation in which no party sends while a message to it is in
flight, every message that is delivered decrypts to the plaintext that was
sent. -/
theorem polite_delivers {c : Conversation P} (h : Reachable Opens PoliteStep c) : c.Delivers :=
  (settled_of_reachable hcodec hkem haead h).delivers

end Laws

/-- Two ends of a session, before anything is sent. -/
def sampleOpening : Conversation symbolicRatchet where
  state
    | .initiator => sampleInitiator
    | .responder => sampleResponder
  inFlight _ := []

theorem opens_sampleOpening : sampleOpening.Opens :=
  ⟨Symbolic.word 7, Symbolic.word 2, (1 : Nat), 0, 0, rfl, rfl, fun _ => rfl⟩

/-- The initiator sends a message to the responder. -/
def sampleGreeting : Action symbolicRatchet := .send .initiator (ascii "hello") 1 (sampleDraws 11)

theorem polite_delivers_greeting : (sampleOpening.act sampleGreeting).Delivers :=
  polite_delivers Symbolic.publicKeyCodec Symbolic.idealKem correctAead_symbolicRatchet
    (.next (.start opens_sampleOpening) ⟨sampleGreeting, rfl, rfl⟩)

/-- After a first message, both parties send at the same time. -/
def sampleCrossing : Conversation symbolicRatchet :=
  (((sampleOpening.act sampleGreeting).act (.deliver .responder 2)).act
    (.send .initiator (ascii "ping") 3 (sampleDraws 12))).act
    (.send .responder (ascii "pong") 3 (sampleDraws 21))

/-- The oldest message in flight to a party is not authentic to it. -/
def Undeliverable (c : Conversation P) (p : Party) : Bool :=
  match c.inFlight p with
  | [] => false
  | flight :: _ =>
    failsWith (receiveMessage flight.message 4 (c.state p)) (.error .aeadAuthenticationFailed)

theorem Undeliverable.not_delivers {c : Conversation P} {p : Party} (h : c.Undeliverable p) :
    ¬ c.Delivers := by
  intro hdelivers
  unfold Undeliverable at h
  cases hp : c.inFlight p with
  | nil => simp [hp] at h
  | cons flight rest =>
    obtain ⟨s', hreceive⟩ := hdelivers p flight rest hp 4
    simp [hp, hreceive, failsWith] at h

/-- Neither message can be opened by the other party. -/
theorem crossing_messages_fail :
    Reachable Opens Step sampleCrossing ∧ (∀ p, sampleCrossing.Undeliverable p) ∧
      ¬ sampleCrossing.Delivers := by
  have hfail : ∀ p, sampleCrossing.Undeliverable p := by
    intro p
    cases p with
    | initiator => decide +kernel
    | responder => decide +kernel
  refine ⟨?_, hfail, Undeliverable.not_delivers (hfail .responder)⟩
  exact .next (.next (.next (.next (.start opens_sampleOpening) ⟨_, rfl⟩) ⟨_, rfl⟩) ⟨_, rfl⟩)
    ⟨_, rfl⟩

/-- In such a conversation, the two ends also agree whenever nothing is in
flight. -/
theorem polite_agrees {size : Nat} (hcodec : P.PublicKeyCodec size) (hkem : P.IdealKem)
    (haead : P.CorrectAead) {c : Conversation P} (h : Reachable Opens PoliteStep c) :
    c.Delivers ∧
      ((∀ p, c.inFlight p = []) → ∀ p, (c.state p).AgreesWith (c.state p.other)) := by
  have hsettled := settled_of_reachable hcodec hkem haead h
  refine ⟨hsettled.delivers, ?_⟩
  intro hempty q
  obtain ⟨p, _, hcatch⟩ := hsettled
  rw [hempty] at hcatch
  have hstep : KemRatchet.InStep (c.state p.other) (c.state p) := hcatch
  obtain rfl | rfl := p.eq_or_eq_other q
  · exact hstep.symm.agreesWith
  · rw [Party.other_other]
    exact hstep.agreesWith

theorem polite_agrees_greeting :
    let c := (sampleOpening.act sampleGreeting).act (.deliver .responder 2)
    c.Delivers ∧ ((∀ p, c.inFlight p = []) → ∀ p, (c.state p).AgreesWith (c.state p.other)) :=
  polite_agrees Symbolic.publicKeyCodec Symbolic.idealKem correctAead_symbolicRatchet
    (.next (.next (.start opens_sampleOpening) ⟨sampleGreeting, rfl, rfl⟩)
      ⟨.deliver .responder 2, trivial, rfl⟩)

end Conversation

end Trelis.Ratchet
