import Trelis.Ratchet.Conversation
import Trelis.Ratchet.WireFormat
import Trelis.Wasm.RatchetState

/-!
# The ratchet as JavaScript calls it

`ratchet_init_initiator`, `ratchet_init_responder`, `ratchet_send` and
`ratchet_receive` of the WASM crate.  JavaScript keeps the bytes of a state, and
each call loads them, works on the state, and returns the bytes of the new one.
A call that throws returns no state, so the old bytes stay.

Loading does not bring a state back as it was (`restored`): it derives a new root
key from the stored one and drops the old key pairs.  Both ends load once for
each message, so their root keys move in the same way.  In a conversation in which
no party sends while a message to it is in flight, no old key pair is ever needed,
and every message is delivered (`stored_polite_delivers`) to whoever can still
load its state.
-/

namespace Trelis.Wasm

open Ratchet

variable {W : RatchetWire}

/-! ## The calls -/

/-- `map_err` of an error of the Rust code. -/
def throwFailure : Failure → CallFailure
  | .error e => .thrown (.debug e)
  | .panic => .trap

/-- Runs an operation on a state. -/
def runOn {σ α : Type} (operation : EStateM Failure σ α) (s : σ) : Except CallFailure (α × σ) :=
  match operation s with
  | .ok a s' => .ok (a, s')
  | .error e _ => .error (throwFailure e)

/-- The session key of the arguments. -/
def readSessionKey (sessionKey : Bytes) : Except CallFailure Bytes32 :=
  if sessionKey.length ≠ 32 then .error (.thrown (.text "Session key must be 32 bytes"))
  else
    match FixedBytes.ofBytes? 32 sessionKey with
    | some key => .ok key
    | none => .error (.thrown (.text "Invalid session key"))

/-- The nonce of the arguments. -/
def readNonce (nonce : Bytes) : Except CallFailure (FixedBytes 24) :=
  match FixedBytes.ofBytes? 24 nonce with
  | some nonce => .ok nonce
  | none => .error (.thrown (.text "Nonce must be 24 bytes"))

/-- What the two `ratchet_init` calls return. -/
structure InitReply where
  state : Bytes
  ourPublicKey : Bytes

/-- What `ratchet_send` returns. -/
structure SendReply where
  state : Bytes
  header : Bytes
  nonce : Bytes
  ciphertext : Bytes

/-- What `ratchet_receive` returns. -/
structure ReceiveReply where
  state : Bytes
  plaintext : Bytes

/-- The reply to an `init` call. -/
def initReply (state : RatchetState W) : InitReply where
  state := serializeRatchetState state
  ourPublicKey := W.publicKeyToBytes (W.publicKey state.ourKeypair)

def ratchetInitInitiator (W : RatchetWire) (sessionKey theirPublicKey : Bytes) (currentTime : Nat)
    (coins : W.Coins) : Except CallFailure InitReply := do
  let sessionKey ← readSessionKey sessionKey
  let theirPk ← orThrow (W.publicKeyFromBytes theirPublicKey)
  let state ← orThrow (KemRatchet.initInitiator (P := W.toRatchetPrimitives) sessionKey theirPk
    currentTime coins)
  pure (initReply state)

def ratchetInitResponder (W : RatchetWire) (sessionKey ourKemSecret : Bytes) (currentTime : Nat) :
    Except CallFailure InitReply := do
  let sessionKey ← readSessionKey sessionKey
  let ourKeypair ← orThrow (W.keyPairFromBytes ourKemSecret)
  pure (initReply (W := W) (KemRatchet.initResponder sessionKey ourKeypair currentTime))

/-- The state of the arguments. -/
def loadState (W : RatchetWire) (state : Bytes) : Except CallFailure (RatchetState W) :=
  (deserializeRatchetState W state).mapError throwFailure

def ratchetSend (W : RatchetWire) (state plaintext : Bytes) (currentTime : Nat)
    (draws : SendDraws W.toRatchetPrimitives) : Except CallFailure SendReply := do
  let ratchet ← loadState W state
  let (result, ratchet) ← runOn (sendMessage plaintext currentTime draws) ratchet
  pure
    { state := serializeRatchetState ratchet
      header := result.message.header.toBytes
      nonce := result.message.nonce.val
      ciphertext := result.message.ciphertext }

def ratchetReceive (W : RatchetWire) (state header nonce ciphertext : Bytes) (currentTime : Nat) :
    Except CallFailure ReceiveReply := do
  let ratchet ← loadState W state
  let msgHeader ← orThrow (MessageHeader.fromBytes W.toRatchetPrimitives header)
  let nonceArr ← readNonce nonce
  let message : RatchetMessage W.toRatchetPrimitives :=
    { header := msgHeader, nonce := nonceArr, ciphertext }
  let (plaintext, ratchet) ← runOn (receiveMessage message currentTime) ratchet
  pure { state := serializeRatchetState ratchet, plaintext }

/-! ## What the calls do on stored states -/

@[simp] theorem runOn_eq_ok {σ α : Type} {operation : EStateM Failure σ α} {s s' : σ} {a : α} :
    runOn operation s = .ok (a, s') ↔ operation s = .ok a s' := by
  unfold runOn
  cases operation s <;> simp

@[simp] theorem readNonce_coe (nonce : FixedBytes 24) : readNonce nonce.val = .ok nonce := by
  rw [readNonce, FixedBytes.ofBytes?_coe]

theorem readSessionKey_eq_ok {sessionKey : Bytes} {key : Bytes32} :
    readSessionKey sessionKey = .ok key ↔ sessionKey = key.val := by
  rw [← FixedBytes.ofBytes?_eq_some, readSessionKey]
  split
  · next hlen =>
    simp only [reduceCtorEq, false_iff, FixedBytes.ofBytes?_eq_some]
    rintro rfl
    exact hlen key.property
  · cases FixedBytes.ofBytes? 32 sessionKey <;> simp

/-- The responder is opened from what it has stored. -/
theorem ratchetInitResponder_toBytes (hkp : W.KeyPairCodec) (sessionKey : Bytes32)
    (ourKeypair : W.KeyPair) (currentTime : Nat) :
    ratchetInitResponder W sessionKey.val (W.keyPairToBytes ourKeypair).val currentTime =
      .ok (initReply (W := W) (KemRatchet.initResponder sessionKey ourKeypair currentTime)) := by
  have hread : W.keyPairFromBytes (W.keyPairToBytes ourKeypair).val = .ok ourKeypair :=
    hkp.fromBytes_toBytes ourKeypair
  simp only [ratchetInitResponder, Except.bind_eq_ok, orThrow_eq_ok, Except.pure_eq_ok,
    readSessionKey_eq_ok]
  exact ⟨sessionKey, rfl, ourKeypair, hread, rfl⟩

/-- The initiator is opened from the public key of the responder. -/
theorem ratchetInitInitiator_toBytes (hpk : W.PublicKeyWire) {sessionKey : Bytes32}
    {theirPk : W.PublicKey} {currentTime : Nat} {coins : W.Coins} {s : RatchetState W}
    (h : KemRatchet.initInitiator sessionKey theirPk currentTime coins = .ok s) :
    ratchetInitInitiator W sessionKey.val (W.publicKeyToBytes theirPk) currentTime coins =
      .ok (initReply s) := by
  have hread : W.publicKeyFromBytes (W.publicKeyToBytes theirPk) = .ok theirPk :=
    hpk.fromBytes_toBytes theirPk
  simp only [ratchetInitInitiator, Except.bind_eq_ok, orThrow_eq_ok, Except.pure_eq_ok,
    readSessionKey_eq_ok]
  exact ⟨sessionKey, rfl, theirPk, hread, s, h, rfl⟩

/-- An encapsulation is read back from its encoding, which has the size of the
wire. -/
structure EncapsulationWire (W : WirePrimitives) : Prop where
  length_toBytes : ∀ c, (W.encapsulationToBytes c).length = hybridEncapSize
  fromBytes_toBytes : ∀ c, W.encapsulationFromBytes (W.encapsulationToBytes c) = .ok c

section Stored

variable (hkp : W.KeyPairCodec) (hpk : W.PublicKeyWire) {s s' t : RatchetState W}

theorem restored_wellFormed (h : s.WellFormed) : (restored s).WellFormed :=
  ⟨h.ourKeyId, h.theirKeyId, h.sendCount, h.recvCount, h.lastActivity⟩

include hkp hpk

theorem loadState_eq_ok (h : s.WellFormed) :
    loadState W (serializeRatchetState s) = .ok t ↔
      s.sendCount < sessionExhaustionThreshold ∧ restored s = t := by
  rw [loadState, Except.mapError_eq_ok, deserialize_serialize_eq_ok hkp hpk h]

theorem ratchetSend_eq_ok (h : s.WellFormed) {plaintext : Bytes} {now : Nat}
    {draws : SendDraws W.toRatchetPrimitives} {reply : SendReply} :
    ratchetSend W (serializeRatchetState s) plaintext now draws = .ok reply ↔
      s.sendCount < sessionExhaustionThreshold ∧
        ∃ result s', sendMessage plaintext now draws (restored s) = .ok result s' ∧
          ⟨serializeRatchetState s', result.message.header.toBytes, result.message.nonce.val,
            result.message.ciphertext⟩ = reply := by
  simp only [ratchetSend, Except.bind_eq_ok, loadState_eq_ok hkp hpk h, Except.pure_eq_ok]
  constructor
  · rintro ⟨_, ⟨hcount, rfl⟩, ⟨result, s'⟩, hsend, hreply⟩
    exact ⟨hcount, result, s', runOn_eq_ok.mp hsend, hreply⟩
  · rintro ⟨hcount, result, s', hsend, hreply⟩
    exact ⟨_, ⟨hcount, rfl⟩, (result, s'), runOn_eq_ok.mpr hsend, hreply⟩

theorem ratchetReceive_eq_ok (h : s.WellFormed) {m : RatchetMessage W.toRatchetPrimitives}
    (hfits : m.header.Fits) {now : Nat} {reply : ReceiveReply} :
    ratchetReceive W (serializeRatchetState s) m.header.toBytes m.nonce.val m.ciphertext now =
        .ok reply ↔
      s.sendCount < sessionExhaustionThreshold ∧
        ∃ plaintext s', receiveMessage m now (restored s) = .ok plaintext s' ∧
          ⟨serializeRatchetState s', plaintext⟩ = reply := by
  have hheader : MessageHeader.fromBytes W.toRatchetPrimitives m.header.toBytes = .ok m.header := by
    rw [MessageHeader.toBytes_eq]
    exact MessageHeader.fromBytes_bytesWith hfits _
  simp only [ratchetReceive, Except.bind_eq_ok, loadState_eq_ok hkp hpk h, orThrow_eq_ok, hheader,
    readNonce_coe, Except.ok.injEq, exists_eq_left', Except.pure_eq_ok]
  constructor
  · rintro ⟨_, ⟨hcount, rfl⟩, ⟨plaintext, s'⟩, hreceive, hreply⟩
    exact ⟨hcount, plaintext, s', runOn_eq_ok.mp hreceive, hreply⟩
  · rintro ⟨hcount, plaintext, s', hreceive, hreply⟩
    exact ⟨_, ⟨hcount, rfl⟩, (plaintext, s'), runOn_eq_ok.mpr hreceive, hreply⟩

omit hkp

/-- The header of a message that is sent fits the wire. -/
theorem sent_header_fits (henc : EncapsulationWire W.toWirePrimitives) (h : s.WellFormed)
    {plaintext : Bytes} {now : Nat} {draws : SendDraws W.toRatchetPrimitives}
    {result : SendResult W.toRatchetPrimitives}
    (hsend : sendMessage plaintext now draws s = .ok result s') :
    result.message.header.Fits := by
  obtain ⟨⟨_, hcount⟩, newKeypair, theirPk, theirKeyId, _,
    header, _, hpk', hid, hheader, _, rfl, _⟩ :=
    sendMessage_eq_ok hsend
  have hkeyId : theirKeyId < 2 ^ 64 := by
    have hderived := h.theirKeyId
    rw [hpk', hid, Option.map_some, Option.some.injEq] at hderived
    rw [hderived, deriveKeyId]
    exact (leValue_lt _).trans_eq (by simp)
  rw [hheader]
  exact
    { version := rfl
      cipherSuite := rfl
      recipientKeyId := hkeyId
      length_senderPublicKey := hpk.length_toBytes _
      senderPublicKey := hpk.fromBytes_toBytes _
      length_encapsulation := henc.length_toBytes _
      encapsulation := henc.fromBytes_toBytes _
      messageNumber := hcount.trans (by decide) }

end Stored

/-! ## Conversations over stored states -/

/-- A message in flight, in the parts that JavaScript hands on, with the plaintext
that was sent. -/
structure StoredFlight where
  header : Bytes
  nonce : Bytes
  ciphertext : Bytes
  plaintext : Bytes

/-- The stored states of the two ends, and the messages in flight to each. -/
structure StoredConversation where
  stored : Party → Bytes
  inFlight : Party → List StoredFlight

namespace StoredConversation

variable {c c' : StoredConversation} {p : Party}

/-- A send stores the new state, and puts its message behind those in flight. -/
def send (W : RatchetWire) (c : StoredConversation) (p : Party) (plaintext : Bytes)
    (currentTime : Nat) (draws : SendDraws W.toRatchetPrimitives) : StoredConversation :=
  match ratchetSend W (c.stored p) plaintext currentTime draws with
  | .ok reply =>
    { stored := Function.update c.stored p reply.state
      inFlight := Function.update c.inFlight p.other
        (c.inFlight p.other ++ [⟨reply.header, reply.nonce, reply.ciphertext, plaintext⟩]) }
  | .error _ => c

/-- The oldest message in flight is received, and the new state is stored. -/
def deliver (W : RatchetWire) (c : StoredConversation) (p : Party) (currentTime : Nat) :
    StoredConversation :=
  match c.inFlight p with
  | [] => c
  | flight :: rest =>
    match ratchetReceive W (c.stored p) flight.header flight.nonce flight.ciphertext
        currentTime with
    | .ok reply =>
      { stored := Function.update c.stored p reply.state
        inFlight := Function.update c.inFlight p rest }
    | .error _ => { c with inFlight := Function.update c.inFlight p rest }

/-- A new session: the initiator is given the public key that the responder
reports. -/
def Opens (W : RatchetWire) (c : StoredConversation) : Prop :=
  ∃ sessionKey ourKemSecret theirPublicKey ourPublicKey coins openedAt answeredAt,
    (openedAt < counterRange ∧ answeredAt < counterRange) ∧
      ratchetInitResponder W sessionKey ourKemSecret answeredAt =
        .ok ⟨c.stored .responder, theirPublicKey⟩ ∧
      ratchetInitInitiator W sessionKey theirPublicKey openedAt coins =
        .ok ⟨c.stored .initiator, ourPublicKey⟩ ∧
      ∀ p, c.inFlight p = []

/-- A send by a party to which nothing is in flight, or a delivery. -/
inductive PoliteStep (W : RatchetWire) : StoredConversation → StoredConversation → Prop
  | send {c p plaintext currentTime draws} (htime : currentTime < counterRange)
      (hpolite : c.inFlight p = []) : PoliteStep W c (c.send W p plaintext currentTime draws)
  | deliver {c p currentTime} (htime : currentTime < counterRange) :
      PoliteStep W c (c.deliver W p currentTime)

/-- Every message that is delivered next to a party that can load its state
decrypts to the plaintext that was sent. -/
def Delivers (W : RatchetWire) (c : StoredConversation) : Prop :=
  ∀ p flight rest, c.inFlight p = flight :: rest →
    (∃ ratchet, loadState W (c.stored p) = .ok ratchet) → ∀ currentTime, ∃ state,
      ratchetReceive W (c.stored p) flight.header flight.nonce flight.ciphertext currentTime =
        .ok ⟨state, flight.plaintext⟩

/-! ## Catching up -/

/-- The receiver opens the messages in order, each from the state that it has
stored, and is then in step with the sender. -/
def CatchesUp (r s : RatchetState W) : List (Flight W.toRatchetPrimitives) → Prop
  | [] => KemRatchet.InStep r s
  | flight :: rest => ∀ currentTime, ∃ r',
      receiveMessage flight.message currentTime (restored r) = .ok flight.plaintext r' ∧
        CatchesUp r' s rest

/-- Two ends that are in step load states that are in step. -/
theorem inStep_restored {r s : RatchetState W} (h : KemRatchet.InStep r s) :
    KemRatchet.InStep (restored r) (restored s) where
  rootKey := congrArg (deriveInitialRootKey W.toRatchetPrimitives) h.rootKey
  recv := h.recv
  sent := h.sent
  knows := h.knows
  known := h.known
  usable := h.usable
  owns := h.owns

/-- A send from a stored state adds a message to those that have to be caught up
with. -/
theorem CatchesUp.send {size : Nat} (hcodec : W.PublicKeyCodec size) (hkem : W.IdealKem)
    (haead : W.CorrectAead) {r s s' : RatchetState W} {plaintext : Bytes} {sentAt : Nat}
    {draws : SendDraws W.toRatchetPrimitives} {result : SendResult W.toRatchetPrimitives}
    (hsend : sendMessage plaintext sentAt draws (restored s) = .ok result s')
    {queue : List (Flight W.toRatchetPrimitives)} (h : CatchesUp r s queue) :
    CatchesUp r s' (queue ++ [⟨result.message, plaintext⟩]) := by
  induction queue generalizing r with
  | nil => exact (inStep_restored h).exchange hcodec hkem haead hsend
  | cons flight rest ih =>
    intro receivedAt
    obtain ⟨r', hreceive, hrest⟩ := h receivedAt
    exact ⟨r', hreceive, ih hrest⟩

/-! ## Whole conversations -/

/-- The parts of a message. -/
def parts (flight : Flight W.toRatchetPrimitives) : StoredFlight where
  header := flight.message.header.toBytes
  nonce := flight.message.nonce.val
  ciphertext := flight.message.ciphertext
  plaintext := flight.plaintext

/-- The states that are stored, and the messages in flight. -/
structure Holds (c : StoredConversation) (state : Party → RatchetState W)
    (flights : Party → List (Flight W.toRatchetPrimitives)) : Prop where
  stored : ∀ p, c.stored p = serializeRatchetState (state p)
  wellFormed : ∀ p, (state p).WellFormed
  inFlight : ∀ p, c.inFlight p = (flights p).map parts
  fits : ∀ p, ∀ flight ∈ flights p, flight.message.header.Fits

section Holds

variable {state : Party → RatchetState W} {flights : Party → List (Flight W.toRatchetPrimitives)}

theorem Holds.update_state (h : Holds c state flights) (p : Party) {s : RatchetState W}
    (hs : s.WellFormed) :
    Holds { c with stored := Function.update c.stored p (serializeRatchetState s) }
      (Function.update state p s) flights where
  stored q := by
    by_cases hq : q = p
    · subst hq
      simp
    · simpa [Function.update_of_ne hq] using h.stored q
  wellFormed q := by
    by_cases hq : q = p
    · subst hq
      simpa using hs
    · simpa [Function.update_of_ne hq] using h.wellFormed q
  inFlight := h.inFlight
  fits := h.fits

theorem Holds.update_flights (h : Holds c state flights) (p : Party)
    {queue : List (Flight W.toRatchetPrimitives)}
    (hqueue : ∀ flight ∈ queue, flight.message.header.Fits) :
    Holds { c with inFlight := Function.update c.inFlight p (queue.map parts) } state
      (Function.update flights p queue) where
  stored := h.stored
  wellFormed := h.wellFormed
  inFlight q := by
    by_cases hq : q = p
    · subst hq
      simp
    · simpa [Function.update_of_ne hq] using h.inFlight q
  fits q := by
    by_cases hq : q = p
    · subst hq
      simpa using hqueue
    · simpa [Function.update_of_ne hq] using h.fits q

end Holds

/-- One of the two has received everything, and the other one can catch up if it
can load its state. -/
def Settled (W : RatchetWire) (c : StoredConversation) : Prop :=
  ∃ (state : Party → RatchetState W) (flights : Party → List (Flight W.toRatchetPrimitives)),
    Holds c state flights ∧ ∃ p, flights p = [] ∧
      (sessionExhaustionThreshold ≤ (state p.other).sendCount ∨
        CatchesUp (state p.other) (state p) (flights p.other))

section Laws

variable (hkp : W.KeyPairCodec) (hpk : W.PublicKeyWire)

include hpk

theorem publicKeyCodec_of_wire : W.PublicKeyCodec 1214 where
  length_toBytes := hpk.length_toBytes
  fromBytes_toBytes kp := hpk.fromBytes_toBytes (W.publicKey kp)

theorem Opens.settled (h : c.Opens W) : c.Settled W := by
  obtain ⟨sessionKey, ourKemSecret, theirPublicKey, ourPublicKey, coins, openedAt, answeredAt,
    ⟨hopened, hanswered⟩, hresp, hinit, hempty⟩ := h
  simp only [ratchetInitResponder, Except.bind_eq_ok, orThrow_eq_ok, Except.pure_eq_ok,
    readSessionKey_eq_ok] at hresp
  obtain ⟨key, hkey, kp, _, hresp⟩ := hresp
  simp only [ratchetInitInitiator, Except.bind_eq_ok, orThrow_eq_ok, Except.pure_eq_ok,
    readSessionKey_eq_ok] at hinit
  obtain ⟨key', hkey', theirPk, hpk', initiator, hstart, hinit⟩ := hinit
  obtain rfl : key' = key := Subtype.ext (hkey'.symm.trans hkey)
  obtain ⟨hstoredR, htheir⟩ := InitReply.mk.inj hresp
  obtain ⟨hstoredI, _⟩ := InitReply.mk.inj hinit
  -- the initiator has the public key of the responder
  rw [← htheir] at hpk'
  have hsame : theirPk = W.publicKey kp :=
    (Except.ok.inj ((hpk.fromBytes_toBytes (W.publicKey kp)).symm.trans hpk')).symm
  subst hsame
  let responder : RatchetState W := KemRatchet.initResponder key' kp answeredAt
  have hstarts : KemRatchet.Starts initiator := .initiator hopened hstart
  refine ⟨Party.rec initiator responder, fun _ => [], ⟨?_, ?_, hempty, by simp⟩, .initiator, rfl,
    .inr ?_⟩
  · intro p
    cases p with
    | initiator => exact hstoredI.symm
    | responder => exact hstoredR.symm
  · intro p
    cases p with
    | initiator => exact .of_starts hstarts
    | responder => exact .of_starts (.responder hanswered)
  · simp only [KemRatchet.initInitiator, Except.bind_eq_ok, Except.pure_eq_ok] at hstart
    obtain ⟨ourKeypair, _, rfl⟩ := hstart
    exact
      { rootKey := rfl
        recv := rfl
        sent := rfl
        knows := .inl ⟨rfl, rfl⟩
        known := .inr ⟨rfl, rfl⟩
        usable := ⟨KemRatchet.usable_of_active rfl, KemRatchet.usable_of_active rfl⟩
        owns := ⟨rfl, rfl⟩ }

include hkp

theorem Settled.deliver (h : c.Settled W) {q : Party} {now : Nat} (htime : now < counterRange) :
    (c.deliver W q now).Settled W := by
  obtain ⟨state, flights, hholds, p, hp, hcatch⟩ := h
  have hqueue := hholds.inFlight q
  unfold StoredConversation.deliver
  cases hq : flights q with
  | nil =>
    rw [hq, List.map_nil] at hqueue
    simp only [hqueue]
    exact ⟨state, flights, hholds, p, hp, hcatch⟩
  | cons flight rest =>
    rw [hq, List.map_cons] at hqueue
    simp only [hqueue, hholds.stored q]
    obtain rfl : q = p.other := by
      obtain rfl | hother := p.eq_or_eq_other q
      · simp [hp] at hq
      · exact hother
    have hfits : ∀ f ∈ rest, f.message.header.Fits :=
      fun f hf => hholds.fits p.other f (by simp [hq, hf])
    have hmessage : flight.message.header.Fits := hholds.fits p.other flight (by simp [hq])
    have hkeep : Function.update flights p.other rest p = [] := by
      rw [Function.update_of_ne (Party.other_ne p).symm, hp]
    cases hreceive : ratchetReceive W (serializeRatchetState (state p.other))
        (parts flight).header (parts flight).nonce (parts flight).ciphertext now with
    | ok reply =>
      obtain ⟨hcount, plaintext, s', hs', rfl⟩ :=
        (ratchetReceive_eq_ok hkp hpk (hholds.wellFormed p.other) hmessage).mp hreceive
      rw [hq] at hcatch
      obtain ⟨r', hr', hrest⟩ := (hcatch.resolve_left (Nat.not_le.mpr hcount)) now
      rw [hs'] at hr'
      obtain ⟨rfl, rfl⟩ := EStateM.Result.ok.inj hr'
      have hs : s'.WellFormed :=
        (restored_wellFormed (hholds.wellFormed p.other)).moves (.received htime hs')
      refine ⟨_, _, (hholds.update_state p.other hs).update_flights p.other hfits,
        p, hkeep, .inr ?_⟩
      simpa [Function.update_of_ne (Party.other_ne p).symm] using hrest
    | error e =>
      refine ⟨_, _, hholds.update_flights p.other hfits, p, hkeep, .inl ?_⟩
      by_contra hcount
      rw [hq] at hcatch
      obtain ⟨r', hr', _⟩ := (hcatch.resolve_left hcount) now
      have hok := (ratchetReceive_eq_ok hkp hpk (hholds.wellFormed p.other) hmessage).mpr
        ⟨Nat.not_le.mp hcount, _, r', hr', rfl⟩
      exact absurd (hok.symm.trans hreceive) (by simp)

theorem Settled.delivers (h : c.Settled W) : c.Delivers W := by
  obtain ⟨state, flights, hholds, p, hp, hcatch⟩ := h
  intro q stored rest hq hload now
  obtain ⟨flight, tail, hsplit, rfl, _⟩ : ∃ flight tail, flights q = flight :: tail ∧
      parts flight = stored ∧ tail.map parts = rest := by
    rw [hholds.inFlight q] at hq
    exact List.map_eq_cons_iff.mp hq
  obtain rfl : q = p.other := by
    obtain rfl | hother := p.eq_or_eq_other q
    · simp [hp] at hsplit
    · exact hother
  have hfits : flight.message.header.Fits := hholds.fits p.other flight (by simp [hsplit])
  rw [hholds.stored] at hload ⊢
  obtain ⟨t, ht⟩ := hload
  have hcount := ((loadState_eq_ok hkp hpk (hholds.wellFormed p.other)).mp ht).1
  rw [hsplit] at hcatch
  obtain ⟨r', hr', _⟩ := (hcatch.resolve_left (Nat.not_le.mpr hcount)) now
  exact ⟨serializeRatchetState r', (ratchetReceive_eq_ok hkp hpk (hholds.wellFormed p.other)
    hfits).mpr ⟨hcount, _, r', hr', rfl⟩⟩

variable (henc : EncapsulationWire W.toWirePrimitives) (hkem : W.IdealKem) (haead : W.CorrectAead)

include henc hkem haead

/-- A party sends to which nothing is in flight. -/
theorem Settled.send (h : c.Settled W) {q : Party} (hq : c.inFlight q = []) {plaintext : Bytes}
    {now : Nat} (htime : now < counterRange) {draws : SendDraws W.toRatchetPrimitives} :
    (c.send W q plaintext now draws).Settled W := by
  obtain ⟨state, flights, hholds, hsettled⟩ := h
  have hq : flights q = [] := by
    rw [hholds.inFlight q] at hq
    exact List.map_eq_nil_iff.mp hq
  unfold StoredConversation.send
  rw [hholds.stored q]
  cases hsend : ratchetSend W (serializeRatchetState (state q)) plaintext now draws with
  | error e => exact ⟨state, flights, hholds, hsettled⟩
  | ok reply =>
    obtain ⟨hcount, result, s', hs', rfl⟩ :=
      (ratchetSend_eq_ok hkp hpk (hholds.wellFormed q)).mp hsend
    have hwell := restored_wellFormed (hholds.wellFormed q)
    have hfits := sent_header_fits hpk henc hwell hs'
    -- the sender is the party that has received everything, or both have
    have hcatch : sessionExhaustionThreshold ≤ (state q.other).sendCount ∨
        CatchesUp (state q.other) (state q) (flights q.other) := by
      obtain ⟨p, hp, hcatch⟩ := hsettled
      obtain rfl | rfl := p.eq_or_eq_other q
      · exact hcatch
      · rw [hq] at hcatch
        rw [Party.other_other, hp]
        exact .inr (KemRatchet.InStep.symm (hcatch.resolve_left (Nat.not_le.mpr hcount)))
    have hqueue : ∀ f ∈ flights q.other ++ [⟨result.message, plaintext⟩],
        f.message.header.Fits := by
      simp only [List.forall_mem_append, List.forall_mem_singleton]
      exact ⟨hholds.fits q.other, hfits⟩
    have hnew := (hholds.update_state q (hwell.moves (.sent htime hs'))).update_flights q.other
      hqueue
    rw [List.map_append, ← hholds.inFlight q.other] at hnew
    refine ⟨_, _, hnew, q, ?_, ?_⟩
    · rw [Function.update_of_ne (Party.other_ne q).symm, hq]
    · simp only [Function.update_self, Function.update_of_ne (Party.other_ne q)]
      exact hcatch.imp_right fun h => h.send (publicKeyCodec_of_wire hpk) hkem haead hs'

theorem Settled.step (h : c.Settled W) (hstep : PoliteStep W c c') : c'.Settled W := by
  cases hstep with
  | send htime hpolite => exact h.send hkp hpk henc hkem haead hpolite htime
  | deliver htime => exact h.deliver hkp hpk htime

/-- In a conversation over stored states in which no party sends while a message to
it is in flight, every message that is delivered to a party that can load its state
decrypts to the plaintext that was sent. -/
theorem stored_polite_delivers (h : Reachable (Opens W) (PoliteStep W) c) : c.Delivers W := by
  have hsettled : c.Settled W :=
    h.invariant (fun _ hc => hc.settled hpk) fun _ _ hc hstep =>
      hc.step hkp hpk henc hkem haead hstep
  exact hsettled.delivers hkp hpk

end Laws

section Sample

open Symbolic

/-- The primitives of `ratchetSample` with encapsulations of the size that the wire
has. -/
def framedSample : RatchetWire :=
  { ratchetSample with
    encapsulationToBytes := fun c => (padded 0 c.1).val ++ (padded 1031 c.2).val
    encapsulationFromBytes := readEncapsulation }

theorem framedSample_keyPairCodec : framedSample.KeyPairCodec where
  fromBytes_toBytes := readKeyPair_wireKeyPair
  toBytes_fromBytes h := readKeyPair_eq_ok h

theorem framedSample_publicKeyWire : framedSample.PublicKeyWire where
  length_toBytes pk := (padded 1182 pk).property
  fromBytes_toBytes pk := unpad_padded 1182 pk
  toBytes_fromBytes h := padded_unpad h

theorem framedSample_encapsulationWire : EncapsulationWire framedSample.toWirePrimitives where
  length_toBytes c := by
    show ((padded 0 c.1).val ++ (padded 1031 c.2).val).length = 1095
    rw [List.length_append, (padded 0 c.1).property, (padded 1031 c.2).property]
  fromBytes_toBytes _ := readEncapsulation_eq_ok.mpr rfl

theorem framedSample_idealKem : framedSample.IdealKem where
  decapsulate_match h := Symbolic.idealKem.decapsulate_match h
  decapsulate_other h := Symbolic.idealKem.decapsulate_other h

theorem framedSample_correctAead : framedSample.CorrectAead where
  decrypt_match := by
    intro k n pt aad ct h
    exact Symbolic.idealAead.decrypt_match (n := n) h

/-- The owner of the key pair number 2, who answers a session. -/
def framedResponder : RatchetState framedSample :=
  KemRatchet.initResponder (word 7) (word 2 : Bytes32) 0

/-- The other end of the session, with the key pair number 1. -/
def framedInitiator : RatchetState framedSample :=
  { KemRatchet.initResponder (word 7) (word 1 : Bytes32) 0 with
    theirPublicKey := some (framedSample.publicKey framedResponder.ourKeypair)
    theirKeyId := some (deriveKeyId framedSample.toRatchetPrimitives
      (framedSample.publicKey framedResponder.ourKeypair)) }

/-- Both as they are stored, before anything is sent. -/
def storedOpening : StoredConversation where
  stored
    | .initiator => (initReply framedInitiator).state
    | .responder => (initReply framedResponder).state
  inFlight _ := []

theorem opens_storedOpening : storedOpening.Opens framedSample := by
  have hstart : KemRatchet.initInitiator (P := framedSample.toRatchetPrimitives) (word 7)
      (framedSample.publicKey framedResponder.ourKeypair) 0 (1 : Nat) = .ok framedInitiator := rfl
  exact ⟨(word 7).val, _, _, _, (1 : Nat), 0, 0, ⟨by decide, by decide⟩,
    ratchetInitResponder_toBytes framedSample_keyPairCodec (word 7) framedResponder.ourKeypair 0,
    ratchetInitInitiator_toBytes framedSample_publicKeyWire hstart, fun _ => rfl⟩

theorem stored_polite_delivers_greeting :
    (storedOpening.send framedSample .initiator (ascii "hello") 1
      ⟨(11 : Nat), (111 : Nat), .ok (FixedBytes.zero 16)⟩).Delivers framedSample :=
  stored_polite_delivers framedSample_keyPairCodec framedSample_publicKeyWire
    framedSample_encapsulationWire framedSample_idealKem framedSample_correctAead
    (.next (.start opens_storedOpening) (.send (by decide) rfl))

end Sample

end StoredConversation

end Trelis.Wasm
