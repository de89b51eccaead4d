import Trelis.Lib.Outcome
import Trelis.Primitives

/-!
# The state of the KEM ratchet

One end of a pairwise session (`state.rs` of the ratchet crate): a root key that
every message moves on, the current key pair and the last few before it, the
public key of the peer, and two counters.

A call can end in three ways.  It returns, it fails with a `CryptoError`, or it
panics, where an addition overflows or an `expect` finds nothing.  The last two
are a `Failure` here, and the state that stands behind it is the one that the
caller is left with.
-/

namespace Trelis.Ratchet

/-- The primitives, with the two that only the ratchet uses. -/
structure RatchetPrimitives extends Primitives where
  /-- `aead::encrypt`: key, nonce, plaintext, associated data. -/
  encrypt : Bytes32 → FixedBytes 24 → Bytes → Bytes → Result Bytes
  /-- `aead::decrypt`: key, nonce, ciphertext, associated data. -/
  decrypt : Bytes32 → FixedBytes 24 → Bytes → Bytes → Result Bytes
  /-- `blake3::Hasher::new` fed with the concatenation of its updates. -/
  hash : Bytes → Bytes32

/-- A ciphertext opens to its plaintext under its own key, nonce and associated
data. -/
structure RatchetPrimitives.CorrectAead (P : RatchetPrimitives) : Prop where
  decrypt_match : ∀ {k n pt aad ct}, P.encrypt k n pt aad = .ok ct → P.decrypt k n ct aad = .ok pt

/-! ## Calls that fail or panic -/

/-- How a call ends that does not return. -/
inductive Failure where
  | error (e : CryptoError)
  | panic
deriving DecidableEq

section Failure

variable {σ α : Type}

/-- The `?` of Rust. -/
def orFail (x : Result α) : EStateM Failure σ α := EStateM.lift (x.mapError .error)

/-- `expect`. -/
def expect (x : Option α) : EStateM Failure σ α :=
  match x with
  | some a => pure a
  | none => throw .panic

@[simp] theorem orFail_eq_ok {x : Result α} {s s' : σ} {a : α} :
    (orFail x : EStateM Failure σ α) s = .ok a s' ↔ x = .ok a ∧ s' = s := by
  cases x <;> simp [orFail, Except.mapError]

@[simp] theorem expect_eq_ok {x : Option α} {s s' : σ} {a : α} :
    (expect x : EStateM Failure σ α) s = .ok a s' ↔ x = some a ∧ s' = s := by
  cases x with
  | none =>
    show EStateM.Result.error Failure.panic s = .ok a s' ↔ _
    simp
  | some b => simp [expect]

theorem orFail_bind_eq_ok {β : Type} {x : Result α} {f : α → EStateM Failure σ β} {s s' : σ}
    {b : β} : (orFail x >>= f) s = .ok b s' ↔ ∃ a, x = .ok a ∧ f a s = .ok b s' := by
  rw [EStateM.bind_eq_ok]
  simp only [orFail_eq_ok, and_assoc, exists_and_left, exists_eq_left]

theorem expect_bind_eq_ok {β : Type} {x : Option α} {f : α → EStateM Failure σ β} {s s' : σ}
    {b : β} : (expect x >>= f) s = .ok b s' ↔ ∃ a, x = some a ∧ f a s = .ok b s' := by
  rw [EStateM.bind_eq_ok]
  simp only [expect_eq_ok, and_assoc, exists_and_left, exists_eq_left]

theorem failsClean_orFail_bind {β : Type} {E : Failure → Prop} {x : Result α} {s : σ}
    {f : α → EStateM Failure σ β} (h : ∀ a, FailsClean E (f a) s) :
    FailsClean E (orFail x >>= f) s :=
  FailsClean.lift_bind h

theorem failsClean_expect_bind {β : Type} {E : Failure → Prop} {x : Option α} {s : σ}
    {f : α → EStateM Failure σ β} (h : ∀ a, FailsClean E (f a) s) :
    FailsClean E (expect x >>= f) s := by
  cases x with
  | none =>
    intro e s' _ hrun
    cases hrun
    rfl
  | some a => exact h a

end Failure

/-! ## The state -/

/-- Old key pairs that are kept. -/
def maxPreviousKeypairs : Nat := 5

/-- The number of values of a `u64`. -/
def counterRange : Nat := 2 ^ 64

/-- `u64::MAX - 1_000_000`. -/
def sessionExhaustionThreshold : Nat := 2 ^ 64 - 1 - 1000000

def kdfInit : String := "trelis-ratchet-init-v1"

/-- An 8-byte fingerprint of a public key. -/
abbrev KeyId := Nat

inductive RatchetStatus where
  | uninitialised
  | active
  | awaitingReply
  | stale
  | compromised
deriving DecidableEq

/-- One end of a session. -/
structure KemRatchet (P : RatchetPrimitives) where
  ourKeypair : P.KeyPair
  ourKeyId : KeyId
  /-- The oldest comes first. -/
  previousKeypairs : List (KeyId × P.KeyPair)
  theirPublicKey : Option P.PublicKey
  theirKeyId : Option KeyId
  rootKey : Bytes32
  sendCount : Nat
  recvCount : Nat
  status : RatchetStatus
  lastActivity : Nat

variable {P : RatchetPrimitives}

/-- The first eight bytes of the hash of the key. -/
def deriveKeyId (P : RatchetPrimitives) (publicKey : P.PublicKey) : KeyId :=
  leValue ((P.hash (P.publicKeyToBytes publicKey)).val.take 8)

/-- The root key of a new session. -/
def deriveInitialRootKey (P : RatchetPrimitives) (sessionKey : Bytes32) : Bytes32 :=
  P.deriveKey kdfInit sessionKey.val

namespace KemRatchet

/-! ## Opening a session -/

/-- The end that knows the public key of the other from its bundle. -/
def initInitiator (sessionKey : Bytes32) (theirPublicKey : P.PublicKey) (currentTime : Nat)
    (coins : P.Coins) : Result (KemRatchet P) := do
  let ourKeypair ← P.generate coins
  pure
    { ourKeypair
      ourKeyId := deriveKeyId P (P.publicKey ourKeypair)
      previousKeypairs := []
      theirPublicKey := some theirPublicKey
      theirKeyId := some (deriveKeyId P theirPublicKey)
      rootKey := deriveInitialRootKey P sessionKey
      sendCount := 0
      recvCount := 0
      status := .active
      lastActivity := currentTime }

/-- The end that owns the key pair of the bundle, and learns the key of the
other from its first message. -/
def initResponder (sessionKey : Bytes32) (ourKeypair : P.KeyPair) (currentTime : Nat) :
    KemRatchet P where
  ourKeypair := ourKeypair
  ourKeyId := deriveKeyId P (P.publicKey ourKeypair)
  previousKeypairs := []
  theirPublicKey := none
  theirKeyId := none
  rootKey := deriveInitialRootKey P sessionKey
  sendCount := 0
  recvCount := 0
  status := .active
  lastActivity := currentTime

/-! ## Checks -/

/-- The counter is not near its end. -/
def checkExhaustion (s : KemRatchet P) : Result Unit :=
  rejectIf (sessionExhaustionThreshold ≤ s.sendCount)
    (.sessionExhausted s.sendCount sessionExhaustionThreshold)

/-- The session is open, and was not given up. -/
def validateCanReceive (s : KemRatchet P) : Result Unit :=
  match s.status with
  | .uninitialised => .error .noActiveSession
  | .compromised => .error .sessionCompromised
  | .active | .awaitingReply | .stale => .ok ()

def validateCanSend (s : KemRatchet P) : Result Unit :=
  match s.status with
  | .uninitialised => .error .noActiveSession
  | .compromised => .error .sessionCompromised
  | .active | .awaitingReply | .stale => do
    s.checkExhaustion
    rejectIf (s.theirPublicKey.isNone ∨ s.theirKeyId.isNone) .noRecipientKey

/-- The current key pair or an old one, by its key id. -/
def findKeypair (s : KemRatchet P) (keyId : KeyId) : Option P.KeyPair :=
  if keyId = s.ourKeyId then some s.ourKeypair
  else (s.previousKeypairs.find? (fun entry => entry.1 = keyId)).map (·.2)

/-! ## Updates -/

/-- Takes a new key pair into use, and keeps the old one in the place of the
oldest. -/
def rotateKeypair (newKeypair : P.KeyPair) (s : KemRatchet P) : KemRatchet P :=
  let kept :=
    if maxPreviousKeypairs ≤ s.previousKeypairs.length then s.previousKeypairs.tail
    else s.previousKeypairs
  { s with
    ourKeypair := newKeypair
    ourKeyId := deriveKeyId P (P.publicKey newKeypair)
    previousKeypairs := kept ++ [(s.ourKeyId, s.ourKeypair)] }

def setRootKey (newRootKey : Bytes32) (s : KemRatchet P) : KemRatchet P :=
  { s with rootKey := newRootKey }

/-- Below the exhaustion threshold the sum does not overflow. -/
def incrementSendCount (s : KemRatchet P) : KemRatchet P :=
  { s with sendCount := s.sendCount + 1 }

/-- The number of a received message, plus one.  No result where the sum
overflows. -/
def setRecvCount (messageNumber : Nat) (s : KemRatchet P) : Option (KemRatchet P) :=
  if messageNumber + 1 < counterRange then some { s with recvCount := messageNumber + 1 } else none

/-- Moves the send counter forward, when a state is restored. -/
def setSendCount (count : Nat) (s : KemRatchet P) : Result (KemRatchet P) := do
  rejectIf (count < s.sendCount) .messageCounterTooOld
  rejectIf (sessionExhaustionThreshold ≤ count)
    (.sessionExhausted count sessionExhaustionThreshold)
  pure { s with sendCount := count }

def setTheirPublicKey (publicKey : P.PublicKey) (s : KemRatchet P) : KemRatchet P :=
  { s with
    theirPublicKey := some publicKey
    theirKeyId := some (deriveKeyId P publicKey) }

def setStatus (status : RatchetStatus) (s : KemRatchet P) : KemRatchet P := { s with status }

def setLastActivity (timestamp : Nat) (s : KemRatchet P) : KemRatchet P :=
  { s with lastActivity := timestamp }

/-! ## What the checks let through -/

/-- A session in which messages can be received. -/
def Usable (s : KemRatchet P) : Prop := s.status ≠ .uninitialised ∧ s.status ≠ .compromised

theorem usable_of_active {s : KemRatchet P} (h : s.status = .active) : s.Usable := by
  simp [Usable, h]

theorem validateCanReceive_eq_ok {s : KemRatchet P} {u : Unit} :
    s.validateCanReceive = .ok u ↔ s.Usable := by
  unfold validateCanReceive Usable
  cases s.status <;> simp

theorem validateCanSend_eq_ok {s : KemRatchet P} {u : Unit} :
    s.validateCanSend = .ok u ↔
      s.Usable ∧ s.sendCount < sessionExhaustionThreshold ∧
        s.theirPublicKey.isSome ∧ s.theirKeyId.isSome := by
  unfold validateCanSend Usable checkExhaustion
  cases s.status <;> simp [Option.isSome_iff_ne_none]

theorem setRecvCount_eq_some {messageNumber : Nat} {s s' : KemRatchet P} :
    s.setRecvCount messageNumber = some s' ↔
      messageNumber + 1 < counterRange ∧ s' = { s with recvCount := messageNumber + 1 } := by
  unfold setRecvCount
  split <;> simp [*, eq_comm]

theorem setSendCount_eq_ok {count : Nat} {s s' : KemRatchet P} :
    s.setSendCount count = .ok s' ↔
      (s.sendCount ≤ count ∧ count < sessionExhaustionThreshold) ∧
        { s with sendCount := count } = s' := by
  simp only [setSendCount, Except.bind_eq_ok, rejectIf_eq_ok, Except.pure_eq_ok, Nat.not_lt,
    Nat.not_le]
  simp [and_assoc]

theorem findKeypair_ourKeyId (s : KemRatchet P) : s.findKeypair s.ourKeyId = some s.ourKeypair :=
  if_pos rfl

end KemRatchet

end Trelis.Ratchet
