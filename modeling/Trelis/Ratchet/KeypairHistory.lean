import Trelis.Lib.Window
import Trelis.Ratchet.Atomicity
import Trelis.Ratchet.Run

/-!
# The key pairs that one end keeps

A send retires the key pair that was in use, and messages that were under way by
then are still addressed to it.  So the last few retired key pairs are kept.

`KeypairRun retired current s` follows a run with the key pairs that it has used:
`s` is reached by sends and receives that return, fail or panic, `current` is the
key pair that was generated last, and `retired` lists those before it.  What `s`
stores is then determined by the two (`KeepsLast`).
-/

namespace Trelis.Ratchet

variable {P : RatchetPrimitives}

/-! ## Calls that keep a property -/

section Leaves

variable {σ α β : Type} {I : σ → Prop} {s : σ}

/-- However a call ends, it leaves a state with the property. -/
def Leaves (I : σ → Prop) (call : EStateM Failure σ α) (s : σ) : Prop := I (stateAfter (call s))

theorem leaves_orFail_bind {x : Result α} {f : α → EStateM Failure σ β} (hs : I s)
    (h : ∀ a, Leaves I (f a) s) : Leaves I (orFail x >>= f) s := by
  cases x with
  | error e => exact hs
  | ok a => exact h a

theorem leaves_expect_bind {x : Option α} {f : α → EStateM Failure σ β} (hs : I s)
    (h : ∀ a, x = some a → Leaves I (f a) s) : Leaves I (expect x >>= f) s := by
  cases x with
  | none => exact hs
  | some a => exact h a rfl

end Leaves

/-! ## What is kept -/

/-- A key pair under the id of its public key. -/
def withKeyId (keypair : P.KeyPair) : KeyId × P.KeyPair :=
  (deriveKeyId P (P.publicKey keypair), keypair)

namespace KemRatchet

variable {retired : List P.KeyPair} {current : P.KeyPair} {s s' : KemRatchet P}

/-- The key pairs that a message may be addressed to. -/
def keypairs (s : KemRatchet P) : List (KeyId × P.KeyPair) :=
  (s.ourKeyId, s.ourKeypair) :: s.previousKeypairs

theorem findKeypair_eq_find? (s : KemRatchet P) (keyId : KeyId) :
    s.findKeypair keyId = (s.keypairs.find? (fun entry => entry.1 = keyId)).map (·.2) := by
  unfold findKeypair keypairs
  by_cases hid : keyId = s.ourKeyId
  · rw [if_pos hid, List.find?_cons_of_pos (by simpa using hid.symm)]
    rfl
  · rw [if_neg hid, List.find?_cons_of_neg (by simpa using Ne.symm hid)]

/-- Where the stored ids are distinct, a key pair is found by its own id only. -/
theorem findKeypair_eq_some (hdistinct : (s.keypairs.map (·.1)).Nodup) {keyId : KeyId}
    {keypair : P.KeyPair} :
    s.findKeypair keyId = some keypair ↔ (keyId, keypair) ∈ s.keypairs := by
  rw [findKeypair_eq_find?, Option.map_eq_some_iff]
  constructor
  · intro hex
    rcases hex with ⟨entry, hfound, hkeypair⟩
    obtain ⟨hmem, hid⟩ := (find?_key_eq_some hdistinct).mp hfound
    rwa [← hid, ← hkeypair]
  · intro hmem
    exact ⟨(keyId, keypair), (find?_key_eq_some hdistinct).mpr ⟨hmem, rfl⟩, rfl⟩

/-- The state stores the current key pair and the last retired ones, a key of the
peer with its id, and a counter within its bound. -/
structure KeepsLast (retired : List P.KeyPair) (current : P.KeyPair) (s : KemRatchet P) : Prop where
  ourKeypair : s.ourKeypair = current
  ourKeyId : s.ourKeyId = deriveKeyId P (P.publicKey current)
  previousKeypairs : s.previousKeypairs = (retired.map withKeyId).rtake maxPreviousKeypairs
  theirKeyId : s.theirKeyId = s.theirPublicKey.map (deriveKeyId P)
  sendCount : s.sendCount ≤ sessionExhaustionThreshold

namespace KeepsLast

/-! ## The setters -/

theorem setRootKey (h : s.KeepsLast retired current) (newRootKey : Bytes32) :
    (s.setRootKey newRootKey).KeepsLast retired current :=
  ⟨h.ourKeypair, h.ourKeyId, h.previousKeypairs, h.theirKeyId, h.sendCount⟩

theorem setTheirPublicKey (h : s.KeepsLast retired current) (publicKey : P.PublicKey) :
    (s.setTheirPublicKey publicKey).KeepsLast retired current :=
  ⟨h.ourKeypair, h.ourKeyId, h.previousKeypairs, rfl, h.sendCount⟩

theorem setRecvCount (h : s.KeepsLast retired current) {messageNumber : Nat}
    (hset : s.setRecvCount messageNumber = some s') : s'.KeepsLast retired current := by
  obtain ⟨_, rfl⟩ := setRecvCount_eq_some.mp hset
  exact ⟨h.ourKeypair, h.ourKeyId, h.previousKeypairs, h.theirKeyId, h.sendCount⟩

theorem setStatus (h : s.KeepsLast retired current) (status : RatchetStatus) :
    (s.setStatus status).KeepsLast retired current :=
  ⟨h.ourKeypair, h.ourKeyId, h.previousKeypairs, h.theirKeyId, h.sendCount⟩

theorem setLastActivity (h : s.KeepsLast retired current) (timestamp : Nat) :
    (s.setLastActivity timestamp).KeepsLast retired current :=
  ⟨h.ourKeypair, h.ourKeyId, h.previousKeypairs, h.theirKeyId, h.sendCount⟩

theorem incrementSendCount (h : s.KeepsLast retired current)
    (hcount : s.sendCount < sessionExhaustionThreshold) :
    s.incrementSendCount.KeepsLast retired current :=
  ⟨h.ourKeypair, h.ourKeyId, h.previousKeypairs, h.theirKeyId, hcount⟩

/-- The rotation pushes the key pair that was current into the window. -/
theorem rotateKeypair (h : s.KeepsLast retired current) (newKeypair : P.KeyPair) :
    (s.rotateKeypair newKeypair).KeepsLast (retired ++ [current]) newKeypair := by
  refine ⟨rfl, rfl, ?_, h.theirKeyId, h.sendCount⟩
  have hpushed : (s.rotateKeypair newKeypair).previousKeypairs =
      pushBounded maxPreviousKeypairs s.previousKeypairs (s.ourKeyId, s.ourKeypair) := rfl
  have hentry : (s.ourKeyId, s.ourKeypair) = withKeyId current := by
    rw [h.ourKeyId, h.ourKeypair]
    rfl
  rw [hpushed, hentry, h.previousKeypairs, pushBounded_rtake (by decide), List.map_append]
  rfl

/-! ## The calls -/

/-- A send that returns has retired the current key pair. -/
theorem sendMessage (h : s.KeepsLast retired current) {plaintext : Bytes} {currentTime : Nat}
    {draws : SendDraws P} {newKeypair : P.KeyPair} {result : SendResult P}
    (hnew : P.generate draws.keypair = .ok newKeypair)
    (hsend : sendMessage plaintext currentTime draws s = .ok result s') :
    s'.KeepsLast (retired ++ [current]) newKeypair := by
  obtain ⟨⟨_, hcount⟩, drawn, _, _, secret, _, hdrawn, _, _, _, _, _, _, rfl⟩ :=
    sendMessage_eq_ok hsend
  obtain rfl : newKeypair = drawn := Except.ok.inj (hnew.symm.trans hdrawn)
  have hrotated := (h.rotateKeypair newKeypair).setRootKey (kdfRk P s.rootKey secret).newRootKey
  exact ((hrotated.incrementSendCount hcount).setStatus .awaitingReply).setLastActivity currentTime

/-- A receive changes no key pair of this end, however it ends. -/
theorem receiveMessage (h : s.KeepsLast retired current) (message : RatchetMessage P)
    (currentTime : Nat) :
    Leaves (KeepsLast retired current) (receiveMessage message currentTime) s := by
  unfold Ratchet.receiveMessage
  show Leaves _ (orFail s.validateCanReceive >>= _) s
  refine leaves_orFail_bind h fun _ => ?_
  refine leaves_orFail_bind h fun _ => ?_
  refine leaves_orFail_bind h fun _ => ?_
  refine leaves_expect_bind h fun keypair _ => ?_
  refine leaves_orFail_bind h fun sharedSecret => ?_
  refine leaves_orFail_bind h fun plaintext => ?_
  -- The root key and the key of the peer are written before the counter is checked.
  have hroot := h.setRootKey (kdfRk P s.rootKey sharedSecret).newRootKey
  have hlearned : KeepsLast retired current
      (if s.senderKeyChanged message then
        (s.setRootKey (kdfRk P s.rootKey sharedSecret).newRootKey).setTheirPublicKey
          message.header.senderPublicKey
      else s.setRootKey (kdfRk P s.rootKey sharedSecret).newRootKey) := by
    by_cases hchanged : s.senderKeyChanged message
    · rw [if_pos hchanged]
      exact hroot.setTheirPublicKey message.header.senderPublicKey
    · rw [if_neg hchanged]
      exact hroot
  show Leaves _ (expect (KemRatchet.setRecvCount message.header.messageNumber _) >>= _) _
  refine leaves_expect_bind hlearned fun counted hset => ?_
  exact ((hlearned.setRecvCount hset).setStatus .active).setLastActivity currentTime

end KeepsLast

/-! ## Runs -/

/-- The states that sends and receives lead to, with the key pairs that were in
use before the current one, the oldest first. -/
inductive KeypairRun : List P.KeyPair → P.KeyPair → KemRatchet P → Prop
  | initiator {sessionKey theirPublicKey currentTime coins ourKeypair s}
      (hnew : P.generate coins = .ok ourKeypair)
      (h : initInitiator sessionKey theirPublicKey currentTime coins = .ok s) :
      KeypairRun [] ourKeypair s
  | responder {sessionKey ourKeypair currentTime} :
      KeypairRun [] ourKeypair (initResponder sessionKey ourKeypair currentTime)
  | sent {retired current s plaintext currentTime draws newKeypair result s'}
      (run : KeypairRun retired current s) (hnew : P.generate draws.keypair = .ok newKeypair)
      (h : sendMessage plaintext currentTime draws s = .ok result s') :
      KeypairRun (retired ++ [current]) newKeypair s'
  | sendFailed {retired current s plaintext currentTime draws e s'}
      (run : KeypairRun retired current s)
      (h : sendMessage plaintext currentTime draws s = .error e s') : KeypairRun retired current s'
  | received {retired current s message currentTime plaintext s'}
      (run : KeypairRun retired current s)
      (h : receiveMessage message currentTime s = .ok plaintext s') : KeypairRun retired current s'
  | receiveFailed {retired current s message currentTime e s'}
      (run : KeypairRun retired current s)
      (h : receiveMessage message currentTime s = .error e s') : KeypairRun retired current s'

theorem KeypairRun.keepsLast (h : KeypairRun retired current s) : s.KeepsLast retired current := by
  induction h with
  | initiator hnew h =>
    simp only [initInitiator, Except.bind_eq_ok, Except.pure_eq_ok] at h
    obtain ⟨drawn, hdrawn, rfl⟩ := h
    obtain rfl := Except.ok.inj (hnew.symm.trans hdrawn)
    exact ⟨rfl, rfl, rfl, rfl, Nat.zero_le _⟩
  | responder => exact ⟨rfl, rfl, rfl, rfl, Nat.zero_le _⟩
  | sent _ hnew h ih => exact ih.sendMessage hnew h
  | sendFailed _ h ih => rwa [(sendMessage_error h).2]
  | @received _ _ s message currentTime _ _ _ h ih =>
    have hleft : KeepsLast _ _ (stateAfter (receiveMessage message currentTime s)) :=
      ih.receiveMessage message currentTime
    rwa [h] at hleft
  | @receiveFailed _ _ s message currentTime _ _ _ h ih =>
    have hleft : KeepsLast _ _ (stateAfter (receiveMessage message currentTime s)) :=
      ih.receiveMessage message currentTime
    rwa [h] at hleft

/-- Every state that is reached without a panic has such a run. -/
theorem exists_keypairRun (h : Reachable Starts Moves s) :
    ∃ retired current, KeypairRun retired current s := by
  induction h with
  | start h =>
    cases h with
    | initiator _ h =>
      obtain ⟨ourKeypair, hnew, _⟩ := Except.bind_eq_ok.mp h
      exact ⟨[], ourKeypair, .initiator hnew h⟩
    | responder _ => exact ⟨[], _, .responder⟩
  | next _ hmove ih =>
    obtain ⟨retired, current, run⟩ := ih
    cases hmove with
    | sent _ h =>
      obtain ⟨_, newKeypair, _, _, _, _, hnew, _⟩ := sendMessage_eq_ok h
      exact ⟨retired ++ [current], newKeypair, run.sent hnew h⟩
    | sendFailed h _ => exact ⟨retired, current, run.sendFailed h⟩
    | received _ h => exact ⟨retired, current, run.received h⟩
    | receiveFailed h _ => exact ⟨retired, current, run.receiveFailed h⟩

/-- In every state of a run, the last retired key pairs are kept in order, each key
pair is found by its own id and by no other, the key of the peer is stored with its
id, and the send counter is within its bound. -/
theorem keypair_history (h : KeypairRun retired current s) :
    (s.ourKeypair = current ∧ s.previousKeypairs.length ≤ maxPreviousKeypairs ∧
      s.previousKeypairs = (retired.rtake maxPreviousKeypairs).map withKeyId) ∧
    ((s.keypairs.map (·.1)).Nodup → ∀ keyId keypair, s.findKeypair keyId = some keypair ↔
      (keypair = current ∨ keypair ∈ retired.rtake maxPreviousKeypairs) ∧
        keyId = deriveKeyId P (P.publicKey keypair)) ∧
    ((s.theirPublicKey.isSome ↔ s.theirKeyId.isSome) ∧
      ∀ publicKey, s.theirPublicKey = some publicKey →
        s.theirKeyId = some (deriveKeyId P publicKey)) ∧
    s.sendCount ≤ sessionExhaustionThreshold := by
  have hkeeps := h.keepsLast
  have hprevious : s.previousKeypairs = (retired.rtake maxPreviousKeypairs).map withKeyId := by
    rw [hkeeps.previousKeypairs, List.rtake, List.rtake, List.map_drop, List.length_map]
  refine ⟨⟨hkeeps.ourKeypair, ?_, hprevious⟩, ?_, ⟨?_, ?_⟩, hkeeps.sendCount⟩
  · rw [hprevious, List.length_map]
    exact length_rtake_le maxPreviousKeypairs retired
  · intro hdistinct keyId keypair
    have hcurrent : (s.ourKeyId, s.ourKeypair) = withKeyId current := by
      rw [hkeeps.ourKeyId, hkeeps.ourKeypair]
      rfl
    have hkeypairs :
        s.keypairs = (current :: retired.rtake maxPreviousKeypairs).map withKeyId := by
      unfold keypairs
      rw [hcurrent, hprevious, List.map_cons]
    rw [findKeypair_eq_some hdistinct, hkeypairs, List.mem_map]
    constructor
    · intro hex
      rcases hex with ⟨kept, hmem, hentry⟩
      obtain ⟨hid, rfl⟩ := Prod.mk.inj hentry
      exact ⟨List.mem_cons.mp hmem, hid.symm⟩
    · intro hboth
      rcases hboth with ⟨hmem, hid⟩
      exact ⟨keypair, List.mem_cons.mpr hmem, Prod.ext hid.symm rfl⟩
  · rw [hkeeps.theirKeyId, Option.isSome_map]
  · intro publicKey hknown
    rw [hkeeps.theirKeyId, hknown]
    rfl

section Sample

/-- The first send of the initiator of a new session. -/
def sampleFirstSend : EStateM.Result Failure (KemRatchet symbolicRatchet)
    (SendResult symbolicRatchet) :=
  Ratchet.sendMessage (ascii "hello") 1 (sampleDraws 11) sampleInitiator

/-- After it, the old key pair and the new one are found by their ids. -/
theorem keypair_history_first_send :
    (stateAfter sampleFirstSend).previousKeypairs.length = 1 ∧
      ∀ n ∈ [1, 11], (stateAfter sampleFirstSend).findKeypair
        (deriveKeyId symbolicRatchet (Symbolic.word n)) = some (Symbolic.word n) := by
  have hfirst : symbolicRatchet.generate (1 : Nat) = .ok (Symbolic.word 1) := rfl
  have hnew : symbolicRatchet.generate (sampleDraws 11).keypair = .ok (Symbolic.word 11) := rfl
  have hreturns : okAnd sampleFirstSend (fun _ _ => true) := by decide +kernel
  have hdistinct : ((stateAfter sampleFirstSend).keypairs.map (·.1)).Nodup := by decide +kernel
  obtain ⟨result, s', hsend, _⟩ := okAnd_eq_true.mp hreturns
  rw [hsend] at hdistinct ⊢
  have hopened : KeypairRun [] (Symbolic.word 1) sampleInitiator := .initiator hfirst rfl
  obtain ⟨⟨_, _, hprevious⟩, hfind, _⟩ := keypair_history (hopened.sent hnew hsend)
  refine ⟨congrArg List.length hprevious, ?_⟩
  intro n hn
  refine (hfind hdistinct _ _).mpr ⟨?_, rfl⟩
  obtain rfl | hn := List.mem_cons.mp hn
  · exact .inr (List.mem_singleton.mpr rfl)
  · rw [List.mem_singleton.mp hn]
    exact .inl rfl

end Sample

end KemRatchet

end Trelis.Ratchet
