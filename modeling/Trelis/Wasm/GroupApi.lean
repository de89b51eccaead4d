import Trelis.Cocoa.GroupMessages
import Trelis.Wasm.SessionState
import Trelis.Wasm.Transport

/-!
# Groups as JavaScript drives them

The `cocoa_` calls of the WASM crate.  JavaScript keeps the bytes of a session, and each
call loads them, works on the session, and returns the bytes of the new one.  A call that
throws returns no session, so the old bytes stay.

A session that was loaded has no nodes and knows itself only, and it stays so while no
commit is made or processed (`Live`): its bytes are then loaded as exactly this session.
The specifications of the calls on messages are stated over such sessions.

Commits travel without their paths; `Wasm/GroupCommits.lean` is about the calls that make
and process them.
-/

namespace Trelis.Wasm

open Cocoa

/-- The primitives, with the AEAD of messages and the keys that the calls read. -/
structure GroupWire extends WirePrimitives where
  /-- `aead::encrypt`. -/
  aeadEncrypt : MessageCipher
  /-- `aead::decrypt`. -/
  aeadDecrypt : MessageCipher
  /-- `HybridIdentityKeypair::from_bytes`. -/
  identityFromBytes : Bytes → Result IdentityKeyPair
  /-- `HybridIdentityPublicKey::from_bytes`. -/
  identityPublicFromBytes : Bytes → Result IdentityPublicKey
  /-- The KEM key of an identity, which `HybridPreKeyBundle::new` takes over. -/
  identityKem : IdentityPublicKey → PublicKey
  /-- `HybridOneTimeKey::from_bytes`: the KEM key behind the key id. -/
  oneTimeKeyFromBytes : Bytes → Result PublicKey

variable (W : GroupWire)

/-! ## Founding and joining -/

/-- Rejects an argument that does not have 32 bytes. -/
def readArray32 (bytes : Bytes) (message : String) : Except CallFailure Bytes32 :=
  match FixedBytes.ofBytes? 32 bytes with
  | some a => .ok a
  | none => .error (.thrown (.text message))

/-- The session of the arguments. -/
def loadSession (session : Bytes) : Except CallFailure (CocoaSession W.toPrimitives) :=
  orThrow (deserializeCocoaSession W.toWirePrimitives session)

/-- Runs an operation on a session. -/
def runSession {α : Type} (operation : SessionM W.toPrimitives α)
    (s : CocoaSession W.toPrimitives) : Except CallFailure (α × CocoaSession W.toPrimitives) :=
  match operation s with
  | .ok a s' => .ok (a, s')
  | .error e _ => .error (.thrown (.debug e))

/-- What `cocoa_create_group` returns.  Of a welcome it returns the group, the epoch
and the leaf. -/
structure CreateGroupReply where
  session : Bytes
  groupId : Bytes
  epoch : JsNumber
  memberCount : JsNumber
  welcomes : List (Bytes × JsNumber × JsNumber)

def cocoaCreateGroup (creatorIdentitySecret creatorKemSecret creatorUserId : Bytes)
    (draws : CreateGroupDraws W.toPrimitives) : Except CallFailure CreateGroupReply := do
  let userId ← readArray32 creatorUserId "User ID must be 32 bytes"
  let identity ← orThrow (W.identityFromBytes creatorIdentitySecret)
  let kem ← orThrow (W.keyPairFromBytes creatorKemSecret)
  let (session, welcomes) ← orThrow (createGroup identity kem userId [] draws)
  pure
    { session := serializeCocoaSession session
      groupId := session.groupId.val
      epoch := asF64 session.epochNumber
      memberCount := asF64 session.memberCount
      welcomes := welcomes.map fun w => (w.groupId.val, asF64 w.epoch, asF64 w.leafPosition) }

/-- `cocoa_process_welcome`, for a `usize` of `bits` bits. -/
def cocoaProcessWelcome (bits : Nat) (ourUserId ourKemSecret welcomeBytes
    committerIdentityPublic : Bytes) : Except CallFailure Bytes := do
  let userId ← readArray32 ourUserId "User ID must be 32 bytes"
  let ourKem ← orThrow (W.keyPairFromBytes ourKemSecret)
  let committer ← orThrow (W.identityPublicFromBytes committerIdentityPublic)
  let welcome ← (deserializeWelcome W.toWirePrimitives bits welcomeBytes).mapError .thrown
  let session ← orThrow (processWelcome userId ourKem welcome committer)
  pure (serializeCocoaSession session)

/-! ## Messages and epochs -/

/-- What `cocoa_encrypt` returns. -/
structure EncryptReply where
  session : Bytes
  encryptedMessage : Bytes

def cocoaEncrypt (session plaintext : Bytes) : Except CallFailure EncryptReply := do
  let cocoaSession ← loadSession W session
  match cocoaSession.encrypt W.aeadEncrypt plaintext with
  | none => .error .trap
  | some (.error e _) => .error (.thrown (.debug e))
  | some (.ok encrypted cocoaSession) =>
    .ok ⟨serializeCocoaSession cocoaSession, encrypted.toBytes⟩

def cocoaDecrypt (session encryptedMessage : Bytes) : Except CallFailure Bytes := do
  let cocoaSession ← loadSession W session
  let message ← orThrow (EncryptedMessage.fromBytes encryptedMessage)
  orThrow (cocoaSession.decrypt W.aeadDecrypt message)

/-- What the calls return that move a session on. -/
structure SessionReply where
  session : Bytes
  epoch : JsNumber

/-- `cocoa_advance_epoch`.  `Epoch::advance` panics behind the last epoch number. -/
def cocoaAdvanceEpoch (session deltaRoot transcriptHash : Bytes) :
    Except CallFailure SessionReply := do
  let delta ← readArray32 deltaRoot "Delta root must be 32 bytes"
  let transcript ← readArray32 transcriptHash "Transcript hash must be 32 bytes"
  let cocoaSession ← loadSession W session
  if cocoaSession.epochNumber + 1 < 2 ^ 64 then
    let cocoaSession := cocoaSession.advanceEpoch delta transcript
    .ok ⟨serializeCocoaSession cocoaSession, asF64 cocoaSession.epochNumber⟩
  else .error .trap

/-- What `cocoa_rotate_keypair` returns. -/
structure RotateReply where
  session : Bytes
  publicKey : Bytes

def cocoaRotateKeypair (session : Bytes) (coins : W.Coins) : Except CallFailure RotateReply := do
  let cocoaSession ← loadSession W session
  let cocoaSession ← orThrow (cocoaSession.rotateKeypair coins)
  pure ⟨serializeCocoaSession cocoaSession,
    W.publicKeyToBytes (W.publicKey cocoaSession.ourKeypair)⟩

/-! ## Restoring -/

/-- `SessionWatermark::to_bytes`. -/
def watermarkToBytes (w : SessionWatermark) : Bytes :=
  leBytes 8 w.epochNumber ++ leBytes 8 w.messageCounter

/-- What `cocoa_deserialize_checked` returns. -/
structure RestoreReply where
  session : Bytes
  watermark : Bytes
  groupId : Bytes
  userId : Bytes

def cocoaDeserializeChecked (session watermark expectedGroupId expectedUserId : Bytes) :
    Except CallFailure RestoreReply := do
  let (restored, advanced) ← orThrow (deserializeCocoaSessionChecked W.toWirePrimitives session
    watermark expectedGroupId expectedUserId)
  pure
    { session := serializeCocoaSession restored
      watermark := watermarkToBytes advanced
      groupId := restored.groupId.val
      userId := restored.ourUserId.val }

def cocoaSessionWatermark (session : Bytes) : Except CallFailure Bytes := do
  let p ← orThrow (parseCocoaSessionV2 W.toWirePrimitives session)
  pure (watermarkToBytes ⟨p.epochNumber, p.messageCounter⟩)

/-! ## Commits -/

/-- What `cocoa_add_member` returns. -/
structure AddReply where
  session : Bytes
  commit : Bytes
  welcome : Bytes

def cocoaAddMember (session identitySecret newMemberId newMemberIdentityPublic newMemberOtk : Bytes)
    (draws : Draws W.toPrimitives) : Except CallFailure AddReply := do
  let memberId ← readArray32 newMemberId "Member ID must be 32 bytes"
  let cocoaSession ← loadSession W session
  let identity ← orThrow (W.identityFromBytes identitySecret)
  let identityPk ← orThrow (W.identityPublicFromBytes newMemberIdentityPublic)
  let otk ← orThrow (W.oneTimeKeyFromBytes newMemberOtk)
  let ((commit, welcome), cocoaSession) ← runSession W
    (addMember identity ⟨W.identityKem identityPk, otk⟩ memberId draws) cocoaSession
  pure ⟨serializeCocoaSession cocoaSession, serializeAddCommit commit, serializeWelcome welcome⟩

/-- What `cocoa_create_update` and `cocoa_remove_member` return. -/
structure CommitReply where
  session : Bytes
  commit : Bytes
  epoch : JsNumber

def cocoaCreateUpdate (session identitySecret : Bytes) (draws : Draws W.toPrimitives) :
    Except CallFailure CommitReply := do
  let cocoaSession ← loadSession W session
  let identity ← orThrow (W.identityFromBytes identitySecret)
  let (commit, cocoaSession) ← runSession W (createUpdate identity draws) cocoaSession
  pure ⟨serializeCocoaSession cocoaSession, serializeUpdateCommit commit,
    asF64 cocoaSession.epochNumber⟩

def cocoaRemoveMember (session identitySecret removedMemberId : Bytes) (removedPosition : UInt32)
    (draws : Draws W.toPrimitives) : Except CallFailure CommitReply := do
  let memberId ← readArray32 removedMemberId "Member ID must be 32 bytes"
  let cocoaSession ← loadSession W session
  let identity ← orThrow (W.identityFromBytes identitySecret)
  let (commit, cocoaSession) ← runSession W (removeMember identity memberId
    removedPosition.toNat draws) cocoaSession
  pure ⟨serializeCocoaSession cocoaSession, serializeRemoveCommit commit,
    asF64 cocoaSession.epochNumber⟩

/-- The three calls that process a commit. -/
def processCall (kind : CommitType) (session commitBytes identityPublic : Bytes) :
    Except CallFailure SessionReply := do
  let cocoaSession ← loadSession W session
  let commit ← (deserializeCommit W.toWirePrimitives kind commitBytes).mapError .thrown
  let identity ← orThrow (W.identityPublicFromBytes identityPublic)
  let ((), cocoaSession) ← runSession W (commit.process identity) cocoaSession
  pure ⟨serializeCocoaSession cocoaSession, asF64 cocoaSession.epochNumber⟩

def cocoaProcessAdd : Bytes → Bytes → Bytes → Except CallFailure SessionReply :=
  processCall W .add

def cocoaProcessUpdate : Bytes → Bytes → Bytes → Except CallFailure SessionReply :=
  processCall W .update

def cocoaProcessRemove : Bytes → Bytes → Bytes → Except CallFailure SessionReply :=
  processCall W .remove

variable {W}

/-! ## Sessions that were loaded -/

@[simp] theorem loadSession_eq_ok {session : Bytes} {s : CocoaSession W.toPrimitives} :
    loadSession W session = .ok s ↔
      deserializeCocoaSession W.toWirePrimitives session = .ok s := orThrow_eq_ok

@[simp] theorem readArray32_eq_ok {bytes : Bytes} {message : String} {a : Bytes32} :
    readArray32 bytes message = .ok a ↔ bytes = a.val := by
  rw [← FixedBytes.ofBytes?_eq_some]
  unfold readArray32
  cases FixedBytes.ofBytes? 32 bytes <;> simp

@[simp] theorem runSession_eq_ok {α : Type} {operation : SessionM W.toPrimitives α}
    {s : CocoaSession W.toPrimitives} {r : α × CocoaSession W.toPrimitives} :
    runSession W operation s = .ok r ↔ operation s = .ok r.1 r.2 := by
  unfold runSession
  cases operation s with
  | error e s' => simp
  | ok a s' =>
    simp only [Except.ok.injEq, EStateM.Result.ok.injEq]
    exact Prod.ext_iff

/-- A session as it comes out of a store. -/
structure Live (s : CocoaSession W.toPrimitives) : Prop where
  inWords : SessionInWords (W := W.toWirePrimitives) s
  storable : Storable s
  reloaded_eq : s.reloaded = s

/-- The numbers that are read fit the words that they are read from. -/
theorem parse_inWords {bytes : Bytes} {p : Snapshot W.toPrimitives}
    (h : parseCocoaSessionV2 W.toWirePrimitives bytes = .ok p) :
    p.epochNumber < 2 ^ 64 ∧ p.ourPosition < 2 ^ 32 ∧ p.memberCount < 2 ^ 32 ∧
      p.treeDepth < 2 ^ 32 ∧ p.messageCounter < 2 ^ 64 := by
  have hword4 : ∀ start (h : start + 4 ≤ bytes.length), wordAt 4 bytes start h < 2 ^ 32 :=
    fun _ h => (wordAt_lt h).trans_eq (by decide)
  have hword8 : ∀ start (h : start + 8 ≤ bytes.length), wordAt 8 bytes start h < 2 ^ 64 :=
    fun _ h => (wordAt_lt h).trans_eq (by decide)
  unfold parseCocoaSessionV2 at h
  split at h
  · cases h
  · simp only [Except.bind_eq_ok, Except.pure_eq_ok] at h
    obtain ⟨keypair, _, rfl⟩ := h
    refine ⟨hword8 64 (by omega), hword4 72 (by omega), hword4 76 (by omega),
      hword4 80 (by omega), ?_⟩
    dsimp only
    split
    · exact hword8 148 (by omega)
    · exact Nat.two_pow_pos 64

theorem Live.of_load {session : Bytes} {s : CocoaSession W.toPrimitives}
    (h : deserializeCocoaSession W.toWirePrimitives session = .ok s) : Live s := by
  simp only [deserializeCocoaSession, Except.bind_eq_ok, setMessageCounter_eq_ok] at h
  obtain ⟨p, hparse, _, rfl⟩ := h
  obtain ⟨hepoch, hleaf, hcount, hdepth, hcounter⟩ := parse_inWords hparse
  exact ⟨⟨hepoch, hleaf, hcount, hdepth, hcounter⟩, ⟨rfl, rfl⟩, rfl⟩

section Live

variable {s : CocoaSession W.toPrimitives} {session : Bytes}

theorem Live.load (hkp : W.KeyPairCodec) (h : Live s) :
    deserializeCocoaSession W.toWirePrimitives (serializeCocoaSession s) = .ok s := by
  rw [deserialize_serializeCocoaSession hkp h.inWords h.storable, h.reloaded_eq]

/-- A change to the epoch and to the key pair. -/
theorem Live.moved (h : Live s) (epoch : Epoch W.toPrimitives) (keypair : W.KeyPair)
    (hnumber : epoch.number < 2 ^ 64) (hcounter : epoch.messageCounter < 2 ^ 64) :
    Live { s with epoch, ourKeypair := keypair, transcriptHash := epoch.transcriptHash } := by
  obtain ⟨hwords, hstorable, hreloaded⟩ := h
  refine ⟨⟨hnumber, hwords.ourLeafPosition_lt, hwords.memberCount_lt, hwords.treeDepth_lt,
      hcounter⟩, ⟨hstorable.ourLeaf_eq, rfl⟩, ?_⟩
  exact congrArg (fun t : CocoaSession W.toPrimitives =>
    { t with epoch, ourKeypair := keypair, transcriptHash := epoch.transcriptHash }) hreloaded

theorem Live.counted (h : Live s) (hcounter : s.epoch.messageCounter + 1 < counterRange) :
    Live s.counted := by
  have hnext := h.moved s.counted.epoch s.ourKeypair h.inWords.epochNumber_lt hcounter
  rwa [show s.counted.epoch.transcriptHash = s.transcriptHash from h.storable.transcriptHash_eq]
    at hnext

theorem Live.advanceEpoch (h : Live s) (hepoch : s.epochNumber + 1 < 2 ^ 64)
    (delta transcript : Bytes32) : Live (s.advanceEpoch delta transcript) :=
  h.moved (s.advanceEpoch delta transcript).epoch s.ourKeypair hepoch (Nat.two_pow_pos 64)

theorem Live.rotated (h : Live s) (keypair : W.KeyPair) :
    Live { s with ourKeypair := keypair } := by
  have hnext := h.moved s.epoch keypair h.inWords.epochNumber_lt h.inWords.messageCounter_lt
  rwa [h.storable.transcriptHash_eq] at hnext

/-! ## The calls on messages -/

theorem cocoaEncrypt_eq_ok (hload : deserializeCocoaSession W.toWirePrimitives session = .ok s)
    {plaintext : Bytes} {reply : EncryptReply} :
    cocoaEncrypt W session plaintext = .ok reply ↔
      ∃ m, s.encrypt W.aeadEncrypt plaintext = some (.ok m s.counted) ∧
        reply = ⟨serializeCocoaSession s.counted, m.toBytes⟩ := by
  simp only [cocoaEncrypt, Except.bind_eq_ok, loadSession_eq_ok]
  constructor
  · intro h
    obtain ⟨t, ht, h⟩ := h
    obtain rfl := Except.ok.inj (hload.symm.trans ht)
    split at h
    · cases h
    · cases h
    · next m s' hencrypt =>
      obtain ⟨_, _, _, rfl⟩ := encrypt_ok hencrypt
      exact ⟨m, hencrypt, (Except.ok.inj h).symm⟩
  · intro h
    obtain ⟨m, hencrypt, rfl⟩ := h
    refine ⟨s, hload, ?_⟩
    rw [hencrypt]

theorem cocoaDecrypt_eq_ok (hload : deserializeCocoaSession W.toWirePrimitives session = .ok s)
    {message plaintext : Bytes} :
    cocoaDecrypt W session message = .ok plaintext ↔
      ∃ m, EncryptedMessage.fromBytes message = .ok m ∧
        s.decrypt W.aeadDecrypt m = .ok plaintext := by
  simp only [cocoaDecrypt, Except.bind_eq_ok, loadSession_eq_ok, orThrow_eq_ok, hload,
    Except.ok.injEq, exists_eq_left']

theorem cocoaAdvanceEpoch_eq_ok
    (hload : deserializeCocoaSession W.toWirePrimitives session = .ok s)
    {delta transcript : Bytes32} {reply : SessionReply} :
    cocoaAdvanceEpoch W session delta.val transcript.val = .ok reply ↔
      s.epochNumber + 1 < 2 ^ 64 ∧
        reply = ⟨serializeCocoaSession (s.advanceEpoch delta transcript),
          asF64 (s.epochNumber + 1)⟩ := by
  simp only [cocoaAdvanceEpoch, readArray32, FixedBytes.ofBytes?_coe, Except.bind_eq_ok,
    loadSession_eq_ok, hload, Except.ok.injEq, exists_eq_left']
  split
  · next hlt =>
    rw [Except.ok.injEq, and_iff_right hlt]
    exact eq_comm
  · next hlt => exact iff_of_false (fun h => by cases h) fun h => hlt h.1

theorem cocoaRotateKeypair_ok (hload : deserializeCocoaSession W.toWirePrimitives session = .ok s)
    {coins : W.Coins} {reply : RotateReply} (h : cocoaRotateKeypair W session coins = .ok reply) :
    ∃ keypair, reply.session = serializeCocoaSession { s with ourKeypair := keypair } := by
  simp only [cocoaRotateKeypair, CocoaSession.rotateKeypair, Except.bind_eq_ok, loadSession_eq_ok,
    orThrow_eq_ok, Except.pure_eq_ok, hload, Except.ok.injEq, exists_eq_left'] at h
  obtain ⟨_, ⟨keypair, _, rfl⟩, rfl⟩ := h
  exact ⟨keypair, rfl⟩

/-! ## The calls on watermarks -/

theorem cocoaSessionWatermark_of_load
    (hload : deserializeCocoaSession W.toWirePrimitives session = .ok s) :
    cocoaSessionWatermark W session = .ok (watermarkToBytes (.ofSession s)) := by
  simp only [deserializeCocoaSession, Except.bind_eq_ok, setMessageCounter_eq_ok] at hload
  obtain ⟨p, hparse, _, rfl⟩ := hload
  simp only [cocoaSessionWatermark, hparse, Except.bind_eq_ok, orThrow_eq_ok, Except.pure_eq_ok]
  exact ⟨p, rfl, rfl⟩

theorem watermarkFromBytes_toBytes {w : SessionWatermark} (hepoch : w.epochNumber < 2 ^ 64)
    (hcounter : w.messageCounter < 2 ^ 64) :
    watermarkFromBytes (watermarkToBytes w) = .ok w := by
  have hbytes : watermarkToBytes w =
      [leBytes 8 w.epochNumber, leBytes 8 w.messageCounter].flatten := by
    simp [watermarkToBytes]
  have hlen : ¬ (watermarkToBytes w).length < 16 := by simp [watermarkToBytes]
  rw [watermarkFromBytes, dif_neg hlen]
  show Except.ok (SessionWatermark.mk _ _) = _
  rw [Except.ok.injEq, SessionWatermark.mk.injEq]
  simp only [hbytes]
  exact ⟨wordAt_flatten (i := 0) rfl rfl (lt_word8 hepoch) _,
    wordAt_flatten (i := 1) rfl (by simp) (lt_word8 hcounter) _⟩

/-- A store is restored exactly where it has the identity that is expected, and is not below
the watermark.  Its position is the watermark then. -/
theorem cocoaDeserializeChecked_eq_ok
    (hload : deserializeCocoaSession W.toWirePrimitives session = .ok s) {watermark : Bytes}
    {w : SessionWatermark} (hmark : watermarkFromBytes watermark = .ok w) {groupId userId : Bytes}
    {reply : RestoreReply} :
    cocoaDeserializeChecked W session watermark groupId userId = .ok reply ↔
      s.groupId.val = groupId ∧ s.ourUserId.val = userId ∧ w.position ≤ s.position ∧
        reply = ⟨serializeCocoaSession s, watermarkToBytes (.ofSession s), groupId, userId⟩ := by
  simp only [deserializeCocoaSession, Except.bind_eq_ok] at hload
  obtain ⟨p, hparse, hset⟩ := hload
  obtain ⟨_, rfl⟩ := setMessageCounter_eq_ok.mp hset
  have hadvanced (h : w.position ≤ p.position) :
      w.advanced p.epochNumber p.messageCounter = ⟨p.epochNumber, p.messageCounter⟩ := if_pos h
  simp only [cocoaDeserializeChecked, deserializeCocoaSessionChecked, hparse, hmark,
    Snapshot.restoreSessionChecked, SessionWatermark.check, hset, Except.bind_eq_ok, orThrow_eq_ok,
    rejectIf_eq_ok, not_or, not_not, not_lt, Except.ok.injEq, exists_eq_left', Except.pure_eq_ok,
    ne_eq]
  constructor
  · intro h
    obtain ⟨_, ⟨_, ⟨rfl, rfl⟩, _, ⟨_, hle, rfl⟩, rfl⟩, rfl⟩ := h
    refine ⟨rfl, rfl, hle, ?_⟩
    rw [hadvanced hle]
    rfl
  · intro h
    obtain ⟨rfl, rfl, hle, rfl⟩ := h
    refine ⟨_, ⟨(), ⟨rfl, rfl⟩, _, ⟨(), hle, rfl⟩, rfl⟩, ?_⟩
    rw [hadvanced hle]
    rfl

end Live

section Sample

open Symbolic

/-- The sample with wire forms, with 32 bytes for every key. -/
def groupSample : GroupWire :=
  { wireSample with
    aeadEncrypt := encryptCommitting
    aeadDecrypt := decryptCommitting
    identityFromBytes := publicKeyFromBytes
    identityPublicFromBytes := publicKeyFromBytes
    identityKem := id
    oneTimeKeyFromBytes := publicKeyFromBytes }

end Sample

end Trelis.Wasm
