import Trelis.Cocoa.WireCodec

/-!
# Messages between members

What one member encrypts, the others decrypt: in any order, through the wire
format, and later from the epoch secret alone.

`decrypt` and `decryptWithEpochSecret` derive the same key, nonce and associated
data (`openMessage`).  The first also compares the epoch number, which the second
takes from the message; so they agree on the messages of the current epoch
(`decryptWithEpochSecret_eq`).
-/

namespace Trelis.Cocoa

variable {P : Primitives}

/-! ## Decrypting with an epoch secret -/

/-- Decrypts a message with the secret of its epoch. -/
def CocoaSession.decryptWithEpochSecret (cipher : MessageCipher) (epochSecret : Bytes32)
    (message : EncryptedMessage) (s : CocoaSession P) : Result Bytes := do
  checkSizeLimits message.ciphertext.length 0 0 0 0
  let secrets : EpochSecrets P := .derive epochSecret
  let messageKey := secrets.deriveMessageKey message.senderLeafPosition message.counter
  let aad := s.groupId.val ++ leBytes 8 message.epoch ++ leBytes 4 message.senderLeafPosition ++
    leBytes 8 message.counter
  cipher messageKey.key messageKey.nonce message.ciphertext aad

/-- The associated data of a message. -/
def EncryptedMessage.aad (groupId : GroupId) (m : EncryptedMessage) : Bytes :=
  groupId.val ++ leBytes 8 m.epoch ++ leBytes 4 m.senderLeafPosition ++ leBytes 8 m.counter

/-- The cipher of an epoch, on a message. -/
def openMessage (cipher : MessageCipher) (groupId : GroupId) (secrets : EpochSecrets P)
    (m : EncryptedMessage) : Result Bytes :=
  let messageKey := secrets.deriveMessageKey m.senderLeafPosition m.counter
  cipher messageKey.key messageKey.nonce m.ciphertext (m.aad groupId)

theorem checkSizeLimits_message {n : Nat} :
    checkSizeLimits n 0 0 0 0 = .ok () ↔ n ≤ maxMessageSize := by
  rw [checkSizeLimits_eq_ok]
  constructor
  · intro h
    exact h.messageLen_le
  · intro h
    exact ⟨h, Nat.zero_le _, Nat.zero_le _, Nat.zero_le _, Nat.zero_le _⟩

/-- The gate for messages refuses a message that is too large, with this error. -/
theorem checkSizeLimits_of_large {n : Nat} (h : maxMessageSize < n) :
    checkSizeLimits n 0 0 0 0 = .error .messageTooLarge := by
  rw [checkSizeLimits, rejectIf, if_pos h]
  rfl

theorem decrypt_eq_ok {dec : MessageCipher} {s : CocoaSession P} {m : EncryptedMessage}
    {plaintext : Bytes} :
    s.decrypt dec m = .ok plaintext ↔ m.ciphertext.length ≤ maxMessageSize ∧
      m.epoch = s.epoch.number ∧ openMessage dec s.groupId s.epoch.secrets m = .ok plaintext := by
  simp only [CocoaSession.decrypt, Except.bind_eq_ok, rejectIf_eq_ok, exists_const, not_not, ne_eq]
  constructor
  · intro h
    rcases h with ⟨_, hsize, hepoch, hopen⟩
    exact ⟨checkSizeLimits_message.mp hsize, hepoch, hopen⟩
  · intro h
    rcases h with ⟨hsize, hepoch, hopen⟩
    exact ⟨(), checkSizeLimits_message.mpr hsize, hepoch, hopen⟩

theorem decrypt_of_large {dec : MessageCipher} {s : CocoaSession P} {m : EncryptedMessage}
    (h : maxMessageSize < m.ciphertext.length) : s.decrypt dec m = .error .messageTooLarge := by
  rw [CocoaSession.decrypt, checkSizeLimits_of_large h]
  rfl

/-- The size of a message is looked at first, and then its epoch. -/
theorem decrypt_of_epoch_ne {dec : MessageCipher} {s : CocoaSession P} {m : EncryptedMessage}
    (h : m.epoch ≠ s.epoch.number) :
    s.decrypt dec m = .error (if m.ciphertext.length ≤ maxMessageSize
      then .epochMismatch s.epoch.number m.epoch else .messageTooLarge) := by
  by_cases hsize : m.ciphertext.length ≤ maxMessageSize
  · rw [CocoaSession.decrypt, checkSizeLimits_message.mpr hsize, rejectIf, if_pos h, if_pos hsize]
    rfl
  · rw [decrypt_of_large (Nat.lt_of_not_le hsize), if_neg hsize]

theorem decryptWithEpochSecret_eq_ok {dec : MessageCipher} {secret : Bytes32} {s : CocoaSession P}
    {m : EncryptedMessage} {plaintext : Bytes} :
    s.decryptWithEpochSecret dec secret m = .ok plaintext ↔
      m.ciphertext.length ≤ maxMessageSize ∧
        openMessage dec s.groupId (.derive (P := P) secret) m = .ok plaintext := by
  simp only [CocoaSession.decryptWithEpochSecret, Except.bind_eq_ok]
  constructor
  · intro h
    rcases h with ⟨_, hsize, hopen⟩
    exact ⟨checkSizeLimits_message.mp hsize, hopen⟩
  · intro h
    rcases h with ⟨hsize, hopen⟩
    exact ⟨(), checkSizeLimits_message.mpr hsize, hopen⟩

/-- Two sessions in one epoch of a group. -/
structure EpochShared (a b : CocoaSession P) : Prop where
  groupId : a.groupId = b.groupId
  number : a.epoch.number = b.epoch.number
  secret : a.currentEpochSecret = b.currentEpochSecret

theorem EpochShared.secrets {a b : CocoaSession P} (h : EpochShared a b) :
    a.epoch.secrets = b.epoch.secrets := EpochSecrets.ext_epochSecret h.secret

/-- On a message of the current epoch, whoever is in the group and has the epoch
secret gets the result of `decrypt`. -/
theorem decryptWithEpochSecret_eq {dec : MessageCipher} {b c : CocoaSession P}
    (hgroup : c.groupId = b.groupId) {m : EncryptedMessage} (hepoch : m.epoch = b.epoch.number) :
    c.decryptWithEpochSecret dec b.currentEpochSecret m = b.decrypt dec m := by
  have hsecrets : EpochSecrets.derive (P := P) b.currentEpochSecret = b.epoch.secrets :=
    EpochSecrets.ext_epochSecret rfl
  have haccept : ∀ e : CryptoError, rejectIf (m.epoch ≠ b.epoch.number) e = .ok () := fun e =>
    rejectIf_eq_ok.mpr (not_not.mpr hepoch)
  rw [CocoaSession.decryptWithEpochSecret, CocoaSession.decrypt, hsecrets, hgroup, haccept]
  rfl

/-! ## Messages that are sent -/

/-- An ideal cipher: a ciphertext opens to its plaintext under its own key, nonce
and associated data, and to nothing under another key or other data. -/
structure IdealCipher (enc dec : MessageCipher) : Prop where
  decrypt_match : ∀ {k n pt aad ct}, enc k n pt aad = .ok ct → dec k n ct aad = .ok pt
  decrypt_other : ∀ {k n pt aad ct k' n' aad'}, enc k n pt aad = .ok ct →
    (k', aad') ≠ (k, aad) → ∀ pt', dec k' n' ct aad' ≠ .ok pt'

/-- The plaintexts that a session encrypts, each with its message, up to a
session that it is then.  Calls may fail in between. -/
inductive Sent (enc : MessageCipher) (a : CocoaSession P) :
    List (Bytes × EncryptedMessage) → CocoaSession P → Prop where
  | start : Sent enc a [] a
  | sent {sent s plaintext m s'} (h : Sent enc a sent s)
      (hok : s.encrypt enc plaintext = some (.ok m s')) :
      Sent enc a (sent ++ [(plaintext, m)]) s'
  | failed {sent s plaintext e s'} (h : Sent enc a sent s)
      (herror : s.encrypt enc plaintext = some (.error e s')) : Sent enc a sent s'

/-- What a session keeps while it sends. -/
structure SameSender (a s : CocoaSession P) : Prop where
  groupId : s.groupId = a.groupId
  leaf : s.ourLeafPosition = a.ourLeafPosition
  number : s.epoch.number = a.epoch.number
  secrets : s.epoch.secrets = a.epoch.secrets

theorem SameSender.counted {a s : CocoaSession P} (h : SameSender a s) : SameSender a s.counted :=
  ⟨h.groupId, h.leaf, h.number, h.secrets⟩

/-- A message was made under the secrets and the associated data of its session's
epoch. -/
structure MadeBy (enc : MessageCipher) (a : CocoaSession P) (plaintext : Bytes)
    (m : EncryptedMessage) : Prop where
  epoch : m.epoch = a.epoch.number
  leaf : m.senderLeafPosition = a.ourLeafPosition
  counter : m.counter < counterRange
  encrypted : openMessage (fun key nonce _ aad => enc key nonce plaintext aad) a.groupId
    a.epoch.secrets m = .ok m.ciphertext

theorem encrypt_madeBy {enc : MessageCipher} {s s' : CocoaSession P} {plaintext : Bytes}
    {m : EncryptedMessage} (h : s.encrypt enc plaintext = some (.ok m s')) :
    MadeBy enc s plaintext m := by
  unfold CocoaSession.encrypt at h
  split at h
  · cases h
  · simp only [Epoch.nextMessageKey] at h
    split at h
    · next hlt =>
      simp only [Option.map_some, Option.some.injEq] at h
      split at h
      · cases h
      · next ciphertext hct =>
        cases h
        exact ⟨rfl, rfl, Nat.lt_of_succ_lt hlt, hct⟩
    · cases h

theorem MadeBy.of_sameSender {enc : MessageCipher} {a s : CocoaSession P} (hs : SameSender a s)
    {plaintext : Bytes} {m : EncryptedMessage} (h : MadeBy enc s plaintext m) :
    MadeBy enc a plaintext m where
  epoch := h.epoch.trans hs.number
  leaf := h.leaf.trans hs.leaf
  counter := h.counter
  encrypted := by
    have hencrypted := h.encrypted
    rwa [hs.groupId, hs.secrets] at hencrypted

/-- Every message of a run was made in the epoch that the run began in. -/
theorem Sent.madeBy {enc : MessageCipher} {a s : CocoaSession P}
    {sent : List (Bytes × EncryptedMessage)} (h : Sent enc a sent s) :
    SameSender a s ∧ ∀ e ∈ sent, MadeBy enc a e.1 e.2 := by
  induction h with
  | start => exact ⟨⟨rfl, rfl, rfl, rfl⟩, by simp⟩
  | sent _ hok ih =>
    obtain ⟨hsame, hmade⟩ := ih
    obtain ⟨_, _, _, rfl⟩ := encrypt_ok hok
    refine ⟨hsame.counted, ?_⟩
    intro e he
    obtain he | he := List.mem_append.mp he
    · exact hmade e he
    · rw [List.mem_singleton.mp he]
      exact (encrypt_madeBy hok).of_sameSender hsame
  | failed _ herror ih =>
    obtain ⟨hsame, hmade⟩ := ih
    obtain rfl | rfl := encrypt_error herror
    · exact ⟨hsame, hmade⟩
    · exact ⟨hsame.counted, hmade⟩

/-! ## Messages that are received -/

/-- The integers of a session have values of their types. -/
structure CocoaSession.InRange (s : CocoaSession P) : Prop where
  number : s.epoch.number < 2 ^ 64
  ourLeafPosition : s.ourLeafPosition < 2 ^ 32

/-- The integers of a message have values of their types. -/
structure EncryptedMessage.InRange (m : EncryptedMessage) : Prop where
  epoch : m.epoch < 2 ^ 64
  senderLeafPosition : m.senderLeafPosition < 2 ^ 32
  counter : m.counter < 2 ^ 64

theorem MadeBy.inRange {enc : MessageCipher} {a : CocoaSession P} {plaintext : Bytes}
    {m : EncryptedMessage} (h : MadeBy enc a plaintext m) (ha : a.InRange) : m.InRange where
  epoch := by
    rw [h.epoch]
    exact ha.number
  senderLeafPosition := by
    rw [h.leaf]
    exact ha.ourLeafPosition
  counter := h.counter

/-- A message within the size limit has a wire form. -/
theorem EncryptedMessage.InRange.fits {m : EncryptedMessage} (h : m.InRange)
    (hsize : m.ciphertext.length ≤ maxMessageSize) : m.Fits where
  epoch := h.epoch
  senderLeafPosition := h.senderLeafPosition
  counter := h.counter
  ciphertext := Nat.lt_of_le_of_lt hsize (by decide)

/-- A message is decrypted in the epoch that it was made in. -/
theorem MadeBy.decrypt {enc dec : MessageCipher} (haead : IdealCipher enc dec)
    {a b : CocoaSession P} (hab : EpochShared a b) {plaintext : Bytes} {m : EncryptedMessage}
    (h : MadeBy enc a plaintext m) (hsize : m.ciphertext.length ≤ maxMessageSize) :
    b.decrypt dec m = .ok plaintext := by
  refine decrypt_eq_ok.mpr ⟨hsize, h.epoch.trans hab.number, ?_⟩
  rw [← hab.groupId, ← hab.secrets]
  exact haead.decrypt_match h.encrypted

/-- The associated data determine the fields of a message. -/
theorem EncryptedMessage.aad_inj {groupId : GroupId} {m m' : EncryptedMessage} (hm : m.InRange)
    (hm' : m'.InRange) (h : m.aad groupId = m'.aad groupId) :
    m.epoch = m'.epoch ∧ m.senderLeafPosition = m'.senderLeafPosition ∧ m.counter = m'.counter := by
  simp only [aad, List.append_assoc] at h
  have h := List.append_cancel_left h
  obtain ⟨hepoch, h⟩ := SelfDelimiting.word 8 _ _ (lt_word8 hm.epoch) (lt_word8 hm'.epoch) _ _ h
  obtain ⟨hleaf, h⟩ := SelfDelimiting.word 4 _ _ (lt_word4 hm.senderLeafPosition)
    (lt_word4 hm'.senderLeafPosition) _ _ h
  exact ⟨hepoch, hleaf, (SelfDelimiting.word 8).inj (lt_word8 hm.counter) (lt_word8 hm'.counter) h⟩

/-- A message whose epoch, leaf or counter was changed. -/
structure Altered (m m' : EncryptedMessage) : Prop where
  ciphertext : m'.ciphertext = m.ciphertext
  changed : ¬ (m'.epoch = m.epoch ∧ m'.senderLeafPosition = m.senderLeafPosition ∧
    m'.counter = m.counter)

/-- No secrets of the group open it. -/
theorem MadeBy.not_open_altered {enc dec : MessageCipher} (haead : IdealCipher enc dec)
    {a : CocoaSession P} {plaintext : Bytes} {m m' : EncryptedMessage}
    (h : MadeBy enc a plaintext m) (hm : m.InRange) (hm' : m'.InRange) (haltered : Altered m m')
    (secrets : EpochSecrets P) (pt : Bytes) : openMessage dec a.groupId secrets m' ≠ .ok pt := by
  intro hopen
  rw [openMessage, haltered.ciphertext] at hopen
  refine haead.decrypt_other h.encrypted ?_ pt hopen
  intro hpair
  exact haltered.changed (EncryptedMessage.aad_inj hm' hm (Prod.mk.inj hpair).2)

/-! ## Round trips -/

/-- Between two sessions in one epoch of a group: what one encrypts, the other
decrypts through the wire format, in any order, up to the size limit.  The epoch
secret gives any session of the group the same results on the messages of the
epoch, valid or not; `decrypt` refuses the messages of other epochs.  Messages
with an altered field are rejected. -/
theorem group_messages_round_trip {enc dec : MessageCipher} (haead : IdealCipher enc dec)
    {a b c : CocoaSession P} (hab : EpochShared a b) (hc : c.groupId = b.groupId)
    (hrange : a.InRange) :
    (∀ sent s, Sent enc a sent s → ∀ order : List (Bytes × EncryptedMessage),
      (∀ e ∈ order, e ∈ sent ∧ e.2.ciphertext.length ≤ maxMessageSize) →
        order.map (fun e => EncryptedMessage.fromBytes e.2.toBytes >>= b.decrypt dec) =
          order.map fun e => .ok e.1) ∧
    (∀ m : EncryptedMessage, m.epoch = b.epoch.number →
      c.decryptWithEpochSecret dec b.currentEpochSecret m = b.decrypt dec m) ∧
    (∀ m : EncryptedMessage, m.epoch ≠ b.epoch.number →
      b.decrypt dec m = .error (if m.ciphertext.length ≤ maxMessageSize
        then .epochMismatch b.epoch.number m.epoch else .messageTooLarge)) ∧
    ∀ sent s, Sent enc a sent s → ∀ e ∈ sent, ∀ m', m'.InRange → Altered e.2 m' →
      ∀ plaintext, b.decrypt dec m' ≠ .ok plaintext ∧
        c.decryptWithEpochSecret dec b.currentEpochSecret m' ≠ .ok plaintext := by
  refine ⟨?_, ?_, ?_, ?_⟩
  · intro sent s hsent order horder
    apply List.map_congr_left
    intro e he
    obtain ⟨hmem, hsize⟩ := horder e he
    have hmade := hsent.madeBy.2 e hmem
    have hcodec := EncryptedMessage.fromBytes_append ((hmade.inRange hrange).fits hsize) []
    rw [List.append_nil] at hcodec
    rw [hcodec]
    exact hmade.decrypt haead hab hsize
  · intro m hepoch
    exact decryptWithEpochSecret_eq hc hepoch
  · intro m hepoch
    exact decrypt_of_epoch_ne hepoch
  · intro sent s hsent e he m' hm' haltered plaintext
    have hmade := hsent.madeBy.2 e he
    have hclosed := hmade.not_open_altered haead (hmade.inRange hrange) hm' haltered
    constructor
    · intro h
      rw [decrypt_eq_ok, ← hab.groupId] at h
      exact hclosed _ plaintext h.2.2
    · intro h
      rw [decryptWithEpochSecret_eq_ok, hc, ← hab.groupId] at h
      exact hclosed _ plaintext h.2

section Sample

open Symbolic

theorem idealCipher_symbolic : IdealCipher encryptCommitting decryptCommitting where
  decrypt_match := by
    intro k n pt aad ct h
    exact idealAead.decrypt_match (n := n) h
  decrypt_other := by
    intro k n pt aad ct k' n' aad' h hne pt' hdec
    exact idealAead.decrypt_other (n := n) h hne pt' hdec

/-- A member of a group in epoch 0. -/
def listener : CocoaSession symbolic := member 0 10 (tree 0 1 [])

/-- A session of the same group and epoch secret that counts the epoch as number 1. -/
def laterSpeaker : CocoaSession symbolic :=
  { listener with epoch := { listener.epoch with number := 1 } }

/-- The ciphertexts of the sample are longer than their plaintexts. -/
theorem listener_encrypts {plaintext : Bytes} (hlong : 32 < plaintext.length)
    (hsize : plaintext.length ≤ maxMessageSize) :
    ∃ m s, listener.encrypt encryptCommitting plaintext = some (.ok m s) ∧
      plaintext.length < m.ciphertext.length := by
  have hform : ∀ aad, isSeedForm plaintext aad = false := by
    intro aad
    rw [isSeedForm, beq_eq_false_iff_ne.mpr (Nat.ne_of_gt hlong)]
    rfl
  have hcipher : ∀ key nonce aad, encryptCommitting key nonce plaintext aad =
      .ok (header key aad ++ plaintext) := by
    intro key nonce aad
    rw [encryptCommitting, hform]
    rfl
  rw [CocoaSession.encrypt, checkSizeLimits_message.mpr hsize]
  simp only [hcipher]
  refine ⟨_, _, rfl, ?_⟩
  simp only [header, List.length_append, FixedBytes.length_coe]
  omega

/-- A message with another epoch number is rejected by `decrypt`, and is opened with
the epoch secret.  One of this epoch whose plaintext is as large as it may be is
rejected. -/
theorem old_epoch_results_differ :
    IdealCipher encryptCommitting decryptCommitting ∧
      (∃ m s, laterSpeaker.encrypt encryptCommitting [1] = some (.ok m s) ∧
        listener.decrypt decryptCommitting m = .error (.epochMismatch 0 1) ∧
        listener.decryptWithEpochSecret decryptCommitting listener.currentEpochSecret m =
          .ok [1]) ∧
      ∃ plaintext m s, listener.encrypt encryptCommitting plaintext = some (.ok m s) ∧
        listener.decrypt decryptCommitting m = .error .messageTooLarge := by
  refine ⟨idealCipher_symbolic, ⟨_, _, rfl, ?_, ?_⟩, ?_⟩
  · decide +kernel
  · decide +kernel
  · have hlength : (List.replicate maxMessageSize (0 : UInt8)).length = maxMessageSize :=
      List.length_replicate
    have hlong : 32 < (List.replicate maxMessageSize (0 : UInt8)).length := by
      rw [hlength]
      decide
    obtain ⟨m, s, hencrypt, hsize⟩ := listener_encrypts hlong hlength.le
    rw [hlength] at hsize
    exact ⟨_, m, s, hencrypt, decrypt_of_large hsize⟩

/-- One member encrypts two messages, and another gets the second one first. -/
theorem group_messages_round_trip_sample :
    ∃ m₁ m₂ : EncryptedMessage, [m₂, m₁].map (fun m => EncryptedMessage.fromBytes m.toBytes >>=
      (member 1 11 (tree 1 1 [])).decrypt decryptCommitting) = [.ok [2], .ok [1]] := by
  obtain ⟨m₁, s₁, m₂, s₂, h₁, h₂, hsize₁, hsize₂⟩ : ∃ m₁ s₁ m₂ s₂,
      listener.encrypt encryptCommitting [1] = some (.ok m₁ s₁) ∧
      s₁.encrypt encryptCommitting [2] = some (.ok m₂ s₂) ∧
      m₁.ciphertext.length ≤ maxMessageSize ∧ m₂.ciphertext.length ≤ maxMessageSize :=
    ⟨_, _, _, _, rfl, rfl, by decide +kernel, by decide +kernel⟩
  have hstart : Sent encryptCommitting listener [] listener := .start
  have hsent := (hstart.sent h₁).sent h₂
  have hround := (group_messages_round_trip (a := listener) (b := member 1 11 (tree 1 1 []))
    (c := listener) idealCipher_symbolic ⟨rfl, rfl, rfl⟩ rfl ⟨by decide, by decide⟩).1 _ _ hsent
    [([2], m₂), ([1], m₁)]
  refine ⟨m₁, m₂, hround ?_⟩
  intro e he
  obtain rfl | he := List.mem_cons.mp he
  · exact ⟨by simp, hsize₂⟩
  · rw [List.mem_singleton.mp he]
    exact ⟨by simp, hsize₁⟩

end Sample

end Trelis.Cocoa
