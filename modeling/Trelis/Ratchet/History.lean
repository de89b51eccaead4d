import Trelis.Lib.KeyChain
import Trelis.Ratchet.KeypairHistory

/-!
# What one end has exchanged

The history of an end: the messages that it has sent and those that it has
accepted, in order, each with the root key before it and the KEM secret that it
mixed into that.

The root key of the end is the chain of these secrets (`History.rootKey_eq`), and
so the root key before each message is the chain of the secrets before it
(`History.rootKey_of_prefix`).
-/

namespace Trelis.Ratchet

variable {P : RatchetPrimitives}

/-! ## Messages and their keys -/

inductive Direction where
  | sent
  | accepted
deriving DecidableEq

/-- A message at one end. -/
structure Exchange (P : RatchetPrimitives) where
  direction : Direction
  plaintext : Bytes
  message : RatchetMessage P
  /-- The root key before the message. -/
  rootKey : Bytes32
  /-- The secret of its encapsulation. -/
  secret : Bytes32

/-- The key of a message. -/
def mixMessage (P : RatchetPrimitives) (rootKey secret : Bytes32) : Bytes32 :=
  (kdfRk P rootKey secret).messageKey

/-- The key that the message is sealed under. -/
def Exchange.messageKey (e : Exchange P) : Bytes32 := mixMessage P e.rootKey e.secret

/-- The step of the root key. -/
def mixRoot (P : RatchetPrimitives) (rootKey secret : Bytes32) : Bytes32 :=
  (kdfRk P rootKey secret).newRootKey

/-- The root key behind some messages. -/
def rootAfter (rootKey : Bytes32) (log : List (Exchange P)) : Bytes32 :=
  chainKey (mixRoot P) rootKey (log.map (·.secret))

@[simp] theorem rootAfter_nil (rootKey : Bytes32) : rootAfter rootKey ([] : List (Exchange P)) =
    rootKey := rfl

theorem rootAfter_append (rootKey : Bytes32) (before after : List (Exchange P)) :
    rootAfter rootKey (before ++ after) = rootAfter (rootAfter rootKey before) after := by
  rw [rootAfter, List.map_append, chainKey_append]
  rfl

theorem rootAfter_append_singleton (rootKey : Bytes32) (log : List (Exchange P)) (e : Exchange P) :
    rootAfter rootKey (log ++ [e]) = mixRoot P (rootAfter rootKey log) e.secret := by
  rw [rootAfter, List.map_append, List.map_singleton, chainKey_append_singleton, rootAfter]

/-! ## One call -/

/-- A call that does not panic, with the message that it exchanges. -/
inductive KemRatchet.Does : KemRatchet P → Option (Exchange P) → KemRatchet P → Prop
  | sent {plaintext currentTime draws s result s' theirPk secret}
      (h : sendMessage plaintext currentTime draws s = .ok result s')
      (hpk : s.theirPublicKey = some theirPk)
      (henc : P.encapsulate theirPk draws.encapsulation =
        .ok (secret, result.message.header.encapsulation)) :
      Does s (some ⟨.sent, plaintext, result.message, s.rootKey, secret⟩) s'
  | accepted {message currentTime s plaintext s' keypair secret}
      (h : receiveMessage message currentTime s = .ok plaintext s')
      (hkeypair : s.findKeypair message.header.recipientKeyId = some keypair)
      (hsecret : P.decapsulate keypair message.header.encapsulation = .ok secret) :
      Does s (some ⟨.accepted, plaintext, message, s.rootKey, secret⟩) s'
  | sendFailed {plaintext currentTime draws s e s'}
      (h : sendMessage plaintext currentTime draws s = .error e s') (he : e ≠ .panic) :
      Does s none s'
  | receiveFailed {message currentTime s e s'}
      (h : receiveMessage message currentTime s = .error e s') (he : e ≠ .panic) : Does s none s'

namespace KemRatchet.Does

variable {s s' : KemRatchet P} {e : Exchange P} {entry : Option (Exchange P)}

/-- A call that fails changes nothing. -/
theorem of_none (h : s.Does none s') : s' = s := by
  cases h with
  | sendFailed hsend he => exact failsClean_sendMessage _ _ _ _ _ _ trivial hsend
  | receiveFailed hreceive he => exact failsClean_receiveMessage _ _ _ _ _ he hreceive

/-- What a send has sealed, and the state that it leaves. -/
theorem sendMessage_seals {plaintext : Bytes} {currentTime : Nat} {draws : SendDraws P}
    {result : SendResult P} {theirPk : P.PublicKey} {secret : Bytes32}
    (h : sendMessage plaintext currentTime draws s = .ok result s')
    (hpk : s.theirPublicKey = some theirPk)
    (henc : P.encapsulate theirPk draws.encapsulation =
      .ok (secret, result.message.header.encapsulation)) :
    P.encrypt (kdfRk P s.rootKey secret).messageKey result.message.nonce plaintext
        result.message.header.toBytes = .ok result.message.ciphertext ∧
      s'.rootKey = mixRoot P s.rootKey secret := by
  obtain ⟨_, _, _, _, _, _, _, hpk', _, _, henc', rfl, hct, rfl⟩ := sendMessage_eq_ok h
  rw [hpk, Option.some.injEq] at hpk'
  subst hpk'
  rw [henc, Except.ok.injEq, Prod.mk.injEq] at henc'
  rw [henc'.1]
  exact ⟨hct, rfl⟩

/-- What a receive has opened, and the state that it leaves. -/
theorem receiveMessage_opens {message : RatchetMessage P} {currentTime : Nat} {plaintext : Bytes}
    {keypair : P.KeyPair} {secret : Bytes32}
    (h : receiveMessage message currentTime s = .ok plaintext s')
    (hkeypair : s.findKeypair message.header.recipientKeyId = some keypair)
    (hsecret : P.decapsulate keypair message.header.encapsulation = .ok secret) :
    P.decrypt (kdfRk P s.rootKey secret).messageKey message.nonce message.ciphertext
        message.header.toBytes = .ok plaintext ∧
      s'.rootKey = mixRoot P s.rootKey secret := by
  obtain ⟨_, _, _, _, _, hkeypair', hsecret', hpt, rfl⟩ := receiveMessage_eq_ok.mp h
  rw [hkeypair, Option.some.injEq] at hkeypair'
  subst hkeypair'
  rw [hsecret, Except.ok.injEq] at hsecret'
  rw [hsecret']
  exact ⟨hpt, rfl⟩

/-- A call that returns mixes the secret into the root key. -/
theorem rootKey_eq (h : s.Does (some e) s') :
    e.rootKey = s.rootKey ∧ s'.rootKey = mixRoot P s.rootKey e.secret := by
  cases h with
  | sent hsend hpk henc => exact ⟨rfl, (sendMessage_seals hsend hpk henc).2⟩
  | accepted hreceive hkeypair hsecret =>
    exact ⟨rfl, (receiveMessage_opens hreceive hkeypair hsecret).2⟩

/-- What is sent was sealed under the message key. -/
theorem sealed (h : s.Does (some e) s') (hdir : e.direction = .sent) :
    P.encrypt e.messageKey e.message.nonce e.plaintext e.message.header.toBytes =
      .ok e.message.ciphertext := by
  cases h with
  | sent hsend hpk henc => exact (sendMessage_seals hsend hpk henc).1
  | accepted => simp at hdir

/-- What is accepted opens under the message key. -/
theorem opened (h : s.Does (some e) s') (hdir : e.direction = .accepted) :
    P.decrypt e.messageKey e.message.nonce e.message.ciphertext e.message.header.toBytes =
      .ok e.plaintext := by
  cases h with
  | sent => simp at hdir
  | accepted hreceive hkeypair hsecret => exact (receiveMessage_opens hreceive hkeypair hsecret).1

/-- Each move of an end is such a call. -/
theorem exists_of_moves (h : s.Moves s') : ∃ entry, s.Does entry s' := by
  cases h with
  | sent _ hsend =>
    obtain ⟨_, _, _, _, _, _, _, hpk, _, _, henc, rfl, _, _⟩ := sendMessage_eq_ok hsend
    exact ⟨_, .sent hsend hpk henc⟩
  | sendFailed hsend he => exact ⟨none, .sendFailed hsend he⟩
  | received _ hreceive =>
    obtain ⟨_, _, _, _, _, hkeypair, hsecret, _, _⟩ := receiveMessage_eq_ok.mp hreceive
    exact ⟨_, .accepted hreceive hkeypair hsecret⟩
  | receiveFailed hreceive he => exact ⟨none, .receiveFailed hreceive he⟩

end KemRatchet.Does

/-! ## Whole runs -/

/-- The runs of an end from `s₀`, with the messages that it has exchanged. -/
inductive History (s₀ : KemRatchet P) : List (Exchange P) → KemRatchet P → Prop
  | start : History s₀ [] s₀
  | next {log s entry s'} (h : History s₀ log s) (hdoes : s.Does entry s') :
      History s₀ (log ++ entry.toList) s'

namespace History

variable {s₀ s : KemRatchet P} {log before : List (Exchange P)} {e : Exchange P}

/-- The root key is the chain of the secrets. -/
theorem rootKey_eq (h : History s₀ log s) : s.rootKey = rootAfter s₀.rootKey log := by
  induction h with
  | start => rfl
  | @next log s entry s' _ hdoes ih =>
    cases entry with
    | none => rw [hdoes.of_none, Option.toList_none, List.append_nil, ih]
    | some e =>
      rw [hdoes.rootKey_eq.2, Option.toList_some, rootAfter_append_singleton, ih]

/-- So is the root key before each message. -/
theorem rootKey_of_prefix (h : History s₀ log s) (hstart : before ++ [e] <+: log) :
    e.rootKey = rootAfter s₀.rootKey before := by
  induction h with
  | start => simp at hstart
  | @next log s entry s' hlog hdoes ih =>
    cases entry with
    | none => exact ih (by simpa using hstart)
    | some e' =>
      obtain hlast | hearlier := List.prefix_concat_iff.mp hstart
      · obtain ⟨rfl, hsame⟩ := List.append_inj' hlast rfl
        obtain rfl := List.singleton_inj.mp hsame
        rw [hdoes.rootKey_eq.1, hlog.rootKey_eq]
      · exact ih hearlier

/-- Each message was exchanged by a call. -/
theorem exists_does (h : History s₀ log s) (he : e ∈ log) :
    ∃ t t' : KemRatchet P, t.Does (some e) t' := by
  induction h with
  | start => simp at he
  | @next log s entry s' _ hdoes ih =>
    obtain hearlier | hlast := List.mem_append.mp he
    · exact ih hearlier
    · rw [Option.mem_toList] at hlast
      rw [hlast] at hdoes
      exact ⟨s, s', hdoes⟩

/-- A run goes on from where another has stopped. -/
theorem append {t : KemRatchet P} {after : List (Exchange P)} (h : History s₀ before t)
    (hafter : History t after s) : History s₀ (before ++ after) s := by
  induction hafter with
  | start => rwa [List.append_nil]
  | next _ hdoes ih =>
    rw [← List.append_assoc]
    exact ih.next hdoes

end History

end Trelis.Ratchet
