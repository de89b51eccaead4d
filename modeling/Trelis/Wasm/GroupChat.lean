import Trelis.Cocoa.CounterReuse
import Trelis.Wasm.GroupApi

/-!
# A group that talks through stored sessions

The members of a group in one epoch, each of whom keeps its session in bytes and works
through the calls of the WASM crate.  They send messages, move on to the next epoch with
the same values, and rotate their keys.  At any time a member may fall back to bytes that
it has stored before, if `cocoa_deserialize_checked` accepts them behind the watermark;
the watermark is taken from the new bytes whenever a message is sent, as the crate asks.

In every run a message is decrypted to its plaintext by whoever is in its epoch, and by
nobody else, and no two messages have the same epoch, leaf and counter
(`chat_delivers`).
-/

namespace Trelis.Wasm

open Cocoa

variable {W : GroupWire} {ι : Type}

/-! ## The members -/

/-- What the application keeps for a member. -/
structure Seat where
  session : Bytes
  stored : List Bytes
  watermark : Bytes

/-- A message that a member has sent. -/
structure Said (ι : Type) where
  sender : ι
  plaintext : Bytes
  message : Bytes

/-- The members, and the messages in the order in which they were sent. -/
structure Chat (ι : Type) where
  seats : ι → Seat
  said : List (Said ι)

/-- Nothing was sent yet.  The members load their sessions: in one epoch of one group, and
each at its own leaf. -/
structure Chat.Opens (sessions : ι → CocoaSession W.toPrimitives) (c : Chat ι) : Prop where
  load : ∀ i, deserializeCocoaSession W.toWirePrimitives (c.seats i).session = .ok (sessions i)
  stored : ∀ i, (c.seats i).stored = [(c.seats i).session]
  watermark : ∀ i, cocoaSessionWatermark W (c.seats i).session = .ok (c.seats i).watermark
  shared : ∀ i j, EpochShared (sessions i) (sessions j)
  leaf_ne : ∀ i j, i ≠ j → (sessions i).ourLeafPosition ≠ (sessions j).ourLeafPosition
  said : c.said = []

/-- One call of one member.  `changes` are the root seed and the transcript hash with which
the group leaves an epoch. -/
inductive ChatStep [DecidableEq ι] (W : GroupWire) (changes : Nat → Bytes32 × Bytes32) :
    Chat ι → Chat ι → Prop
  | sent {c : Chat ι} {i : ι} {plaintext reply watermark}
      (hcall : cocoaEncrypt W (c.seats i).session plaintext = .ok reply)
      (hmark : cocoaSessionWatermark W reply.session = .ok watermark) :
      ChatStep W changes c
        { seats := Function.update c.seats i
            ⟨reply.session, reply.session :: (c.seats i).stored, watermark⟩
          said := c.said ++ [⟨i, plaintext, reply.encryptedMessage⟩] }
  | advanced {c : Chat ι} {i : ι} {s reply}
      (hload : deserializeCocoaSession W.toWirePrimitives (c.seats i).session = .ok s)
      (hcall : cocoaAdvanceEpoch W (c.seats i).session (changes s.epochNumber).1.val
        (changes s.epochNumber).2.val = .ok reply) :
      ChatStep W changes c
        { c with
          seats := Function.update c.seats i
            ⟨reply.session, reply.session :: (c.seats i).stored, (c.seats i).watermark⟩ }
  | rotated {c : Chat ι} {i : ι} {coins reply}
      (hcall : cocoaRotateKeypair W (c.seats i).session coins = .ok reply) :
      ChatStep W changes c
        { c with
          seats := Function.update c.seats i
            ⟨reply.session, reply.session :: (c.seats i).stored, (c.seats i).watermark⟩ }
  | restored {c : Chat ι} {i : ι} {session groupId userId reply}
      (hstored : session ∈ (c.seats i).stored)
      (hcall : cocoaDeserializeChecked W session (c.seats i).watermark groupId userId = .ok reply) :
      ChatStep W changes c
        { c with
          seats := Function.update c.seats i
            ⟨reply.session, (c.seats i).stored, reply.watermark⟩ }

/-! ## Epochs that a member moves through -/

section InStep

variable {P : Primitives} (changes : Nat → Bytes32 × Bytes32)

/-- The secrets of the epoch that is `n` epochs behind another. -/
def secretsAfter (e : Epoch P) : Nat → EpochSecrets P
  | 0 => e.secrets
  | n + 1 => .derive (h5EpochSecret P (secretsAfter e n).initSecret (changes (e.number + n)).1
      (changes (e.number + n)).2)

/-- A session of the member whose session was `a`. -/
structure InStep (a s : CocoaSession P) : Prop where
  groupId_eq : s.groupId = a.groupId
  leaf_eq : s.ourLeafPosition = a.ourLeafPosition
  secrets_eq : ∃ n, s.epoch.number = a.epoch.number + n ∧
    s.epoch.secrets = secretsAfter changes a.epoch n

variable {changes} {a b s t : CocoaSession P}

theorem InStep.refl (s : CocoaSession P) : InStep changes s s := ⟨rfl, rfl, 0, rfl, rfl⟩

theorem InStep.counted (h : InStep changes a s) : InStep changes a s.counted :=
  ⟨h.groupId_eq, h.leaf_eq, h.secrets_eq⟩

theorem InStep.rotated (h : InStep changes a s) (keypair : P.KeyPair) :
    InStep changes a { s with ourKeypair := keypair } :=
  ⟨h.groupId_eq, h.leaf_eq, h.secrets_eq⟩

theorem InStep.advanced (h : InStep changes a s) :
    InStep changes a (s.advanceEpoch (changes s.epochNumber).1 (changes s.epochNumber).2) := by
  obtain ⟨hgroup, hleaf, n, hnumber, hsecrets⟩ := h
  refine ⟨hgroup, hleaf, n + 1, ?_, ?_⟩
  · show s.epoch.number + 1 = _
    omega
  · rw [secretsAfter, ← hnumber, ← hsecrets]
    rfl

theorem secretsAfter_congr (h : EpochShared a b) (n : Nat) :
    secretsAfter changes a.epoch n = secretsAfter changes b.epoch n := by
  induction n with
  | zero => exact h.secrets
  | succ n ih => rw [secretsAfter, secretsAfter, ih, h.number]

/-- Two members that are in one epoch share it. -/
theorem InStep.shared (hab : EpochShared a b) (hs : InStep changes a s) (ht : InStep changes b t)
    (hnumber : s.epoch.number = t.epoch.number) : EpochShared s t := by
  obtain ⟨hsgroup, _, n, hsnumber, hssecrets⟩ := hs
  obtain ⟨htgroup, _, m, htnumber, htsecrets⟩ := ht
  have hn : n = m := by
    have := hab.number
    omega
  refine ⟨by rw [hsgroup, htgroup, hab.groupId], hnumber, ?_⟩
  rw [CocoaSession.currentEpochSecret, CocoaSession.currentEpochSecret, hssecrets, htsecrets, hn,
    secretsAfter_congr hab]

end InStep

/-! ## What a run keeps -/

/-- What is kept for the member whose session was `a`, with the watermark `w`. -/
structure Seat.Kept (changes : Nat → Bytes32 × Bytes32) (a : CocoaSession W.toPrimitives)
    (w : SessionWatermark) (seat : Seat) : Prop where
  mark : watermarkFromBytes seat.watermark = .ok w
  current : ∃ s, deserializeCocoaSession W.toWirePrimitives seat.session = .ok s ∧
    InStep changes a s ∧ w.position ≤ s.position
  stored : ∀ session ∈ seat.stored, ∃ s,
    deserializeCocoaSession W.toWirePrimitives session = .ok s ∧ InStep changes a s

/-- The message was made in a session of its sender. -/
structure Said.Made (changes : Nat → Bytes32 × Bytes32)
    (sessions : ι → CocoaSession W.toPrimitives) (x : Said ι) (m : EncryptedMessage) : Prop where
  message_eq : x.message = m.toBytes
  made : ∃ t, Live t ∧ InStep changes (sessions x.sender) t ∧
    MadeBy W.aeadEncrypt t x.plaintext m

/-- The messages of a member are below its watermark, and all differ in their place. -/
structure Chat.Kept (changes : Nat → Bytes32 × Bytes32)
    (sessions : ι → CocoaSession W.toPrimitives) (c : Chat ι) : Prop where
  seats : ∀ i, ∃ w, (c.seats i).Kept changes (sessions i) w ∧
    ∀ x ∈ c.said, x.sender = i → ∃ m, x.Made changes sessions m ∧
      m.position < w.position
  fresh : (c.said.map (·.message.take 20)).Nodup

section Kept

variable {changes : Nat → Bytes32 × Bytes32} {sessions : ι → CocoaSession W.toPrimitives}
  {c c' : Chat ι}

theorem watermarkFromBytes_ofSession {s : CocoaSession W.toPrimitives} (h : Live s) :
    watermarkFromBytes (watermarkToBytes (.ofSession s)) = .ok (.ofSession s) :=
  watermarkFromBytes_toBytes h.inWords.epochNumber_lt h.inWords.messageCounter_lt

theorem Chat.Opens.kept (h : c.Opens sessions) : c.Kept changes sessions := by
  refine ⟨?_, by simp [h.said]⟩
  intro i
  have hmark := h.watermark i
  rw [cocoaSessionWatermark_of_load (h.load i), Except.ok.injEq] at hmark
  refine ⟨.ofSession (sessions i), ⟨?_, ⟨_, h.load i, .refl _, le_rfl⟩, ?_⟩, by simp [h.said]⟩
  · rw [← hmark]
    exact watermarkFromBytes_ofSession (Live.of_load (h.load i))
  · intro session hsession
    rw [h.stored i, List.mem_singleton] at hsession
    rw [hsession]
    exact ⟨_, h.load i, .refl _⟩

/-- A member that moves on keeps the bytes of its new session. -/
theorem Seat.Kept.stored_next {a s : CocoaSession W.toPrimitives} {w : SessionWatermark}
    {seat : Seat} {session : Bytes} (h : seat.Kept changes a w)
    (hload : deserializeCocoaSession W.toWirePrimitives session = .ok s)
    (hin : InStep changes a s) (hle : w.position ≤ s.position) :
    Seat.Kept changes a w ⟨session, session :: seat.stored, seat.watermark⟩ := by
  refine ⟨h.mark, ⟨s, hload, hin, hle⟩, ?_⟩
  intro old hold
  obtain rfl | hold := List.mem_cons.mp hold
  · exact ⟨s, hload, hin⟩
  · exact h.stored old hold

/-- A call that sends nothing, at a member whose watermark does not fall. -/
theorem Chat.Kept.update [DecidableEq ι] (h : c.Kept changes sessions) (i : ι) {seat : Seat}
    (hseat : ∀ w, (c.seats i).Kept changes (sessions i) w →
      ∃ w', seat.Kept changes (sessions i) w' ∧ w.position ≤ w'.position) :
    Chat.Kept changes sessions { c with seats := Function.update c.seats i seat } := by
  refine ⟨?_, h.fresh⟩
  intro j
  obtain ⟨w, hkept, hbelow⟩ := h.seats j
  by_cases hij : j = i
  · subst hij
    obtain ⟨w', hkept', hle⟩ := hseat w hkept
    simp only [Function.update_self]
    refine ⟨w', hkept', ?_⟩
    intro x hx hsender
    obtain ⟨m, hmade, hlt⟩ := hbelow x hx hsender
    exact ⟨m, hmade, hlt.trans_le hle⟩
  · simp only [Function.update_of_ne hij]
    exact ⟨w, hkept, hbelow⟩

/-- The fields of a message that was made fit the words that they are written in. -/
theorem Said.Made.inRange {x : Said ι} {m : EncryptedMessage} (h : x.Made changes sessions m) :
    m.InRange := by
  obtain ⟨t, hlive, _, hmade⟩ := h.made
  exact hmade.inRange ⟨hlive.inWords.epochNumber_lt, hlive.inWords.ourLeafPosition_lt⟩

/-- The first twenty bytes of a message are its epoch, leaf and counter. -/
theorem place_inj {m m' : EncryptedMessage} (h : m.toBytes.take 20 = m'.toBytes.take 20)
    (hm : m.InRange) (hm' : m'.InRange) :
    m.epoch = m'.epoch ∧ m.senderLeafPosition = m'.senderLeafPosition ∧ m.counter = m'.counter := by
  have hplace (m : EncryptedMessage) : m.toBytes.take 20 =
      leBytes 8 m.epoch ++ (leBytes 4 m.senderLeafPosition ++ leBytes 8 m.counter) := by
    have hsplit : m.toBytes = leBytes 8 m.epoch ++ (leBytes 4 m.senderLeafPosition ++
        leBytes 8 m.counter) ++ (leBytes 4 m.ciphertext.length ++ m.ciphertext) := by
      simp [EncryptedMessage.toBytes]
    rw [hsplit, List.take_left' (by simp)]
  rw [hplace, hplace] at h
  obtain ⟨hepoch, h⟩ := List.append_inj h (by simp)
  obtain ⟨hleaf, hcounter⟩ := List.append_inj h (by simp)
  exact ⟨leBytes_inj (lt_word8 hm.epoch) (lt_word8 hm'.epoch) hepoch,
    leBytes_inj (lt_word4 hm.senderLeafPosition) (lt_word4 hm'.senderLeafPosition) hleaf,
    leBytes_inj (lt_word8 hm.counter) (lt_word8 hm'.counter) hcounter⟩

theorem Said.Made.leaf_eq {x : Said ι} {m : EncryptedMessage} (h : x.Made changes sessions m) :
    m.senderLeafPosition = (sessions x.sender).ourLeafPosition := by
  obtain ⟨t, _, hin, hmade⟩ := h.made
  exact hmade.leaf.trans hin.leaf_eq

/-- What is sent behind the watermark lies where nothing was sent. -/
theorem Chat.Kept.place_fresh
    (hleaf : ∀ i j, i ≠ j → (sessions i).ourLeafPosition ≠ (sessions j).ourLeafPosition)
    (h : c.Kept changes sessions) {x : Said ι} {m : EncryptedMessage}
    (hmade : x.Made changes sessions m) {w : SessionWatermark}
    (hbelow : ∀ y ∈ c.said, y.sender = x.sender → ∃ m', y.Made changes sessions m' ∧
      m'.position < w.position) (hle : w.position ≤ m.position) :
    x.message.take 20 ∉ c.said.map (·.message.take 20) := by
  intro hmem
  obtain ⟨y, hy, hplace⟩ := List.mem_map.mp hmem
  by_cases hsender : y.sender = x.sender
  · obtain ⟨m', hmade', hlt⟩ := hbelow y hy hsender
    rw [hmade'.message_eq, hmade.message_eq] at hplace
    obtain ⟨hepoch, _, hcounter⟩ := place_inj hplace hmade'.inRange hmade.inRange
    rw [EncryptedMessage.position, hepoch, hcounter] at hlt
    exact (hlt.trans_le hle).false
  · obtain ⟨_, _, hmessages⟩ := h.seats y.sender
    obtain ⟨m', hmade', _⟩ := hmessages y hy rfl
    rw [hmade'.message_eq, hmade.message_eq] at hplace
    obtain ⟨_, hplace, _⟩ := place_inj hplace hmade'.inRange hmade.inRange
    rw [hmade'.leaf_eq, hmade.leaf_eq] at hplace
    exact hleaf _ _ hsender hplace

theorem Chat.Kept.step [DecidableEq ι] (hkp : W.KeyPairCodec)
    (hleaf : ∀ i j, i ≠ j → (sessions i).ourLeafPosition ≠ (sessions j).ourLeafPosition)
    (h : c.Kept changes sessions) (hstep : ChatStep W changes c c') : c'.Kept changes sessions := by
  cases hstep with
  | @sent i plaintext reply watermark hcall hmark =>
    obtain ⟨w, hkept, hbelow⟩ := h.seats i
    obtain ⟨s, hload, hin, hle⟩ := hkept.current
    obtain ⟨m, hencrypt, rfl⟩ := (cocoaEncrypt_eq_ok hload).mp hcall
    obtain ⟨hplace, _, hcounter, _⟩ := encrypt_ok hencrypt
    have hlive := Live.of_load hload
    have hnext := (hlive.counted hcounter).load hkp
    rw [cocoaSessionWatermark_of_load hnext, Except.ok.injEq] at hmark
    subst hmark
    have hmade : Said.Made changes sessions ⟨i, plaintext, m.toBytes⟩ m :=
      ⟨rfl, s, hlive, hin, encrypt_madeBy hencrypt⟩
    have hforward := position_counted s
    refine ⟨?_, ?_⟩
    · intro j
      by_cases hij : j = i
      · subst hij
        have hstored := hkept.stored_next hnext hin.counted (hle.trans hforward.le)
        simp only [Function.update_self]
        refine ⟨.ofSession s.counted, ⟨watermarkFromBytes_ofSession (hlive.counted hcounter),
          ⟨_, hnext, hin.counted, le_rfl⟩, hstored.stored⟩, ?_⟩
        intro x hx hsender
        obtain hx | hx := List.mem_append.mp hx
        · obtain ⟨m', hmade', hlt⟩ := hbelow x hx hsender
          exact ⟨m', hmade', (hlt.trans_le hle).trans hforward⟩
        · rw [List.mem_singleton.mp hx]
          exact ⟨m, hmade, hplace.trans_lt hforward⟩
      · simp only [Function.update_of_ne hij]
        obtain ⟨w', hkept', hbelow'⟩ := h.seats j
        refine ⟨w', hkept', ?_⟩
        intro x hx hsender
        obtain hx | hx := List.mem_append.mp hx
        · exact hbelow' x hx hsender
        · rw [List.mem_singleton.mp hx] at hsender
          exact absurd hsender.symm hij
    · rw [List.map_append, List.map_singleton, List.nodup_append]
      refine ⟨h.fresh, List.nodup_singleton _, ?_⟩
      intro a ha b hb hab
      rw [List.mem_singleton.mp hb] at hab
      exact h.place_fresh hleaf hmade hbelow (hle.trans hplace.ge) (hab ▸ ha)
  | @advanced i s reply hload hcall =>
    obtain ⟨hepoch, rfl⟩ := (cocoaAdvanceEpoch_eq_ok hload).mp hcall
    refine h.update i ?_
    intro w hkept
    obtain ⟨t, ht, hin, hle⟩ := hkept.current
    obtain rfl := Except.ok.inj (hload.symm.trans ht)
    have hnext := ((Live.of_load hload).advanceEpoch hepoch (changes s.epochNumber).1
      (changes s.epochNumber).2).load hkp
    have hforward : s.position < (s.advanceEpoch (changes s.epochNumber).1
        (changes s.epochNumber).2).position :=
      Prod.Lex.toLex_lt_toLex.mpr (.inl (Nat.lt_succ_self _))
    exact ⟨w, hkept.stored_next hnext hin.advanced (hle.trans hforward.le), le_rfl⟩
  | @rotated i coins reply hcall =>
    refine h.update i ?_
    intro w hkept
    obtain ⟨s, hload, hin, hle⟩ := hkept.current
    obtain ⟨keypair, hsession⟩ := cocoaRotateKeypair_ok hload hcall
    have hnext := ((Live.of_load hload).rotated keypair).load hkp
    rw [hsession]
    exact ⟨w, hkept.stored_next hnext (hin.rotated keypair) hle, le_rfl⟩
  | @restored i session groupId userId reply hstored hcall =>
    refine h.update i ?_
    intro w hkept
    obtain ⟨s, hload, hin⟩ := hkept.stored session hstored
    obtain ⟨_, _, hle, rfl⟩ := (cocoaDeserializeChecked_eq_ok hload hkept.mark).mp hcall
    have hlive := Live.of_load hload
    exact ⟨.ofSession s, ⟨watermarkFromBytes_ofSession hlive, ⟨s, hlive.load hkp, hin, le_rfl⟩,
      hkept.stored⟩, hle⟩

/-- A message that was made is read back from its bytes. -/
theorem Said.Made.fromBytes {x : Said ι} {m : EncryptedMessage} (h : x.Made changes sessions m)
    (hsize : m.ciphertext.length ≤ maxMessageSize) :
    EncryptedMessage.fromBytes x.message = .ok m := by
  have hcodec := EncryptedMessage.fromBytes_append (h.inRange.fits hsize) []
  rwa [List.append_nil, ← h.message_eq] at hcodec

/-- It is decrypted in its epoch, to its plaintext, and in no other. -/
theorem Said.Made.decrypt_iff (haead : IdealCipher W.aeadEncrypt W.aeadDecrypt)
    (hshared : ∀ i j, EpochShared (sessions i) (sessions j)) {x : Said ι} {m : EncryptedMessage}
    (h : x.Made changes sessions m) (hsize : m.ciphertext.length ≤ maxMessageSize) {i : ι}
    {s : CocoaSession W.toPrimitives} {session : Bytes}
    (hload : deserializeCocoaSession W.toWirePrimitives session = .ok s)
    (hin : InStep changes (sessions i) s) (plaintext : Bytes) :
    cocoaDecrypt W session x.message = .ok plaintext ↔
      s.epochNumber = m.epoch ∧ plaintext = x.plaintext := by
  obtain ⟨t, _, hint, hmade⟩ := h.made
  have hopens (hepoch : s.epochNumber = m.epoch) : s.decrypt W.aeadDecrypt m = .ok x.plaintext :=
    hmade.decrypt haead
      (hint.shared (hshared _ _) hin (hmade.epoch.symm.trans hepoch.symm)) hsize
  simp only [cocoaDecrypt_eq_ok hload, h.fromBytes hsize, Except.ok.injEq, exists_eq_left']
  constructor
  · intro hdecrypt
    have hepoch : s.epochNumber = m.epoch := (decrypt_eq_ok.mp hdecrypt).2.1.symm
    exact ⟨hepoch, Except.ok.inj (hdecrypt.symm.trans (hopens hepoch))⟩
  · intro hresult
    obtain ⟨hepoch, rfl⟩ := hresult
    exact hopens hepoch

end Kept

/-- In every run, the members whose sessions are in the epoch of a message decrypt it, to
its plaintext, and the others do not decrypt it; and no two messages have the same epoch,
leaf and counter, which are the first twenty bytes of a message. -/
theorem chat_delivers [DecidableEq ι] (hkp : W.KeyPairCodec)
    (haead : IdealCipher W.aeadEncrypt W.aeadDecrypt) {changes : Nat → Bytes32 × Bytes32}
    {sessions : ι → CocoaSession W.toPrimitives} {c : Chat ι}
    (h : Reachable (Chat.Opens sessions) (ChatStep W changes) c) :
    (∀ x ∈ c.said, ∃ m : EncryptedMessage, x.message = m.toBytes ∧
      m.senderLeafPosition = (sessions x.sender).ourLeafPosition ∧
        (m.ciphertext.length ≤ maxMessageSize → EncryptedMessage.fromBytes x.message = .ok m ∧
          ∀ i, ∃ s, deserializeCocoaSession W.toWirePrimitives (c.seats i).session = .ok s ∧
            ∀ plaintext, cocoaDecrypt W (c.seats i).session x.message = .ok plaintext ↔
              s.epochNumber = m.epoch ∧ plaintext = x.plaintext)) ∧
      (c.said.map (·.message.take 20)).Nodup := by
  obtain ⟨hkept, hshared, _⟩ := h.invariant (I := fun c => c.Kept changes sessions ∧
      (∀ i j, EpochShared (sessions i) (sessions j)) ∧
        ∀ i j, i ≠ j → (sessions i).ourLeafPosition ≠ (sessions j).ourLeafPosition)
    (by
      intro c hopens
      exact ⟨hopens.kept, hopens.shared, hopens.leaf_ne⟩)
    (by
      intro c c' hinv hstep
      obtain ⟨hkept, hshared, hleaf⟩ := hinv
      exact ⟨hkept.step hkp hleaf hstep, hshared, hleaf⟩)
  refine ⟨?_, hkept.fresh⟩
  intro x hx
  obtain ⟨_, _, hmessages⟩ := hkept.seats x.sender
  obtain ⟨m, hmade, _⟩ := hmessages x hx rfl
  refine ⟨m, hmade.message_eq, hmade.leaf_eq, ?_⟩
  intro hsize
  refine ⟨hmade.fromBytes hsize, ?_⟩
  intro i
  obtain ⟨_, hseat, _⟩ := hkept.seats i
  obtain ⟨s, hload, hin, _⟩ := hseat.current
  exact ⟨s, hload, hmade.decrypt_iff haead hshared hsize hload hin⟩

section Sample

open Symbolic

/-- The members of a group of two, as they are loaded. -/
def chatMember (second : Bool) : CocoaSession groupSample.toPrimitives :=
  (wireMember second.toNat 10
    ((PartialTreeView.new wireSample.toPrimitives second.toNat 1).setMemberCount 2)).reloaded

theorem live_chatMember (second : Bool) : Live (W := groupSample) (chatMember second) := by
  cases second
  · exact ⟨⟨by decide, by decide, by decide, by decide, by decide⟩, ⟨rfl, rfl⟩, rfl⟩
  · exact ⟨⟨by decide, by decide, by decide, by decide, by decide⟩, ⟨rfl, rfl⟩, rfl⟩

/-- Both members have stored their sessions. -/
def chatSeat (second : Bool) : Seat where
  session := serializeCocoaSession (chatMember second)
  stored := [serializeCocoaSession (chatMember second)]
  watermark := watermarkToBytes (.ofSession (chatMember second))

theorem opens_chatSeat : Chat.Opens (W := groupSample) chatMember ⟨chatSeat, []⟩ where
  load second := (live_chatMember second).load wireSample_keyPairCodec
  stored _ := rfl
  watermark second :=
    cocoaSessionWatermark_of_load ((live_chatMember second).load wireSample_keyPairCodec)
  shared _ _ := ⟨rfl, rfl, rfl⟩
  leaf_ne := by decide
  said := rfl

/-- The first member writes to the second one. -/
theorem chat_delivers_pair :
    ∃ reply, cocoaEncrypt groupSample (serializeCocoaSession (chatMember false)) [1, 2, 3] =
        .ok reply ∧
      cocoaDecrypt groupSample (serializeCocoaSession (chatMember true)) reply.encryptedMessage =
        .ok [1, 2, 3] := by
  have hload (second : Bool) := (live_chatMember second).load wireSample_keyPairCodec
  obtain ⟨m, hencrypt, hsize⟩ : ∃ m : EncryptedMessage,
      (chatMember false).encrypt encryptCommitting [1, 2, 3] =
        some (.ok m (chatMember false).counted) ∧ m.ciphertext.length ≤ maxMessageSize :=
    ⟨_, rfl, by decide +kernel⟩
  have hmade := encrypt_madeBy hencrypt
  have hread := EncryptedMessage.fromBytes_append
    ((hmade.inRange ⟨by decide, by decide⟩).fits hsize) []
  rw [List.append_nil] at hread
  have hcall := (cocoaEncrypt_eq_ok (W := groupSample) (hload false)).mpr ⟨m, hencrypt, rfl⟩
  obtain ⟨_, _, hcounter, _⟩ := encrypt_ok hencrypt
  have hnext := ((live_chatMember false).counted hcounter).load wireSample_keyPairCodec
  have hstep : ChatStep groupSample (fun _ => (zero32, zero32)) ⟨chatSeat, []⟩ _ :=
    .sent hcall (cocoaSessionWatermark_of_load hnext)
  obtain ⟨m', hmessage, _, hreads⟩ :=
    (chat_delivers wireSample_keyPairCodec idealCipher_symbolic
      ((Reachable.start opens_chatSeat).next hstep)).1 _ (List.mem_singleton_self _)
  have hlength : m.ciphertext.length = m'.ciphertext.length := by
    have hbytes := congrArg List.length hmessage
    simpa [EncryptedMessage.toBytes] using hbytes
  obtain ⟨hread', hreads⟩ := hreads (hlength ▸ hsize)
  obtain rfl : m = m' := Except.ok.inj (hread.symm.trans hread')
  obtain ⟨s, hs, hdecrypt⟩ := hreads true
  obtain rfl : chatMember true = s := Except.ok.inj ((hload true).symm.trans hs)
  exact ⟨_, hcall, (hdecrypt _).mpr ⟨hmade.epoch.symm, rfl⟩⟩

end Sample

end Trelis.Wasm
