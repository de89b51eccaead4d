import Trelis.Cocoa.Stored
import Trelis.Wasm.Sample

/-!
# Stored CoCoA sessions

`serialize_cocoa_session`, `deserialize_cocoa_session` and the restore behind a
watermark, of the WASM crate.

A stored session is 1975 bytes of fixed fields.  An older form of 1935 bytes,
without an epoch secret and a message counter, is read as well.
`deserialize_serializeCocoaSession` says that what comes back of a live session
is the session of `CocoaSession.reloaded`.  The registry of members is not
stored, on purpose, and neither are the nodes of the tree.  `session_storage` is
about all the rest, and about sessions that had no nodes to lose.
-/

namespace Trelis.Wasm

open Cocoa

variable {W : WirePrimitives}

/-! ## The codec -/

def cocoaWasmLegacySessionContext : String := "trelis-cocoa-wasm-session-v1"

/-- `serialize_cocoa_session`. -/
def serializeCocoaSession (s : CocoaSession W.toPrimitives) : Bytes :=
  [s.groupId.val, s.ourUserId.val, leBytes 8 s.epochNumber, leBytes 4 s.ourLeafPosition,
    leBytes 4 s.memberCount, leBytes 4 s.tree.treeDepth, s.transcriptHash.val,
    s.currentEpochSecret.val, leBytes 8 s.epoch.messageCounter,
    (W.keyPairToBytes s.ourKeypair).val].flatten

/-- `parse_cocoa_session_v2`. -/
def parseCocoaSessionV2 (W : WirePrimitives) (bytes : Bytes) : Result (Snapshot W.toPrimitives) :=
  if h : bytes.length < 32 + 32 + 8 + 4 + 4 + 4 + 32 + 1819 then .error .malformedMessage
  else do
    let transcriptHash := arrayAt 32 bytes 84 (by omega)
    let (epochSecret, messageCounter, keypairOffset) :=
      if hnew : 32 + 32 + 8 + 4 + 4 + 4 + 32 + 32 + 8 + 1819 ≤ bytes.length then
        (arrayAt 32 bytes 116 (by omega), wordAt 8 bytes 148 (by omega), 156)
      else (W.deriveKey cocoaWasmLegacySessionContext transcriptHash.val, 0, 116)
    let ourKeypair ← W.keyPairFromBytes (sliceAt bytes keypairOffset 1819)
    pure
      { groupId := arrayAt 32 bytes 0 (by omega)
        ourUserId := arrayAt 32 bytes 32 (by omega)
        epochNumber := wordAt 8 bytes 64 (by omega)
        ourPosition := wordAt 4 bytes 72 (by omega)
        memberCount := wordAt 4 bytes 76 (by omega)
        treeDepth := wordAt 4 bytes 80 (by omega)
        transcriptHash, epochSecret, messageCounter, ourKeypair }

/-- `deserialize_cocoa_session`. -/
def deserializeCocoaSession (W : WirePrimitives) (bytes : Bytes) :
    Result (CocoaSession W.toPrimitives) := do
  let p ← parseCocoaSessionV2 W bytes
  p.restoreSession.setMessageCounter p.messageCounter

/-- `SessionWatermark::from_bytes`. -/
def watermarkFromBytes (bytes : Bytes) : Result SessionWatermark :=
  if h : bytes.length < 16 then .error .malformedMessage
  else .ok ⟨wordAt 8 bytes 0 (by omega), wordAt 8 bytes 8 (by omega)⟩

/-- `deserialize_cocoa_session_checked`. -/
def deserializeCocoaSessionChecked (W : WirePrimitives) (session watermark expectedGroupId
    expectedUserId : Bytes) : Result (CocoaSession W.toPrimitives × SessionWatermark) := do
  let p ← parseCocoaSessionV2 W session
  rejectIf (p.groupId.val ≠ expectedGroupId ∨ p.ourUserId.val ≠ expectedUserId) .malformedMessage
  let wm ← watermarkFromBytes watermark
  let restored ← p.restoreSessionChecked wm
  pure (restored, wm.advanced p.epochNumber p.messageCounter)

/-! ## What comes back -/

/-- The numbers of a session are words of the types that the source gives
them. -/
structure SessionInWords (s : CocoaSession W.toPrimitives) : Prop where
  epochNumber_lt : s.epochNumber < 2 ^ 64
  ourLeafPosition_lt : s.ourLeafPosition < 2 ^ 32
  memberCount_lt : s.memberCount < 2 ^ 32
  treeDepth_lt : s.tree.treeDepth < 2 ^ 32
  messageCounter_lt : s.epoch.messageCounter < 2 ^ 64

/-- What is stored is read back. -/
theorem parse_serializeCocoaSession (hkp : W.KeyPairCodec) {s : CocoaSession W.toPrimitives}
    (h : SessionInWords s) :
    parseCocoaSessionV2 W (serializeCocoaSession s) = .ok (.ofSession s) := by
  have hlen : (serializeCocoaSession s).length = 1975 := by
    simp [serializeCocoaSession]
  have hkeypair : sliceAt (serializeCocoaSession s) 156 1819 =
      (W.keyPairToBytes s.ourKeypair).val :=
    sliceAt_flatten (i := 9) rfl (by simp) (by simp)
  unfold parseCocoaSessionV2
  rw [dif_neg (by omega)]
  simp only [dif_pos (show 32 + 32 + 8 + 4 + 4 + 4 + 32 + 32 + 8 + 1819 ≤
    (serializeCocoaSession s).length by omega)]
  rw [hkeypair, hkp.fromBytes_toBytes]
  show Except.ok (Snapshot.mk _ _ _ _ _ _ _ _ _ _) = Except.ok (Snapshot.mk _ _ _ _ _ _ _ _ _ _)
  rw [Except.ok.injEq, Snapshot.mk.injEq]
  exact ⟨arrayAt_flatten (i := 0) rfl rfl _, arrayAt_flatten (i := 1) rfl (by simp) _, rfl,
    wordAt_flatten (i := 3) rfl (by simp) (lt_word4 h.ourLeafPosition_lt) _,
    wordAt_flatten (i := 5) rfl (by simp) (lt_word4 h.treeDepth_lt) _,
    wordAt_flatten (i := 4) rfl (by simp) (lt_word4 h.memberCount_lt) _,
    arrayAt_flatten (i := 7) rfl (by simp) _, arrayAt_flatten (i := 6) rfl (by simp) _,
    wordAt_flatten (i := 2) rfl (by simp) (lt_word8 h.epochNumber_lt) _,
    wordAt_flatten (i := 8) rfl (by simp) (lt_word8 h.messageCounter_lt) _⟩

theorem deserialize_serializeCocoaSession (hkp : W.KeyPairCodec) {s : CocoaSession W.toPrimitives}
    (h : SessionInWords s) (hstorable : Storable s) :
    deserializeCocoaSession W (serializeCocoaSession s) = .ok s.reloaded := by
  rw [deserializeCocoaSession, parse_serializeCocoaSession hkp h]
  exact hstorable.restore

/-- A restore behind a watermark that succeeds gives the session of the plain
one. -/
theorem deserialize_of_checked {session watermark groupId userId : Bytes}
    {s : CocoaSession W.toPrimitives} {advanced : SessionWatermark}
    (h : deserializeCocoaSessionChecked W session watermark groupId userId = .ok (s, advanced)) :
    deserializeCocoaSession W session = .ok s := by
  simp only [deserializeCocoaSessionChecked, Snapshot.restoreSessionChecked, Except.bind_eq_ok,
    Except.pure_eq_ok, Prod.mk.injEq] at h
  obtain ⟨p, hparse, _, _, wm, _, _, ⟨_, _, hset⟩, rfl, _⟩ := h
  rw [deserializeCocoaSession, hparse]
  exact hset

/-- A session that is stored and loaded keeps every value outside the nodes of its
tree, and of the members it knows itself.  It sends and receives messages as the
session does; it is the session with itself as the only member, if that had no
nodes; and a restore behind a watermark gives the same. -/
theorem session_storage (hkp : W.KeyPairCodec) (cipher decipher : MessageCipher) :
    (∀ s : CocoaSession W.toPrimitives,
      Reachable (Started fun _ => True) (SessionStep cipher) s → SessionInWords s →
        ∃ t, deserializeCocoaSession W (serializeCocoaSession s) = .ok t ∧
          t = { s with tree := t.tree, members := {s.ourUserId} } ∧
          t.tree.ourLeaf = s.tree.ourLeaf ∧ t.tree.treeDepth = s.tree.treeDepth ∧
          t.memberCount = s.memberCount ∧
          (∀ calls, replies cipher decipher t calls = replies cipher decipher s calls) ∧
          (s.tree.nodes = ∅ → t = { s with members := {s.ourUserId} })) ∧
    ∀ session watermark groupId userId s advanced,
      deserializeCocoaSessionChecked W session watermark groupId userId = .ok (s, advanced) →
        deserializeCocoaSession W session = .ok s := by
  constructor
  · intro s hs hwords
    have hstorable := Storable.of_reachable hs
    refine ⟨s.reloaded, deserialize_serializeCocoaSession hkp hwords hstorable, rfl,
      hstorable.ourLeaf_eq.symm, rfl, rfl, ?_, hstorable.reloaded_of_empty⟩
    intro calls
    exact (sameChannel_reloaded s).replies_eq cipher decipher calls
  · intro session watermark groupId userId s advanced h
    exact deserialize_of_checked h

section Sample

open Symbolic

/-- The creator of a group of one. -/
def wireCreator : CocoaSession wireSample.toPrimitives :=
  wireMember 0 10 ((PartialTreeView.new wireSample.toPrimitives 0 0).setMemberCount 1)

theorem started_wireCreator (admits : Welcome wireSample.toPrimitives → Prop) :
    Started admits wireCreator :=
  .created (show createGroup (P := wireSample.toPrimitives) (word 50) (word 10) (word 0) []
    ⟨.ok (word 1), .ok (word 2), fun n => ⟨n, .ok (FixedBytes.zero 24), n⟩⟩ =
      .ok (wireCreator, []) from rfl)

/-- The adding of the user number 9. -/
def addNinth : SessionM wireSample.toPrimitives (Message wireSample.toPrimitives) :=
  (Operation.add (P := wireSample.toPrimitives) ⟨word 30, word 31⟩ (word 9)).build (word 50)
    (wireDraws 500)

/-- The second member of the creator's group, with the keys of both leaves. -/
def wireSecond (s : CocoaSession wireSample.toPrimitives) :
    CocoaSession wireSample.toPrimitives :=
  { wireMember 1 11 wireTree with epoch := s.epoch, transcriptHash := s.transcriptHash }

/-- The creator adds a member, and accepts an update by the second one. -/
theorem exists_populated :
    ∃ s : CocoaSession wireSample.toPrimitives,
      Reachable (Started fun _ => True) (SessionStep Symbolic.encryptCommitting) s ∧
        SessionInWords s ∧ s.tree.nodes.isEmpty = false ∧ s.memberCount = 2 := by
  have hrun : okAnd (addNinth wireCreator) fun _ s =>
      okAnd (createUpdate (P := wireSample.toPrimitives) (word 50) (wireDraws 600)
        (wireSecond s)) fun c _ =>
          okAnd ((Commit.update c).process (word 50) s) fun _ s' =>
            !s'.tree.nodes.isEmpty && (s'.memberCount = 2 && (s'.epochNumber < 2 ^ 64 &&
              (s'.ourLeafPosition < 2 ^ 32 && (s'.tree.treeDepth < 2 ^ 32 &&
                s'.epoch.messageCounter < 2 ^ 64)))) := by
    decide +kernel
  obtain ⟨m, s, hadd, hnext⟩ := okAnd_eq_true.mp hrun
  obtain ⟨c, _, _, hprocessed⟩ := okAnd_eq_true.mp hnext
  obtain ⟨_, s', hprocess, htest⟩ := okAnd_eq_true.mp hprocessed
  simp only [Bool.and_eq_true, Bool.not_eq_true', decide_eq_true_eq] at htest
  obtain ⟨hnodes, hcount, hepoch, hleaf, hdepth, hcounter⟩ := htest
  refine ⟨s', ?_, ⟨hepoch, hleaf, by omega, hdepth, hcounter⟩, hnodes, hcount⟩
  exact .next (.next (.start (started_wireCreator _)) (.moved (.built hadd)))
    (.moved (.accepted hprocess trivial))

/-- Of a creator who accepted an update by the second member, and with it the
nodes of a path, every value outside of the tree comes back.  So does all of a
creator who is alone. -/
theorem session_storage_updated :
    (∃ s t, s.tree.nodes.isEmpty = false ∧
      deserializeCocoaSession wireSample (serializeCocoaSession s) = .ok t ∧
      t = { s with tree := t.tree, members := {s.ourUserId} } ∧ t.memberCount = 2) ∧
    deserializeCocoaSession wireSample (serializeCocoaSession wireCreator) =
      .ok { wireCreator with members := {word 0} } := by
  obtain ⟨hstored, _⟩ := session_storage wireSample_keyPairCodec Symbolic.encryptCommitting
    Symbolic.encryptCommitting
  constructor
  · obtain ⟨s, hreach, hwords, hnodes, hcount⟩ := exists_populated
    obtain ⟨t, hload, hvalues, _, _, hmembers, _⟩ := hstored s hreach hwords
    exact ⟨s, t, hnodes, hload, hvalues, hmembers.trans hcount⟩
  · obtain ⟨t, hload, _, _, _, _, _, hsame⟩ := hstored wireCreator (.start (started_wireCreator _))
      ⟨by decide, by decide, by decide, by decide, by decide⟩
    rw [hload, hsame rfl]
    rfl

/-- A member that was added cannot be added again, and after a reload it can. -/
theorem reload_admits_duplicate :
    ∃ s t, Reachable (Started fun _ => True) (SessionStep Symbolic.encryptCommitting) s ∧
      SessionInWords s ∧ deserializeCocoaSession wireSample (serializeCocoaSession s) = .ok t ∧
      (∃ s', addNinth s = .error .duplicateMember s') ∧ ∃ m t', addNinth t = .ok m t' := by
  have hrun : okAnd (addNinth wireCreator) fun _ s =>
      failsWith (addNinth s) .duplicateMember && (okAnd (addNinth s.reloaded) (fun _ _ => true) &&
        (s.epochNumber < 2 ^ 64 && (s.ourLeafPosition < 2 ^ 32 && (s.memberCount < 2 ^ 32 &&
          (s.tree.treeDepth < 2 ^ 32 && s.epoch.messageCounter < 2 ^ 64))))) := by
    decide +kernel
  obtain ⟨m, s, hadd, htest⟩ := okAnd_eq_true.mp hrun
  simp only [Bool.and_eq_true, okAnd_eq_true, failsWith_eq_true, decide_eq_true_eq] at htest
  obtain ⟨hduplicate, ⟨m', t', hagain, _⟩, hepoch, hleaf, hcount, hdepth, hcounter⟩ := htest
  have hreach : Reachable (Started fun _ => True) (SessionStep Symbolic.encryptCommitting) s :=
    .next (.start (started_wireCreator _)) (.moved (.built hadd))
  have hwords : SessionInWords s := ⟨hepoch, hleaf, hcount, hdepth, hcounter⟩
  exact ⟨s, s.reloaded, hreach, hwords,
    deserialize_serializeCocoaSession wireSample_keyPairCodec hwords (.of_reachable hreach),
    hduplicate, m', t', hagain⟩

end Sample

end Trelis.Wasm
