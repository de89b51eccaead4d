import Trelis.Cocoa.WelcomeJoin
import Trelis.Wasm.GroupApi

/-!
# Founding and joining between stored sessions

The calls of the WASM crate that make a session, put together.

A session that was founded or joined has no nodes and knows itself only, so its bytes are
loaded as exactly this session.  `cocoa_create_group` founds a group of one, and passes on
no welcome.  The welcomes that the crate makes are those of `cocoa_add_member`, and
`cocoa_process_welcome` opens none of them (`joining_calls`).
-/

namespace Trelis.Wasm

open Cocoa

variable {W : GroupWire}

/-! ## Welcomes on the wire -/

/-- Two welcomes, one of which begins as the other, have one encrypted part, if its length
fits its word. -/
theorem encryptedInfo_eq_of_append {w w' : Welcome W.toPrimitives} {rest : Bytes}
    (hfit : w.encryptedInfo.length < 2 ^ 32) (hfit' : w'.encryptedInfo.length < 2 ^ 32)
    (h : serializeWelcome (W := W.toWirePrimitives) w' ++ rest =
      serializeWelcome (W := W.toWirePrimitives) w) :
    w'.encryptedInfo = w.encryptedInfo := by
  simp only [serializeWelcome, List.flatten_cons, List.append_assoc] at h
  obtain ⟨_, h⟩ := List.append_inj h (by simp)
  obtain ⟨_, h⟩ := List.append_inj h (by simp)
  obtain ⟨_, h⟩ := List.append_inj h (by simp)
  obtain ⟨_, h⟩ := List.append_inj h (by simp)
  obtain ⟨_, h⟩ := List.append_inj h (by simp)
  obtain ⟨hlen, h⟩ := List.append_inj h (by simp)
  have hlen := leBytes_inj (lt_word4 hfit') (lt_word4 hfit) hlen
  exact (List.append_inj h hlen).1

/-- What is read from the bytes of a welcome has its encrypted part. -/
theorem encryptedInfo_of_deserialize (hsig : W.SignatureCodec) {bits : Nat}
    {w w' : Welcome W.toPrimitives} (hfit : w.encryptedInfo.length < 2 ^ 32)
    (h : deserializeWelcome W.toWirePrimitives bits (serializeWelcome w) = .ok w') :
    w'.encryptedInfo = w.encryptedInfo := by
  obtain ⟨hbytes, _, hfit', _⟩ := serialize_deserializeWelcome hsig h
  exact encryptedInfo_eq_of_append hfit hfit' hbytes

/-- The numbers that are read fit the words that they are read from. -/
theorem deserializeWelcome_inWords {bits : Nat} {bytes : Bytes} {w : Welcome W.toPrimitives}
    (h : deserializeWelcome W.toWirePrimitives bits bytes = .ok w) :
    WelcomeInWords (W := W.toWirePrimitives) w := by
  have hword4 : ∀ start (h : start + 4 ≤ bytes.length), wordAt 4 bytes start h < 2 ^ 32 :=
    fun _ h => (wordAt_lt h).trans_eq (by decide)
  have hword8 : ∀ start (h : start + 8 ≤ bytes.length), wordAt 8 bytes start h < 2 ^ 64 :=
    fun _ h => (wordAt_lt h).trans_eq (by decide)
  unfold deserializeWelcome at h
  split at h
  · cases h
  · simp only at h
    split_ifs at h
    simp only [Except.bind_eq_ok, debugError_eq_ok, Except.pure_eq_ok] at h
    obtain ⟨_, _, rfl⟩ := h
    exact ⟨hword8 32 (by omega), hword4 40 (by omega), hword4 44 (by omega), hword4 48 (by omega)⟩

/-! ## Sessions that begin -/

/-- A group that is founded without other members. -/
theorem createGroup_alone {identity : W.IdentityKeyPair} {kem : W.KeyPair} {userId : UserId}
    {draws : CreateGroupDraws W.toPrimitives} {s : CocoaSession W.toPrimitives}
    {welcomes : List (Welcome W.toPrimitives)}
    (h : createGroup identity kem userId [] draws = .ok (s, welcomes)) :
    welcomes = [] ∧ Live s ∧ s.ourUserId = userId ∧ s.ourLeafPosition = 0 ∧ s.epochNumber = 0 ∧
      s.memberCount = 1 := by
  simp only [createGroup, CocoaSession.createGroup, Except.bind_eq_ok, rejectIf_eq_ok,
    Except.pure_eq_ok, Prod.mk.injEq] at h
  obtain ⟨_, _, groupId, _, epochSecret, _, _, ⟨_, _, rfl⟩, _, hwelcomes, rfl, rfl⟩ := h
  refine ⟨(Except.ok.inj hwelcomes).symm, ⟨?_, ⟨rfl, rfl⟩, rfl⟩, rfl, rfl, rfl, rfl⟩
  exact ⟨Nat.two_pow_pos 64, Nat.two_pow_pos 32, show (1 : Nat) < 2 ^ 32 by decide,
    show PartialTreeView.depthForMembers 1 < 2 ^ 32 by decide +kernel, Nat.two_pow_pos 64⟩

/-- A session that joins is one of epoch 0 that has moved on. -/
theorem processWelcome_iterate {P : Primitives} {userId : UserId} {kem : P.KeyPair}
    {w : Welcome P} {committer : P.IdentityPublicKey} {s : CocoaSession P}
    (h : processWelcome userId kem w committer = .ok s) :
    ∃ epochSecret transcript, s = (fun s => s.advanceEpoch zero32 transcript)^[w.epoch]
      (.joinGroup w.groupId userId kem w.leafPosition w.treeDepth w.memberCount epochSecret
        transcript) := by
  simp only [processWelcome, Except.bind_eq_ok] at h
  obtain ⟨_, _, _, _, _, _, _, _, _, _, _, _, plaintext, _, _, _, epochSecret, _, transcript, _,
    h⟩ := h
  refine ⟨epochSecret, transcript, ?_⟩
  split at h
  · exact (Except.pure_eq_ok.mp h).symm
  · simp only [Except.bind_eq_ok, Except.pure_eq_ok] at h
    obtain ⟨_, _, _, _, rfl⟩ := h
    rfl

theorem Live.iterate_advanceEpoch {s : CocoaSession W.toPrimitives} (h : Live s)
    (transcript : Bytes32) {n : Nat} (hn : s.epochNumber + n < 2 ^ 64) :
    Live ((fun s : CocoaSession W.toPrimitives => s.advanceEpoch zero32 transcript)^[n] s) ∧
      ((fun s : CocoaSession W.toPrimitives =>
        s.advanceEpoch zero32 transcript)^[n] s).epochNumber = s.epochNumber + n := by
  induction n with
  | zero => exact ⟨h, rfl⟩
  | succ n ih =>
    obtain ⟨hlive, hnumber⟩ := ih (by omega)
    rw [Function.iterate_succ_apply']
    exact ⟨hlive.advanceEpoch (by omega) zero32 transcript, congrArg (· + 1) hnumber⟩

theorem live_of_processWelcome {userId : UserId} {kem : W.KeyPair} {w : Welcome W.toPrimitives}
    {committer : W.IdentityPublicKey} {s : CocoaSession W.toPrimitives}
    (hwords : WelcomeInWords (W := W.toWirePrimitives) w)
    (h : processWelcome userId kem w committer = .ok s) : Live s ∧ s.epochNumber = w.epoch := by
  obtain ⟨epochSecret, transcript, rfl⟩ := processWelcome_iterate h
  have hjoined : Live (CocoaSession.joinGroup (P := W.toPrimitives) w.groupId userId kem
      w.leafPosition w.treeDepth w.memberCount epochSecret transcript) :=
    ⟨⟨Nat.two_pow_pos 64, hwords.leafPosition_lt, hwords.memberCount_lt, hwords.treeDepth_lt,
      Nat.two_pow_pos 64⟩, ⟨rfl, rfl⟩, rfl⟩
  have hepoch : 0 + w.epoch < 2 ^ 64 := (Nat.zero_add _).trans_lt hwords.epoch_lt
  obtain ⟨hlive, hnumber⟩ := hjoined.iterate_advanceEpoch transcript hepoch
  exact ⟨hlive, hnumber.trans (Nat.zero_add _)⟩

/-! ## The calls -/

/-- The group that `cocoa_create_group` founds has one member, whose session is loaded from
the bytes that are returned, and no welcomes.  What `cocoa_process_welcome` returns is
loaded as the session that has joined.  But it returns nothing for the welcome of
`cocoa_add_member`, whoever calls it. -/
theorem joining_calls (hkp : W.KeyPairCodec) (hsig : W.SignatureCodec)
    (haead : W.toPrimitives.IdealAead) :
    (∀ identitySecret kemSecret userId draws reply,
      cocoaCreateGroup W identitySecret kemSecret userId draws = .ok reply →
        ∃ s, deserializeCocoaSession W.toWirePrimitives reply.session = .ok s ∧
          s.groupId.val = reply.groupId ∧ s.ourUserId.val = userId ∧ s.ourLeafPosition = 0 ∧
          s.epochNumber = 0 ∧ reply.epoch.value = 0 ∧ s.memberCount = 1 ∧
          reply.memberCount.value = 1 ∧ reply.welcomes = []) ∧
    (∀ bits userId kemSecret welcome committer session,
      cocoaProcessWelcome W bits userId kemSecret welcome committer = .ok session →
        ∃ id kem w pk s, id.val = userId ∧ W.keyPairFromBytes kemSecret = .ok kem ∧
          deserializeWelcome W.toWirePrimitives bits welcome = .ok w ∧
          W.identityPublicFromBytes committer = .ok pk ∧ processWelcome id kem w pk = .ok s ∧
          deserializeCocoaSession W.toWirePrimitives session = .ok s ∧ s.epochNumber = w.epoch) ∧
    ∀ session identitySecret memberId memberPublic otk draws reply,
      cocoaAddMember W session identitySecret memberId memberPublic otk draws = .ok reply →
        reply.welcome.length < 2 ^ 32 → ∀ bits userId kemSecret committer joined,
          cocoaProcessWelcome W bits userId kemSecret reply.welcome committer ≠ .ok joined := by
  refine ⟨?_, ?_, ?_⟩
  · intro identitySecret kemSecret userId draws reply h
    simp only [cocoaCreateGroup, Except.bind_eq_ok, readArray32_eq_ok, orThrow_eq_ok,
      Except.pure_eq_ok] at h
    obtain ⟨id, rfl, _, _, _, _, ⟨s, welcomes⟩, hcreate, rfl⟩ := h
    obtain ⟨rfl, hlive, hid, hleaf, hepoch, hcount⟩ := createGroup_alone hcreate
    refine ⟨s, hlive.load hkp, rfl, congrArg Subtype.val hid, hleaf, hepoch, ?_, hcount, ?_, rfl⟩
    · show (asF64 s.epochNumber).value = 0
      rw [hepoch, asF64_value (Nat.zero_le _)]
    · show (asF64 s.memberCount).value = 1
      rw [hcount, asF64_value (Nat.one_le_two_pow)]
  · intro bits userId kemSecret welcome committer session h
    simp only [cocoaProcessWelcome, Except.bind_eq_ok, readArray32_eq_ok, orThrow_eq_ok,
      Except.mapError_eq_ok, Except.pure_eq_ok] at h
    obtain ⟨id, rfl, kem, hkem, pk, hpk, w, hread, s, hjoin, rfl⟩ := h
    obtain ⟨hlive, hepoch⟩ := live_of_processWelcome (deserializeWelcome_inWords hread) hjoin
    exact ⟨id, kem, w, pk, s, rfl, hkem, hread, hpk, hjoin, hlive.load hkp, hepoch⟩
  · intro session identitySecret memberId memberPublic otk draws reply hadd hsize bits userId
      kemSecret committer joined hjoin
    simp only [cocoaAddMember, Except.bind_eq_ok, loadSession_eq_ok, orThrow_eq_ok,
      runSession_eq_ok, Except.pure_eq_ok] at hadd
    obtain ⟨_, _, s, _, _, _, _, _, _, _, ⟨⟨c, w⟩, s'⟩, hcommit, rfl⟩ := hadd
    obtain ⟨_, _, _, _, _, _, _, hwelcome, _⟩ := addMember_ok hcommit
    simp only [cocoaProcessWelcome, Except.bind_eq_ok, orThrow_eq_ok, Except.mapError_eq_ok]
      at hjoin
    obtain ⟨id, _, kem, _, pk, _, w', hread, s', hprocess, _⟩ := hjoin
    have hsize : (serializeWelcome (W := W.toWirePrimitives) w).length < 2 ^ 32 := hsize
    have hfit : w.encryptedInfo.length < 2 ^ 32 := by
      rw [length_serializeWelcome] at hsize
      omega
    exact encryptedInfo_never_opens haead hwelcome (encryptedInfo_of_deserialize hsig hfit hread)
      id kem pk s' hprocess

section Sample

open Symbolic

theorem groupSample_idealAead : groupSample.toPrimitives.IdealAead where
  decrypt_match := by
    intro k n pt aad ct h
    exact idealAead.decrypt_match (n := n) h
  decrypt_other := by
    intro k n pt aad ct k' aad' h hne pt'
    exact idealAead.decrypt_other (n := n) h hne pt'

/-- A founder adds a member, and nobody joins by the welcome. -/
theorem joining_calls_founder :
    ∃ session reply, cocoaAddMember groupSample session (word 50).val (word 9).val (word 30).val
        (word 31).val (wireDraws 500) = .ok reply ∧
      ∀ bits userId kemSecret committer joined,
        cocoaProcessWelcome groupSample bits userId kemSecret reply.welcome committer ≠
          .ok joined := by
  have hload : deserializeCocoaSession wireSample (serializeCocoaSession wireCreator) =
      .ok wireCreator.reloaded :=
    deserialize_serializeCocoaSession wireSample_keyPairCodec
      ⟨by decide, by decide, by decide, by decide, by decide⟩ ⟨rfl, rfl⟩
  have hrun : okAnd (addMember (P := wireSample.toPrimitives) (word 50) ⟨word 30, word 31⟩ (word 9)
      (wireDraws 500) wireCreator.reloaded) fun made _ =>
        made.2.encryptedInfo.length + made.2.encapsulation.length < 2 ^ 31 := by
    decide +kernel
  obtain ⟨⟨c, w⟩, s', hadd, hsize⟩ := okAnd_eq_true.mp hrun
  have hcall : cocoaAddMember groupSample (serializeCocoaSession wireCreator) (word 50).val
      (word 9).val (word 30).val (word 31).val (wireDraws 500) =
        .ok ⟨serializeCocoaSession s', serializeAddCommit c, serializeWelcome w⟩ := by
    simp only [cocoaAddMember, Except.bind_eq_ok, readArray32_eq_ok, loadSession_eq_ok,
      orThrow_eq_ok, runSession_eq_ok, Except.pure_eq_ok]
    exact ⟨word 9, rfl, _, hload, word 50, publicKeyFromBytes_coe (word 50), word 30,
      publicKeyFromBytes_coe (word 30), word 31, publicKeyFromBytes_coe (word 31), ⟨⟨c, w⟩, s'⟩,
      hadd, rfl⟩
  refine ⟨_, _, hcall, ?_⟩
  refine (joining_calls (W := groupSample) wireSample_keyPairCodec wireSample_signatureCodec
    groupSample_idealAead).2.2 _ _ _ _ _ _ _ hcall ?_
  have hlen := length_serializeWelcome (W := wireSample) w
  have hsize := of_decide_eq_true hsize
  show (serializeWelcome (W := wireSample) w).length < 2 ^ 32
  dsimp only at hsize
  omega

end Sample

end Trelis.Wasm
