import Trelis.Cocoa.Welcome
import Trelis.Symbolic

/-!
# The founding of a group

`createGroup` gives its creator a session, and seals a welcome to the identity key of
each initial member.  The holder of that key joins by it (`founders_agree`): with the
group, the epoch and the tree of the creator, at its own leaf.  Whoever joins by it
with another key has found a collision of welcome keys.
-/

namespace Trelis.Cocoa

variable {P : Primitives}

/-- The session of a member that was there from the start, by the session of the
creator. -/
def CocoaSession.atLeaf (s : CocoaSession P) (userId : UserId) (kp : P.KeyPair)
    (leafPosition : Nat) : CocoaSession P :=
  { s with
    ourUserId := userId
    ourLeafPosition := leafPosition
    ourKeypair := kp
    tree := (PartialTreeView.new P leafPosition s.tree.treeDepth).setMemberCount s.memberCount
    members := {userId} }

section Founding

variable {identity : P.IdentityKeyPair} {kem kp : P.KeyPair} {creatorId userId : UserId}
  {bundles : List (PreKeyBundle P)} {bundle : PreKeyBundle P} {s : CocoaSession P}
  {welcomes : List (Welcome P)} {w : Welcome P}

/-- What `createGroup` returns: the session of the creator, and one welcome for each
bundle, in their order. -/
theorem createGroup_eq_ok {draws : CreateGroupDraws P}
    (h : createGroup identity kem creatorId bundles draws = .ok (s, welcomes)) :
    ∃ totalMembers, WithinLimits 0 0 (PartialTreeView.depthForMembers totalMembers) totalMembers 0 ∧
      s.tree = (PartialTreeView.new P 0
        (PartialTreeView.depthForMembers totalMembers)).setMemberCount totalMembers ∧
      s.epoch = .initial s.currentEpochSecret zero32 ∧ s.transcriptHash = zero32 ∧
      List.Forall₂ (fun entry w => createGroupWelcome identity s.groupId s.currentEpochSecret zero32
          s.tree.treeDepth totalMembers ((entry.2 + 1) % 2 ^ 32) entry.1 (draws.welcome entry.2) =
            .ok w) bundles.zipIdx welcomes := by
  simp only [createGroup, CocoaSession.createGroup, Except.bind_eq_ok, rejectIf_eq_ok,
    Except.pure_eq_ok, Prod.mk.injEq] at h
  obtain ⟨_, hlimits, groupId, _, epochSecret, _, _, ⟨_, _, rfl⟩, _, hwelcomes, rfl, rfl⟩ := h
  exact ⟨_, checkSizeLimits_eq_ok.mp hlimits, rfl, rfl, rfl, Except.mapM_eq_ok.mp hwelcomes⟩

/-- A welcome of `createGroup`: the epoch secret and the transcript hash, sealed to the
identity key of the bundle with the group as associated data, and signed. -/
theorem createGroupWelcome_ok {groupId : GroupId} {epochSecret transcriptHash : Bytes32}
    {treeDepth totalMembers leafPosition : Nat} {draws : WelcomeDraws P}
    (h : createGroupWelcome identity groupId epochSecret transcriptHash treeDepth totalMembers
      leafPosition bundle draws = .ok w) :
    w.groupId = groupId ∧ w.epoch = 0 ∧ w.leafPosition = leafPosition ∧ w.treeDepth = treeDepth ∧
      w.memberCount = totalMembers ∧
      ∃ k c nonce ct, P.encapsulate bundle.identityKem draws.encapsulationCoins = .ok (k, c) ∧
        P.encryptCommitting (deriveWelcomeKey P k) nonce (epochSecret.val ++ transcriptHash.val)
          groupId.val = .ok ct ∧
        P.signWithContext identity (welcomeSignBody groupId 0 leafPosition treeDepth totalMembers
          w.encapsulation w.encryptedInfo) welcomeSignContext draws.signCoins = .ok w.signature ∧
        w.encapsulation = P.encapsulationToBytes c ∧ w.encryptedInfo = nonce.val ++ ct := by
  simp only [createGroupWelcome, Except.bind_eq_ok, Except.pure_eq_ok] at h
  obtain ⟨⟨k, c⟩, hencap, nonce, _, ct, hct, signature, hsign, rfl⟩ := h
  exact ⟨rfl, rfl, rfl, rfl, rfl, k, c, nonce, ct, hencap, hct, hsign, rfl, rfl⟩

/-- The holder of the key joins by the welcome. -/
theorem processWelcome_of_sealed (henc : P.EncapsulationCodec) (hkem : P.IdealKem)
    (haead : P.IdealAead) (hsig : P.CorrectSignature) {groupId : GroupId}
    {epochSecret transcriptHash : Bytes32} {treeDepth totalMembers leafPosition : Nat}
    {draws : WelcomeDraws P}
    (h : createGroupWelcome identity groupId epochSecret transcriptHash treeDepth totalMembers
      leafPosition bundle draws = .ok w)
    (hkey : P.publicKey kp = bundle.identityKem)
    (hlimits : WithinLimits (w.encryptedInfo.length + w.encapsulation.length) 0 treeDepth
      totalMembers 0) (userId : UserId) :
    processWelcome userId kp w (P.identityPublicKey identity) =
      .ok (.joinGroup groupId userId kp leafPosition treeDepth totalMembers epochSecret
        transcriptHash) := by
  obtain ⟨hgroup, hepoch, hleaf, hdepth, hcount, k, c, nonce, ct, hencap, hct, hsign, he, hi⟩ :=
    createGroupWelcome_ok h
  have hsize : checkSizeLimits (w.encryptedInfo.length + w.encapsulation.length) 0 treeDepth
      totalMembers 0 = .ok () := checkSizeLimits_eq_ok.mpr hlimits
  have hparse : P.encapsulationFromBytes w.encapsulation = .ok c := by
    rw [he]
    exact henc.fromBytes_toBytes hencap
  have hnonce : w.encryptedInfo.take 24 = nonce.val := by
    rw [hi, List.take_left' nonce.property]
  have hlong : ¬ w.encryptedInfo.length < 24 := by
    rw [hi, List.length_append, nonce.property]
    omega
  have hopen : P.decryptCommitting (deriveWelcomeKey P k) nonce (w.encryptedInfo.drop 24)
      groupId.val = .ok (epochSecret.val ++ transcriptHash.val) := by
    rw [hi, List.drop_left' nonce.property]
    exact haead.decrypt_match hct
  have hplain : (epochSecret.val ++ transcriptHash.val).length = welcomeInfoPlaintextSize := by
    simp [welcomeInfoPlaintextSize]
  have htranscript : ((epochSecret.val ++ transcriptHash.val).drop 32).take 32 =
      transcriptHash.val := by
    rw [List.drop_left' epochSecret.property, List.take_of_length_le transcriptHash.property.le]
  have hnodes :
      ((epochSecret.val ++ transcriptHash.val).drop welcomeInfoPlaintextSize).isEmpty := by
    rw [← hplain, List.drop_length]
    rfl
  simp only [processWelcome, hgroup, hepoch, hleaf, hdepth, hcount, Except.bind_eq_ok,
    rejectIf_eq_ok, toArray_eq_ok]
  refine ⟨(), hsize, (), hsig.verify_sign hsign, c, hparse, k,
    hkem.decapsulate_match (hkey ▸ hencap),
    (), hlong, nonce, hnonce, _, hopen, (), by omega, epochSecret,
    List.take_left' epochSecret.property, transcriptHash, htranscript, ?_⟩
  rw [if_pos hnodes]
  rfl

/-- Whoever joins by the welcome with another key has found two secrets with one welcome
key. -/
theorem collision_of_joined (henc : P.EncapsulationCodec) (hkem : P.IdealKem) (haead : P.IdealAead)
    {groupId : GroupId} {epochSecret transcriptHash : Bytes32}
    {treeDepth totalMembers leafPosition : Nat} {draws : WelcomeDraws P}
    (h : createGroupWelcome identity groupId epochSecret transcriptHash treeDepth totalMembers
      leafPosition bundle draws = .ok w)
    (hkey : P.publicKey kp ≠ bundle.identityKem) {committer : P.IdentityPublicKey}
    (hjoin : processWelcome userId kp w committer = .ok s) :
    ∃ k k', k' ≠ k ∧ deriveWelcomeKey P k' = deriveWelcomeKey P k := by
  obtain ⟨_, _, _, _, _, k, c, nonce, ct, hencap, hct, _, he, hi⟩ := createGroupWelcome_ok h
  simp only [processWelcome, Except.bind_eq_ok, toArray_eq_ok] at hjoin
  obtain ⟨_, _, _, _, c', hparse, k', hdecap, _, _, nonce', hnonce, pt, hopen, _⟩ := hjoin
  rw [he, henc.fromBytes_toBytes hencap] at hparse
  obtain rfl := Except.ok.inj hparse
  rw [hi, List.take_left' nonce.property] at hnonce
  obtain rfl := Subtype.ext hnonce
  rw [hi, List.drop_left' nonce.property] at hopen
  refine ⟨k, k', ?_, ?_⟩
  · rintro rfl
    exact hkem.decapsulate_other hencap hkey hdecap
  · by_contra hne
    exact haead.decrypt_other hct (fun hpair => hne (Prod.mk.inj hpair).1) pt hopen

/-- The holder of the identity key of a bundle joins by its welcome, with the state of the
creator at its own leaf, exactly when the welcome is within the size limit.  Nobody else
joins by it, or the welcome keys of two secrets collide. -/
theorem founders_agree (henc : P.EncapsulationCodec) (hkem : P.IdealKem) (haead : P.IdealAead)
    (hsig : P.CorrectSignature) {draws : CreateGroupDraws P}
    (h : createGroup identity kem creatorId bundles draws = .ok (s, welcomes)) :
    welcomes.length = bundles.length ∧
    ∀ (i : Nat) (bundle : PreKeyBundle P) (w : Welcome P), bundles[i]? = some bundle →
      welcomes[i]? = some w → ∀ (kp : P.KeyPair) (userId : UserId),
        (P.publicKey kp = bundle.identityKem →
          (processWelcome userId kp w (P.identityPublicKey identity) =
              .ok (s.atLeaf userId kp ((i + 1) % 2 ^ 32)) ↔
            w.encryptedInfo.length + w.encapsulation.length ≤ maxMessageSize)) ∧
        (P.publicKey kp ≠ bundle.identityKem → ∀ committer joined,
          processWelcome userId kp w committer = .ok joined →
            ∃ k k', k' ≠ k ∧ deriveWelcomeKey P k' = deriveWelcomeKey P k) := by
  obtain ⟨totalMembers, hlimits, htree, hepoch, htranscript, hwelcomes⟩ := createGroup_eq_ok h
  refine ⟨?_, ?_⟩
  · rw [← hwelcomes.length_eq, List.length_zipIdx]
  intro i bundle w hbundle hw kp userId
  have hsealed : createGroupWelcome identity s.groupId s.currentEpochSecret zero32 s.tree.treeDepth
      totalMembers ((i + 1) % 2 ^ 32) bundle (draws.welcome i) = .ok w := by
    obtain ⟨hi, rfl⟩ := List.getElem?_eq_some_iff.mp hbundle
    obtain ⟨hi', rfl⟩ := List.getElem?_eq_some_iff.mp hw
    have hentry := hwelcomes.get (i := i) (by rwa [List.length_zipIdx]) hi'
    simpa using hentry
  refine ⟨?_, ?_⟩
  · intro hkey
    constructor
    · intro hjoin
      simp only [processWelcome, Except.bind_eq_ok, checkSizeLimits_eq_ok] at hjoin
      obtain ⟨_, hsize, _⟩ := hjoin
      exact hsize.messageLen_le
    · intro hsize
      have hdepth : s.tree.treeDepth = PartialTreeView.depthForMembers totalMembers := by
        rw [htree]
        rfl
      have hcount : s.memberCount = totalMembers := by
        rw [CocoaSession.memberCount, htree]
        rfl
      rw [processWelcome_of_sealed henc hkem haead hsig hsealed hkey
        ⟨hsize, Nat.zero_le _, hdepth ▸ hlimits.treeDepth_le, hlimits.groupSize_le, Nat.zero_le _⟩]
      rw [CocoaSession.atLeaf, hcount, hepoch, htranscript]
      rfl
  · intro hkey committer joined hjoin
    exact collision_of_joined henc hkem haead hsealed hkey hjoin

end Founding

section Sample

open Symbolic

/-- The last of three founding members joins. -/
theorem founders_agree_three :
    ∃ welcomes w, threeMembers = .ok (member 0 10 (tree 2 3 []), welcomes) ∧
      welcomes[1]? = some w ∧ processWelcome (word 2) (keyPair 12) w (word 60) =
        .ok ((member 0 10 (tree 2 3 [])).atLeaf (word 2) (keyPair 12) 2) := by
  obtain ⟨welcomes, w, hcreate, hw, hsize⟩ : ∃ welcomes w,
      threeMembers = .ok (member 0 10 (tree 2 3 []), welcomes) ∧ welcomes[1]? = some w ∧
        w.encryptedInfo.length + w.encapsulation.length ≤ maxMessageSize :=
    ⟨_, _, rfl, rfl, by decide +kernel⟩
  obtain ⟨_, hwelcomes⟩ :=
    founders_agree encapsulationCodec idealKem idealAead correctSignature hcreate
  obtain ⟨hjoin, _⟩ := hwelcomes 1 ⟨key 12, key 22⟩ w rfl hw (keyPair 12) (word 2)
  exact ⟨welcomes, w, hcreate, hw, (hjoin rfl).mpr hsize⟩

end Sample

end Trelis.Cocoa
