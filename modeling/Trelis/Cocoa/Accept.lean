import Trelis.Cocoa.Remove
import Trelis.Cocoa.Update

/-!
# What a receiver that returned has checked

One lemma for each of the three receivers, saying exactly when a call returns
`Ok` and what it then leaves behind.  The later modules reason from these and
never unfold an operation.

`Checked` is the common part: the signature, the committer's leaf, the tag, the
round hash and the parent hashes.  The lemmas `checkUpdate_eq_ok`, `checkAdd_eq_ok`
and `checkRemove_eq_ok` add what is particular to each.
-/

namespace Trelis.Cocoa

variable {P : Primitives}

/-! ## Receivers -/

/-- What every receiver has checked of a commit with the signed content
`content`.  `view` is the tree in which it looked up the committer's leaf,
`scratch` the tree that it checked the parent hashes against, and `delta` the
root seed that it derived. -/
structure Checked (s : CocoaSession P) (view scratch : PartialTreeView P)
    (signer : P.IdentityPublicKey) (content : CommitContent) (pathUpdates : List PathUpdate)
    (signature : P.Signature) (tag : Bytes32) (removed added : List UserId)
    (nodeUpdates : List (NodeUpdate P)) (delta : Seed) : Prop where
  groupId_eq : content.groupId = s.groupId
  epoch_eq : content.epoch = s.epochNumber + 1
  signed : verifyCommitSignature signer content signature = .ok ()
  committer_lt : content.committerLeafPosition < s.memberCount
  committer_not_blank : ∀ node,
    view.get (.leaf view.treeDepth content.committerLeafPosition) = some node →
      node.state.isPopulated
  converted : convertPathUpdatesToNodeUpdates P pathUpdates = .ok nodeUpdates
  tag_eq : computeConfirmationTag P delta
    (h3TranscriptHash P s.transcriptHash content.roundHash) content.epoch = tag
  roundHash_eq :
    h3RoundHash P (P.deriveKey rootLabelContext delta.val) removed added = content.roundHash
  parentHashes : verifyParentHashes scratch nodeUpdates = .ok ()

private theorem any_isBlank_eq_false {o : Option (TreeNode P)} :
    o.any (·.state.isBlank) = false ↔ ∀ node, o = some node → node.state.isPopulated := by
  cases o <;> simp

private theorem any_isPopulated_eq_false {o : Option (TreeNode P)} :
    o.any (·.state.isPopulated) = false ↔
      ∀ node, o = some node → node.state.isPopulated = false := by
  cases o <;> simp

/-- `process_update` accepts exactly these commits. -/
theorem checkUpdate_eq_ok {s : CocoaSession P} {c : UpdateCommit P} {signer : P.IdentityPublicKey}
    {r : Seed × Bytes32} :
    checkUpdate s c signer = .ok r ↔
      WithinLimits (pathUpdatesWireLen c.pathUpdates) (c.pathUpdates.length - 1) s.tree.treeDepth
        s.memberCount s.tree.totalUnmergedLeaves ∧
      ∃ nodeUpdates, Checked s s.tree s.tree signer (c.content signer) c.pathUpdates c.signature
          c.confirmationTag [] [] nodeUpdates r.1 ∧
        applyPathUpdates nodeUpdates s.ourKeypair s.ourLeafPosition c.updaterLeafPosition =
          .ok r.1 ∧
        r.2 = h3TranscriptHash P s.transcriptHash c.roundHash := by
  simp only [checkUpdate, Except.bind_eq_ok, checkSizeLimits_eq_ok, rejectIf_eq_ok, not_or,
    any_isBlank_eq_false, Except.pure_eq_ok, ne_eq, not_not, ge_iff_le, not_le, Bool.not_eq_true]
  constructor
  · intro h
    rcases h with ⟨_, hlim, _, hgid, _, hlt, _, hep, _, hsig, _, ⟨_, hblank⟩, nus, hconv, delta,
      hdelta, _, htag, _, hround, _, hph, rfl⟩
    exact ⟨hlim, nus, ⟨hgid, hep, hsig, hlt, hblank, hconv, htag, hround, hph⟩, hdelta, rfl⟩
  · intro h
    rcases h with ⟨hlim, nus, hc, hdelta, htr⟩
    exact ⟨(), hlim, (), hc.groupId_eq, (), hc.committer_lt, (), hc.epoch_eq, (), hc.signed, (),
      ⟨hc.committer_lt, hc.committer_not_blank⟩, nus, hc.converted, r.1, hdelta, (), hc.tag_eq, (),
      hc.roundHash_eq, (), hc.parentHashes, by rw [← htr]⟩

/-- `process_add` accepts exactly these commits. -/
theorem checkAdd_eq_ok {s : CocoaSession P} {c : AddCommit P} {signer : P.IdentityPublicKey}
    {r : Seed × Bytes32} {grown : PartialTreeView P}
    (hgrown : grown = s.tree.growIfNeeded (c.newLeafPosition + 1)) :
    checkAdd s c signer = .ok r ↔
      c.newLeafPosition + 1 < 2 ^ 32 ∧
      WithinLimits (pathUpdatesWireLen c.pathUpdates) (c.pathUpdates.length - 1)
        (PartialTreeView.depthForMembers (c.newLeafPosition + 1)) (c.newLeafPosition + 1)
        s.tree.totalUnmergedLeaves ∧
      (s.isMember c.newMemberId = false ∧ ∀ node,
        grown.get (.leaf grown.treeDepth c.newLeafPosition) = some node →
          node.state.isPopulated = false) ∧
      ∃ nodeUpdates, Checked s grown grown signer (c.content signer) c.pathUpdates c.signature
          c.confirmationTag [] [c.newMemberId] nodeUpdates r.1 ∧
        deltaRootOf nodeUpdates s = .ok r.1 ∧
        r.2 = h3TranscriptHash P s.transcriptHash c.roundHash := by
  subst hgrown
  simp only [checkAdd, Except.bind_eq_ok, checkSizeLimits_eq_ok, rejectIf_eq_ok, not_or,
    any_isBlank_eq_false, any_isPopulated_eq_false, Except.pure_eq_ok, ne_eq, not_not, ge_iff_le,
    not_le, Bool.not_eq_true]
  constructor
  · intro h
    rcases h with ⟨_, hu32, _, hlim, _, hgid, _, hep, _, hsig, _, ⟨hlt, hblank⟩, _, hdup, nus,
      hconv, delta, hdelta, _, htag, _, hround, _, hph, rfl⟩
    exact ⟨hu32, hlim, hdup, nus, ⟨hgid, hep, hsig, hlt, hblank, hconv, htag, hround, hph⟩,
      hdelta, rfl⟩
  · intro h
    rcases h with ⟨hu32, hlim, hdup, nus, hc, hdelta, htr⟩
    exact ⟨(), hu32, (), hlim, (), hc.groupId_eq, (), hc.epoch_eq, (), hc.signed, (),
      ⟨hc.committer_lt, hc.committer_not_blank⟩, (), hdup, nus, hc.converted, r.1, hdelta, (),
      hc.tag_eq, (), hc.roundHash_eq, (), hc.parentHashes, by rw [← htr]⟩

/-- `process_remove` accepts exactly these commits. -/
theorem checkRemove_eq_ok {s : CocoaSession P} {c : RemoveCommit P} {signer : P.IdentityPublicKey}
    {r : Seed × Bytes32} :
    checkRemove s c signer = .ok r ↔
      WithinLimits (pathUpdatesWireLen c.pathUpdates) (c.pathUpdates.length - 1) s.tree.treeDepth
        s.memberCount s.tree.totalUnmergedLeaves ∧
      c.removedLeafPosition ≠ s.ourLeafPosition ∧
      ∃ nodeUpdates, Checked s s.tree
          (s.tree.blankNode (.leaf s.tree.treeDepth c.removedLeafPosition)) signer
          (c.content signer) c.pathUpdates c.signature c.confirmationTag [c.removedMemberId] []
          nodeUpdates r.1 ∧
        deltaRootOf nodeUpdates s = .ok r.1 ∧
        r.2 = h3TranscriptHash P s.transcriptHash c.roundHash := by
  simp only [checkRemove, Except.bind_eq_ok, checkSizeLimits_eq_ok, rejectIf_eq_ok, not_or,
    any_isBlank_eq_false, Except.pure_eq_ok, ne_eq, not_not, ge_iff_le, not_le, Bool.not_eq_true]
  constructor
  · intro h
    rcases h with ⟨_, hlim, _, hgid, _, hself, _, hep, _, hsig, _, ⟨hlt, hblank⟩, nus, hconv, delta,
      hdelta, _, htag, _, hround, _, hph, rfl⟩
    exact ⟨hlim, hself, nus, ⟨hgid, hep, hsig, hlt, hblank, hconv, htag, hround, hph⟩, hdelta, rfl⟩
  · intro h
    rcases h with ⟨hlim, hself, nus, hc, hdelta, htr⟩
    exact ⟨(), hlim, (), hc.groupId_eq, (), hself, (), hc.epoch_eq, (), hc.signed, (),
      ⟨hc.committer_lt, hc.committer_not_blank⟩, nus, hc.converted, r.1, hdelta, (), hc.tag_eq, (),
      hc.roundHash_eq, (), hc.parentHashes, by rw [← htr]⟩

/-- A receiver accepts exactly what its checks accept, and then applies the
mutations. -/
theorem processUpdate_eq_ok {s s' : CocoaSession P} {c : UpdateCommit P}
    {signer : P.IdentityPublicKey} {u : Unit} :
    processUpdate c signer s = .ok u s' ↔
      ∃ delta transcript, checkUpdate s c signer = .ok (delta, transcript) ∧
        s' = applyUpdate s c signer delta transcript := by
  simp [processUpdate]

theorem processAdd_eq_ok {s s' : CocoaSession P} {c : AddCommit P}
    {signer : P.IdentityPublicKey} {u : Unit} :
    processAdd c signer s = .ok u s' ↔
      ∃ delta transcript, checkAdd s c signer = .ok (delta, transcript) ∧
        s' = applyAdd s c delta transcript := by
  simp [processAdd]

theorem processRemove_eq_ok {s s' : CocoaSession P} {c : RemoveCommit P}
    {signer : P.IdentityPublicKey} {u : Unit} :
    processRemove c signer s = .ok u s' ↔
      ∃ delta transcript, checkRemove s c signer = .ok (delta, transcript) ∧
        s' = applyRemove s c delta transcript := by
  simp [processRemove]

end Trelis.Cocoa
