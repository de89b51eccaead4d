import Trelis.Cocoa.Add

/-!
# Removing a member

`operations/remove.rs`: `removeMember` and `processRemove`.

The remover blanks the leaf of the removed member before it builds its path,
and the receiver checks the commit against a copy of its tree with that leaf
blanked.  The ancestors of the leaf keep their keys on both sides.
-/

namespace Trelis.Cocoa

variable {P : Primitives}

/-- A commit that removes a member. -/
structure RemoveCommit (P : Primitives) where
  groupId : GroupId
  removedMemberId : UserId
  removedLeafPosition : Nat
  committerLeafPosition : Nat
  epoch : Nat
  pathUpdates : List PathUpdate
  signature : P.Signature
  roundHash : Bytes32
  confirmationTag : Bytes32

/-- The recipients of one level, with their keys: the recipient set of the
path node without the removed leaf and its ancestors. -/
def removeRecipients (t : PartialTreeView P) (removedLeaf pathNode : NodeIndex) :
    List (NodeIndex × P.PublicKey) :=
  ((t.computeLj pathNode t.unmergedLeafNodes).filter fun nodeIdx =>
      !(nodeIdx == removedLeaf || removedLeaf.isDescendantOf nodeIdx)).filterMap fun nodeIdx =>
    (t.keyAt nodeIdx).map fun pk => (nodeIdx, pk)

/-- The recipients of each level of a path, and their keys. -/
def computeRemoveResolutionSetsAndKeys (t : PartialTreeView P) (path : List NodeIndex)
    (removedPosition : Nat) : List (List NodeIndex) × List (List P.PublicKey) :=
  let recipients := path.map (removeRecipients t (.leaf t.treeDepth removedPosition))
  (recipients.map (·.map Prod.fst), recipients.map (·.map Prod.snd))

/-- Removes a member: builds the commit and moves our session to the next
epoch.  The member count stays, and so does the registry. -/
def removeMember (identity : P.IdentityKeyPair) (removedMemberId : UserId)
    (removedPosition : Nat) (draws : Draws P) : SessionM P (RemoveCommit P) := do
  let session ← get
  EStateM.lift (rejectIf (removedPosition = session.ourLeafPosition) .selfRemovalForbidden)
  EStateM.lift (rejectIf (removedPosition ≥ session.memberCount) .invalidLeafPosition)
  let treeDepth := session.tree.treeDepth
  set (session.modifyTree (·.blankNode (.leaf treeDepth removedPosition)))
  let session ← get
  let leafSeed ← EStateM.lift draws.leafSeed
  let path := pathToRoot session.ourLeafNode
  let pathSeeds := derivePathSeeds P leafSeed path.length
  let resolution := computeRemoveResolutionSetsAndKeys session.tree path removedPosition
  let siblingLabels := computeSiblingLabels session.tree path
  let result ← EStateM.lift (buildPathUpdatesWithSeeds treeDepth session.ourLeafPosition pathSeeds
    resolution.1 resolution.2 siblingLabels draws.seedCoins)
  let pathUpdates := result.updates.map NodeUpdate.toWire
  let roundHash := h3RoundHash P (computeRootLabel P pathSeeds) [removedMemberId] []
  let pathUpdatesHash := hashPathUpdates P (serialisePathUpdates pathUpdates)
  let committerLeafPosition := session.ourLeafPosition
  let commitContent : CommitContent :=
    { groupId := session.groupId
      epoch := session.epochNumber + 1
      commitType := .remove
      roundHash, pathUpdatesHash, committerLeafPosition
      committerUserId := deriveUserIdFromIdentity (P.identityPublicKey identity) }
  let signature ← EStateM.lift (signCommit identity commitContent draws.signCoins)
  let newTranscript := h3TranscriptHash P session.transcriptHash roundHash
  let commit : RemoveCommit P :=
    { groupId := session.groupId
      removedMemberId
      removedLeafPosition := removedPosition
      committerLeafPosition
      epoch := session.epochNumber + 1
      pathUpdates, signature, roundHash
      confirmationTag :=
        computeConfirmationTag P result.deltaRoot newTranscript (session.epochNumber + 1) }
  modify (·.advanceEpoch result.deltaRoot newTranscript)
  pure commit

/-- The content that a remove commit is signed over. -/
def RemoveCommit.content (commit : RemoveCommit P) (remover : P.IdentityPublicKey) :
    CommitContent where
  groupId := commit.groupId
  epoch := commit.epoch
  commitType := .remove
  roundHash := commit.roundHash
  pathUpdatesHash := hashPathUpdates P (serialisePathUpdates commit.pathUpdates)
  committerLeafPosition := commit.committerLeafPosition
  committerUserId := deriveUserIdFromIdentity remover

/-- The checks of `process_remove`, in order; returns the root seed and the new
transcript hash. -/
def checkRemove (session : CocoaSession P) (commit : RemoveCommit P)
    (removerIdentity : P.IdentityPublicKey) : Result (Seed × Bytes32) := do
  checkSizeLimits (pathUpdatesWireLen commit.pathUpdates) (commit.pathUpdates.length - 1)
    session.tree.treeDepth session.memberCount session.tree.totalUnmergedLeaves
  rejectIf (commit.groupId ≠ session.groupId) .groupIdMismatch
  rejectIf (commit.removedLeafPosition = session.ourLeafPosition) .removedFromGroup
  rejectIf (commit.epoch ≠ session.epochNumber + 1)
    (.epochMismatch (session.epochNumber + 1) commit.epoch)
  verifyCommitSignature removerIdentity (commit.content removerIdentity) commit.signature
  rejectIf (commit.committerLeafPosition ≥ session.memberCount ∨
    (session.tree.get (.leaf session.tree.treeDepth commit.committerLeafPosition)).any
      (·.state.isBlank)) .invalidLeafPosition
  let nodeUpdates ← convertPathUpdatesToNodeUpdates P commit.pathUpdates
  let deltaRoot ← deltaRootOf nodeUpdates session
  let newTranscript := h3TranscriptHash P session.transcriptHash commit.roundHash
  rejectIf (computeConfirmationTag P deltaRoot newTranscript commit.epoch ≠
    commit.confirmationTag) .signatureVerificationFailed
  rejectIf (h3RoundHash P (P.deriveKey rootLabelContext deltaRoot.val) [commit.removedMemberId] []
    ≠ commit.roundHash) .roundHashMismatch
  let leafIndex : NodeIndex := .leaf session.tree.treeDepth commit.removedLeafPosition
  verifyParentHashes (session.tree.blankNode leafIndex) nodeUpdates
  pure (deltaRoot, newTranscript)

/-- The mutations of `process_remove`.  The nodes are written under our own
user id. -/
def applyRemove (session : CocoaSession P) (commit : RemoveCommit P) (deltaRoot : Seed)
    (newTranscript : Bytes32) : CocoaSession P :=
  let leafIndex : NodeIndex := .leaf session.tree.treeDepth commit.removedLeafPosition
  let blanked := session.modifyTree (·.blankNode leafIndex)
  let written := updateTreeFromPathUpdates blanked commit.pathUpdates commit.signature
    session.ourUserId
  (written.advanceEpoch deltaRoot newTranscript).removeMember commit.removedMemberId

/-- Processes a remove commit of another member. -/
def processRemove (commit : RemoveCommit P) (removerIdentity : P.IdentityPublicKey) :
    SessionM P Unit := do
  let session ← get
  let checked ← EStateM.lift (checkRemove session commit removerIdentity)
  set (applyRemove session commit checked.1 checked.2)

end Trelis.Cocoa
