import Trelis.Cocoa.Commit

/-!
# Updating our keys

`operations/update.rs`: `createUpdate` and `processUpdate`.

A receiver validates first and mutates afterwards, so `processUpdate` is
`checkUpdate`, which only reads the session, followed by `applyUpdate`.
-/

namespace Trelis.Cocoa

variable {P : Primitives}

/-- A commit that refreshes the keys of its sender. -/
structure UpdateCommit (P : Primitives) where
  groupId : GroupId
  updaterLeafPosition : Nat
  epoch : Nat
  pathUpdates : List PathUpdate
  signature : P.Signature
  roundHash : Bytes32
  confirmationTag : Bytes32

/-- The recipients of each level of a path, and their keys. -/
def computeResolutionSetsAndKeys (t : PartialTreeView P) (path : List NodeIndex) :
    List (List NodeIndex) × List (List P.PublicKey) :=
  let resolutions := path.map fun pathNode => t.computeLj pathNode t.unmergedLeafNodes
  (resolutions, resolutions.map fun resolution => resolution.filterMap t.keyAt)

/-- Builds an update commit and moves our session to the next epoch. -/
def createUpdate (identity : P.IdentityKeyPair) (draws : Draws P) :
    SessionM P (UpdateCommit P) := do
  let leafSeed ← EStateM.lift draws.leafSeed
  let session ← get
  let path := pathToRoot session.ourLeafNode
  let pathSeeds := derivePathSeeds P leafSeed path.length
  let resolution := computeResolutionSetsAndKeys session.tree path
  let siblingLabels := computeSiblingLabels session.tree path
  let result ← EStateM.lift (buildPathUpdatesWithSeeds session.tree.treeDepth
    session.ourLeafPosition pathSeeds resolution.1 resolution.2 siblingLabels draws.seedCoins)
  let pathUpdates := result.updates.map NodeUpdate.toWire
  let rotated ← EStateM.lift (session.rotateKeypair draws.keypairCoins)
  set rotated
  let roundHash := h3RoundHash P (computeRootLabel P pathSeeds) [] []
  let pathUpdatesHash := hashPathUpdates P (serialisePathUpdates pathUpdates)
  let commitContent : CommitContent :=
    { groupId := session.groupId
      epoch := session.epochNumber + 1
      commitType := .update
      roundHash, pathUpdatesHash
      committerLeafPosition := session.ourLeafPosition
      committerUserId := deriveUserIdFromIdentity (P.identityPublicKey identity) }
  let signature ← EStateM.lift (signCommit identity commitContent draws.signCoins)
  let newTranscript := h3TranscriptHash P session.transcriptHash roundHash
  let commit : UpdateCommit P :=
    { groupId := session.groupId
      updaterLeafPosition := session.ourLeafPosition
      epoch := session.epochNumber + 1
      pathUpdates, signature, roundHash
      confirmationTag :=
        computeConfirmationTag P result.deltaRoot newTranscript (session.epochNumber + 1) }
  modify (·.advanceEpoch result.deltaRoot newTranscript)
  pure commit

/-- The content that an update commit is signed over. -/
def UpdateCommit.content (commit : UpdateCommit P) (updater : P.IdentityPublicKey) :
    CommitContent where
  groupId := commit.groupId
  epoch := commit.epoch
  commitType := .update
  roundHash := commit.roundHash
  pathUpdatesHash := hashPathUpdates P (serialisePathUpdates commit.pathUpdates)
  committerLeafPosition := commit.updaterLeafPosition
  committerUserId := deriveUserIdFromIdentity updater

/-- The checks of `process_update`, in order; returns the root seed and the new
transcript hash. -/
def checkUpdate (session : CocoaSession P) (commit : UpdateCommit P)
    (updaterIdentity : P.IdentityPublicKey) : Result (Seed × Bytes32) := do
  checkSizeLimits (pathUpdatesWireLen commit.pathUpdates) (commit.pathUpdates.length - 1)
    session.tree.treeDepth session.memberCount session.tree.totalUnmergedLeaves
  rejectIf (commit.groupId ≠ session.groupId) .groupIdMismatch
  rejectIf (commit.updaterLeafPosition ≥ session.memberCount) .invalidLeafPosition
  rejectIf (commit.epoch ≠ session.epochNumber + 1)
    (.epochMismatch (session.epochNumber + 1) commit.epoch)
  verifyCommitSignature updaterIdentity (commit.content updaterIdentity) commit.signature
  rejectIf (commit.updaterLeafPosition ≥ session.memberCount ∨
    (session.tree.get (.leaf session.tree.treeDepth commit.updaterLeafPosition)).any
      (·.state.isBlank)) .invalidLeafPosition
  let nodeUpdates ← convertPathUpdatesToNodeUpdates P commit.pathUpdates
  let deltaRoot ← applyPathUpdates nodeUpdates session.ourKeypair session.ourLeafPosition
    commit.updaterLeafPosition
  let newTranscript := h3TranscriptHash P session.transcriptHash commit.roundHash
  rejectIf (computeConfirmationTag P deltaRoot newTranscript commit.epoch ≠
    commit.confirmationTag) .signatureVerificationFailed
  rejectIf (h3RoundHash P (P.deriveKey rootLabelContext deltaRoot.val) [] [] ≠ commit.roundHash)
    .roundHashMismatch
  verifyParentHashes session.tree nodeUpdates
  pure (deltaRoot, newTranscript)

/-- The mutations of `process_update`. -/
def applyUpdate (session : CocoaSession P) (commit : UpdateCommit P)
    (updaterIdentity : P.IdentityPublicKey) (deltaRoot : Seed) (newTranscript : Bytes32) :
    CocoaSession P :=
  let written := updateTreeFromPathUpdates session commit.pathUpdates commit.signature
    (deriveUserIdFromIdentity updaterIdentity)
  let cleared := clearUnmergedOnPath written commit.updaterLeafPosition
  cleared.advanceEpoch deltaRoot newTranscript

/-- Processes an update commit of another member. -/
def processUpdate (commit : UpdateCommit P) (updaterIdentity : P.IdentityPublicKey) :
    SessionM P Unit := do
  let session ← get
  let checked ← EStateM.lift (checkUpdate session commit updaterIdentity)
  set (applyUpdate session commit updaterIdentity checked.1 checked.2)

end Trelis.Cocoa
