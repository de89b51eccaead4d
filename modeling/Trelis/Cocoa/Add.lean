import Trelis.Cocoa.Welcome

/-!
# Adding a member

`operations/add.rs`: `addMember` and `processAdd`.

The receiver checks a commit against a grown copy of its tree, and grows the
tree itself only after every check has passed.  It passes `0` for the leaf of
the adder to `applyPathUpdates`, and it accepts a commit with no path updates,
with the all-zero root seed.
-/

namespace Trelis.Cocoa

variable {P : Primitives}

/-- A commit that adds a member. -/
structure AddCommit (P : Primitives) where
  groupId : GroupId
  newMemberId : UserId
  newLeafPosition : Nat
  committerLeafPosition : Nat
  epoch : Nat
  pathUpdates : List PathUpdate
  signature : P.Signature
  roundHash : Bytes32
  confirmationTag : Bytes32

/-- The target is in the subtree of the path node's sibling. -/
def isInSiblingSubtree (pathNode target : NodeIndex) : Bool :=
  match pathNode.sibling with
  | some sibling => target.isDescendantOf sibling || target == sibling
  | none => false

/-- The recipients of one level, with their keys: the recipient set of the
path node, and the newcomer where it is below the sibling. -/
def addRecipients (t : PartialTreeView P) (newMemberBundle : PreKeyBundle P)
    (newMemberLeaf pathNode : NodeIndex) : List (NodeIndex × P.PublicKey) :=
  (t.computeLj pathNode t.unmergedLeafNodes).filterMap (fun nodeIdx =>
      (t.keyAt nodeIdx).map fun pk => (nodeIdx, pk)) ++
    if isInSiblingSubtree pathNode newMemberLeaf then
      [(newMemberLeaf, newMemberBundle.oneTimeKem)]
    else []

/-- The recipients of each level of a path, and their keys. -/
def computeAddResolutionSetsAndKeys (t : PartialTreeView P) (path : List NodeIndex)
    (newMemberBundle : PreKeyBundle P) (treeDepth newMemberPosition : Nat) :
    List (List NodeIndex) × List (List P.PublicKey) :=
  let recipients := path.map (addRecipients t newMemberBundle (.leaf treeDepth newMemberPosition))
  (recipients.map (·.map Prod.fst), recipients.map (·.map Prod.snd))

/-- Adds a member: builds the commit and the welcome, and moves our session to
the next epoch. -/
def addMember (identity : P.IdentityKeyPair) (newMemberBundle : PreKeyBundle P)
    (newMemberId : UserId) (draws : Draws P) : SessionM P (AddCommit P × Welcome P) := do
  let session ← get
  EStateM.lift (rejectIf (session.isMember newMemberId) .duplicateMember)
  let newPosition := session.memberCount
  EStateM.lift (rejectIf (newPosition + 1 ≥ 2 ^ 32) .treeDepthExceeded)
  EStateM.lift (checkGroupGrowthLimits (newPosition + 1))
  set (session.modifyTree (·.growIfNeeded (newPosition + 1)))
  let session ← get
  let treeDepth := session.tree.treeDepth
  let leafSeed ← EStateM.lift draws.leafSeed
  let path := pathToRoot session.ourLeafNode
  let pathSeeds := derivePathSeeds P leafSeed path.length
  let resolution := computeAddResolutionSetsAndKeys session.tree path newMemberBundle treeDepth
    newPosition
  let siblingLabels := computeSiblingLabels session.tree path
  let result ← EStateM.lift (buildPathUpdatesWithSeeds treeDepth session.ourLeafPosition pathSeeds
    resolution.1 resolution.2 siblingLabels draws.seedCoins)
  let pathUpdates := result.updates.map NodeUpdate.toWire
  set (session.modifyTree (·.setMemberCount (newPosition + 1)))
  let session ← get
  let roundHash := h3RoundHash P (computeRootLabel P pathSeeds) [] [newMemberId]
  let pathUpdatesHash := hashPathUpdates P (serialisePathUpdates pathUpdates)
  let committerLeafPosition := session.ourLeafPosition
  let commitContent : CommitContent :=
    { groupId := session.groupId
      epoch := session.epochNumber + 1
      commitType := .add
      roundHash, pathUpdatesHash, committerLeafPosition
      committerUserId := deriveUserIdFromIdentity (P.identityPublicKey identity) }
  let signature ← EStateM.lift (signCommit identity commitContent draws.signCoins)
  let newTranscript := h3TranscriptHash P session.transcriptHash roundHash
  let welcome ← EStateM.lift (createWelcomeMessage session identity newMemberBundle newPosition
    treeDepth result.deltaRoot newTranscript
    ⟨draws.welcomeCoins, draws.welcomeNonce, draws.welcomeSignCoins⟩)
  let commit : AddCommit P :=
    { groupId := session.groupId
      newMemberId
      newLeafPosition := newPosition
      committerLeafPosition
      epoch := session.epochNumber + 1
      pathUpdates, signature, roundHash
      confirmationTag :=
        computeConfirmationTag P result.deltaRoot newTranscript (session.epochNumber + 1) }
  let marked := markMemberAsUnmerged session newPosition
  set ((marked.advanceEpoch result.deltaRoot newTranscript).insertMember newMemberId)
  pure (commit, welcome)

/-- The content that an add commit is signed over. -/
def AddCommit.content (commit : AddCommit P) (adder : P.IdentityPublicKey) : CommitContent where
  groupId := commit.groupId
  epoch := commit.epoch
  commitType := .add
  roundHash := commit.roundHash
  pathUpdatesHash := hashPathUpdates P (serialisePathUpdates commit.pathUpdates)
  committerLeafPosition := commit.committerLeafPosition
  committerUserId := deriveUserIdFromIdentity adder

/-- The root seed of an add or remove commit: all zero without path updates. -/
def deltaRootOf (nodeUpdates : List (NodeUpdate P)) (session : CocoaSession P) : Result Seed :=
  if nodeUpdates.isEmpty then pure zero32
  else applyPathUpdates nodeUpdates session.ourKeypair session.ourLeafPosition 0

/-- The checks of `process_add`, in order; returns the root seed and the new
transcript hash. -/
def checkAdd (session : CocoaSession P) (commit : AddCommit P)
    (adderIdentity : P.IdentityPublicKey) : Result (Seed × Bytes32) := do
  let newMemberCount := commit.newLeafPosition + 1
  rejectIf (newMemberCount ≥ 2 ^ 32) .invalidLeafPosition
  checkSizeLimits (pathUpdatesWireLen commit.pathUpdates) (commit.pathUpdates.length - 1)
    (PartialTreeView.depthForMembers newMemberCount) newMemberCount
    session.tree.totalUnmergedLeaves
  rejectIf (commit.groupId ≠ session.groupId) .groupIdMismatch
  rejectIf (commit.epoch ≠ session.epochNumber + 1)
    (.epochMismatch (session.epochNumber + 1) commit.epoch)
  verifyCommitSignature adderIdentity (commit.content adderIdentity) commit.signature
  let scratch := session.tree.growIfNeeded newMemberCount
  rejectIf (commit.committerLeafPosition ≥ session.memberCount ∨
    (scratch.get (.leaf scratch.treeDepth commit.committerLeafPosition)).any (·.state.isBlank))
    .invalidLeafPosition
  rejectIf (session.isMember commit.newMemberId ∨
    (scratch.get (.leaf scratch.treeDepth commit.newLeafPosition)).any (·.state.isPopulated))
    .duplicateMember
  let nodeUpdates ← convertPathUpdatesToNodeUpdates P commit.pathUpdates
  let deltaRoot ← deltaRootOf nodeUpdates session
  let newTranscript := h3TranscriptHash P session.transcriptHash commit.roundHash
  rejectIf (computeConfirmationTag P deltaRoot newTranscript commit.epoch ≠
    commit.confirmationTag) .signatureVerificationFailed
  rejectIf (h3RoundHash P (P.deriveKey rootLabelContext deltaRoot.val) [] [commit.newMemberId] ≠
    commit.roundHash) .roundHashMismatch
  verifyParentHashes scratch nodeUpdates
  pure (deltaRoot, newTranscript)

/-- The mutations of `process_add`.  The nodes are written under our own user
id. -/
def applyAdd (session : CocoaSession P) (commit : AddCommit P) (deltaRoot : Seed)
    (newTranscript : Bytes32) : CocoaSession P :=
  let newMemberCount := commit.newLeafPosition + 1
  let grown := session.modifyTree fun t =>
    (t.growIfNeeded newMemberCount).setMemberCount newMemberCount
  let written := updateTreeFromPathUpdates grown commit.pathUpdates commit.signature
    session.ourUserId
  let marked := markMemberAsUnmerged written commit.newLeafPosition
  (marked.advanceEpoch deltaRoot newTranscript).insertMember commit.newMemberId

/-- Processes an add commit of another member. -/
def processAdd (commit : AddCommit P) (adderIdentity : P.IdentityPublicKey) :
    SessionM P Unit := do
  let session ← get
  let checked ← EStateM.lift (checkAdd session commit adderIdentity)
  set (applyAdd session commit checked.1 checked.2)

end Trelis.Cocoa
