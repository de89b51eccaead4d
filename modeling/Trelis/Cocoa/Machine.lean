import Trelis.Lib.Panic
import Trelis.Cocoa.Process

/-!
# Receiving, in machine arithmetic

The functions that a receiver runs, over `u32`, `u64` and `usize`: each returns
what the function of the same name over unbounded numbers returns, or panics.
The release profile keeps overflow checks on, so that an overflow panics there
too; the debug assertions of `path_update.rs` panic only in other builds.

What the source computes from a number that it has just tested stays unbounded:
`depth - 1` where the depth is not 0, `32 - leading_zeros`, the lengths of the
lists that it holds, and its saturating sums.  The sets of the source order nodes
by linear index, and hold only nodes that were looked up before.

`process_refines` and `processWelcome_refines` compare the two layers: a call that
does not panic does what the call over unbounded numbers does.
-/

namespace Trelis.Cocoa.Machine

open PartialTreeView

variable {P : Primitives} {β : Type}

/-! ## Indices -/

/-- `to_linear`: `(1u64 << depth) - 1 + position`. -/
def toLinear (i : NodeIndex) : Option Nat := do
  let level ← shlWord 64 1 i.depth
  let nodesBefore ← subWord level 1
  addWord 64 nodesBefore i.position

/-- `left_child`. -/
def leftChild (i : NodeIndex) : Option NodeIndex := do
  let depth ← addWord 32 i.depth 1
  let position ← mulWord 32 i.position 2
  pure ⟨depth, position⟩

/-- `right_child`. -/
def rightChild (i : NodeIndex) : Option NodeIndex := do
  let depth ← addWord 32 i.depth 1
  let doubled ← mulWord 32 i.position 2
  let position ← addWord 32 doubled 1
  pure ⟨depth, position⟩

/-! ## The tree view -/

/-- `get`. -/
def get (t : PartialTreeView P) (index : NodeIndex) : Option (Option (TreeNode P)) := do
  let key ← toLinear index
  pure t.nodes[key]?

/-- `insert`, which computes the key first. -/
def insert (t : PartialTreeView P) (node : TreeNode P) : Option (PartialTreeView P) := do
  let _ ← toLinear node.index
  pure (t.insert node)

/-- `get_mut`, and a change of the node's state. -/
def modifyState (t : PartialTreeView P) (index : NodeIndex) (f : NodeState P → NodeState P) :
    Option (PartialTreeView P) := do
  let _ ← toLinear index
  pure (t.modifyState index f)

/-- One round of `grow_tree`: the new index of a node, and its key. -/
def growNode (node : TreeNode P) : Option Nat := do
  let depth ← addWord 32 node.index.depth 1
  toLinear ⟨depth, node.index.position⟩

/-- `grow_tree`. -/
def growTree (t : PartialTreeView P) : Option (PartialTreeView P) := do
  let _ ← addWord 32 t.treeDepth 1
  t.nodes.toList.foldlM (fun _ entry => (growNode entry.2).map fun _ => ()) ()
  pure t.growTree

/-- `grow_if_needed`. -/
def growIfNeeded (t : PartialTreeView P) (memberCount : Nat) : Option (PartialTreeView P) :=
  if depthForMembers memberCount > t.treeDepth then growTree t else pure t

/-! ## Resolutions -/

/-- The walk down through the blank nodes.  A node at depth 64 cannot be looked
up, so that the fuel of `foldBlank` does not run out before. -/
def foldBlankAux (t : PartialTreeView P) (absent : β) (populated : NodeIndex → β)
    (blankLeaf : β) (blank : β → β → β) : Nat → NodeIndex → Option β
  | 0, _ => none
  | n + 1, index => do
    match ← get t index with
    | some node =>
      if node.state.isPopulated then pure (populated index)
      else if index.isLeaf t.treeDepth then pure blankLeaf
      else do
        let left ← foldBlankAux t absent populated blankLeaf blank n (← leftChild index)
        let right ← foldBlankAux t absent populated blankLeaf blank n (← rightChild index)
        pure (blank left right)
    | none => pure absent

/-- The walk from `index`. -/
def foldBlank (t : PartialTreeView P) (absent : β) (populated : NodeIndex → β)
    (blankLeaf : β) (blank : β → β → β) (index : NodeIndex) : Option β :=
  foldBlankAux t absent populated blankLeaf blank 65 index

/-- `resolve`. -/
def resolve (t : PartialTreeView P) (index : NodeIndex) : Option Resolution :=
  foldBlank t [] (fun i => [i]) [] Resolution.union index

/-- `resolve_complete`. -/
def resolveComplete (t : PartialTreeView P) (index : NodeIndex) : Option (List NodeIndex × Bool) :=
  foldBlank t ([], false) (fun i => ([i], true)) ([], true)
    (fun l r => (l.1 ++ r.1, l.2 && r.2)) index

/-- The linear indices of some nodes: a round of lookups, or the comparisons
inside a set. -/
def lookups (indices : List NodeIndex) : Option Unit :=
  indices.foldlM (fun _ index => (toLinear index).map fun _ => ()) ()

/-- `compute_lj`, with the closure that looks every node of the resolution up. -/
def computeLj (t : PartialTreeView P) (pathNode : NodeIndex) : Option Resolution :=
  match pathNode.sibling with
  | none => pure []
  | some sibling => do
    let resolution ← resolve t sibling
    lookups resolution
    lookups (resolution.flatMap t.unmergedLeafNodes)
    pure (t.computeLj pathNode t.unmergedLeafNodes)

/-! ## Parent hashes -/

/-- The label of a node's sibling. -/
def siblingLabel (t : PartialTreeView P) (node : NodeIndex) : Option Bytes32 :=
  match node.sibling with
  | none => pure zero32
  | some sibling => do
    let held ← get t sibling
    match held.bind (·.state.publicKey) with
    | none => pure zero32
    | some pk => pure (h3TreeLabel P sibling.depth sibling.position (P.publicKeyToBytes pk))

/-- `reconstruct_resolution_keys`, with its assertion that the subtraction drops
nothing. -/
def reconstructResolutionKeys (t : PartialTreeView P) (pathNode : NodeIndex) :
    Option (List P.PublicKey) := do
  let resolution ← computeLj t pathNode
  lookups [pathNode]
  let r := resolution.filter (t.notUnmergedAt pathNode)
  assertion (r.length = resolution.length)
  lookups r
  pure (r.filterMap t.keyAt)

/-- `reconstruct_resolution_complete`, with the same assertion. -/
def reconstructResolutionComplete (t : PartialTreeView P) (pathNode : NodeIndex) :
    Option (List NodeIndex × Bool) :=
  match pathNode.sibling with
  | none => pure ([], true)
  | some sibling => do
    let res ← resolveComplete t sibling
    lookups [pathNode]
    let rNodes := res.1.filter (t.notUnmergedAt pathNode)
    assertion (rNodes.length = res.1.length)
    pure (rNodes, res.2)

/-- One round of `verify_parent_hashes`. -/
def verifyLevel (t : PartialTreeView P) (level : Nat) (prevH2 : Bytes32)
    (predecessors : List P.PublicKey) (update : NodeUpdate P) : MachineM CryptoError Unit := do
  if level = 0 then
    .returns (rejectIf (update.parentHash.1 ≠ zero32 ∨ update.parentHash.2 ≠ zero32)
      .parentHashMismatch)
  else do
    let label ← .arith (siblingLabel t update.nodeIndex)
    .returns (rejectIf (h4ParentHashH1 P update.publicKey label ≠ update.parentHash.1)
      .parentHashMismatch)
    let rLocal ← .arith (reconstructResolutionComplete t update.nodeIndex)
    if rLocal.2 then do
      .returns (rejectIf ((update.encryptedSeeds.map (·.recipientIndex.position)).toFinset ≠
        (rLocal.1.map (·.position)).toFinset) .parentHashMismatch)
      let localResKeys ← .arith (reconstructResolutionKeys t update.nodeIndex)
      .returns (rejectIf (h4ParentHashH2 P update.publicKey predecessors prevH2 localResKeys ≠
        update.parentHash.2) .parentHashMismatch)
    else pure ()

/-- The loop of `verify_parent_hashes`. -/
def verifyLevels (t : PartialTreeView P) :
    Nat → Bytes32 → List P.PublicKey → List (NodeUpdate P) → MachineM CryptoError Unit
  | _, _, _, [] => pure ()
  | level, prevH2, predecessors, update :: updates => do
    verifyLevel t level prevH2 predecessors update
    verifyLevels t (level + 1) update.parentHash.2 (predecessors ++ [update.publicKey]) updates

/-- `verify_parent_hashes`. -/
def verifyParentHashes (t : PartialTreeView P) (updates : List (NodeUpdate P)) :
    MachineM CryptoError Unit :=
  verifyLevels t 0 zero32 [] updates

/-! ## Changes to the session -/

/-- One round of `update_tree_from_path_updates`. -/
def writePathUpdate (transcriptHash : Bytes32) (epochNumber : Nat) (commitSignature : P.Signature)
    (updaterId : UserId) (t : PartialTreeView P) (pu : PathUpdate) : Option (PartialTreeView P) :=
  match P.publicKeyFromBytes pu.newPublicKey with
  | .ok publicKey => do
    let held ← get t pu.nodeIndex
    let epoch ← addWord 64 epochNumber 1
    insert t (TreeNode.newPopulated pu.nodeIndex publicKey (held.bind (·.state.publicKey))
      pu.parentHash updaterId commitSignature transcriptHash zero32 ⟨epoch, 0, 0⟩)
  | .error _ => pure t

/-- `update_tree_from_path_updates`. -/
def updateTreeFromPathUpdates (session : CocoaSession P) (pathUpdates : List PathUpdate)
    (commitSignature : P.Signature) (updaterId : UserId) : Option (CocoaSession P) := do
  let tree ← pathUpdates.foldlM
    (writePathUpdate session.transcriptHash session.epochNumber commitSignature updaterId)
    session.tree
  pure (session.modifyTree fun _ => tree)

/-- `clear_unmerged_on_path`. -/
def clearUnmergedOnPath (session : CocoaSession P) (updaterLeafPosition : Nat) :
    Option (CocoaSession P) := do
  let tree ← (pathToRoot (.leaf session.tree.treeDepth updaterLeafPosition)).foldlM
    (fun t current => modifyState t current (·.removeUnmergedLeaf session.ourLeafPosition))
    session.tree
  pure (session.modifyTree fun _ => tree)

/-- `mark_member_as_unmerged`. -/
def markMemberAsUnmerged (session : CocoaSession P) (leafPosition : Nat) :
    Option (CocoaSession P) := do
  let tree ← (pathToRoot (.leaf session.tree.treeDepth leafPosition)).foldlM (fun t current => do
      match ← get t current with
      | some node =>
        if node.state.isBlank then modifyState t current (·.addUnmergedLeaf leafPosition)
        else pure t
      | none => pure t) session.tree
  pure (session.modifyTree fun _ => tree)

/-- `advance_epoch`: the number of the next epoch is a `checked_add` with an
`expect` behind it. -/
def advanceEpoch (session : CocoaSession P) (deltaRoot newTranscriptHash : Bytes32) :
    Option (CocoaSession P) := do
  let _ ← addWord 64 session.epochNumber 1
  pure (session.advanceEpoch deltaRoot newTranscriptHash)

/-! ## Receiving a commit -/

/-- The node at a leaf, looked up only where the leaf is below the member count. -/
def committerNode (session : CocoaSession P) (view : PartialTreeView P) (leafPosition : Nat) :
    Option (Option (TreeNode P)) :=
  if leafPosition ≥ session.memberCount then pure none
  else get view (.leaf view.treeDepth leafPosition)

/-- The checks of `process_update`. -/
def checkUpdate (session : CocoaSession P) (commit : UpdateCommit P)
    (updaterIdentity : P.IdentityPublicKey) : MachineM CryptoError (Seed × Bytes32) := do
  .returns (checkSizeLimits (pathUpdatesWireLen commit.pathUpdates) (commit.pathUpdates.length - 1)
    session.tree.treeDepth session.memberCount session.tree.totalUnmergedLeaves)
  .returns (rejectIf (commit.groupId ≠ session.groupId) .groupIdMismatch)
  .returns (rejectIf (commit.updaterLeafPosition ≥ session.memberCount) .invalidLeafPosition)
  let nextEpoch ← .arith (addWord 64 session.epochNumber 1)
  .returns (rejectIf (commit.epoch ≠ nextEpoch) (.epochMismatch nextEpoch commit.epoch))
  .returns (verifyCommitSignature updaterIdentity (commit.content updaterIdentity) commit.signature)
  let committer ← .arith (committerNode session session.tree commit.updaterLeafPosition)
  .returns (rejectIf (commit.updaterLeafPosition ≥ session.memberCount ∨
    committer.any (·.state.isBlank)) .invalidLeafPosition)
  let nodeUpdates ← .returns (convertPathUpdatesToNodeUpdates P commit.pathUpdates)
  let deltaRoot ← .returns (applyPathUpdates nodeUpdates session.ourKeypair session.ourLeafPosition
    commit.updaterLeafPosition)
  let newTranscript := h3TranscriptHash P session.transcriptHash commit.roundHash
  .returns (rejectIf (computeConfirmationTag P deltaRoot newTranscript commit.epoch ≠
    commit.confirmationTag) .signatureVerificationFailed)
  .returns (rejectIf (h3RoundHash P (P.deriveKey rootLabelContext deltaRoot.val) [] [] ≠
    commit.roundHash) .roundHashMismatch)
  verifyParentHashes session.tree nodeUpdates
  pure (deltaRoot, newTranscript)

/-- `process_update`: the session afterwards. -/
def processUpdate (commit : UpdateCommit P) (updaterIdentity : P.IdentityPublicKey)
    (session : CocoaSession P) : MachineM CryptoError (CocoaSession P) := do
  let checked ← checkUpdate session commit updaterIdentity
  let written ← .arith (updateTreeFromPathUpdates session commit.pathUpdates commit.signature
    (deriveUserIdFromIdentity updaterIdentity))
  let cleared ← .arith (clearUnmergedOnPath written commit.updaterLeafPosition)
  .arith (advanceEpoch cleared checked.1 checked.2)

/-- The checks of `process_add`.  The new member count is a `checked_add`. -/
def checkAdd (session : CocoaSession P) (commit : AddCommit P)
    (adderIdentity : P.IdentityPublicKey) : MachineM CryptoError (Seed × Bytes32) := do
  let newMemberCount ← .returns (checkedAdd 32 commit.newLeafPosition 1 .invalidLeafPosition)
  .returns (checkSizeLimits (pathUpdatesWireLen commit.pathUpdates) (commit.pathUpdates.length - 1)
    (depthForMembers newMemberCount) newMemberCount session.tree.totalUnmergedLeaves)
  .returns (rejectIf (commit.groupId ≠ session.groupId) .groupIdMismatch)
  let nextEpoch ← .arith (addWord 64 session.epochNumber 1)
  .returns (rejectIf (commit.epoch ≠ nextEpoch) (.epochMismatch nextEpoch commit.epoch))
  .returns (verifyCommitSignature adderIdentity (commit.content adderIdentity) commit.signature)
  let scratch ← .arith (growIfNeeded session.tree newMemberCount)
  let committer ← .arith (committerNode session scratch commit.committerLeafPosition)
  .returns (rejectIf (commit.committerLeafPosition ≥ session.memberCount ∨
    committer.any (·.state.isBlank)) .invalidLeafPosition)
  let newcomer ← .arith (if session.isMember commit.newMemberId then pure none
    else get scratch (.leaf scratch.treeDepth commit.newLeafPosition))
  .returns (rejectIf (session.isMember commit.newMemberId ∨ newcomer.any (·.state.isPopulated))
    .duplicateMember)
  let nodeUpdates ← .returns (convertPathUpdatesToNodeUpdates P commit.pathUpdates)
  let deltaRoot ← .returns (deltaRootOf nodeUpdates session)
  let newTranscript := h3TranscriptHash P session.transcriptHash commit.roundHash
  .returns (rejectIf (computeConfirmationTag P deltaRoot newTranscript commit.epoch ≠
    commit.confirmationTag) .signatureVerificationFailed)
  .returns (rejectIf (h3RoundHash P (P.deriveKey rootLabelContext deltaRoot.val) []
    [commit.newMemberId] ≠ commit.roundHash) .roundHashMismatch)
  verifyParentHashes scratch nodeUpdates
  pure (deltaRoot, newTranscript)

/-- `process_add`: the session afterwards. -/
def processAdd (commit : AddCommit P) (adderIdentity : P.IdentityPublicKey)
    (session : CocoaSession P) : MachineM CryptoError (CocoaSession P) := do
  let checked ← checkAdd session commit adderIdentity
  let newMemberCount := commit.newLeafPosition + 1
  let grown ← .arith (growIfNeeded session.tree newMemberCount)
  let written ← .arith (updateTreeFromPathUpdates
    (session.modifyTree fun _ => grown.setMemberCount newMemberCount) commit.pathUpdates
    commit.signature session.ourUserId)
  let marked ← .arith (markMemberAsUnmerged written commit.newLeafPosition)
  let advanced ← .arith (advanceEpoch marked checked.1 checked.2)
  pure (advanced.insertMember commit.newMemberId)

/-- The checks of `process_remove`. -/
def checkRemove (session : CocoaSession P) (commit : RemoveCommit P)
    (removerIdentity : P.IdentityPublicKey) : MachineM CryptoError (Seed × Bytes32) := do
  .returns (checkSizeLimits (pathUpdatesWireLen commit.pathUpdates) (commit.pathUpdates.length - 1)
    session.tree.treeDepth session.memberCount session.tree.totalUnmergedLeaves)
  .returns (rejectIf (commit.groupId ≠ session.groupId) .groupIdMismatch)
  .returns (rejectIf (commit.removedLeafPosition = session.ourLeafPosition) .removedFromGroup)
  let nextEpoch ← .arith (addWord 64 session.epochNumber 1)
  .returns (rejectIf (commit.epoch ≠ nextEpoch) (.epochMismatch nextEpoch commit.epoch))
  .returns (verifyCommitSignature removerIdentity (commit.content removerIdentity) commit.signature)
  let committer ← .arith (committerNode session session.tree commit.committerLeafPosition)
  .returns (rejectIf (commit.committerLeafPosition ≥ session.memberCount ∨
    committer.any (·.state.isBlank)) .invalidLeafPosition)
  let nodeUpdates ← .returns (convertPathUpdatesToNodeUpdates P commit.pathUpdates)
  let deltaRoot ← .returns (deltaRootOf nodeUpdates session)
  let newTranscript := h3TranscriptHash P session.transcriptHash commit.roundHash
  .returns (rejectIf (computeConfirmationTag P deltaRoot newTranscript commit.epoch ≠
    commit.confirmationTag) .signatureVerificationFailed)
  .returns (rejectIf (h3RoundHash P (P.deriveKey rootLabelContext deltaRoot.val)
    [commit.removedMemberId] [] ≠ commit.roundHash) .roundHashMismatch)
  let scratch ← .arith (modifyState session.tree
    (.leaf session.tree.treeDepth commit.removedLeafPosition) fun _ => .newBlank)
  verifyParentHashes scratch nodeUpdates
  pure (deltaRoot, newTranscript)

/-- `process_remove`: the session afterwards. -/
def processRemove (commit : RemoveCommit P) (removerIdentity : P.IdentityPublicKey)
    (session : CocoaSession P) : MachineM CryptoError (CocoaSession P) := do
  let checked ← checkRemove session commit removerIdentity
  let blanked ← .arith (modifyState session.tree
    (.leaf session.tree.treeDepth commit.removedLeafPosition) fun _ => .newBlank)
  let written ← .arith (updateTreeFromPathUpdates (session.modifyTree fun _ => blanked)
    commit.pathUpdates commit.signature session.ourUserId)
  let advanced ← .arith (advanceEpoch written checked.1 checked.2)
  pure (advanced.removeMember commit.removedMemberId)

/-- The entry point that receives a commit. -/
def process (signer : P.IdentityPublicKey) (session : CocoaSession P) :
    Commit P → MachineM CryptoError (CocoaSession P)
  | .add commit => processAdd commit signer session
  | .update commit => processUpdate commit signer session
  | .remove commit => processRemove commit signer session

/-! ## Joining -/

/-- The loop of `parse_welcome_tree_info`, at the offset `off`. -/
def parseWelcomeTreeInfoAux (P : Primitives) (treeInfo : Bytes) :
    Nat → Nat → MachineM CryptoError (List (NodeUpdate P))
  | 0, _ => pure []
  | n + 1, off =>
    if off < treeInfo.length then do
      let hdrEnd ← .returns (checkedAdd 64 off 9 .malformedMessage)
      .returns (rejectIf (treeInfo.length < hdrEnd) .malformedMessage)
      let depth ← .arith (do slice treeInfo off (← addWord 64 off 4))
      let position ← .arith (do slice treeInfo (← addWord 64 off 4) (← addWord 64 off 8))
      let stateFlag ← .arith (do treeInfo[← addWord 64 off 8]?)
      if stateFlag = 1 then do
        let plenEnd ← .returns (checkedAdd 64 hdrEnd 2 .malformedMessage)
        .returns (rejectIf (treeInfo.length < plenEnd) .malformedMessage)
        let pkLen ← .arith (slice treeInfo hdrEnd plenEnd)
        let pkEnd ← .returns (checkedAdd 64 plenEnd (leValue pkLen) .malformedMessage)
        let hashesEnd ← .returns (checkedAdd 64 pkEnd 64 .malformedMessage)
        .returns (rejectIf (treeInfo.length < hashesEnd) .malformedMessage)
        let pk ← .arith (slice treeInfo plenEnd pkEnd)
        let publicKey ← .returns (P.publicKeyFromBytes pk)
        let h1 ← .arith (do FixedBytes.ofBytes? 32 (← slice treeInfo pkEnd (← addWord 64 pkEnd 32)))
        let h2 ← .arith (do
          FixedBytes.ofBytes? 32 (← slice treeInfo (← addWord 64 pkEnd 32) hashesEnd))
        let nodes ← parseWelcomeTreeInfoAux P treeInfo n hashesEnd
        pure (⟨⟨leValue depth, leValue position⟩, publicKey, (h1, h2), []⟩ :: nodes)
      else parseWelcomeTreeInfoAux P treeInfo n hdrEnd
    else pure []

/-- `parse_welcome_tree_info`. -/
def parseWelcomeTreeInfo (P : Primitives) (treeInfo : Bytes) :
    MachineM CryptoError (List (NodeUpdate P)) :=
  parseWelcomeTreeInfoAux P treeInfo treeInfo.length 0

/-- `verify_welcome_tree_info`: the view is built first, with the linear index of
every node. -/
def verifyWelcomeTreeInfo (nodes : List (NodeUpdate P)) (treeDepth : Nat) :
    MachineM CryptoError Unit := do
  .arith (lookups (nodes.map (·.nodeIndex)))
  let view (linear : Nat) : Option P.PublicKey :=
    (nodes.reverse.find? (·.nodeIndex.toLinear = linear)).map (·.publicKey)
  nodes.forM fun node =>
    if node.nodeIndex.depth = treeDepth then
      .returns (rejectIf (node.parentHash.1 ≠ zero32 ∨ node.parentHash.2 ≠ zero32)
        .parentHashMismatch)
    else
      match node.nodeIndex.sibling with
      | none => pure ()
      | some sibling => do
        let linear ← .arith (toLinear sibling)
        match view linear with
        | none => pure ()
        | some siblingPk =>
          .returns (rejectIf (h4ParentHashH1 P node.publicKey
            (h3TreeLabel P sibling.depth sibling.position (P.publicKeyToBytes siblingPk)) ≠
              node.parentHash.1) .parentHashMismatch)

/-- The advances of a joiner to the epoch of its welcome. -/
def advanceTimes (transcriptHash : Bytes32) : Nat → CocoaSession P → Option (CocoaSession P)
  | 0, session => pure session
  | n + 1, session => do
    let advanced ← advanceEpoch session zero32 transcriptHash
    advanceTimes transcriptHash n advanced

/-- `process_welcome`. -/
def processWelcome (ourUserId : UserId) (ourKem : P.KeyPair) (welcome : Welcome P)
    (committerIdentity : P.IdentityPublicKey) : MachineM CryptoError (CocoaSession P) := do
  .returns (checkSizeLimits (welcome.encryptedInfo.length + welcome.encapsulation.length) 0
    welcome.treeDepth welcome.memberCount 0)
  .returns (P.verifyWithContext committerIdentity
    (welcomeSignBody welcome.groupId welcome.epoch welcome.leafPosition welcome.treeDepth
      welcome.memberCount welcome.encapsulation welcome.encryptedInfo)
    welcomeSignContext welcome.signature)
  let encapsulation ← .returns (P.encapsulationFromBytes welcome.encapsulation)
  let sharedSecret ← .returns (P.decapsulate ourKem encapsulation)
  .returns (rejectIf (welcome.encryptedInfo.length < 24) .malformedMessage)
  let nonce ← .arith (do FixedBytes.ofBytes? 24 (← slice welcome.encryptedInfo 0 24))
  let ciphertext ← .arith (slice welcome.encryptedInfo 24 welcome.encryptedInfo.length)
  let plaintext ← .returns (P.decryptCommitting (deriveWelcomeKey P sharedSecret) nonce ciphertext
    welcome.groupId.val)
  .returns (rejectIf (plaintext.length < welcomeInfoPlaintextSize) .malformedMessage)
  let epochSecret ← .arith (do FixedBytes.ofBytes? 32 (← slice plaintext 0 32))
  let transcriptHash ← .arith (do
    FixedBytes.ofBytes? 32 (← slice plaintext 32 welcomeInfoPlaintextSize))
  let treeInfo ← .arith (slice plaintext welcomeInfoPlaintextSize plaintext.length)
  if treeInfo.isEmpty then pure ()
  else do
    let nodes ← parseWelcomeTreeInfo P treeInfo
    verifyWelcomeTreeInfo nodes welcome.treeDepth
  let session := CocoaSession.joinGroup welcome.groupId ourUserId ourKem welcome.leafPosition
    welcome.treeDepth welcome.memberCount epochSecret transcriptHash
  .arith (advanceTimes transcriptHash welcome.epoch session)

end Trelis.Cocoa.Machine
