import Mathlib.Data.Finset.Dedup
import Trelis.Cocoa.Resolution
import Trelis.Cocoa.Seed

/-!
# Path updates

`operations/path_update.rs`: how a committer builds the updates of its path,
how a receiver finds its seed among them, and how a receiver checks their
parent hashes against its own tree.

The loops of the source carry accumulators: the `h2` of the level below, and
the public keys of the levels below.  They are recursions with these
accumulators as arguments here (`buildLevels`, `verifyLevels`), and the level
counts up with them.

The debug assertions of the source are not here: a release build skips them.
`Cocoa/Machine.lean` has the receiving functions with them.
-/

namespace Trelis.Cocoa

variable {P : Primitives}

/-- An encrypted seed with the index of the node it is meant for. -/
structure RecipientSeed (P : Primitives) where
  recipientIndex : NodeIndex
  encrypted : EncryptedNodeSeed P

/-- The update of one node. -/
structure NodeUpdate (P : Primitives) where
  nodeIndex : NodeIndex
  publicKey : P.PublicKey
  parentHash : Bytes32 × Bytes32
  encryptedSeeds : List (RecipientSeed P)

/-- The updates of a path, leaf first, and the root seed. -/
structure PathUpdateResult (P : Primitives) where
  updates : List (NodeUpdate P)
  deltaRoot : Seed

/-! ## Building -/

/-- The inner loop of the builder: one encryption for each recipient. -/
def encryptToRecipients (seed : Seed) (nodeIndex : NodeIndex) (coins : Nat → P.Coins)
    (recipients : List (NodeIndex × P.PublicKey)) : Result (List (RecipientSeed P)) :=
  recipients.zipIdx.mapM fun entry => do
    let encrypted ← encryptSeedToRecipient seed entry.1.2 nodeIndex (coins entry.2)
    pure ⟨entry.1.1, encrypted⟩

/-- One round of the builder's loop. -/
def buildLevel (treeDepth ourLeafPosition : Nat) (resolutionSets : List (List NodeIndex))
    (resolutionKeys : List (List P.PublicKey)) (siblingLabels : List Bytes32)
    (coins : Nat → Nat → P.Coins) (level : Nat) (prevH2 : Bytes32)
    (predecessorKeys : List P.PublicKey) (seed : Seed) : Result (NodeUpdate P) := do
  let nodeIndex : NodeIndex := ⟨treeDepth - level, ourLeafPosition >>> level⟩
  let keypair ← deriveNodeKeypair seed
  let publicKey := P.publicKey keypair
  let resolution := resolutionSets.getD level []
  let keys := resolutionKeys.getD level []
  rejectIf (resolution.length ≠ keys.length) .malformedMessage
  let encryptedSeeds ← encryptToRecipients seed nodeIndex (coins level) (resolution.zip keys)
  let parentHash :=
    if level = 0 then (zero32, zero32)
    else
      (h4ParentHashH1 P publicKey (siblingLabels.getD (level - 1) zero32),
        h4ParentHashH2 P publicKey predecessorKeys prevH2 keys)
  pure { nodeIndex, publicKey, parentHash, encryptedSeeds }

/-- The builder's loop over the path seeds. -/
def buildLevels (treeDepth ourLeafPosition : Nat) (resolutionSets : List (List NodeIndex))
    (resolutionKeys : List (List P.PublicKey)) (siblingLabels : List Bytes32)
    (coins : Nat → Nat → P.Coins) :
    Nat → Bytes32 → List P.PublicKey → List Seed → Result (List (NodeUpdate P))
  | _, _, _, [] => pure []
  | level, prevH2, predecessorKeys, seed :: seeds => do
    let update ← buildLevel treeDepth ourLeafPosition resolutionSets resolutionKeys siblingLabels
      coins level prevH2 predecessorKeys seed
    let updates ← buildLevels treeDepth ourLeafPosition resolutionSets resolutionKeys
      siblingLabels coins (level + 1) update.parentHash.2 (predecessorKeys ++ [update.publicKey])
      seeds
    pure (update :: updates)

/-- Builds the updates of a path from its seeds.  `coins ℓ i` is the draw for
recipient `i` of level `ℓ`. -/
def buildPathUpdatesWithSeeds (treeDepth ourLeafPosition : Nat) (pathSeeds : List Seed)
    (resolutionSets : List (List NodeIndex)) (resolutionKeys : List (List P.PublicKey))
    (siblingLabels : List Bytes32) (coins : Nat → Nat → P.Coins) :
    Result (PathUpdateResult P) := do
  rejectIf (resolutionSets.length ≠ pathSeeds.length ∨ resolutionKeys.length ≠ pathSeeds.length)
    .malformedMessage
  rejectIf (siblingLabels.length ≠ pathSeeds.length - 1) .malformedMessage
  let updates ← buildLevels treeDepth ourLeafPosition resolutionSets resolutionKeys siblingLabels
    coins 0 zero32 [] pathSeeds
  pure ⟨updates, pathSeeds.getLast?.getD zero32⟩

/-! ## Applying -/

/-- The climb to the lowest common ancestor; it fails only when the two nodes
reach depth 0 apart. -/
def meet : Nat → NodeIndex → NodeIndex → Option Unit
  | 0, _, _ => none
  | n + 1, a, b =>
    if a = b then some ()
    else if a.depth < b.depth then b.parent.bind fun b' => meet n a b'
    else if b.depth < a.depth then a.parent.bind fun a' => meet n a' b
    else a.parent.bind fun a' => b.parent.bind fun b' => meet n a' b'

/-- The node at which we expect our entry: our leaf. -/
def findOurResolutionNode (ourPosition treeDepth updaterPosition : Nat) : Option NodeIndex :=
  (meet (treeDepth + 1) (.leaf treeDepth ourPosition) (.leaf treeDepth updaterPosition)).map
    fun _ => .leaf treeDepth ourPosition

/-- The seed that we read at one level: first the entry with our index, then
every entry in order. -/
def openLevel (ourNode : Option NodeIndex) (ourKeypair : P.KeyPair) (update : NodeUpdate P) :
    Option Seed :=
  let ours := ourNode.bind fun idx => update.encryptedSeeds.find? (·.recipientIndex = idx)
  match ours.bind fun r => (decryptSeed r.encrypted ourKeypair update.nodeIndex).toOption with
  | some seed => some seed
  | none =>
    update.encryptedSeeds.findSome? fun r =>
      (decryptSeed r.encrypted ourKeypair update.nodeIndex).toOption

/-- The loop over the levels: the first level that we can open, and its
seed. -/
def findSeed (ourNode : Option NodeIndex) (ourKeypair : P.KeyPair) :
    Nat → List (NodeUpdate P) → Option (Nat × Seed)
  | _, [] => none
  | level, update :: updates =>
    match openLevel ourNode ourKeypair update with
    | some seed => some (level, seed)
    | none => findSeed ourNode ourKeypair (level + 1) updates

/-- The loop over the derived seeds: each one must give the key of its
update, and a leaf update must have zero parent hashes. -/
def verifyChain : Nat → List Seed → List (NodeUpdate P) → Result Unit
  | _, [], _ => pure ()
  | level, seed :: seeds, [] => do
    let _ ← deriveNodeKeypair (P := P) seed
    verifyChain (level + 1) seeds []
  | level, seed :: seeds, update :: updates => do
    let expected ← deriveNodeKeypair (P := P) seed
    rejectIf (P.publicKeyToBytes (P.publicKey expected) ≠ P.publicKeyToBytes update.publicKey)
      .signatureVerificationFailed
    rejectIf (level = 0 ∧ (update.parentHash.1 ≠ zero32 ∨ update.parentHash.2 ≠ zero32))
      .signatureVerificationFailed
    verifyChain (level + 1) seeds updates

/-- Finds our seed, derives the chain to the root and checks its keys; returns
the root seed. -/
def applyPathUpdates (pathUpdates : List (NodeUpdate P)) (ourKeypair : P.KeyPair)
    (ourPosition updaterLeaf : Nat) : Result Seed :=
  match pathUpdates with
  | [] => .error .malformedMessage
  | first :: _ =>
    let ourNode := findOurResolutionNode ourPosition first.nodeIndex.depth updaterLeaf
    match findSeed ourNode ourKeypair 0 pathUpdates with
    | none => .error .decryptionFailed
    | some (decryptLevel, seed) => do
      let pathSeeds := derivePathSeeds P seed (pathUpdates.length - decryptLevel)
      verifyChain decryptLevel pathSeeds (pathUpdates.drop decryptLevel)
      pure (pathSeeds.getLast?.getD zero32)

/-! ## Verifying parent hashes -/

namespace PartialTreeView

/-- The label of a node's sibling; a blank or absent sibling, and the missing
sibling of the root, have the zero label. -/
def siblingLabel (t : PartialTreeView P) (node : NodeIndex) : Bytes32 :=
  match node.sibling with
  | none => zero32
  | some sibling =>
    match t.keyAt sibling with
    | none => zero32
    | some pk => h3TreeLabel P sibling.depth sibling.position (P.publicKeyToBytes pk)

/-- The node is not an unmerged leaf of the path node. -/
def notUnmergedAt (t : PartialTreeView P) (pathNode idx : NodeIndex) : Bool :=
  let unmergedV := ((t.get pathNode).bind (·.state.unmergedLeaves)).getD []
  !(idx.depth == t.treeDepth && unmergedV.contains idx.position)

/-- The keys of the resolution of the sibling, less the unmerged leaves of the
path node. -/
def reconstructResolutionKeys (t : PartialTreeView P) (pathNode : NodeIndex) :
    List P.PublicKey :=
  ((t.computeLj pathNode t.unmergedLeafNodes).filter (t.notUnmergedAt pathNode)).filterMap
    t.keyAt

/-- `resolve`, and whether the view holds every node that the walk visits. -/
def resolveComplete (t : PartialTreeView P) (index : NodeIndex) : List NodeIndex × Bool :=
  t.foldBlank ([], false) (fun i => ([i], true)) ([], true)
    (fun l r => (l.1 ++ r.1, l.2 && r.2)) index

/-- The nodes of the resolution of the sibling, less the unmerged leaves of the
path node, and whether the view determines them. -/
def reconstructResolutionComplete (t : PartialTreeView P) (pathNode : NodeIndex) :
    List NodeIndex × Bool :=
  match pathNode.sibling with
  | none => ([], true)
  | some sibling =>
    let res := t.resolveComplete sibling
    (res.1.filter (t.notUnmergedAt pathNode), res.2)

end PartialTreeView

/-- One round of the verifier's loop. -/
def verifyLevel (t : PartialTreeView P) (level : Nat) (prevH2 : Bytes32)
    (predecessors : List P.PublicKey) (update : NodeUpdate P) : Result Unit := do
  if level = 0 then
    rejectIf (update.parentHash.1 ≠ zero32 ∨ update.parentHash.2 ≠ zero32) .parentHashMismatch
  else do
    rejectIf (h4ParentHashH1 P update.publicKey (t.siblingLabel update.nodeIndex) ≠
      update.parentHash.1) .parentHashMismatch
    let rLocal := t.reconstructResolutionComplete update.nodeIndex
    if rLocal.2 then do
      rejectIf ((update.encryptedSeeds.map (·.recipientIndex.position)).toFinset ≠
        (rLocal.1.map (·.position)).toFinset) .parentHashMismatch
      rejectIf (h4ParentHashH2 P update.publicKey predecessors prevH2
        (t.reconstructResolutionKeys update.nodeIndex) ≠ update.parentHash.2) .parentHashMismatch
    else pure ()

/-- The verifier's loop; the chain advances with the values of the wire. -/
def verifyLevels (t : PartialTreeView P) :
    Nat → Bytes32 → List P.PublicKey → List (NodeUpdate P) → Result Unit
  | _, _, _, [] => pure ()
  | level, prevH2, predecessors, update :: updates => do
    verifyLevel t level prevH2 predecessors update
    verifyLevels t (level + 1) update.parentHash.2 (predecessors ++ [update.publicKey]) updates

/-- Checks the parent hashes of a commit's path updates against a tree. -/
def verifyParentHashes (t : PartialTreeView P) (updates : List (NodeUpdate P)) : Result Unit :=
  verifyLevels t 0 zero32 [] updates

end Trelis.Cocoa
