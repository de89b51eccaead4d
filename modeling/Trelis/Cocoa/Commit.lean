import Trelis.Cocoa.PathUpdate
import Trelis.Cocoa.Session

/-!
# Commits

What the three operations share: the signed content of a commit
(`operations/commit_sign.rs`), the wire form of the path updates, and the
helpers that `add.rs`, `update.rs` and `remove.rs` each keep a private copy of.
The copies are the same text, so each helper is one definition here.

A commit travels as a `PathUpdate` list with its keys, encapsulations and
ciphertexts as bytes.  The wire keeps only the position of a recipient; the
receiver gives it the depth of the path node.
-/

namespace Trelis.Cocoa

variable {P : Primitives}

/-! ## The signed content -/

/-- The kind of a commit. -/
inductive CommitType where
  | add
  | remove
  | update
deriving DecidableEq, Repr

def CommitType.asByte : CommitType → UInt8
  | add => 0x01
  | remove => 0x02
  | update => 0x03

/-- What the signature of a commit binds. -/
structure CommitContent where
  groupId : GroupId
  /-- The epoch after the commit. -/
  epoch : Nat
  commitType : CommitType
  roundHash : Bytes32
  pathUpdatesHash : Bytes32
  committerLeafPosition : Nat
  committerUserId : UserId

/-- The signed bytes. -/
def CommitContent.toBytes (c : CommitContent) : Bytes :=
  c.groupId.val ++ beBytes 8 c.epoch ++ [c.commitType.asByte] ++ c.roundHash.val ++
    c.pathUpdatesHash.val ++ leBytes 4 c.committerLeafPosition ++ c.committerUserId.val

def commitSignContext : Bytes := ascii "cocoa-sa-commit-sign-v1"

/-- Signs a commit. -/
def signCommit (identity : P.IdentityKeyPair) (content : CommitContent) (coins : P.Coins) :
    Result P.Signature :=
  P.signWithContext identity content.toBytes commitSignContext coins

/-- Verifies the signature of a commit. -/
def verifyCommitSignature (identityPublic : P.IdentityPublicKey) (content : CommitContent)
    (signature : P.Signature) : Result Unit :=
  P.verifyWithContext identityPublic content.toBytes commitSignContext signature

/-- The hash of the serialised path updates. -/
def hashPathUpdates (P : Primitives) (pathUpdatesBytes : Bytes) : Bytes32 :=
  P.deriveKey "cocoa-sa-path-updates-hash-v1" pathUpdatesBytes

/-- The user id that belongs to an identity. -/
def deriveUserIdFromIdentity (identity : P.IdentityPublicKey) : UserId :=
  P.deriveKey userIdContext (P.identityToBytes identity)

/-! ## The wire form of a path -/

/-- An encrypted seed on the wire. -/
structure EncryptedSeed where
  recipientPosition : Nat
  encapsulation : Bytes
  ciphertext : Bytes
deriving DecidableEq

/-- The update of one node on the wire. -/
structure PathUpdate where
  nodeIndex : NodeIndex
  newPublicKey : Bytes
  parentHash : Bytes32 × Bytes32
  encryptedSeeds : List EncryptedSeed
deriving DecidableEq

/-- The bytes of one encrypted seed under the path hash. -/
def EncryptedSeed.serialise (seed : EncryptedSeed) : Bytes :=
  leBytes 4 seed.recipientPosition ++ (leBytes 4 seed.encapsulation.length ++ seed.encapsulation ++
    (leBytes 4 seed.ciphertext.length ++ seed.ciphertext))

/-- The bytes of one node update under the path hash. -/
def PathUpdate.serialise (update : PathUpdate) : Bytes :=
  leBytes 4 update.nodeIndex.depth ++ (leBytes 4 update.nodeIndex.position ++
    (leBytes 4 update.newPublicKey.length ++ update.newPublicKey ++ (update.parentHash.1.val ++
      (update.parentHash.2.val ++ (leBytes 4 update.encryptedSeeds.length ++
        update.encryptedSeeds.flatMap EncryptedSeed.serialise)))))

/-- The bytes under the path hash. -/
def serialisePathUpdates (updates : List PathUpdate) : Bytes :=
  updates.flatMap PathUpdate.serialise

/-- The size of the variable-length parts of a path, for the size gate. -/
def pathUpdatesWireLen (updates : List PathUpdate) : Nat :=
  updates.foldl (fun total update =>
    update.encryptedSeeds.foldl
      (fun total seed => total + seed.encapsulation.length + seed.ciphertext.length)
      (total + update.newPublicKey.length)) 0

/-- The wire form of a recipient's seed. -/
def RecipientSeed.toWire (s : RecipientSeed P) : EncryptedSeed where
  recipientPosition := s.recipientIndex.position
  encapsulation := P.encapsulationToBytes s.encrypted.encapsulation
  ciphertext := s.encrypted.ciphertext.val

/-- The wire form of a node update. -/
def NodeUpdate.toWire (u : NodeUpdate P) : PathUpdate where
  nodeIndex := u.nodeIndex
  newPublicKey := P.publicKeyToBytes u.publicKey
  parentHash := u.parentHash
  encryptedSeeds := u.encryptedSeeds.map RecipientSeed.toWire

/-- Parses an encrypted seed of the update at depth `depth`. -/
def convertEncryptedSeed (P : Primitives) (depth : Nat) (es : EncryptedSeed) :
    Result (RecipientSeed P) := do
  let encapsulation ← P.encapsulationFromBytes es.encapsulation
  let ciphertext ← toArray encryptedSeedCiphertextSize es.ciphertext .malformedMessage
  pure ⟨.leaf depth es.recipientPosition, ⟨encapsulation, ciphertext⟩⟩

/-- Parses the update of one node. -/
def convertPathUpdate (P : Primitives) (pu : PathUpdate) : Result (NodeUpdate P) := do
  let publicKey ← P.publicKeyFromBytes pu.newPublicKey
  let encryptedSeeds ← pu.encryptedSeeds.mapM (convertEncryptedSeed P pu.nodeIndex.depth)
  pure { nodeIndex := pu.nodeIndex, publicKey, parentHash := pu.parentHash, encryptedSeeds }

/-- Parses the path updates of a commit. -/
def convertPathUpdatesToNodeUpdates (P : Primitives) (pathUpdates : List PathUpdate) :
    Result (List (NodeUpdate P)) :=
  pathUpdates.mapM (convertPathUpdate P)

/-! ## Labels and tags -/

/-- The label of the root, from the last seed of the path. -/
def computeRootLabel (P : Primitives) (pathSeeds : List Seed) : Bytes32 :=
  match pathSeeds.getLast? with
  | some rootSeed => P.deriveKey rootLabelContext rootSeed.val
  | none => zero32

/-- The tag by which a receiver checks that it has the committer's root seed,
transcript and epoch. -/
def computeConfirmationTag (P : Primitives) (deltaRoot : Seed) (transcript : Bytes32)
    (epoch : Nat) : Bytes32 :=
  P.deriveKey confirmationTagContext (deltaRoot.val ++ transcript.val ++ leBytes 8 epoch)

/-- The labels of the siblings of the path nodes above the leaf. -/
def computeSiblingLabels (t : PartialTreeView P) (path : List NodeIndex) : List Bytes32 :=
  (path.drop 1).map t.siblingLabel

/-! ## Changes to the tree -/

/-- Writes the update of one node into the tree.  The key parsed before, so a
key that does not parse is skipped in silence. -/
def writePathUpdate (transcriptHash : Bytes32) (epochNumber : Nat) (commitSignature : P.Signature)
    (updaterId : UserId) (t : PartialTreeView P) (pu : PathUpdate) : PartialTreeView P :=
  match P.publicKeyFromBytes pu.newPublicKey with
  | .ok publicKey =>
    t.insert (TreeNode.newPopulated pu.nodeIndex publicKey (t.keyAt pu.nodeIndex) pu.parentHash
      updaterId commitSignature transcriptHash zero32 ⟨epochNumber + 1, 0, 0⟩)
  | .error _ => t

/-- Writes the updates of a path into the tree. -/
def updateTreeFromPathUpdates (session : CocoaSession P) (pathUpdates : List PathUpdate)
    (commitSignature : P.Signature) (updaterId : UserId) : CocoaSession P :=
  session.modifyTree fun t => pathUpdates.foldl
    (writePathUpdate session.transcriptHash session.epochNumber commitSignature updaterId) t

/-- Takes our leaf off the unmerged lists on the updater's path. -/
def clearUnmergedOnPath (session : CocoaSession P) (updaterLeafPosition : Nat) :
    CocoaSession P :=
  session.modifyTree fun t =>
    (pathToRoot (.leaf t.treeDepth updaterLeafPosition)).foldl
      (fun t current => t.removeUnmergedLeaf current session.ourLeafPosition) t

/-- Puts a new leaf on the unmerged lists of the blank nodes on its path. -/
def markMemberAsUnmerged (session : CocoaSession P) (leafPosition : Nat) : CocoaSession P :=
  session.modifyTree fun t =>
    (pathToRoot (.leaf t.treeDepth leafPosition)).foldl (fun t current =>
      match t.get current with
      | some node => if node.state.isBlank then t.addUnmergedLeaf current leafPosition else t
      | none => t) t

/-! ## Random draws -/

/-- The random draws of one call of a builder. -/
structure Draws (P : Primitives) where
  /-- `generate_leaf_seed`. -/
  leafSeed : Result Seed
  /-- The encapsulation to recipient `i` of level `ℓ` is `seedCoins ℓ i`. -/
  seedCoins : Nat → Nat → P.Coins
  /-- `HybridKemKeypair::generate` inside `rotate_keypair`. -/
  keypairCoins : P.Coins
  /-- The commit signature. -/
  signCoins : P.Coins
  /-- The encapsulation of a welcome. -/
  welcomeCoins : P.Coins
  /-- The nonce of a welcome. -/
  welcomeNonce : Result (FixedBytes 24)
  /-- The welcome signature. -/
  welcomeSignCoins : P.Coins

/-- A builder: it mutates the session, also where it then fails. -/
abbrev SessionM (P : Primitives) := EStateM CryptoError (CocoaSession P)

end Trelis.Cocoa
