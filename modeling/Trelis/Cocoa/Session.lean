import Mathlib.Data.Finset.Basic
import Trelis.Lib.Outcome
import Trelis.Cocoa.KeySchedule
import Trelis.Cocoa.View

/-!
# Sessions

`session.rs` and `limits.rs`: the state that one member keeps, its
constructors, the advance of the epoch, and the size gate that every entry
point runs first.

The registry `members` holds the user ids that the session has learned about.
A joiner knows only its own.
-/

namespace Trelis.Cocoa

variable {P : Primitives}

/-! ## Size limits -/

def maxGroupSize : Nat := 2 ^ 20
def maxTreeDepth : Nat := 20
def maxMessageSize : Nat := 64 * 1024 * 1024
def maxMerkleProofDepth : Nat := 20
def maxUnmergedLeaves : Nat := 100

/-- Rejects an input that is past a ceiling. -/
def checkSizeLimits (messageLen proofDepth treeDepth groupSize unmergedLeaves : Nat) :
    Result Unit := do
  rejectIf (messageLen > maxMessageSize) .messageTooLarge
  rejectIf (proofDepth > maxMerkleProofDepth) .proofTooDeep
  rejectIf (groupSize > maxGroupSize ∨ treeDepth > maxTreeDepth ∨
    unmergedLeaves > maxUnmergedLeaves) .treeDepthExceeded

/-- Rejects a member count whose tree would be past a ceiling. -/
def checkGroupGrowthLimits (memberCount : Nat) : Result Unit :=
  checkSizeLimits 0 0 (PartialTreeView.depthForMembers memberCount) memberCount 0

/-- What the size gate lets through. -/
structure WithinLimits (messageLen proofDepth treeDepth groupSize unmergedLeaves : Nat) :
    Prop where
  messageLen_le : messageLen ≤ maxMessageSize
  proofDepth_le : proofDepth ≤ maxMerkleProofDepth
  treeDepth_le : treeDepth ≤ maxTreeDepth
  groupSize_le : groupSize ≤ maxGroupSize
  unmergedLeaves_le : unmergedLeaves ≤ maxUnmergedLeaves

instance (m p d g u : Nat) : Decidable (WithinLimits m p d g u) :=
  decidable_of_iff (m ≤ maxMessageSize ∧ p ≤ maxMerkleProofDepth ∧ d ≤ maxTreeDepth ∧
      g ≤ maxGroupSize ∧ u ≤ maxUnmergedLeaves)
    ⟨fun h => ⟨h.1, h.2.1, h.2.2.1, h.2.2.2.1, h.2.2.2.2⟩,
      fun h => ⟨h.1, h.2, h.3, h.4, h.5⟩⟩

theorem checkSizeLimits_eq_ok {m p d g u : Nat} {r : Unit} :
    checkSizeLimits m p d g u = .ok r ↔ WithinLimits m p d g u := by
  simp only [checkSizeLimits, Except.bind_eq_ok, rejectIf_eq_ok, not_or, Nat.not_lt, gt_iff_lt]
  constructor
  · intro h
    rcases h with ⟨_, hm, _, hp, hg, hd, hu⟩
    exact ⟨hm, hp, hd, hg, hu⟩
  · intro h
    exact ⟨(), h.messageLen_le, (), h.proofDepth_le, h.groupSize_le, h.treeDepth_le,
      h.unmergedLeaves_le⟩

/-! ## Sessions -/

/-- A member's participation in a group. -/
@[ext] structure CocoaSession (P : Primitives) where
  groupId : GroupId
  ourUserId : UserId
  ourLeafPosition : Nat
  ourKeypair : P.KeyPair
  tree : PartialTreeView P
  epoch : Epoch P
  transcriptHash : Bytes32
  /-- The members this session knows of. -/
  members : Finset UserId

namespace CocoaSession

/-- The session of a group's creator, at leaf 0. -/
def createGroup (groupId : GroupId) (ourUserId : UserId) (ourKeypair : P.KeyPair)
    (initialMembers : Nat) (epochSecret : Bytes32) : Result (CocoaSession P) := do
  rejectIf (initialMembers = 0) .invalidGroupSize
  let tree := (PartialTreeView.new P 0
    (PartialTreeView.depthForMembers initialMembers)).setMemberCount initialMembers
  pure
    { groupId, ourUserId, ourKeypair, tree
      ourLeafPosition := 0
      epoch := .initial epochSecret zero32
      transcriptHash := zero32
      members := {ourUserId} }

/-- The session of a joiner, at epoch 0. -/
def joinGroup (groupId : GroupId) (ourUserId : UserId) (ourKeypair : P.KeyPair)
    (ourPosition treeDepth memberCount : Nat) (epochSecret transcriptHash : Bytes32) :
    CocoaSession P where
  groupId := groupId
  ourUserId := ourUserId
  ourLeafPosition := ourPosition
  ourKeypair := ourKeypair
  tree := (PartialTreeView.new P ourPosition treeDepth).setMemberCount memberCount
  epoch := .initial epochSecret transcriptHash
  transcriptHash := transcriptHash
  members := {ourUserId}

/-- The current epoch number. -/
def epochNumber (s : CocoaSession P) : Nat := s.epoch.number

/-- The current epoch secret. -/
def currentEpochSecret (s : CocoaSession P) : Bytes32 := s.epoch.secrets.epochSecret

/-- The init secret of the current epoch. -/
def initSecret (s : CocoaSession P) : Bytes32 := s.epoch.initSecret

/-- The member count of the tree view. -/
def memberCount (s : CocoaSession P) : Nat := s.tree.memberCount

/-- The session knows `id` as a member. -/
def isMember (s : CocoaSession P) (id : UserId) : Bool := id ∈ s.members

/-- Our own leaf, at the current depth. -/
def ourLeafNode (s : CocoaSession P) : NodeIndex :=
  .leaf s.tree.treeDepth s.ourLeafPosition

/-- Records a member. -/
def insertMember (s : CocoaSession P) (id : UserId) : CocoaSession P :=
  { s with members := insert id s.members }

/-- Forgets a member. -/
def removeMember (s : CocoaSession P) (id : UserId) : CocoaSession P :=
  { s with members := s.members.erase id }

/-- Replaces the tree by the result of a change made through `tree_mut`. -/
def modifyTree (s : CocoaSession P) (f : PartialTreeView P → PartialTreeView P) :
    CocoaSession P :=
  { s with tree := f s.tree }

/-- Moves to the next epoch. -/
def advanceEpoch (s : CocoaSession P) (deltaRoot newTranscriptHash : Bytes32) : CocoaSession P :=
  { s with
    epoch := .advance s.epoch.initSecret deltaRoot newTranscriptHash s.epoch.number
    transcriptHash := newTranscriptHash }

/-- The key pair that `rotate_keypair` puts in place.  The draw is independent
of every seed. -/
def rotateKeypair (s : CocoaSession P) (coins : P.Coins) : Result (CocoaSession P) := do
  let keypair ← P.generate coins
  pure { s with ourKeypair := keypair }

/-! ### What a change leaves alone -/

section Frame

variable (s : CocoaSession P)

@[simp] theorem groupId_modifyTree (f : PartialTreeView P → PartialTreeView P) :
    (s.modifyTree f).groupId = s.groupId := rfl
@[simp] theorem ourUserId_modifyTree (f : PartialTreeView P → PartialTreeView P) :
    (s.modifyTree f).ourUserId = s.ourUserId := rfl
@[simp] theorem ourLeafPosition_modifyTree (f : PartialTreeView P → PartialTreeView P) :
    (s.modifyTree f).ourLeafPosition = s.ourLeafPosition := rfl
@[simp] theorem ourKeypair_modifyTree (f : PartialTreeView P → PartialTreeView P) :
    (s.modifyTree f).ourKeypair = s.ourKeypair := rfl
@[simp] theorem epoch_modifyTree (f : PartialTreeView P → PartialTreeView P) :
    (s.modifyTree f).epoch = s.epoch := rfl
@[simp] theorem transcriptHash_modifyTree (f : PartialTreeView P → PartialTreeView P) :
    (s.modifyTree f).transcriptHash = s.transcriptHash := rfl
@[simp] theorem members_modifyTree (f : PartialTreeView P → PartialTreeView P) :
    (s.modifyTree f).members = s.members := rfl

@[simp] theorem groupId_advanceEpoch (delta transcript : Bytes32) :
    (s.advanceEpoch delta transcript).groupId = s.groupId := rfl
@[simp] theorem ourUserId_advanceEpoch (delta transcript : Bytes32) :
    (s.advanceEpoch delta transcript).ourUserId = s.ourUserId := rfl
@[simp] theorem ourLeafPosition_advanceEpoch (delta transcript : Bytes32) :
    (s.advanceEpoch delta transcript).ourLeafPosition = s.ourLeafPosition := rfl
@[simp] theorem ourKeypair_advanceEpoch (delta transcript : Bytes32) :
    (s.advanceEpoch delta transcript).ourKeypair = s.ourKeypair := rfl
@[simp] theorem tree_advanceEpoch (delta transcript : Bytes32) :
    (s.advanceEpoch delta transcript).tree = s.tree := rfl
@[simp] theorem members_advanceEpoch (delta transcript : Bytes32) :
    (s.advanceEpoch delta transcript).members = s.members := rfl

@[simp] theorem groupId_insertMember (id : UserId) : (s.insertMember id).groupId = s.groupId := rfl
@[simp] theorem ourUserId_insertMember (id : UserId) :
    (s.insertMember id).ourUserId = s.ourUserId := rfl
@[simp] theorem ourLeafPosition_insertMember (id : UserId) :
    (s.insertMember id).ourLeafPosition = s.ourLeafPosition := rfl
@[simp] theorem ourKeypair_insertMember (id : UserId) :
    (s.insertMember id).ourKeypair = s.ourKeypair := rfl
@[simp] theorem tree_insertMember (id : UserId) : (s.insertMember id).tree = s.tree := rfl
@[simp] theorem epoch_insertMember (id : UserId) : (s.insertMember id).epoch = s.epoch := rfl
@[simp] theorem transcriptHash_insertMember (id : UserId) :
    (s.insertMember id).transcriptHash = s.transcriptHash := rfl

@[simp] theorem groupId_removeMember (id : UserId) : (s.removeMember id).groupId = s.groupId := rfl
@[simp] theorem ourUserId_removeMember (id : UserId) :
    (s.removeMember id).ourUserId = s.ourUserId := rfl
@[simp] theorem ourLeafPosition_removeMember (id : UserId) :
    (s.removeMember id).ourLeafPosition = s.ourLeafPosition := rfl
@[simp] theorem ourKeypair_removeMember (id : UserId) :
    (s.removeMember id).ourKeypair = s.ourKeypair := rfl
@[simp] theorem tree_removeMember (id : UserId) : (s.removeMember id).tree = s.tree := rfl
@[simp] theorem epoch_removeMember (id : UserId) : (s.removeMember id).epoch = s.epoch := rfl
@[simp] theorem transcriptHash_removeMember (id : UserId) :
    (s.removeMember id).transcriptHash = s.transcriptHash := rfl

@[simp] theorem tree_modifyTree (f : PartialTreeView P → PartialTreeView P) :
    (s.modifyTree f).tree = f s.tree := rfl

@[simp] theorem epoch_advanceEpoch (delta transcript : Bytes32) :
    (s.advanceEpoch delta transcript).epoch =
      .advance s.epoch.initSecret delta transcript s.epoch.number := rfl

@[simp] theorem transcriptHash_advanceEpoch (delta transcript : Bytes32) :
    (s.advanceEpoch delta transcript).transcriptHash = transcript := rfl

@[simp] theorem members_insertMember (id : UserId) :
    (s.insertMember id).members = insert id s.members := rfl

@[simp] theorem members_removeMember (id : UserId) :
    (s.removeMember id).members = s.members.erase id := rfl

end Frame

end CocoaSession

end Trelis.Cocoa
