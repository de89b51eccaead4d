import Trelis.Cocoa.Accept
import Trelis.Cocoa.Agreement
import Trelis.Cocoa.Receive
import Trelis.Cocoa.Writes

/-!
# Receiving any commit

`Commit` is a commit of one of the three kinds and `Commit.process` the entry
point that receives it.  The lemmas say what a receiver has written once its
checks have passed: the epoch (`Advanced`), the size of the tree and its keys.
`SameGroup` says that two members agree on their group.
-/

namespace Trelis.Cocoa

open PartialTreeView

variable {P : Primitives}

/-! ## Commits of any kind -/

/-- A commit of one of the three kinds. -/
inductive Commit (P : Primitives) where
  | add (commit : AddCommit P)
  | update (commit : UpdateCommit P)
  | remove (commit : RemoveCommit P)

/-- The entry point that receives a commit. -/
def Commit.process (signer : P.IdentityPublicKey) : Commit P → SessionM P Unit
  | add commit => processAdd commit signer
  | update commit => processUpdate commit signer
  | remove commit => processRemove commit signer

/-- A member accepts a list of commits one after another, each with the
identity that it takes for the signer, and passes through the given states. -/
inductive Accepted : CocoaSession P → List (Commit P × P.IdentityPublicKey) →
    List (CocoaSession P) → Prop
  | nil (s) : Accepted s [] []
  | cons {s s' commit signer rest states} (head : commit.process signer s = .ok () s')
      (tail : Accepted s' rest states) :
      Accepted s ((commit, signer) :: rest) (s' :: states)

/-! ## What a receiver writes -/

/-- The session has moved to the next epoch, with the given root seed and
transcript hash. -/
structure Advanced (s s' : CocoaSession P) (delta : Seed) (transcript : Bytes32) : Prop where
  groupId_eq : s'.groupId = s.groupId
  epoch_eq : s'.epoch = .advance s.epoch.initSecret delta transcript s.epoch.number
  transcriptHash_eq : s'.transcriptHash = transcript

section Writes

variable (s : CocoaSession P) (signer : P.IdentityPublicKey) (delta : Seed) (transcript : Bytes32)

theorem applyUpdate_advanced (c : UpdateCommit P) :
    Advanced s (applyUpdate s c signer delta transcript) delta transcript := by
  constructor <;> simp [applyUpdate, clearUnmergedOnPath, updateTreeFromPathUpdates]

theorem applyAdd_advanced (c : AddCommit P) :
    Advanced s (applyAdd s c delta transcript) delta transcript := by
  constructor <;> simp [applyAdd, markMemberAsUnmerged, updateTreeFromPathUpdates]

theorem applyRemove_advanced (c : RemoveCommit P) :
    Advanced s (applyRemove s c delta transcript) delta transcript := by
  constructor <;> simp [applyRemove, updateTreeFromPathUpdates]

theorem shape_applyUpdate (c : UpdateCommit P) :
    (applyUpdate s c signer delta transcript).tree.shape = s.tree.shape :=
  (CocoaSession.shape_clearUnmergedOnPath _ _).trans
    (s.shape_updateTreeFromPathUpdates _ _ _)

theorem shape_applyAdd (c : AddCommit P) :
    (applyAdd s c delta transcript).tree.shape =
      ((s.tree.growIfNeeded (c.newLeafPosition + 1)).treeDepth, c.newLeafPosition + 1) :=
  (CocoaSession.shape_markMemberAsUnmerged _ _).trans
    (CocoaSession.shape_updateTreeFromPathUpdates _ _ _ _)

theorem shape_applyRemove (c : RemoveCommit P) :
    (applyRemove s c delta transcript).tree.shape = s.tree.shape :=
  CocoaSession.shape_updateTreeFromPathUpdates _ _ _ _

theorem ourLeaf_applyRemove (c : RemoveCommit P) :
    (applyRemove s c delta transcript).tree.ourLeaf = s.tree.ourLeaf :=
  CocoaSession.ourLeaf_updateTreeFromPathUpdates _ _ _ _

/-- The keys after an update are those that its path updates write. -/
theorem agree_applyUpdate (c : UpdateCommit P) :
    Agree nodeCell (applyUpdate s c signer delta transcript).tree
      (c.pathUpdates.foldl (writePathUpdate s.transcriptHash s.epochNumber c.signature
        (deriveUserIdFromIdentity signer)) s.tree) :=
  CocoaSession.agree_clearUnmergedOnPath _ _

/-- The keys after an add are those that its path updates write into the grown
tree. -/
theorem agree_applyAdd (c : AddCommit P) :
    Agree nodeCell (applyAdd s c delta transcript).tree
      (c.pathUpdates.foldl (writePathUpdate s.transcriptHash s.epochNumber c.signature s.ourUserId)
        (s.tree.growIfNeeded (c.newLeafPosition + 1))) := by
  apply (CocoaSession.agree_markMemberAsUnmerged _ _).trans
  have hcount : Agree nodeCell ((s.tree.growIfNeeded (c.newLeafPosition + 1)).setMemberCount
      (c.newLeafPosition + 1)) (s.tree.growIfNeeded (c.newLeafPosition + 1)) := rfl
  exact hcount.writePathUpdates _ _ _ _ _ _ _ c.pathUpdates

/-- The keys after a remove are those that its path updates write into the tree
with the removed leaf blanked. -/
theorem agree_applyRemove (c : RemoveCommit P) :
    Agree nodeCell (applyRemove s c delta transcript).tree
      (c.pathUpdates.foldl (writePathUpdate s.transcriptHash s.epochNumber c.signature s.ourUserId)
        (s.tree.blankNode (.leaf s.tree.treeDepth c.removedLeafPosition))) :=
  Agree.refl _

theorem keyAt_applyUpdate (c : UpdateCommit P) (i : NodeIndex) :
    (applyUpdate s c signer delta transcript).tree.keyAt i =
      (writtenKey P c.pathUpdates i).or (s.tree.keyAt i) := by
  rw [(agree_applyUpdate ..).toKeyCell.keyAt, keyAt_writePathUpdates]

theorem keyAt_applyAdd (c : AddCommit P) (i : NodeIndex) :
    (applyAdd s c delta transcript).tree.keyAt i =
      (writtenKey P c.pathUpdates i).or
        ((s.tree.growIfNeeded (c.newLeafPosition + 1)).keyAt i) := by
  rw [(agree_applyAdd ..).toKeyCell.keyAt, keyAt_writePathUpdates]

theorem keyAt_applyRemove (c : RemoveCommit P) (i : NodeIndex) :
    (applyRemove s c delta transcript).tree.keyAt i =
      (writtenKey P c.pathUpdates i).or
        ((s.tree.blankNode (.leaf s.tree.treeDepth c.removedLeafPosition)).keyAt i) := by
  rw [(agree_applyRemove ..).toKeyCell.keyAt, keyAt_writePathUpdates]

end Writes

/-! ## Agreement of two sessions -/

/-- Two sessions agree on the group: its id, its epoch, its transcript, its
size, and the key and parent hash of every node. -/
structure SameGroup (a b : CocoaSession P) : Prop where
  groupId_eq : a.groupId = b.groupId
  epochNumber_eq : a.epochNumber = b.epochNumber
  epochSecret_eq : a.currentEpochSecret = b.currentEpochSecret
  transcriptHash_eq : a.transcriptHash = b.transcriptHash
  shape_eq : a.tree.shape = b.tree.shape
  nodes : Agree nodeCell a.tree b.tree

namespace SameGroup

variable {a b a' b' : CocoaSession P}

theorem treeDepth_eq (h : SameGroup a b) : a.tree.treeDepth = b.tree.treeDepth :=
  congrArg Prod.fst h.shape_eq

theorem memberCount_eq (h : SameGroup a b) : a.memberCount = b.memberCount :=
  congrArg Prod.snd h.shape_eq

/-- The same init secret, as the epoch secret determines it. -/
theorem initSecret_eq (h : SameGroup a b) : a.epoch.initSecret = b.epoch.initSecret :=
  congrArg EpochSecrets.initSecret (EpochSecrets.ext_epochSecret h.epochSecret_eq)

/-- Two sessions that agree and advance with the same root seed and transcript
hash reach the same epoch. -/
theorem advanced (h : SameGroup a b) {delta : Seed} {transcript : Bytes32}
    (ha : Advanced a a' delta transcript) (hb : Advanced b b' delta transcript) :
    a'.epochNumber = b'.epochNumber ∧ a'.currentEpochSecret = b'.currentEpochSecret ∧
      a'.transcriptHash = b'.transcriptHash := by
  refine ⟨?_, ?_, ?_⟩
  · rw [CocoaSession.epochNumber, CocoaSession.epochNumber, ha.epoch_eq, hb.epoch_eq]
    exact congrArg (· + 1) h.epochNumber_eq
  · rw [CocoaSession.currentEpochSecret, CocoaSession.currentEpochSecret, ha.epoch_eq, hb.epoch_eq]
    show h5EpochSecret P a.epoch.initSecret delta transcript =
      h5EpochSecret P b.epoch.initSecret delta transcript
    rw [h.initSecret_eq]
  · rw [ha.transcriptHash_eq, hb.transcriptHash_eq]

/-- They still agree when their trees do. -/
theorem next (h : SameGroup a b) {delta : Seed} {transcript : Bytes32}
    (ha : Advanced a a' delta transcript) (hb : Advanced b b' delta transcript)
    (hshape : a'.tree.shape = b'.tree.shape) (hnodes : Agree nodeCell a'.tree b'.tree) :
    SameGroup a' b' where
  groupId_eq := by rw [ha.groupId_eq, hb.groupId_eq, h.groupId_eq]
  epochNumber_eq := (h.advanced ha hb).1
  epochSecret_eq := (h.advanced ha hb).2.1
  transcriptHash_eq := (h.advanced ha hb).2.2
  shape_eq := hshape
  nodes := hnodes

end SameGroup

/-! ## The root seed -/

/-- Every path update of a commit that parses has a key that parses. -/
theorem publicKey_of_converted {pathUpdates : List PathUpdate} {nodeUpdates : List (NodeUpdate P)}
    (h : convertPathUpdatesToNodeUpdates P pathUpdates = .ok nodeUpdates) {pu : PathUpdate}
    (hpu : pu ∈ pathUpdates) : ∃ pk, P.publicKeyFromBytes pu.newPublicKey = .ok pk := by
  rw [convertPathUpdatesToNodeUpdates, Except.mapM_eq_ok] at h
  induction h with
  | nil => cases hpu
  | @cons q u pus us hqu _ ih =>
    rcases List.mem_cons.mp hpu with rfl | hpu
    · simp only [convertPathUpdate, Except.bind_eq_ok] at hqu
      rcases hqu with ⟨pk, hpk, _⟩
      exact ⟨pk, hpk⟩
    · exact ih hpu

/-- The root seed of an add or a remove: all zero for an empty path, and from an
opened path otherwise. -/
theorem deltaRootOf_eq_ok {s : CocoaSession P} {nodeUpdates : List (NodeUpdate P)} {delta : Seed}
    (h : deltaRootOf nodeUpdates s = .ok delta) :
    (nodeUpdates = [] ∧ delta = zero32) ∨ OpenedPath nodeUpdates s.ourKeypair delta := by
  unfold deltaRootOf at h
  split at h
  · next hempty =>
    rw [Except.pure_eq_ok] at h
    exact .inl ⟨List.isEmpty_iff.mp hempty, h.symm⟩
  · exact .inr (applyPathUpdates_ok h)

end Trelis.Cocoa
