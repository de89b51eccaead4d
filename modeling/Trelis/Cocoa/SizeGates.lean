import Trelis.Cocoa.Representation
import Trelis.Cocoa.WireFormat

/-!
# The size gate and honest commits

Every receiver starts with the size gate.  The builders bound the group and its
tree only, and the gate bounds two more numbers: the size of the path, which
grows with the recipients, and the unmerged leaves of the tree.

`Operation.pathSize` is the size of the path that a builder is about to make.
An honest commit passes the gate of its peers exactly when that size, and the
unmerged leaves of the tree that they share, are within the limits
(`honest_commit_passes_iff`).
-/

namespace Trelis.Cocoa

open PartialTreeView

variable {P : Primitives}

/-- The size gate at the start of the three receivers. -/
def Commit.sizeGate (s : CocoaSession P) : Commit P → Result Unit
  | add c => checkSizeLimits (pathUpdatesWireLen c.pathUpdates) (c.pathUpdates.length - 1)
      (depthForMembers (c.newLeafPosition + 1)) (c.newLeafPosition + 1) s.tree.totalUnmergedLeaves
  | update c => checkSizeLimits (pathUpdatesWireLen c.pathUpdates) (c.pathUpdates.length - 1)
      s.tree.treeDepth s.memberCount s.tree.totalUnmergedLeaves
  | remove c => checkSizeLimits (pathUpdatesWireLen c.pathUpdates) (c.pathUpdates.length - 1)
      s.tree.treeDepth s.memberCount s.tree.totalUnmergedLeaves

/-- A commit that fails the size gate is not accepted. -/
theorem Commit.sizeGate_of_process {c : Commit P} {signer : P.IdentityPublicKey}
    {s s' : CocoaSession P} (h : c.process signer s = .ok () s') : c.sizeGate s = .ok () := by
  cases c with
  | add c =>
    rcases processAdd_eq_ok.mp h with ⟨_, _, hcheck, _⟩
    exact checkSizeLimits_eq_ok.mpr ((checkAdd_eq_ok rfl).mp hcheck).2.1
  | update c =>
    rcases processUpdate_eq_ok.mp h with ⟨_, _, hcheck, _⟩
    exact checkSizeLimits_eq_ok.mpr (checkUpdate_eq_ok.mp hcheck).1
  | remove c =>
    rcases processRemove_eq_ok.mp h with ⟨_, _, hcheck, _⟩
    exact checkSizeLimits_eq_ok.mpr (checkRemove_eq_ok.mp hcheck).1

/-- The two members hold the same tree and member count. -/
structure SameTree (r s : CocoaSession P) : Prop where
  nodes_eq : r.tree.nodes = s.tree.nodes
  treeDepth_eq : r.tree.treeDepth = s.tree.treeDepth
  memberCount_eq : r.memberCount = s.memberCount

theorem SameTree.totalUnmergedLeaves_eq {r s : CocoaSession P} (h : SameTree r s) :
    r.tree.totalUnmergedLeaves = s.tree.totalUnmergedLeaves := by
  rw [totalUnmergedLeaves, h.nodes_eq, totalUnmergedLeaves]

/-! ## The size of a path -/

/-- The size of a path: a public key for each of its nodes, and an encapsulation
and a ciphertext for each of their recipients. -/
def pathSize (keySize encapsulationSize : Nat) (R : NodeIndex → List (NodeIndex × P.PublicKey))
    (path : List NodeIndex) : Nat :=
  (path.map fun v =>
    keySize + (R v).length * (encapsulationSize + encryptedSeedCiphertextSize)).sum

/-- The size of the path that a builder makes in a session. -/
def Operation.pathSize (keySize encapsulationSize : Nat) (s : CocoaSession P) (op : Operation P) :
    Nat :=
  Cocoa.pathSize keySize encapsulationSize (op.recipients s) (pathToRoot (op.session s).ourLeafNode)

section Size

variable {keySize encapsulationSize : Nat} {t : PartialTreeView P}
  {R : NodeIndex → List (NodeIndex × P.PublicKey)} {leaf : NodeIndex}

theorem BuiltLevel.wireLen (hpk : P.PublicKeyCodec keySize)
    (henc : ∀ c, (P.encapsulationToBytes c).length = encapsulationSize) {level : Nat} {h2 : Bytes32}
    {preds : List P.PublicKey} {seed : Seed} {u : NodeUpdate P}
    (h : BuiltLevel t R leaf level h2 preds seed u) :
    u.toWire.wireLen = keySize +
      (R (leaf.ancestor level)).length * (encapsulationSize + encryptedSeedCiphertextSize) := by
  have hsizes : ∀ s ∈ u.encryptedSeeds.map RecipientSeed.toWire,
      s.encapsulation.length + s.ciphertext.length =
        encapsulationSize + encryptedSeedCiphertextSize := by
    intro s hs
    rcases List.mem_map.mp hs with ⟨r, _, rfl⟩
    show (P.encapsulationToBytes _).length + r.encrypted.ciphertext.val.length = _
    rw [henc, FixedBytes.length_coe]
  have hsum : ((u.encryptedSeeds.map RecipientSeed.toWire).map fun e =>
      e.encapsulation.length + e.ciphertext.length).sum =
        (R (leaf.ancestor level)).length * (encapsulationSize + encryptedSeedCiphertextSize) := by
    rw [List.map_congr_left hsizes, List.map_const', List.sum_replicate_nat, List.length_map,
      h.recipients.length_eq]
  rw [PathUpdate.wireLen]
  exact congrArg₂ (· + ·) (hpk.length_toBytes _) hsum

theorem BuiltLevels.wireLen (hpk : P.PublicKeyCodec keySize)
    (henc : ∀ c, (P.encapsulationToBytes c).length = encapsulationSize) {level : Nat} {h2 : Bytes32}
    {preds : List P.PublicKey} {seeds : List Seed} {updates : List (NodeUpdate P)}
    (h : BuiltLevels t R leaf level h2 preds seeds updates) :
    ((updates.map NodeUpdate.toWire).map PathUpdate.wireLen).sum =
      pathSize keySize encapsulationSize R
        ((List.range updates.length).map fun k => leaf.ancestor (level + k)) := by
  induction h with
  | nil => rfl
  | @cons level h2 preds seed u seeds updates head _ ih =>
    rw [List.map_cons, List.map_cons, List.sum_cons, ih, head.wireLen hpk henc, List.length_cons,
      List.range_succ_eq_map, List.map_cons, List.map_map, pathSize, pathSize, List.map_cons,
      List.sum_cons]
    congr 4
    funext k
    show leaf.ancestor (level + 1 + k) = leaf.ancestor (level + (k + 1))
    rw [Nat.add_right_comm, Nat.add_assoc]

/-- The measured size of a built path. -/
theorem BuiltPath.wireLen (hpk : P.PublicKeyCodec keySize)
    (henc : ∀ c, (P.encapsulationToBytes c).length = encapsulationSize) {leafSeed : Seed}
    {result : PathUpdateResult P} (h : BuiltPath t R leaf leafSeed result) :
    pathUpdatesWireLen (result.updates.map NodeUpdate.toWire) =
      pathSize keySize encapsulationSize R (pathToRoot leaf) := by
  have hlength : result.updates.length = leaf.depth + 1 := by
    rw [h.levels.length_eq, derivePathSeeds_length]
  rw [pathUpdatesWireLen_eq, h.levels.wireLen hpk henc, hlength, pathToRoot_eq_map]
  simp only [Nat.zero_add]

end Size

/-! ## An honest commit -/

namespace Operation

variable {op : Operation P} {identity : P.IdentityKeyPair} {draws : Draws P} {s s' : CocoaSession P}
  {m : Message P}

/-- A builder that succeeds had its arguments admitted. -/
theorem precheck_of_ok (h : op.build identity draws s = .ok m s') : op.precheck s = .ok () := by
  cases hprecheck : op.precheck s with
  | ok u => rfl
  | error e =>
    have herror : op.build identity draws s = .error e s :=
      build_eq_error.mpr (.inl ⟨hprecheck, rfl⟩)
    rw [h] at herror
    cases herror

/-- The tree that a builder works in is not too deep. -/
theorem treeDepth_le (h : op.build identity draws s = .ok m s')
    (hdepth : s.tree.treeDepth ≤ maxTreeDepth) : (op.session s).tree.treeDepth ≤ maxTreeDepth := by
  cases op with
  | add bundle newMemberId =>
    have hprecheck := precheck_of_ok h
    simp only [precheck, checkGroupGrowthLimits, Except.bind_eq_ok, rejectIf_eq_ok,
      checkSizeLimits_eq_ok] at hprecheck
    rcases hprecheck with ⟨_, _, _, _, hlimits⟩
    show (s.tree.growIfNeeded (s.memberCount + 1)).treeDepth ≤ maxTreeDepth
    rw [treeDepth_growIfNeeded]
    have hneeded := hlimits.treeDepth_le
    split <;> omega
  | update => exact hdepth
  | remove removedMemberId removedPosition => exact hdepth

/-- The path of an honest commit has a node for each level of the tree. -/
theorem pathUpdates_length_le (h : op.build identity draws s = .ok m s')
    (hdepth : s.tree.treeDepth ≤ maxTreeDepth) :
    m.commit.pathUpdates.length - 1 ≤ maxMerkleProofDepth := by
  rcases build_ok h with ⟨_, result, hsent⟩
  rw [hsent.pathUpdates_eq, List.length_map, hsent.path.levels.length_eq, derivePathSeeds_length]
  exact treeDepth_le h hdepth

end Operation

/-- What the gate of a receiver with the same tree bounds, for an honest commit:
all but the first and the last bound hold by the checks of the builder. -/
theorem Operation.sizeGate_eq_ok {op : Operation P} {identity : P.IdentityKeyPair} {draws : Draws P}
    {s s' r : CocoaSession P} {m : Message P} (hcount : s.memberCount ≤ maxGroupSize)
    (hdepth : s.tree.treeDepth ≤ maxTreeDepth) (h : op.build identity draws s = .ok m s')
    (hsame : SameTree r s) :
    m.commit.sizeGate r = .ok () ↔
      pathUpdatesWireLen m.commit.pathUpdates ≤ maxMessageSize ∧
        s.tree.totalUnmergedLeaves ≤ maxUnmergedLeaves := by
  have hunmerged := hsame.totalUnmergedLeaves_eq
  have hlength := pathUpdates_length_le h hdepth
  cases op with
  | add bundle newMemberId =>
    have hprecheck := precheck_of_ok h
    simp only [precheck, checkGroupGrowthLimits, Except.bind_eq_ok, rejectIf_eq_ok,
      checkSizeLimits_eq_ok] at hprecheck
    rcases hprecheck with ⟨_, _, _, _, hlimits⟩
    simp only [build, EStateM.bind_eq_ok, EStateM.pure_eq_ok] at h
    rcases h with ⟨⟨c, w⟩, _, hadd, rfl, rfl⟩
    rcases addMember_ok hadd with ⟨_, _, _, _, _, _, ⟨_, hposition⟩, _, _⟩
    simp only [Commit.sizeGate, checkSizeLimits_eq_ok, hposition, hunmerged]
    constructor
    · intro hgate
      exact ⟨hgate.messageLen_le, hgate.unmergedLeaves_le⟩
    · rintro ⟨hsize, htotal⟩
      exact ⟨hsize, hlength, hlimits.treeDepth_le, hlimits.groupSize_le, htotal⟩
  | update =>
    simp only [build, EStateM.bind_eq_ok, EStateM.pure_eq_ok] at h
    rcases h with ⟨c, _, _, rfl, rfl⟩
    simp only [Commit.sizeGate, checkSizeLimits_eq_ok, hunmerged, hsame.treeDepth_eq,
      hsame.memberCount_eq]
    constructor
    · intro hgate
      exact ⟨hgate.messageLen_le, hgate.unmergedLeaves_le⟩
    · rintro ⟨hsize, htotal⟩
      exact ⟨hsize, hlength, hdepth, hcount, htotal⟩
  | remove removedMemberId removedPosition =>
    simp only [build, EStateM.bind_eq_ok, EStateM.pure_eq_ok] at h
    rcases h with ⟨c, _, _, rfl, rfl⟩
    simp only [Commit.sizeGate, checkSizeLimits_eq_ok, hunmerged, hsame.treeDepth_eq,
      hsame.memberCount_eq]
    constructor
    · intro hgate
      exact ⟨hgate.messageLen_le, hgate.unmergedLeaves_le⟩
    · rintro ⟨hsize, htotal⟩
      exact ⟨hsize, hlength, hdepth, hcount, htotal⟩

/-- In a session within the limits on group and depth, an honest commit passes
the size gate of every peer with the same tree exactly when its path is not too
large and the tree has not too many unmerged leaves. -/
theorem honest_commit_passes_iff {keySize encapsulationSize : Nat}
    (hpk : P.PublicKeyCodec keySize)
    (henc : ∀ c, (P.encapsulationToBytes c).length = encapsulationSize)
    {op : Operation P} {identity : P.IdentityKeyPair} {draws : Draws P} {s s' : CocoaSession P}
    {m : Message P} (hcount : s.memberCount ≤ maxGroupSize)
    (hdepth : s.tree.treeDepth ≤ maxTreeDepth) (h : op.build identity draws s = .ok m s') :
    (∀ r, SameTree r s → m.commit.sizeGate r = .ok ()) ↔
      op.pathSize keySize encapsulationSize s ≤ maxMessageSize ∧
        s.tree.totalUnmergedLeaves ≤ maxUnmergedLeaves := by
  rcases Operation.build_ok h with ⟨_, result, hsent⟩
  have hpath : pathUpdatesWireLen m.commit.pathUpdates =
      op.pathSize keySize encapsulationSize s := by
    rw [hsent.pathUpdates_eq, hsent.path.wireLen hpk henc, Operation.pathSize]
  rw [← hpath]
  constructor
  · intro hall
    exact (Operation.sizeGate_eq_ok hcount hdepth h ⟨rfl, rfl, rfl⟩).mp (hall s ⟨rfl, rfl, rfl⟩)
  · intro hbounds r hsame
    exact (Operation.sizeGate_eq_ok hcount hdepth h hsame).mpr hbounds

section Sample

open Symbolic

/-- The first update of the creator of a group of three passes the size gate of
its peers. -/
theorem honest_commit_passes_three :
    ∃ m s', Operation.update.build (word 60) (draws 500) (member 0 10 (tree 2 3 [])) = .ok m s' ∧
      ∀ r, SameTree r (member 0 10 (tree 2 3 [])) → m.commit.sizeGate r = .ok () := by
  have hrun : okAnd (Operation.update.build (word 60) (draws 500) (member 0 10 (tree 2 3 [])))
      fun _ _ => true := by
    decide +kernel
  rcases okAnd_eq_true.mp hrun with ⟨m, s', h, _⟩
  have hsize : ∀ c : Bytes32 × Bytes32, (c.1.val ++ c.2.val).length = 64 := fun c => by simp
  have hbounds : Operation.update.pathSize 32 64 (member 0 10 (tree 2 3 [])) ≤ maxMessageSize ∧
      (tree 2 3 []).totalUnmergedLeaves ≤ maxUnmergedLeaves := by
    decide +kernel
  exact ⟨m, s', h,
    (honest_commit_passes_iff publicKeyCodec hsize (by decide) (by decide) h).mpr hbounds⟩

/-- The slot of the node at the given height above leaf `2 ^ 19 + 512` in a tree
of depth 20. -/
private def spineSlot (height : Nat) : Nat :=
  2 ^ (20 - height) - 1 + (2 ^ 19 + 512) >>> height

/-- Commits of an insider.  Six updates write nodes at roots of positions that do
not exist, and six removals blank them.  Growing the tree ten times moves them
onto the path of leaf `2 ^ 19 + 512`, at the heights 4 to 9, and then 17 members
are added below. -/
private def insiderCommits : List (CocoaSession symbolic → Commit symbolic) :=
  ((List.range 6).map fun k s =>
    .update (oneNodeUpdate s ⟨0, spineSlot (k + 4) - (2 ^ 10 - 1)⟩ (500 + k) 13)) ++
  ((List.range 6).map fun k s => .remove (removeAt (spineSlot (k + 4) - 2 * (2 ^ 10 - 1)) s)) ++
  ((List.range 10).map fun k s => .add (Symbolic.addAt (2 ^ (k + 10)) s)) ++
  (List.range 17).map fun k s => .add (Symbolic.addAt (2 ^ 19 + 512 + k) s)

/-- After the commits of an insider, a member makes an update that no peer with
the same tree accepts. -/
theorem honest_commit_refused :
    ∃ s : CocoaSession symbolic, Reachable (Started fun _ => True) (MemberStep fun _ _ => True) s ∧
      s.memberCount ≤ maxGroupSize ∧ s.tree.treeDepth ≤ maxTreeDepth ∧
      ∃ m s', Operation.update.build (word 60) (draws 500) s = .ok m s' ∧
        ∀ r, SameTree r s → m.commit.sizeGate r ≠ .ok () ∧
          ∀ signer r', m.commit.process signer r ≠ .ok () r' := by
  have hrun : okWith (joiner 10 (2 ^ 10)) fun s =>
      okAnd (deliver (word 50) insiderCommits s) fun _ s' =>
        (s'.memberCount ≤ maxGroupSize ∧ s'.tree.treeDepth ≤ maxTreeDepth) ∧
          s'.tree.totalUnmergedLeaves > maxUnmergedLeaves ∧
            okAnd (Operation.update.build (word 60) (draws 500) s') fun _ _ => true := by
    decide +kernel
  rcases okWith_eq_true.mp hrun with ⟨s₀, hjoin, hdeliver⟩
  simp only [joiner, Except.bind_eq_ok] at hjoin
  rcases hjoin with ⟨_, _, hwelcome⟩
  have hstart : Reachable (Started fun _ => True) (MemberStep fun _ _ => True) s₀ :=
    .start (.welcomed hwelcome trivial)
  rcases okAnd_eq_true.mp hdeliver with ⟨_, s, hs, htest⟩
  rcases of_decide_eq_true htest with ⟨⟨hcount, hdepth⟩, htotal, hbuild⟩
  rcases okAnd_eq_true.mp hbuild with ⟨m, s', h, _⟩
  have hgate : ∀ r, SameTree r s → m.commit.sizeGate r ≠ .ok () := by
    intro r hsame hpass
    have hlimits := (Operation.sizeGate_eq_ok hcount hdepth h hsame).mp hpass
    exact absurd hlimits.2 (Nat.not_le.mpr htotal)
  refine ⟨s, reachable_deliver hstart hs, hcount, hdepth, m, s', h, fun r hsame => ?_⟩
  exact ⟨hgate r hsame, fun signer r' hprocess =>
    hgate r hsame (Commit.sizeGate_of_process hprocess)⟩

end Sample

end Trelis.Cocoa
