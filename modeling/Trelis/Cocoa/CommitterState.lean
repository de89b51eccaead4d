import Trelis.Cocoa.Process
import Trelis.Symbolic

/-!
# The state of a committer

A receiver writes the published keys of a path into its tree.  The committer
does not: `createUpdate`, `addMember` and `removeMember` publish a key for the
committer's leaf, leave the tree without it, and leave `ourKeypair` at a key
pair that does not come from the seed of the leaf.  So after a commit whose leaf
seed is fresh the committer disagrees with every receiver about its own leaf,
and cannot read what is encrypted to the key that it published
(`committer_disagrees`).
-/

namespace Trelis.Cocoa

open PartialTreeView

variable {P : Primitives}

/-! ## What a committer and a receiver should agree on -/

/-- The key published for the committer's leaf is the key of its key pair. -/
def LeafKeyPublished (s' : CocoaSession P) (pathUpdates : List PathUpdate) : Prop :=
  ∀ pu ∈ pathUpdates.head?, pu.newPublicKey = P.publicKeyToBytes (P.publicKey s'.ourKeypair)

/-- The two trees have the same nodes at the given indices, as far as key,
parent hash and blankness go. -/
def NodesAgree (s' r' : CocoaSession P) (nodes : List NodeIndex) : Prop :=
  ∀ i ∈ nodes, (s'.tree.get i).map nodeCell = (r'.tree.get i).map nodeCell

/-- The seed drawn for the leaf is fresh: its public key is in nobody's place
yet. -/
structure FreshLeafSeed (s : CocoaSession P) (draws : Draws P) : Prop where
  not_in_tree : ∀ {seed kp}, draws.leafSeed = .ok seed → P.generateFromSeed seed = .ok kp →
    ∀ i, s.tree.keyAt i ≠ some (P.publicKey kp)
  not_ours : ∀ {seed kp}, draws.leafSeed = .ok seed → P.generateFromSeed seed = .ok kp →
    P.publicKeyToBytes (P.publicKey kp) ≠ P.publicKeyToBytes (P.publicKey s.ourKeypair)
  not_drawn : ∀ {seed kp kp'}, draws.leafSeed = .ok seed → P.generateFromSeed seed = .ok kp →
    P.generate draws.keypairCoins = .ok kp' →
      P.publicKeyToBytes (P.publicKey kp) ≠ P.publicKeyToBytes (P.publicKey kp')

/-! ## The leaf of a built path -/

section Leaf

variable {t : PartialTreeView P} {R : NodeIndex → List (NodeIndex × P.PublicKey)}
  {leaf : NodeIndex} {leafSeed : Seed} {result : PathUpdateResult P}

/-- The first update of a built path is that of the leaf, with the key of the
leaf seed. -/
theorem BuiltPath.leaf_update (h : BuiltPath t R leaf leafSeed result) :
    ∃ u kp, result.updates[0]? = some u ∧ u.nodeIndex = leaf ∧
      P.generateFromSeed leafSeed = .ok kp ∧ u.publicKey = P.publicKey kp := by
  have hlevels := h.levels
  have hlen := h.levels.length_eq
  rw [derivePathSeeds_length] at hlen
  rw [derivePathSeeds] at hlevels
  generalize result.updates = updates at hlevels
  cases hlevels with
  | cons head _ =>
    rcases head.keypair_eq with ⟨kp, hkp, hkey⟩
    exact ⟨_, kp, rfl, head.nodeIndex_eq, hkp, hkey⟩

/-- A committer that keeps the old key of its leaf disagrees with whoever
writes the path. -/
theorem BuiltPath.not_nodesAgree {size : Nat} (hpk : P.PublicKeyCodec size)
    (h : BuiltPath t R leaf leafSeed result) {s' r' : CocoaSession P}
    (hfresh : ∀ {kp}, P.generateFromSeed leafSeed = .ok kp →
      s'.tree.keyAt leaf ≠ some (P.publicKey kp))
    (hwritten : ∀ pk, writtenKey P (result.updates.map NodeUpdate.toWire) leaf = some pk →
      r'.tree.keyAt leaf = some pk) :
    ¬ NodesAgree s' r' ((result.updates.map NodeUpdate.toWire).map (·.nodeIndex)) := by
  intro hagree
  rcases h.leaf_update with ⟨u, kp, hu, hnode, hkp, hkey⟩
  have hlen : result.updates.length = leaf.depth + 1 := by
    rw [h.levels.length_eq, derivePathSeeds_length]
  have hpublished := writtenKey_built hpk h.levels (by omega) hu
  rw [hkey] at hpublished
  have hleaf : leaf ∈ (result.updates.map NodeUpdate.toWire).map (·.nodeIndex) := by
    rw [List.map_map, List.mem_map]
    exact ⟨u, List.mem_of_getElem? hu, hnode⟩
  have hcell := congrArg (Option.map fun cell => cell.2.1) (hagree leaf hleaf)
  have hkeys : s'.tree.keyAt leaf = r'.tree.keyAt leaf := by
    unfold PartialTreeView.keyAt
    revert hcell
    cases s'.tree.get leaf <;> cases r'.tree.get leaf <;> simp [nodeCell]
  apply hfresh hkp
  rw [hkeys]
  exact hwritten _ hpublished

/-- A committer whose key pair has another key than the leaf seed has not
published its key. -/
theorem BuiltPath.not_leafKeyPublished (h : BuiltPath t R leaf leafSeed result)
    {s' : CocoaSession P}
    (hfresh : ∀ {kp}, P.generateFromSeed leafSeed = .ok kp →
      P.publicKeyToBytes (P.publicKey kp) ≠ P.publicKeyToBytes (P.publicKey s'.ourKeypair)) :
    ¬ LeafKeyPublished s' (result.updates.map NodeUpdate.toWire) := by
  intro hpublished
  rcases h.leaf_update with ⟨u, kp, hu, _, hkp, hkey⟩
  apply hfresh hkp
  rw [← hkey]
  apply hpublished u.toWire
  rw [List.head?_eq_getElem?, List.getElem?_map, hu]
  rfl

end Leaf

/-! ## The three operations -/

/-- After every commit with a fresh leaf seed, the committer's key pair is not
the published one, and its tree differs from that of every receiver at a node
of the path.  After a remove, the two registries differ as well. -/
theorem committer_disagrees {size : Nat} (hpk : P.PublicKeyCodec size) {s : CocoaSession P}
    {draws : Draws P} (hfresh : FreshLeafSeed s draws) (identity : P.IdentityKeyPair) :
    (∀ c s', createUpdate identity draws s = .ok c s' →
      ¬ LeafKeyPublished s' c.pathUpdates ∧
      ∀ signer r r', processUpdate c signer r = .ok () r' →
        ¬ NodesAgree s' r' (c.pathUpdates.map (·.nodeIndex))) ∧
    (∀ bundle newId c w s', addMember identity bundle newId draws s = .ok (c, w) s' →
      ¬ LeafKeyPublished s' c.pathUpdates ∧
      ∀ signer r r', processAdd c signer r = .ok () r' →
        ¬ NodesAgree s' r' (c.pathUpdates.map (·.nodeIndex))) ∧
    (∀ removedId removedPosition c s',
      removeMember identity removedId removedPosition draws s = .ok c s' →
      ¬ LeafKeyPublished s' c.pathUpdates ∧
      ∀ signer r r', processRemove c signer r = .ok () r' →
        ¬ NodesAgree s' r' (c.pathUpdates.map (·.nodeIndex)) ∧
        (removedId ∈ s.members → s'.members ≠ r'.members)) := by
  refine ⟨?_, ?_, ?_⟩
  · intro c s' h
    rcases createUpdate_ok h with ⟨leafSeed, result, keypair, hseed, hpath, hhonest, hkp, rfl⟩
    rw [hhonest.pathUpdates_eq]
    refine ⟨hpath.not_leafKeyPublished fun hg => hfresh.not_drawn hseed hg hkp, ?_⟩
    intro signer r r' hprocess
    rcases processUpdate_eq_ok.mp hprocess with ⟨delta, transcript, _, rfl⟩
    apply hpath.not_nodesAgree hpk
    · intro kp hg
      exact hfresh.not_in_tree hseed hg _
    · intro pk hwritten
      rw [keyAt_applyUpdate, hhonest.pathUpdates_eq, hwritten]
      rfl
  · intro bundle newId c w s' h
    rcases addMember_ok h with ⟨leafSeed, result, _, hseed, hpath, hhonest, _, _, rfl⟩
    rw [hhonest.pathUpdates_eq]
    refine ⟨?_, ?_⟩
    · apply hpath.not_leafKeyPublished
      intro kp hg
      simpa [markMemberAsUnmerged, CocoaSession.grownFor] using hfresh.not_ours hseed hg
    intro signer r r' hprocess
    rcases processAdd_eq_ok.mp hprocess with ⟨delta, transcript, _, rfl⟩
    apply hpath.not_nodesAgree hpk
    · intro kp hg hkey
      have hmarked := (CocoaSession.agree_markMemberAsUnmerged (s.grownFor.modifyTree
        (·.setMemberCount (s.memberCount + 1))) s.memberCount).toKeyCell.keyAt
          s.grownFor.ourLeafNode
      have hgrown : (s.tree.growIfNeeded (s.memberCount + 1)).keyAt s.grownFor.ourLeafNode =
          some (P.publicKey kp) := hmarked.symm.trans hkey
      rcases keyAt_growIfNeeded hgrown with ⟨j, hj⟩
      exact hfresh.not_in_tree hseed hg j hj
    · intro pk hwritten
      rw [keyAt_applyAdd, hhonest.pathUpdates_eq, hwritten]
      rfl
  · intro removedId removedPosition c s' h
    rcases removeMember_ok h with ⟨leafSeed, result, _, hseed, hpath, hhonest, ⟨hid, _⟩, rfl⟩
    rw [hhonest.pathUpdates_eq]
    refine ⟨hpath.not_leafKeyPublished fun hg => hfresh.not_ours hseed hg, ?_⟩
    intro signer r r' hprocess
    rcases processRemove_eq_ok.mp hprocess with ⟨delta, transcript, _, rfl⟩
    refine ⟨?_, ?_⟩
    · apply hpath.not_nodesAgree hpk
      · intro kp hg hkey
        have hblanked : (s.tree.blankNode (.leaf s.tree.treeDepth removedPosition)).keyAt
            s.ourLeafNode = some (P.publicKey kp) := hkey
        rw [keyAt_blankNode] at hblanked
        split at hblanked
        · cases hblanked
        · exact hfresh.not_in_tree hseed hg _ hblanked
      · intro pk hwritten
        rw [keyAt_applyRemove, hhonest.pathUpdates_eq, hwritten]
        rfl
    · intro hmem hmembers
      have hkept : removedId ∈ (applyRemove r c delta transcript).members := by
        rw [← hmembers]
        exact hmem
      simp [applyRemove, hid] at hkept

section Sample

open Symbolic

/-- The three members of a tree of depth 2. -/
private def threeLeaves : PartialTreeView symbolic :=
  tree 2 3 [node ⟨2, 0⟩ 10, node ⟨2, 1⟩ 11, node ⟨2, 2⟩ 12, blank ⟨1, 1⟩ []]

/-- An update of the first member, over fresh draws, that the second one
accepts. -/
theorem committer_disagrees_three_leaves :
    ∃ c s' r', createUpdate (word 50) (draws 500) (member 0 10 threeLeaves) = .ok c s' ∧
      processUpdate c (word 50) (member 1 11 threeLeaves) = .ok () r' ∧
      ¬ LeafKeyPublished s' c.pathUpdates ∧
      ¬ NodesAgree s' r' (c.pathUpdates.map (·.nodeIndex)) := by
  have hfresh : FreshLeafSeed (member 0 10 threeLeaves) (draws 500) := by
    constructor
    · intro seed kp hseed hkp i hkey
      cases hseed
      cases hkp
      have hmem := mem_keys_of_keyAt hkey
      have hnot : some (key 500) ∉ threeLeaves.nodes.toList.map (·.2.state.publicKey) := by
        decide +kernel
      exact hnot hmem
    · intro seed kp hseed hkp
      cases hseed
      cases hkp
      show (word 500).val ≠ (word 10).val
      decide +kernel
    · intro seed kp kp' hseed hkp hkp'
      cases hseed
      cases hkp
      cases hkp'
      show (word 500).val ≠ (word 1500).val
      decide +kernel
  have hrun : okAnd (createUpdate (word 50) (draws 500) (member 0 10 threeLeaves)) (fun c _ =>
      okAnd (processUpdate c (word 50) (member 1 11 threeLeaves)) fun _ _ => true) := by
    decide +kernel
  simp only [okAnd_eq_true] at hrun
  rcases hrun with ⟨c, s', hcreate, _, r', hprocess, _⟩
  rcases (committer_disagrees publicKeyCodec hfresh (word 50)).1 c s' hcreate with ⟨hkey, hnodes⟩
  exact ⟨c, s', r', hcreate, hprocess, hkey, hnodes _ _ _ hprocess⟩

/-- After that update the committer's tree has the old key of its leaf, the
receiver's has the published one, and the committer's key pair is a third
one. -/
theorem committer_keeps_old_leaf :
    ∃ c s' r', createUpdate (word 50) (draws 500) (member 0 10 threeLeaves) = .ok c s' ∧
      processUpdate c (word 50) (member 1 11 threeLeaves) = .ok () r' ∧
      c.pathUpdates.head?.map (fun pu => (pu.nodeIndex, pu.newPublicKey)) =
        some (⟨2, 0⟩, (word 500).val) ∧
      s'.tree.keyAt ⟨2, 0⟩ = some (key 10) ∧ r'.tree.keyAt ⟨2, 0⟩ = some (key 500) ∧
      s'.ourKeypair = keyPair 1500 := by
  have hrun : okAnd (createUpdate (word 50) (draws 500) (member 0 10 threeLeaves)) (fun c s' =>
      okAnd (processUpdate c (word 50) (member 1 11 threeLeaves)) fun _ r' =>
        decide (c.pathUpdates.head?.map (fun pu => (pu.nodeIndex, pu.newPublicKey)) =
            some (⟨2, 0⟩, (word 500).val) ∧
          s'.tree.keyAt ⟨2, 0⟩ = some (key 10) ∧ r'.tree.keyAt ⟨2, 0⟩ = some (key 500) ∧
          s'.ourKeypair = keyPair 1500)) := by
    decide +kernel
  simp only [okAnd_eq_true, decide_eq_true_eq] at hrun
  rcases hrun with ⟨c, s', hcreate, _, r', hprocess, htest⟩
  exact ⟨c, s', r', hcreate, hprocess, htest⟩

end Sample

end Trelis.Cocoa
