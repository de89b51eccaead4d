import Trelis.Cocoa.ParentHash
import Trelis.Symbolic

/-!
# The parent hashes of honest adds and removes

The senders of an add and of a remove do not encrypt to the plain recipient set
of a path node.  An add appends the newcomer below the sibling, and a remove
leaves out the ancestors of the removed leaf.  The receiver rebuilds the plain
set, less the unmerged leaves of the path node, wherever its view determines
it; there the parent hash binds the sender's keys, and the two have to be the
same.

`honest_change_verifies_iff` says when they are.  The hash is assumed free of
collisions only at the two key lists of a level.
-/

namespace Trelis.Cocoa

open PartialTreeView

variable {P : Primitives}

/-! ## Counting keys -/

/-- Key lists of the same total size have the same length. -/
theorem length_eq_of_flatMap_eq {size : Nat} (hsize : 0 < size) (hpk : P.PublicKeyCodec size)
    {ks ks' : List P.PublicKey}
    (h : ks.flatMap P.publicKeyToBytes = ks'.flatMap P.publicKeyToBytes) :
    ks.length = ks'.length := by
  have hlen : ∀ ks : List P.PublicKey,
      (ks.flatMap P.publicKeyToBytes).length = ks.length * size := by
    intro ks
    induction ks with
    | nil => simp
    | cons k ks ih =>
      rw [List.flatMap_cons, List.length_append, ih, hpk.length_toBytes, List.length_cons]
      ring
  have heq := congrArg List.length h
  rw [hlen, hlen] at heq
  exact Nat.eq_of_mul_eq_mul_right hsize heq

/-- The keys of nodes that all have one. -/
theorem length_keys {t : PartialTreeView P} {rs : List NodeIndex}
    (h : ∀ r ∈ rs, (t.keyAt r).isSome) : (rs.filterMap t.keyAt).length = rs.length := by
  rw [← map_snd_withKeys, List.length_map, ← List.length_map (f := Prod.fst), map_fst_withKeys h]

section Level

variable {t : PartialTreeView P} {v : NodeIndex}

/-- The nodes that the receiver keeps of the recipient set of `v`. -/
def keptByReceiver (t : PartialTreeView P) (v : NodeIndex) : List NodeIndex :=
  (t.computeLj v t.unmergedLeafNodes).filter (t.notUnmergedAt v)

/-- The nodes that the sender of a remove keeps of the recipient set of `v`. -/
def keptByRemover (t : PartialTreeView P) (removedLeaf v : NodeIndex) : List NodeIndex :=
  (t.computeLj v t.unmergedLeafNodes).filter fun i =>
    !(i == removedLeaf || removedLeaf.isDescendantOf i)

theorem reconstructResolutionKeys_eq (t : PartialTreeView P) (v : NodeIndex) :
    t.reconstructResolutionKeys v = (keptByReceiver t v).filterMap t.keyAt := rfl

theorem length_reconstructResolutionKeys (t : PartialTreeView P) (v : NodeIndex) :
    (t.reconstructResolutionKeys v).length = (keptByReceiver t v).length :=
  length_keys fun r hr => t.keyAt_of_mem_computeLj v r (List.mem_of_mem_filter hr)

/-- No two key lists of the level have the same hash, unless their bytes are
the same. -/
def NoCollision (hash : List P.PublicKey → Bytes32) (ks ks' : List P.PublicKey) : Prop :=
  hash ks = hash ks' → ks.flatMap P.publicKeyToBytes = ks'.flatMap P.publicKeyToBytes

/-! ### An add -/

/-- The condition for an add at the path node `v`: where the view determines
the recipients, the newcomer is not one of them, and the receiver subtracts
nothing. -/
def AddMatches (t : PartialTreeView P) (newLeaf v : NodeIndex) : Prop :=
  (t.reconstructResolutionComplete v).2 = true →
    isInSiblingSubtree v newLeaf = false ∧
      ∀ r ∈ t.computeLj v t.unmergedLeafNodes, t.notUnmergedAt v r = true

theorem addRecipients_eq_append (t : PartialTreeView P) (bundle : PreKeyBundle P)
    (newLeaf v : NodeIndex) :
    addRecipients t bundle newLeaf v = updateRecipients t v ++
      if isInSiblingSubtree v newLeaf then [(newLeaf, bundle.oneTimeKem)] else [] := rfl

theorem levelAgrees_add_iff {size : Nat} (hsize : 0 < size) (hpk : P.PublicKeyCodec size)
    {bundle : PreKeyBundle P} {newLeaf : NodeIndex} {hash : List P.PublicKey → Bytes32}
    (hhash : NoCollision hash (t.reconstructResolutionKeys v)
      ((addRecipients t bundle newLeaf v).map Prod.snd)) :
    LevelAgrees t (addRecipients t bundle newLeaf) v hash ↔ AddMatches t newLeaf v := by
  have hnodes := map_fst_updateRecipients t v
  constructor
  · intro h hcomplete
    have hlen := length_eq_of_flatMap_eq hsize hpk (hhash (h hcomplete).2)
    have hle : (keptByReceiver t v).length ≤ (t.computeLj v t.unmergedLeafNodes).length :=
      List.length_filter_le _ _
    rw [length_reconstructResolutionKeys, addRecipients_eq_append, List.length_map,
      List.length_append, ← @List.length_map _ _ (updateRecipients t v) Prod.fst, hnodes] at hlen
    by_cases hin : isInSiblingSubtree v newLeaf
    · rw [if_pos hin, List.length_singleton] at hlen
      omega
    · rw [if_neg hin, List.length_nil, Nat.add_zero] at hlen
      exact ⟨by simpa using hin, List.length_filter_eq_length_iff.mp hlen⟩
  · intro h hcomplete
    rcases h hcomplete with ⟨hin, hall⟩
    have hfilter : keptByReceiver t v = t.computeLj v t.unmergedLeafNodes :=
      List.filter_eq_self.mpr hall
    have hrec : addRecipients t bundle newLeaf v = updateRecipients t v := by
      rw [addRecipients_eq_append, hin]
      simp
    rw [hrec, reconstructResolutionComplete_fst, reconstructResolutionKeys_eq,
      map_snd_updateRecipients]
    have hpos : (updateRecipients t v).map (·.1.position) =
        (t.computeLj v t.unmergedLeafNodes).map (·.position) := by
      rw [← hnodes, List.map_map]
      rfl
    exact ⟨by rw [hpos]; exact congrArg _ (congrArg _ hfilter.symm), by rw [hfilter]⟩

/-! ### A remove -/

/-- The two sides keep nodes with the same positions and the same keys. -/
def KeptAlike (t : PartialTreeView P) (removedLeaf v : NodeIndex) : Prop :=
  ((keptByRemover t removedLeaf v).map (·.position)).toFinset =
      ((keptByReceiver t v).map (·.position)).toFinset ∧
    ((keptByReceiver t v).filterMap t.keyAt).flatMap P.publicKeyToBytes =
      ((keptByRemover t removedLeaf v).filterMap t.keyAt).flatMap P.publicKeyToBytes

/-- The condition for a remove at the path node `v`: where the view determines
the recipients, either neither side drops one of them, or both drop some and
keep the same positions and keys. -/
def RemoveMatches (t : PartialTreeView P) (removedLeaf v : NodeIndex) : Prop :=
  (t.reconstructResolutionComplete v).2 = true →
    (keptByRemover t removedLeaf v = t.computeLj v t.unmergedLeafNodes ∧
        keptByReceiver t v = t.computeLj v t.unmergedLeafNodes) ∨
      (keptByRemover t removedLeaf v ≠ t.computeLj v t.unmergedLeafNodes ∧
        keptByReceiver t v ≠ t.computeLj v t.unmergedLeafNodes ∧ KeptAlike t removedLeaf v)

theorem map_fst_removeRecipients (t : PartialTreeView P) (removedLeaf v : NodeIndex) :
    (removeRecipients t removedLeaf v).map Prod.fst = keptByRemover t removedLeaf v :=
  map_fst_withKeys fun r hr => t.keyAt_of_mem_computeLj v r (List.mem_of_mem_filter hr)

theorem map_snd_removeRecipients (t : PartialTreeView P) (removedLeaf v : NodeIndex) :
    (removeRecipients t removedLeaf v).map Prod.snd =
      (keptByRemover t removedLeaf v).filterMap t.keyAt :=
  map_snd_withKeys t _

theorem length_keptByRemover (t : PartialTreeView P) (removedLeaf v : NodeIndex) :
    ((keptByRemover t removedLeaf v).filterMap t.keyAt).length =
      (keptByRemover t removedLeaf v).length :=
  length_keys fun r hr => t.keyAt_of_mem_computeLj v r (List.mem_of_mem_filter hr)

/-- Lists of the same length that are both filtered from one list are both
proper or both the whole list. -/
theorem KeptAlike.eq_computeLj_iff {size : Nat} (hsize : 0 < size) (hpk : P.PublicKeyCodec size)
    {removedLeaf : NodeIndex} (h : KeptAlike t removedLeaf v) :
    keptByRemover t removedLeaf v = t.computeLj v t.unmergedLeafNodes ↔
      keptByReceiver t v = t.computeLj v t.unmergedLeafNodes := by
  have hlen := length_eq_of_flatMap_eq hsize hpk h.2
  rw [← reconstructResolutionKeys_eq, length_reconstructResolutionKeys, length_keptByRemover]
    at hlen
  have hremover : (keptByRemover t removedLeaf v).Sublist (t.computeLj v t.unmergedLeafNodes) :=
    List.filter_sublist
  have hreceiver : (keptByReceiver t v).Sublist (t.computeLj v t.unmergedLeafNodes) :=
    List.filter_sublist
  constructor
  · intro he
    apply hreceiver.eq_of_length
    rw [hlen, he]
  · intro he
    apply hremover.eq_of_length
    rw [← hlen, he]

theorem levelAgrees_remove_iff {size : Nat} (hsize : 0 < size) (hpk : P.PublicKeyCodec size)
    {removedLeaf : NodeIndex} {hash : List P.PublicKey → Bytes32}
    (hhash : NoCollision hash (t.reconstructResolutionKeys v)
      ((removeRecipients t removedLeaf v).map Prod.snd))
    (hcongr : ∀ ks ks' : List P.PublicKey,
      ks.flatMap P.publicKeyToBytes = ks'.flatMap P.publicKeyToBytes → hash ks = hash ks') :
    LevelAgrees t (removeRecipients t removedLeaf) v hash ↔ RemoveMatches t removedLeaf v := by
  have hpos : (removeRecipients t removedLeaf v).map (·.1.position) =
      (keptByRemover t removedLeaf v).map (·.position) := by
    rw [← map_fst_removeRecipients, List.map_map]
    rfl
  rw [map_snd_removeRecipients, reconstructResolutionKeys_eq] at hhash
  have halike : LevelAgrees t (removeRecipients t removedLeaf) v hash ↔
      ((t.reconstructResolutionComplete v).2 = true → KeptAlike t removedLeaf v) := by
    unfold LevelAgrees
    rw [hpos, map_snd_removeRecipients, reconstructResolutionComplete_fst,
      reconstructResolutionKeys_eq]
    exact imp_congr_right fun _ => and_congr_right fun _ => ⟨hhash, hcongr _ _⟩
  rw [halike]
  refine imp_congr_right fun _ => ?_
  constructor
  · intro h
    by_cases he : keptByRemover t removedLeaf v = t.computeLj v t.unmergedLeafNodes
    · exact .inl ⟨he, (h.eq_computeLj_iff hsize hpk).mp he⟩
    · exact .inr ⟨he, fun he' => he ((h.eq_computeLj_iff hsize hpk).mpr he'), h⟩
  · intro h
    rcases h with ⟨he, he'⟩ | ⟨_, _, h⟩
    · exact ⟨by rw [he, he'], by rw [he, he']⟩
    · exact h

end Level

/-! ## A whole path -/

/-- The hash of an update reads its keys as one byte string. -/
theorem h2At_congr (updates : List (NodeUpdate P)) (k : Nat) (u : NodeUpdate P)
    {ks ks' : List P.PublicKey}
    (h : ks.flatMap P.publicKeyToBytes = ks'.flatMap P.publicKeyToBytes) :
    h2At updates k u ks = h2At updates k u ks' := by
  simp only [h2At, h4ParentHashH2, h]

theorem h2At_received (updates : List (NodeUpdate P)) (k : Nat) (u : NodeUpdate P) :
    h2At (updates.map NodeUpdate.received) k u.received = h2At updates k u := by
  have hkeys : (updates.map NodeUpdate.received).map (·.publicKey) = updates.map (·.publicKey) := by
    rw [List.map_map]; rfl
  have hhashes : (updates.map NodeUpdate.received).map (·.parentHash.2) =
      updates.map (·.parentHash.2) := by
    rw [List.map_map]; rfl
  unfold h2At
  rw [List.map_take, hkeys, hhashes, ← List.map_take]
  rfl

/-- Above the leaf, no update hashes the keys of the sender and the keys that
the receiver rebuilds to the same value, unless their bytes are the same. -/
def CollisionFree (updates : List (NodeUpdate P)) (leaf : NodeIndex)
    (sent rebuilt : NodeIndex → List P.PublicKey) : Prop :=
  ∀ k u, updates[k]? = some u → k ≠ 0 →
    NoCollision (h2At updates k u) (rebuilt (leaf.ancestor k)) (sent (leaf.ancestor k))

section Path

variable {s t : PartialTreeView P} {R : NodeIndex → List (NodeIndex × P.PublicKey)}
  {leaf : NodeIndex} {leafSeed : Seed} {result : PathUpdateResult P}

/-- The check of a path, for a condition that decides each of its levels. -/
theorem verifyParentHashes_iff (hlabel : ∀ v, t.siblingLabel v = s.siblingLabel v)
    (h : BuiltPath s R leaf leafSeed result) {cond : NodeIndex → Prop}
    (hcond : ∀ k u, result.updates[k]? = some u → k ≠ 0 →
      (LevelAgrees t R (leaf.ancestor k) (h2At result.updates k u) ↔ cond (leaf.ancestor k))) :
    verifyParentHashes t (result.updates.map NodeUpdate.received) = .ok () ↔
      ∀ k ≤ leaf.depth, k ≠ 0 → cond (leaf.ancestor k) := by
  have hlen : result.updates.length = leaf.depth + 1 := by
    rw [h.levels.length_eq, derivePathSeeds_length]
  rw [verifyParentHashes_built hlabel h]
  constructor
  · intro hall k hle hk
    have hlt : k < result.updates.length := by omega
    have hu : result.updates[k]? = some result.updates[k] := List.getElem?_eq_getElem hlt
    exact (hcond k _ hu hk).mp (hall k _ hu hk)
  · intro hall k u hu hk
    have hlt : k < result.updates.length := (List.getElem?_eq_some_iff.mp hu).1
    exact (hcond k u hu hk).mpr (hall k (by omega) hk)

theorem collisionFree_received
    (h : CollisionFree (result.updates.map NodeUpdate.received) leaf
      (fun v => (R v).map Prod.snd) t.reconstructResolutionKeys) {k : Nat} {u : NodeUpdate P}
    (hu : result.updates[k]? = some u) (hk : k ≠ 0) :
    NoCollision (h2At result.updates k u) (t.reconstructResolutionKeys (leaf.ancestor k))
      ((R (leaf.ancestor k)).map Prod.snd) := by
  rw [← h2At_received]
  exact h k u.received (by rw [List.getElem?_map, hu]; rfl) hk

end Path

/-- The recipients depend on the keys of the tree only. -/
theorem addRecipients_congr {s t : PartialTreeView P} (h : Agree keyCell s t)
    (hdepth : s.treeDepth = t.treeDepth) (bundle : PreKeyBundle P) (newLeaf : NodeIndex) :
    addRecipients s bundle newLeaf = addRecipients t bundle newLeaf := by
  funext v
  simp only [addRecipients, h.computeLj hdepth, h.keyAt]

theorem removeRecipients_congr {s t : PartialTreeView P} (h : Agree keyCell s t)
    (hdepth : s.treeDepth = t.treeDepth) (removedLeaf : NodeIndex) :
    removeRecipients s removedLeaf = removeRecipients t removedLeaf := by
  funext v
  simp only [removeRecipients, h.computeLj hdepth, h.keyAt]

/-- The parent hashes of an honest add, and of an honest remove, verify in a
tree with the keys of the sender's exactly when every level above the leaf
matches. -/
theorem honest_change_verifies_iff {size : Nat} (hsize : 0 < size) (hpk : P.PublicKeyCodec size)
    (henc : P.EncapsulationCodec) {s : CocoaSession P} {t : PartialTreeView P}
    (hnodes : Agree keyCell s.tree t) (hdepth : s.tree.treeDepth = t.treeDepth)
    (identity : P.IdentityKeyPair) (draws : Draws P) :
    (∀ bundle newId c w s', addMember identity bundle newId draws s = .ok (c, w) s' →
      let scratch := t.growIfNeeded (c.newLeafPosition + 1)
      let newLeaf : NodeIndex := .leaf scratch.treeDepth c.newLeafPosition
      let leaf : NodeIndex := .leaf scratch.treeDepth s.ourLeafPosition
      ∃ updates, convertPathUpdatesToNodeUpdates P c.pathUpdates = .ok updates ∧
        (CollisionFree updates leaf (fun v => (addRecipients scratch bundle newLeaf v).map Prod.snd)
            scratch.reconstructResolutionKeys →
          (verifyParentHashes scratch updates = .ok () ↔
            ∀ k ≤ scratch.treeDepth, k ≠ 0 → AddMatches scratch newLeaf (leaf.ancestor k)))) ∧
    (∀ removedId removedPosition c s',
      removeMember identity removedId removedPosition draws s = .ok c s' →
      let removedLeaf : NodeIndex := .leaf t.treeDepth c.removedLeafPosition
      let scratch := t.blankNode removedLeaf
      let leaf : NodeIndex := .leaf t.treeDepth s.ourLeafPosition
      ∃ updates, convertPathUpdatesToNodeUpdates P c.pathUpdates = .ok updates ∧
        (CollisionFree updates leaf (fun v => (removeRecipients scratch removedLeaf v).map Prod.snd)
            scratch.reconstructResolutionKeys →
          (verifyParentHashes scratch updates = .ok () ↔
            ∀ k ≤ t.treeDepth, k ≠ 0 → RemoveMatches scratch removedLeaf (leaf.ancestor k)))) := by
  constructor
  · intro bundle newId c w s' hadd
    rcases addMember_ok hadd with ⟨leafSeed, result, _, _, hpath, hhonest, ⟨_, hpos⟩, _, _⟩
    intro scratch newLeaf leaf
    have hgrown : Agree keyCell s.grownFor.tree scratch := by
      show Agree keyCell (s.tree.growIfNeeded (s.memberCount + 1)) _
      rw [← hpos]
      exact hnodes.growKeys hdepth _
    have hgdepth : s.grownFor.tree.treeDepth = scratch.treeDepth := by
      show (s.tree.growIfNeeded (s.memberCount + 1)).treeDepth = _
      rw [← hpos, treeDepth_growIfNeeded, treeDepth_growIfNeeded, hdepth]
    rw [addRecipients_congr hgrown hgdepth, hgdepth, ← hpos] at hpath
    have hleaf : s.grownFor.ourLeafNode = leaf := by
      rw [CocoaSession.ourLeafNode, hgdepth]
      rfl
    rw [hleaf] at hpath
    refine ⟨result.updates.map NodeUpdate.received, ?_, ?_⟩
    · rw [hhonest.pathUpdates_eq]
      exact convert_built hpk henc hpath.levels
    · intro hfree
      apply verifyParentHashes_iff (fun v => (hgrown.siblingLabel v).symm) hpath
      intro k u hu hk
      exact levelAgrees_add_iff hsize hpk (collisionFree_received hfree hu hk)
  · intro removedId removedPosition c s' hremove
    rcases removeMember_ok hremove with ⟨leafSeed, result, _, _, hpath, hhonest, ⟨_, hpos⟩, _⟩
    intro removedLeaf scratch leaf
    have hblanked : Agree keyCell (s.blankedFor removedPosition).tree scratch := by
      show Agree keyCell (s.tree.blankNode (.leaf s.tree.treeDepth removedPosition)) _
      rw [← hpos, hdepth]
      exact hnodes.blankKey _
    rw [removeRecipients_congr hblanked hdepth, hdepth, ← hpos] at hpath
    have hleaf : s.ourLeafNode = leaf := by
      rw [CocoaSession.ourLeafNode, hdepth]
    rw [hleaf] at hpath
    refine ⟨result.updates.map NodeUpdate.received, ?_, ?_⟩
    · rw [hhonest.pathUpdates_eq]
      exact convert_built hpk henc hpath.levels
    · intro hfree
      have hlabel : ∀ v, scratch.siblingLabel v =
          (s.blankedFor c.removedLeafPosition).tree.siblingLabel v := by
        intro v
        rw [hpos]
        exact (hblanked.siblingLabel v).symm
      apply verifyParentHashes_iff hlabel hpath
      intro k u hu hk
      exact levelAgrees_remove_iff hsize hpk (collisionFree_received hfree hu hk)
        fun ks ks' => h2At_congr _ _ _

section Sample

open Symbolic

instance (updates : List (NodeUpdate P)) (leaf : NodeIndex)
    (sent rebuilt : NodeIndex → List P.PublicKey) :
    Decidable (CollisionFree updates leaf sent rebuilt) :=
  decidable_of_iff (∀ k < updates.length, ∀ u ∈ updates[k]?, k ≠ 0 →
      h2At updates k u (rebuilt (leaf.ancestor k)) = h2At updates k u (sent (leaf.ancestor k)) →
      (rebuilt (leaf.ancestor k)).flatMap P.publicKeyToBytes =
        (sent (leaf.ancestor k)).flatMap P.publicKeyToBytes) <| by
    constructor
    · intro h k u hu hk
      exact h k (List.getElem?_eq_some_iff.mp hu).1 u hu hk
    · intro h k _ u hu hk
      exact h k u hu hk

instance (t : PartialTreeView P) (newLeaf v : NodeIndex) : Decidable (AddMatches t newLeaf v) := by
  unfold AddMatches; infer_instance

/-- Three members, and the parent of leaves 2 and 3. -/
private def threeOfFour (internal : TreeNode symbolic) (memberCount : Nat) :
    PartialTreeView symbolic :=
  tree 2 memberCount [node ⟨2, 0⟩ 10, node ⟨2, 1⟩ 11, node ⟨2, 2⟩ 12, internal]

/-- The third member of a group adds a fourth one, below a blank node that the
view does not determine. -/
theorem honest_change_verifies_blank :
    ∃ c w s' updates, addMember (word 50) ⟨key 30, key 31⟩ (word 9) (draws 500)
        (member 0 10 (threeOfFour (blank ⟨1, 1⟩ []) 3)) = .ok (c, w) s' ∧
      convertPathUpdatesToNodeUpdates symbolic c.pathUpdates = .ok updates ∧
      verifyParentHashes ((threeOfFour (blank ⟨1, 1⟩ []) 3).growIfNeeded (c.newLeafPosition + 1))
        updates = .ok () := by
  have hrun : okAnd (addMember (word 50) ⟨key 30, key 31⟩ (word 9) (draws 500)
      (member 0 10 (threeOfFour (blank ⟨1, 1⟩ []) 3))) (fun cw _ =>
        let scratch := (threeOfFour (blank ⟨1, 1⟩ []) 3).growIfNeeded (cw.1.newLeafPosition + 1)
        let newLeaf : NodeIndex := .leaf scratch.treeDepth cw.1.newLeafPosition
        let leaf : NodeIndex := .leaf scratch.treeDepth 0
        (∀ k ≤ scratch.treeDepth, k ≠ 0 → AddMatches scratch newLeaf (leaf.ancestor k)) &&
        match convertPathUpdatesToNodeUpdates symbolic cw.1.pathUpdates with
        | .ok updates => CollisionFree updates leaf
          (fun v => (addRecipients scratch ⟨key 30, key 31⟩ newLeaf v).map Prod.snd)
          scratch.reconstructResolutionKeys
        | .error _ => false) := by
    decide +kernel
  rcases okAnd_eq_true.mp hrun with ⟨⟨c, w⟩, s', hadd, htest⟩
  rcases (honest_change_verifies_iff (by decide) publicKeyCodec encapsulationCodec
    (Agree.refl _) rfl (word 50) (draws 500)).1 _ _ c w s' hadd with ⟨updates, hconvert, hiff⟩
  simp only [hconvert, Bool.and_eq_true, decide_eq_true_eq] at htest
  exact ⟨c, w, s', updates, hadd, hconvert, (hiff htest.2).mpr htest.1⟩

/-- The sibling `(1, 1)` has a key.  A newcomer below it is a recipient of the
sender's and not of the receiver's, and a removed leaf below it makes the sender
drop `(1, 1)` and not the receiver. -/
theorem honest_change_rejected :
    (∃ c w s' updates, addMember (word 50) ⟨key 30, key 31⟩ (word 9) (draws 500)
        (member 0 10 (threeOfFour (node ⟨1, 1⟩ 20) 3)) = .ok (c, w) s' ∧
      convertPathUpdatesToNodeUpdates symbolic c.pathUpdates = .ok updates ∧
      verifyParentHashes ((threeOfFour (node ⟨1, 1⟩ 20) 3).growIfNeeded (c.newLeafPosition + 1))
        updates = .error .parentHashMismatch) ∧
    (∃ c s' updates, removeMember (word 50) (word 2) 2 (draws 500)
        (member 0 10 (threeOfFour (node ⟨1, 1⟩ 20) 3)) = .ok c s' ∧
      convertPathUpdatesToNodeUpdates symbolic c.pathUpdates = .ok updates ∧
      verifyParentHashes
        ((threeOfFour (node ⟨1, 1⟩ 20) 3).blankNode (.leaf 2 c.removedLeafPosition)) updates =
          .error .parentHashMismatch) := by
  constructor
  · have hrun : okAnd (addMember (word 50) ⟨key 30, key 31⟩ (word 9) (draws 500)
        (member 0 10 (threeOfFour (node ⟨1, 1⟩ 20) 3))) (fun cw _ =>
          match convertPathUpdatesToNodeUpdates symbolic cw.1.pathUpdates with
          | .ok updates => verifyParentHashes ((threeOfFour (node ⟨1, 1⟩ 20) 3).growIfNeeded
              (cw.1.newLeafPosition + 1)) updates = .error .parentHashMismatch
          | .error _ => false) := by
      decide +kernel
    rcases okAnd_eq_true.mp hrun with ⟨⟨c, w⟩, s', hadd, htest⟩
    cases hconvert : convertPathUpdatesToNodeUpdates symbolic c.pathUpdates with
    | error e => simp [hconvert] at htest
    | ok updates =>
      simp only [hconvert, decide_eq_true_eq] at htest
      exact ⟨c, w, s', updates, hadd, hconvert, htest⟩
  · have hrun : okAnd (removeMember (word 50) (word 2) 2 (draws 500)
        (member 0 10 (threeOfFour (node ⟨1, 1⟩ 20) 3))) (fun c _ =>
          match convertPathUpdatesToNodeUpdates symbolic c.pathUpdates with
          | .ok updates => verifyParentHashes ((threeOfFour (node ⟨1, 1⟩ 20) 3).blankNode
              (.leaf 2 c.removedLeafPosition)) updates = .error .parentHashMismatch
          | .error _ => false) := by
      decide +kernel
    rcases okAnd_eq_true.mp hrun with ⟨c, s', hremove, htest⟩
    cases hconvert : convertPathUpdatesToNodeUpdates symbolic c.pathUpdates with
    | error e => simp [hconvert] at htest
    | ok updates =>
      simp only [hconvert, decide_eq_true_eq] at htest
      exact ⟨c, s', updates, hremove, hconvert, htest⟩

end Sample

end Trelis.Cocoa
