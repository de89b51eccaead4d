import Trelis.Cocoa.Agreement
import Trelis.Cocoa.Receive

/-!
# Parent hashes of an honest commit

A receiver checks the parent hashes of a path against its own tree.  The
sibling components always match when the two trees have the same keys.  For the
resolution components the receiver rebuilds the recipient set, where its view
holds the whole subtree of the sibling, and compares it with the wire.

`verifyParentHashes_built` says what is left of the check for a built path: at
each such level, the positions of the recipients are those of the rebuilt set,
and the hash over its keys is the hash over the keys of the recipients.  The
rebuilt set is the resolution of the sibling less the unmerged leaves of the
path node (`reconstructResolutionComplete_fst`).
-/

namespace Trelis.Cocoa

variable {P : Primitives}

namespace PartialTreeView

/-- One level of the complete resolution. -/
theorem resolveComplete_unfold (t : PartialTreeView P) (j : NodeIndex) :
    t.resolveComplete j =
      match t.get j with
      | some node =>
        if node.state.isPopulated then ([j], true)
        else if j.isLeaf t.treeDepth then ([], true)
        else
          ((t.resolveComplete j.leftChild).1 ++ (t.resolveComplete j.rightChild).1,
            (t.resolveComplete j.leftChild).2 && (t.resolveComplete j.rightChild).2)
      | none => ([], false) :=
  foldBlank_eq t _ _ _ _ j

/-- The walk with the completeness flag finds the nodes of the plain walk. -/
theorem resolveComplete_fst (t : PartialTreeView P) (i : NodeIndex) :
    (t.resolveComplete i).1 = t.resolve i := by
  apply t.blankInduction (motive := fun i => (t.resolveComplete i).1 = t.resolve i)
  intro i ih
  rw [resolveComplete_unfold, resolve_eq]
  cases hget : t.get i with
  | none => rfl
  | some node =>
    by_cases hpop : node.state.isPopulated
    · simp [hpop]
    · by_cases hleaf : i.isLeaf t.treeDepth
      · simp [hpop, hleaf]
      · have hboth := ih node hget (by simpa using hpop) (by simpa using hleaf)
        simp [hpop, hleaf, hboth.1, hboth.2]

/-- The rebuilt set is the recipient set less the unmerged leaves of the path
node. -/
theorem reconstructResolutionComplete_fst (t : PartialTreeView P) (v : NodeIndex) :
    (t.reconstructResolutionComplete v).1 =
      (t.computeLj v t.unmergedLeafNodes).filter (t.notUnmergedAt v) := by
  rw [computeLj_eq_resolve, reconstructResolutionComplete]
  cases v.sibling with
  | none => rfl
  | some sibling => simp only [resolveComplete_fst]

/-- The view holds every node that decides the recipient set of `v`. -/
theorem reconstructResolutionComplete_snd {t : PartialTreeView P} {v sibling : NodeIndex}
    (h : v.sibling = some sibling) :
    (t.reconstructResolutionComplete v).2 = (t.resolveComplete sibling).2 := by
  rw [reconstructResolutionComplete, h]

end PartialTreeView

/-- The resolution component of the parent hash of update `k` of a path, for
the keys `keys`. -/
def h2At (updates : List (NodeUpdate P)) (k : Nat) (u : NodeUpdate P) (keys : List P.PublicKey) :
    Bytes32 :=
  h4ParentHashH2 P u.publicKey ((updates.take k).map (·.publicKey))
    ((zero32 :: updates.map (·.parentHash.2)).getD k zero32) keys

section Built

variable {t t' : PartialTreeView P} {R : NodeIndex → List (NodeIndex × P.PublicKey)}
  {leaf : NodeIndex}

/-- What is left of the check of one level: where the view is complete, the
wire names the positions of the rebuilt set, and the two hashes are equal. -/
def LevelAgrees (t' : PartialTreeView P) (R : NodeIndex → List (NodeIndex × P.PublicKey))
    (v : NodeIndex) (hash : List P.PublicKey → Bytes32) : Prop :=
  (t'.reconstructResolutionComplete v).2 = true →
    ((R v).map (·.1.position)).toFinset =
        ((t'.reconstructResolutionComplete v).1.map (·.position)).toFinset ∧
      hash (t'.reconstructResolutionKeys v) = hash ((R v).map Prod.snd)

/-- The positions on the wire are those of the recipients. -/
theorem BuiltLevel.positions {level : Nat} {h2 : Bytes32} {preds : List P.PublicKey} {seed : Seed}
    {u : NodeUpdate P} (h : BuiltLevel t R leaf level h2 preds seed u) :
    u.received.encryptedSeeds.map (·.recipientIndex.position) =
      (R (leaf.ancestor level)).map (·.1.position) := by
  have hrec := h.recipients
  have hpos : u.received.encryptedSeeds.map (·.recipientIndex.position) =
      u.encryptedSeeds.map (·.recipientIndex.position) := by
    simp only [NodeUpdate.received, List.map_map]
    rfl
  rw [hpos]
  clear hpos
  generalize R (leaf.ancestor level) = recipients at hrec ⊢
  generalize u.encryptedSeeds = seeds at hrec ⊢
  induction hrec with
  | nil => rfl
  | cons hhead _ ih => rw [List.map_cons, List.map_cons, hhead.1, ih]

/-- The check of one built level. -/
theorem verifyLevel_built (hlabel : ∀ v, t'.siblingLabel v = t.siblingLabel v) {level : Nat}
    {h2 : Bytes32} {preds : List P.PublicKey} {seed : Seed} {u : NodeUpdate P}
    (h : BuiltLevel t R leaf level h2 preds seed u) :
    verifyLevel t' level h2 preds u.received = .ok () ↔
      (level ≠ 0 → LevelAgrees t' R (leaf.ancestor level)
        (h4ParentHashH2 P u.publicKey preds h2)) := by
  have hnode : u.received.nodeIndex = leaf.ancestor level := h.nodeIndex_eq
  have hhash : u.received.parentHash = u.parentHash := rfl
  have hkey : u.received.publicKey = u.publicKey := rfl
  unfold verifyLevel
  rw [hnode, hhash, hkey, h.positions, h.parentHash_eq]
  by_cases hzero : level = 0
  · simp [hzero]
  · simp only [hzero, if_false, hlabel, LevelAgrees, Except.bind_eq_ok, rejectIf_eq_ok, ne_eq,
      not_not, not_false_eq_true, forall_const, exists_const, true_and]
    by_cases hcomplete : (t'.reconstructResolutionComplete (leaf.ancestor level)).2 = true
    · simp [hcomplete]
    · simp [hcomplete]

/-- The check of a built list of levels.  The accumulators of the verifier run
in step with those of the builder. -/
theorem verifyLevels_built (hlabel : ∀ v, t'.siblingLabel v = t.siblingLabel v) {level : Nat}
    {h2 : Bytes32} {preds : List P.PublicKey} {seeds : List Seed} {updates : List (NodeUpdate P)}
    (h : BuiltLevels t R leaf level h2 preds seeds updates) :
    verifyLevels t' level h2 preds (updates.map NodeUpdate.received) = .ok () ↔
      ∀ k u, updates[k]? = some u → level + k ≠ 0 →
        LevelAgrees t' R (leaf.ancestor (level + k))
          (h4ParentHashH2 P u.publicKey (preds ++ (updates.take k).map (·.publicKey))
            ((h2 :: updates.map (·.parentHash.2)).getD k zero32)) := by
  induction h with
  | nil => simp [verifyLevels, pure, Except.pure]
  | @cons level h2 preds seed u seeds updates head tail ih =>
    have hhash : u.received.parentHash = u.parentHash := rfl
    have hkey : u.received.publicKey = u.publicKey := rfl
    simp only [List.map_cons, verifyLevels, Except.bind_eq_ok, hhash, hkey,
      verifyLevel_built hlabel head, ih]
    constructor
    · intro h k w hw hk
      rcases h with ⟨_, hhead, htail⟩
      cases k with
      | zero =>
        cases hw
        simpa using hhead (by omega)
      | succ k =>
        have hk' := htail k w (by simpa using hw) (by omega)
        simp only [show level + 1 + k = level + (k + 1) by omega, List.append_assoc] at hk'
        simpa using hk'
    · intro h
      refine ⟨(), ?_, ?_⟩
      · intro hk
        simpa using h 0 u rfl (by omega)
      · intro k w hw hk
        have hk' := h (k + 1) w (by simpa using hw) (by omega)
        simp only [show level + 1 + k = level + (k + 1) by omega, List.append_assoc]
        simpa using hk'

/-- The parent hashes of a built path verify exactly when every level above the
leaf agrees. -/
theorem verifyParentHashes_built (hlabel : ∀ v, t'.siblingLabel v = t.siblingLabel v)
    {leafSeed : Seed} {result : PathUpdateResult P} (h : BuiltPath t R leaf leafSeed result) :
    verifyParentHashes t' (result.updates.map NodeUpdate.received) = .ok () ↔
      ∀ k u, result.updates[k]? = some u → k ≠ 0 →
        LevelAgrees t' R (leaf.ancestor k) (h2At result.updates k u) := by
  rw [verifyParentHashes, verifyLevels_built hlabel h.levels]
  simp only [Nat.zero_add, List.nil_append]
  rfl

end Built

end Trelis.Cocoa
