import Trelis.Cocoa.ParentHash
import Trelis.Cocoa.Process
import Trelis.Symbolic

/-!
# One honest update

A member that agrees with the sender of an update, and that holds the key of
one of its recipients, accepts it and reaches the sender's epoch.

The receiver subtracts the unmerged leaves of a path node from the recipients
that it rebuilds, and the sender does not.  The unmerged leaves of a node are
meant to lie below it, where they cannot be recipients; a view that lists
others makes the two sides differ (`honest_update_rejected`).
-/

namespace Trelis.Cocoa

open PartialTreeView

variable {P : Primitives}

/-! ## The checks that an honest commit passes -/

/-- What is left to check of an honest commit in a session that agrees with
its sender's: the committer's leaf and the parent hashes. -/
theorem Honest.checked {size : Nat} (hpk : P.PublicKeyCodec size) (henc : P.EncapsulationCodec)
    (hsig : P.CorrectSignature) {s r : CocoaSession P} (hsame : SameGroup s r)
    {identity : P.IdentityKeyPair} {content : CommitContent} {pathUpdates : List PathUpdate}
    {signature : P.Signature} {tag : Bytes32} {removed added : List UserId} {coins : P.Coins}
    {result : PathUpdateResult P}
    (h : Honest s identity content pathUpdates signature tag removed added coins result)
    {t : PartialTreeView P} {R : NodeIndex → List (NodeIndex × P.PublicKey)} {leaf : NodeIndex}
    {leafSeed : Seed} (hpath : BuiltPath t R leaf leafSeed result)
    {view scratch : PartialTreeView P} (hlt : s.ourLeafPosition < r.memberCount)
    (hblank : ∀ node, view.get (.leaf view.treeDepth s.ourLeafPosition) = some node →
      node.state.isPopulated)
    (hhashes : verifyParentHashes scratch (result.updates.map NodeUpdate.received) = .ok ()) :
    Checked r view scratch (P.identityPublicKey identity) content pathUpdates signature tag removed
      added (result.updates.map NodeUpdate.received) result.deltaRoot where
  groupId_eq := by rw [h.groupId_eq, hsame.groupId_eq]
  epoch_eq := by rw [h.epoch_eq, hsame.epochNumber_eq]
  signed := hsig.verify_sign h.signed
  committer_lt := by rw [h.committer_eq]; exact hlt
  committer_not_blank := by rw [h.committer_eq]; exact hblank
  converted := by rw [h.pathUpdates_eq]; exact convert_built hpk henc hpath.levels
  tag_eq := by rw [h.tag_eq, hsame.transcriptHash_eq]
  roundHash_eq := h.roundHash_eq.symm
  parentHashes := hhashes

/-! ## Quiet paths -/

/-- At the path node `v`, no recipient is on the list of the unmerged leaves
of `v` itself, as far as the view determines the recipients. -/
def QuietAt (t : PartialTreeView P) (v : NodeIndex) : Prop :=
  (t.reconstructResolutionComplete v).2 = true →
    ∀ r ∈ t.computeLj v t.unmergedLeafNodes, t.notUnmergedAt v r = true

/-- The unmerged lists of a path are quiet above its leaf. -/
def QuietPath (t : PartialTreeView P) (leaf : NodeIndex) : Prop :=
  ∀ k ≤ leaf.depth, k ≠ 0 → QuietAt t (leaf.ancestor k)

instance (t : PartialTreeView P) (v : NodeIndex) : Decidable (QuietAt t v) := by
  unfold QuietAt; infer_instance

instance (t : PartialTreeView P) (leaf : NodeIndex) : Decidable (QuietPath t leaf) := by
  unfold QuietPath; infer_instance

/-- Where nothing is subtracted, the receiver rebuilds the recipients of an
update. -/
theorem QuietAt.levelAgrees {s r : PartialTreeView P} (hnodes : Agree keyCell s r)
    (hdepth : s.treeDepth = r.treeDepth) {v : NodeIndex} (h : QuietAt r v)
    (hash : List P.PublicKey → Bytes32) : LevelAgrees r (updateRecipients s) v hash := by
  intro hcomplete
  have hfilter : (r.computeLj v r.unmergedLeafNodes).filter (r.notUnmergedAt v) =
      r.computeLj v r.unmergedLeafNodes :=
    List.filter_eq_self.mpr fun x hx => h hcomplete x hx
  have hpos : (updateRecipients s v).map (·.1.position) =
      (r.computeLj v r.unmergedLeafNodes).map (·.position) := by
    have hfst := map_fst_updateRecipients s v
    rw [hnodes.computeLj hdepth] at hfst
    rw [← hfst, List.map_map]
    rfl
  refine ⟨?_, ?_⟩
  · rw [hpos, reconstructResolutionComplete_fst, hfilter]
  · rw [map_snd_updateRecipients, reconstructResolutionKeys, hfilter, hnodes.computeLj hdepth]
    congr 2
    funext i
    exact (hnodes.keyAt i).symm

/-- The parent hashes of an honest update verify over a quiet path. -/
theorem verifyParentHashes_update {s r : PartialTreeView P} (hnodes : Agree keyCell s r)
    (hdepth : s.treeDepth = r.treeDepth) {leaf : NodeIndex} (hquiet : QuietPath r leaf)
    {leafSeed : Seed} {result : PathUpdateResult P}
    (h : BuiltPath s (updateRecipients s) leaf leafSeed result) :
    verifyParentHashes r (result.updates.map NodeUpdate.received) = .ok () := by
  rw [verifyParentHashes_built (fun v => (hnodes.siblingLabel v).symm) h]
  intro k u hu hk
  have hlt : k < result.updates.length := (List.getElem?_eq_some_iff.mp hu).1
  rw [h.levels.length_eq, derivePathSeeds_length] at hlt
  exact (hquiet k (by omega) hk).levelAgrees hnodes hdepth _

/-! ## Agreement -/

/-- A member that agrees with the sender of an update and holds the key of one
of its recipients accepts it, and reaches the sender's epoch. -/
theorem single_commit_agreement {size : Nat} (hpk : P.PublicKeyCodec size)
    (henc : P.EncapsulationCodec) (hkem : P.IdealKem) (haead : P.IdealAead)
    (hsig : P.CorrectSignature) {s r s' : CocoaSession P} (hsame : SameGroup s r)
    {identity : P.IdentityKeyPair} {draws : Draws P} {c : UpdateCommit P}
    (hcreate : createUpdate identity draws s = .ok c s')
    (hlt : s.ourLeafPosition < s.memberCount)
    (hblank : ∀ node, r.tree.get (.leaf r.tree.treeDepth s.ourLeafPosition) = some node →
      node.state.isPopulated)
    (hlimits : WithinLimits (pathUpdatesWireLen c.pathUpdates) (c.pathUpdates.length - 1)
      r.tree.treeDepth r.memberCount r.tree.totalUnmergedLeaves)
    (hrecipient : ∃ v ∈ pathToRoot s.ourLeafNode,
      ∃ i ∈ s.tree.computeLj v s.tree.unmergedLeafNodes,
        s.tree.keyAt i = some (P.publicKey r.ourKeypair))
    (hquiet : QuietPath r.tree s.ourLeafNode) :
    ∃ r', processUpdate c (P.identityPublicKey identity) r = .ok () r' ∧
      r'.epochNumber = s'.epochNumber ∧ r'.currentEpochSecret = s'.currentEpochSecret ∧
      r'.transcriptHash = s'.transcriptHash := by
  rcases createUpdate_ok hcreate with ⟨leafSeed, result, keypair, _, hpath, hhonest, _, rfl⟩
  have hkeys := hsame.nodes.toKeyCell
  have hcheck := hhonest.checked hpk henc hsig hsame hpath
    (by rw [← hsame.memberCount_eq]; exact hlt) hblank
    (verifyParentHashes_update hkeys hsame.treeDepth_eq hquiet hpath)
  rcases hrecipient with ⟨v, hv, i, hi, hkey⟩
  have hr : (i, P.publicKey r.ourKeypair) ∈ updateRecipients s.tree v := by
    rw [updateRecipients, List.mem_filterMap]
    exact ⟨i, hi, by rw [hkey]; rfl⟩
  have hdelta := applyPathUpdates_built hkem haead hpath hv hr rfl r.ourLeafPosition
    c.updaterLeafPosition
  refine ⟨_, processUpdate_eq_ok.mpr ⟨result.deltaRoot,
    h3TranscriptHash P r.transcriptHash c.roundHash,
    checkUpdate_eq_ok.mpr ⟨hlimits, _, hcheck, hdelta, rfl⟩, rfl⟩, ?_⟩
  have hadvanced : Advanced s ({ s with ourKeypair := keypair }.advanceEpoch result.deltaRoot
      (h3TranscriptHash P s.transcriptHash c.roundHash)) result.deltaRoot
      (h3TranscriptHash P s.transcriptHash c.roundHash) := ⟨rfl, rfl, rfl⟩
  rw [hsame.transcriptHash_eq] at hadvanced ⊢
  have hepoch := hsame.advanced hadvanced
    (applyUpdate_advanced r (P.identityPublicKey identity) result.deltaRoot _ c)
  exact ⟨hepoch.1.symm, hepoch.2.1.symm, hepoch.2.2.symm⟩

section Sample

open Symbolic

/-- Two of four members, with the internal nodes blank. -/
private def twoOfFour (unmergedLeaves : List Nat) : PartialTreeView symbolic :=
  tree 2 4 [node ⟨2, 0⟩ 10, blank ⟨1, 0⟩ unmergedLeaves, blank ⟨1, 1⟩ [], node ⟨2, 2⟩ 12,
    blank ⟨2, 3⟩ []]

/-- Over an empty unmerged list the other member follows. -/
theorem single_commit_agreement_two_of_four :
    ∃ c s' r', createUpdate (word 50) (draws 500) (member 0 10 (twoOfFour [])) = .ok c s' ∧
      processUpdate c (word 50) (member 2 12 (twoOfFour [])) = .ok () r' ∧
      r'.epochNumber = s'.epochNumber ∧ r'.currentEpochSecret = s'.currentEpochSecret ∧
      r'.transcriptHash = s'.transcriptHash := by
  have hrun : okAnd (createUpdate (word 50) (draws 500) (member 0 10 (twoOfFour []))) (fun c _ =>
      decide (WithinLimits (pathUpdatesWireLen c.pathUpdates) (c.pathUpdates.length - 1) 2 4
        (twoOfFour []).totalUnmergedLeaves)) := by
    decide +kernel
  rcases okAnd_eq_true.mp hrun with ⟨c, s', hcreate, hlimits⟩
  have hsame : SameGroup (member 0 10 (twoOfFour [])) (member 2 12 (twoOfFour [])) :=
    ⟨rfl, rfl, rfl, rfl, rfl, Agree.refl _⟩
  have hblank : ∀ node, (twoOfFour []).get (.leaf 2 0) = some node → node.state.isPopulated := by
    have hany : ((twoOfFour []).get (.leaf 2 0)).any (·.state.isPopulated) := by decide +kernel
    intro node hnode
    rw [hnode] at hany
    exact hany
  have hrecipient : ∃ v ∈ pathToRoot (NodeIndex.leaf 2 0),
      ∃ i ∈ (twoOfFour []).computeLj v (twoOfFour []).unmergedLeafNodes,
        (twoOfFour []).keyAt i = some (key 12) :=
    ⟨⟨1, 0⟩, by decide +kernel, ⟨2, 2⟩, by decide +kernel, by decide +kernel⟩
  have hquiet : QuietPath (twoOfFour []) (.leaf 2 0) := by decide +kernel
  rcases single_commit_agreement publicKeyCodec encapsulationCodec idealKem idealAead
    correctSignature hsame hcreate (by decide +kernel) hblank (of_decide_eq_true hlimits)
    hrecipient hquiet with ⟨r', hprocess, hepoch⟩
  exact ⟨c, s', r', hcreate, hprocess, hepoch⟩

/-- The list of `(1, 0)` names leaf 2, which lies below `(1, 1)`: the two
members agree on everything, and the receiver rejects the honest update. -/
theorem honest_update_rejected :
    SameGroup (member 0 10 (twoOfFour [2])) (member 2 12 (twoOfFour [2])) ∧
      (twoOfFour [2]).keyAt (.leaf 2 0) = some (key 10) ∧
      (⟨2, 2⟩ ∈ (twoOfFour [2]).computeLj ⟨1, 0⟩ (twoOfFour [2]).unmergedLeafNodes ∧
        (twoOfFour [2]).keyAt ⟨2, 2⟩ = some (key 12)) ∧
      ∃ c s', createUpdate (word 50) (draws 500) (member 0 10 (twoOfFour [2])) = .ok c s' ∧
        WithinLimits (pathUpdatesWireLen c.pathUpdates) (c.pathUpdates.length - 1) 2 4
          (twoOfFour [2]).totalUnmergedLeaves ∧
        ∃ r', processUpdate c (word 50) (member 2 12 (twoOfFour [2])) =
          .error .parentHashMismatch r' := by
  have hrun : okAnd (createUpdate (word 50) (draws 500) (member 0 10 (twoOfFour [2]))) (fun c _ =>
      decide (WithinLimits (pathUpdatesWireLen c.pathUpdates) (c.pathUpdates.length - 1) 2 4
        (twoOfFour [2]).totalUnmergedLeaves) &&
      failsWith (processUpdate c (word 50) (member 2 12 (twoOfFour [2]))) .parentHashMismatch) := by
    decide +kernel
  simp only [okAnd_eq_true, Bool.and_eq_true, failsWith_eq_true, decide_eq_true_eq] at hrun
  rcases hrun with ⟨c, s', hcreate, hlimits, hreject⟩
  exact ⟨⟨rfl, rfl, rfl, rfl, rfl, Agree.refl _⟩, by decide +kernel,
    ⟨by decide +kernel, by decide +kernel⟩, c, s', hcreate, hlimits, hreject⟩

end Sample

end Trelis.Cocoa
