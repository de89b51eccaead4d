import Trelis.Cocoa.Process
import Trelis.Symbolic

/-!
# What an accepted commit may change

A receiver that accepts a commit has bound its signer to an occupied leaf, has
changed the keys of the nodes that the commit names and of no others, and has
advanced from a root seed that it opened itself, or, for an add or a remove
without path updates, from the all-zero seed.

`PathAuthority` collects this, and `accepted_path_authority` proves it of the
three receivers.
-/

namespace Trelis.Cocoa

open PartialTreeView

variable {P : Primitives}

/-- What an accepted commit has done, from the session `s` to `s'`.  `view` is
the tree in which the committer's leaf was looked up, and `base` the tree that
the path updates were written to. -/
structure PathAuthority (s s' : CocoaSession P) (view base : PartialTreeView P)
    (committerLeaf : Nat) (pathUpdates : List PathUpdate) : Prop where
  committer_lt : committerLeaf < s.memberCount
  committer_not_blank : ∀ node, view.get (.leaf view.treeDepth committerLeaf) = some node →
    node.state.isPopulated
  /-- No update names the index: its key is kept. -/
  unnamed : ∀ i, (∀ pu ∈ pathUpdates, pu.nodeIndex.toLinear ≠ i.toLinear) →
    s'.tree.keyAt i = base.keyAt i
  /-- `pu` is the last update that names the index: its key is there. -/
  named : ∀ i before pu after, pathUpdates = before ++ pu :: after →
    pu.nodeIndex.toLinear = i.toLinear → (∀ q ∈ after, q.nodeIndex.toLinear ≠ i.toLinear) →
    ∃ pk, P.publicKeyFromBytes pu.newPublicKey = .ok pk ∧ s'.tree.keyAt i = some pk
  rootSeed : ∃ nodeUpdates delta,
    convertPathUpdatesToNodeUpdates P pathUpdates = .ok nodeUpdates ∧
    s'.epoch = .advance s.epoch.initSecret delta s'.transcriptHash s.epoch.number ∧
    ((pathUpdates = [] ∧ delta = zero32) ∨ OpenedPath nodeUpdates s.ourKeypair delta)

/-- The key that the last update of an index leaves there. -/
theorem writtenKey_append {before after : List PathUpdate} {pu : PathUpdate} {i : NodeIndex}
    (hlinear : pu.nodeIndex.toLinear = i.toLinear)
    (hafter : ∀ q ∈ after, q.nodeIndex.toLinear ≠ i.toLinear) {pk : P.PublicKey}
    (hparse : P.publicKeyFromBytes pu.newPublicKey = .ok pk) :
    writtenKey P (before ++ pu :: after) i = some pk := by
  induction before with
  | nil =>
    rw [List.nil_append, writtenKey_cons, writtenKey_eq_none hafter, PathUpdate.keyFor,
      if_pos hlinear, hparse]
    rfl
  | cons q before ih => rw [List.cons_append, writtenKey_cons, ih]; rfl

/-- A session whose keys are those of `base` overwritten by the path updates,
and whose epoch advanced from the derived root seed. -/
theorem Checked.pathAuthority {s s' : CocoaSession P} {view base scratch : PartialTreeView P}
    {signer : P.IdentityPublicKey} {content : CommitContent} {pathUpdates : List PathUpdate}
    {signature : P.Signature} {tag : Bytes32} {removed added : List UserId}
    {nodeUpdates : List (NodeUpdate P)} {delta : Seed} {transcript : Bytes32}
    (h : Checked s view scratch signer content pathUpdates signature tag removed added nodeUpdates
      delta)
    (hkeys : ∀ i, s'.tree.keyAt i = (writtenKey P pathUpdates i).or (base.keyAt i))
    (hadvanced : Advanced s s' delta transcript)
    (hdelta : (pathUpdates = [] ∧ delta = zero32) ∨ OpenedPath nodeUpdates s.ourKeypair delta) :
    PathAuthority s s' view base content.committerLeafPosition pathUpdates where
  committer_lt := h.committer_lt
  committer_not_blank := h.committer_not_blank
  unnamed := by
    intro i hi
    rw [hkeys, writtenKey_eq_none hi]
    rfl
  named := by
    intro i before pu after hsplit hlinear hafter
    have hpu : pu ∈ pathUpdates := by simp [hsplit]
    rcases publicKey_of_converted h.converted hpu with ⟨pk, hparse⟩
    refine ⟨pk, hparse, ?_⟩
    rw [hkeys, hsplit, writtenKey_append hlinear hafter hparse]
    rfl
  rootSeed := by
    refine ⟨nodeUpdates, delta, h.converted, ?_, hdelta⟩
    rw [hadvanced.epoch_eq, hadvanced.transcriptHash_eq]

/-- A commit converts to no updates exactly when it has none. -/
theorem nil_of_converted {pathUpdates : List PathUpdate}
    (h : convertPathUpdatesToNodeUpdates P pathUpdates = .ok []) : pathUpdates = [] := by
  rw [convertPathUpdatesToNodeUpdates, Except.mapM_eq_ok] at h
  cases h
  rfl

theorem deltaRootOf_cases {s : CocoaSession P} {pathUpdates : List PathUpdate}
    {nodeUpdates : List (NodeUpdate P)} {delta : Seed}
    (hconv : convertPathUpdatesToNodeUpdates P pathUpdates = .ok nodeUpdates)
    (h : deltaRootOf nodeUpdates s = .ok delta) :
    (pathUpdates = [] ∧ delta = zero32) ∨ OpenedPath nodeUpdates s.ourKeypair delta := by
  rcases deltaRootOf_eq_ok h with ⟨rfl, hdelta⟩ | hopen
  · exact .inl ⟨nil_of_converted hconv, hdelta⟩
  · exact .inr hopen

/-- What an accepted commit has changed, for each of the three receivers. -/
theorem accepted_path_authority (signer : P.IdentityPublicKey) (s s' : CocoaSession P) :
    (∀ c : UpdateCommit P, processUpdate c signer s = .ok () s' →
      c.pathUpdates ≠ [] ∧
      PathAuthority s s' s.tree s.tree c.updaterLeafPosition c.pathUpdates) ∧
    (∀ c : AddCommit P, processAdd c signer s = .ok () s' →
      PathAuthority s s' (s.tree.growIfNeeded (c.newLeafPosition + 1))
        (s.tree.growIfNeeded (c.newLeafPosition + 1)) c.committerLeafPosition c.pathUpdates) ∧
    (∀ c : RemoveCommit P, processRemove c signer s = .ok () s' →
      PathAuthority s s' s.tree
        (s.tree.blankNode (.leaf s.tree.treeDepth c.removedLeafPosition))
        c.committerLeafPosition c.pathUpdates) := by
  refine ⟨?_, ?_, ?_⟩
  · intro c h
    rcases processUpdate_eq_ok.mp h with ⟨delta, transcript, hcheck, rfl⟩
    rcases checkUpdate_eq_ok.mp hcheck with ⟨_, nodeUpdates, hc, hdelta, _⟩
    have hopen := applyPathUpdates_ok hdelta
    refine ⟨?_, hc.pathAuthority (keyAt_applyUpdate s signer delta transcript c)
      (applyUpdate_advanced ..) (.inr hopen)⟩
    intro hempty
    have hconv := hc.converted
    rw [hempty] at hconv
    cases hconv
    rcases hopen.delta_matches with ⟨u, hu, _⟩
    cases hu
  · intro c h
    rcases processAdd_eq_ok.mp h with ⟨delta, transcript, hcheck, rfl⟩
    rcases (checkAdd_eq_ok rfl).mp hcheck with ⟨_, _, _, nodeUpdates, hc, hdelta, _⟩
    exact hc.pathAuthority (keyAt_applyAdd s delta transcript c) (applyAdd_advanced ..)
      (deltaRootOf_cases hc.converted hdelta)
  · intro c h
    rcases processRemove_eq_ok.mp h with ⟨delta, transcript, hcheck, rfl⟩
    rcases checkRemove_eq_ok.mp hcheck with ⟨_, _, nodeUpdates, hc, hdelta, _⟩
    exact hc.pathAuthority (keyAt_applyRemove s delta transcript c) (applyRemove_advanced ..)
      (deltaRootOf_cases hc.converted hdelta)

section Sample

open Symbolic

/-- A tree in which the second member holds the leaves of the other two. -/
private def knownLeaves : PartialTreeView symbolic :=
  tree 2 3 [node ⟨2, 0⟩ 10, node ⟨2, 1⟩ 11, node ⟨2, 2⟩ 12, blank ⟨1, 1⟩ []]

theorem accepted_path_authority_update :
    ∃ c r', processUpdate c (word 50) (member 0 10 knownLeaves) = .ok () r' ∧
      PathAuthority (member 0 10 knownLeaves) r' (member 0 10 knownLeaves).tree
        (member 0 10 knownLeaves).tree c.updaterLeafPosition c.pathUpdates := by
  have hrun : okAnd (createUpdate (word 50) (draws 500) (member 1 11 knownLeaves)) (fun c _ =>
      okAnd (processUpdate c (word 50) (member 0 10 knownLeaves)) fun _ _ => true) := by
    decide +kernel
  simp only [okAnd_eq_true] at hrun
  rcases hrun with ⟨c, _, _, _, r', hprocess, _⟩
  have hall := accepted_path_authority (P := symbolic) (word 50) (member 0 10 knownLeaves) r'
  exact ⟨c, r', hprocess, (hall.1 c hprocess).2⟩

/-- The update `c` as the member at leaf 2 would sign it. -/
private def signedAtLeafTwo (c : UpdateCommit symbolic) : UpdateCommit symbolic :=
  let commit := { c with updaterLeafPosition := 2 }
  { commit with
    signature := (⟨word 50, (commit.content (word 50)).toBytes, commitSignContext⟩ :
      Symbolic.Signature) }

/-- A receiver accepts an add without path updates and advances from the zero
seed, and it accepts an update by the member at leaf 2 that replaces the key of
leaf 1. -/
theorem path_authority_exceeded :
    (∃ r', processAdd (addWithoutPath 3) (word 50) (member 0 10 knownLeaves) = .ok () r' ∧
      (addWithoutPath 3).pathUpdates = [] ∧
      r'.currentEpochSecret = h5EpochSecret symbolic (member 0 10 knownLeaves).initSecret zero32
        r'.transcriptHash) ∧
    (∃ c r', processUpdate c (word 50) (member 0 10 knownLeaves) = .ok () r' ∧
      c.updaterLeafPosition = 2 ∧ ⟨2, 1⟩ ∉ pathToRoot (.leaf 2 2) ∧
      knownLeaves.keyAt ⟨2, 1⟩ = some (key 11) ∧ r'.tree.keyAt ⟨2, 1⟩ = some (key 500)) := by
  constructor
  · have hrun :
        okAnd (processAdd (addWithoutPath 3) (word 50) (member 0 10 knownLeaves)) (fun _ r' =>
        decide (r'.currentEpochSecret = h5EpochSecret symbolic (member 0 10 knownLeaves).initSecret
          zero32 r'.transcriptHash)) := by
      decide +kernel
    simp only [okAnd_eq_true, decide_eq_true_eq] at hrun
    rcases hrun with ⟨_, r', hprocess, hepoch⟩
    exact ⟨r', hprocess, rfl, hepoch⟩
  · have hrun : okAnd (createUpdate (word 50) (draws 500) (member 1 11 knownLeaves)) (fun c _ =>
        okAnd (processUpdate (signedAtLeafTwo c) (word 50) (member 0 10 knownLeaves)) fun _ r' =>
          decide (r'.tree.keyAt ⟨2, 1⟩ = some (key 500))) := by
      decide +kernel
    simp only [okAnd_eq_true, decide_eq_true_eq] at hrun
    rcases hrun with ⟨c, _, _, _, r', hprocess, hkey⟩
    exact ⟨signedAtLeafTwo c, r', hprocess, rfl, by decide +kernel, by decide +kernel, hkey⟩

end Sample

end Trelis.Cocoa
