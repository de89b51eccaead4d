import Trelis.Cocoa.WellFormed
import Trelis.Symbolic

/-!
# Where the receivers overflow

A receiver with a well-formed tree panics at two kinds of commit: those that
reach the check of the epoch when the session is in its last one, and those that
name a node at depth 64 or more and pass every check before the index is used
(`Commit.Safe`).  For the node at the leaf that is the write after all checks,
and for the nodes above it the check of the parent hashes.  A joiner panics at a
node of that depth in the tree info of its welcome (`Welcome.Safe`).
`receivers_never_panic_iff` puts the two together.
-/

namespace Trelis.Cocoa

open PartialTreeView

variable {P : Primitives}

/-! ## Commits -/

/-- The leaf positions that a commit names. -/
def Commit.leafPositions : Commit P → List Nat
  | add c => [c.newLeafPosition, c.committerLeafPosition]
  | update c => [c.updaterLeafPosition]
  | remove c => [c.removedLeafPosition, c.committerLeafPosition]

/-- The `u32` fields of a commit hold `u32` values. -/
structure Commit.InRange (c : Commit P) : Prop where
  pathUpdates : ∀ pu ∈ c.pathUpdates, pu.InRange
  leafPositions : ∀ p ∈ c.leafPositions, p < 2 ^ 32

/-- The commit passes the checks before the one of its epoch. -/
def Commit.Admitted (s : CocoaSession P) : Commit P → Prop
  | add c => c.newLeafPosition + 1 < 2 ^ 32 ∧
      WithinLimits (pathUpdatesWireLen c.pathUpdates) (c.pathUpdates.length - 1)
        (depthForMembers (c.newLeafPosition + 1)) (c.newLeafPosition + 1)
        s.tree.totalUnmergedLeaves ∧ c.groupId = s.groupId
  | update c =>
      WithinLimits (pathUpdatesWireLen c.pathUpdates) (c.pathUpdates.length - 1) s.tree.treeDepth
        s.memberCount s.tree.totalUnmergedLeaves ∧ c.groupId = s.groupId ∧
      c.updaterLeafPosition < s.memberCount
  | remove c =>
      WithinLimits (pathUpdatesWireLen c.pathUpdates) (c.pathUpdates.length - 1) s.tree.treeDepth
        s.memberCount s.tree.totalUnmergedLeaves ∧ c.groupId = s.groupId ∧
      c.removedLeafPosition ≠ s.ourLeafPosition

/-- What the three receivers check between the epoch and the parent hashes; the
fields are those of `Checked`. -/
structure PassesUntilParentHashes (s : CocoaSession P) (view : PartialTreeView P)
    (signer : P.IdentityPublicKey) (content : CommitContent) (pathUpdates : List PathUpdate)
    (signature : P.Signature) (tag : Bytes32) (removed added : List UserId)
    (nodeUpdates : List (NodeUpdate P)) (delta : Seed) : Prop where
  epoch_eq : content.epoch = s.epochNumber + 1
  signed : verifyCommitSignature signer content signature = .ok ()
  committer_lt : content.committerLeafPosition < s.memberCount
  committer_not_blank : ∀ node,
    view.get (.leaf view.treeDepth content.committerLeafPosition) = some node →
      node.state.isPopulated
  converted : convertPathUpdatesToNodeUpdates P pathUpdates = .ok nodeUpdates
  tag_eq : computeConfirmationTag P delta
    (h3TranscriptHash P s.transcriptHash content.roundHash) content.epoch = tag
  roundHash_eq :
    h3RoundHash P (P.deriveKey rootLabelContext delta.val) removed added = content.roundHash

/-- The commit passes the checks before the one of the parent hashes, and its
path updates parse to the given ones. -/
def Commit.Opens (s : CocoaSession P) (signer : P.IdentityPublicKey)
    (nodeUpdates : List (NodeUpdate P)) : Commit P → Prop
  | add c => ((Commit.add c).Admitted s ∧ s.isMember c.newMemberId = false ∧ ∀ node,
      ((Commit.add c).target s).get (.leaf ((Commit.add c).target s).treeDepth c.newLeafPosition) =
        some node → node.state.isPopulated = false) ∧
      ∃ delta, PassesUntilParentHashes s ((Commit.add c).target s) signer (c.content signer)
        c.pathUpdates c.signature c.confirmationTag [] [c.newMemberId] nodeUpdates delta ∧
        deltaRootOf nodeUpdates s = .ok delta
  | update c => (Commit.update c).Admitted s ∧
      ∃ delta, PassesUntilParentHashes s s.tree signer (c.content signer) c.pathUpdates c.signature
        c.confirmationTag [] [] nodeUpdates delta ∧
        applyPathUpdates nodeUpdates s.ourKeypair s.ourLeafPosition c.updaterLeafPosition =
          .ok delta
  | remove c => (Commit.remove c).Admitted s ∧
      ∃ delta, PassesUntilParentHashes s s.tree signer (c.content signer) c.pathUpdates c.signature
        c.confirmationTag [c.removedMemberId] [] nodeUpdates delta ∧
        deltaRootOf nodeUpdates s = .ok delta

/-- The updates that are verified before the index of update `k` is used: those
below it, and for the leaf, which the verifier does not look up, all of them. -/
def verifiedBefore (nodeUpdates : List (NodeUpdate P)) (k : Nat) : List (NodeUpdate P) :=
  if k = 0 then nodeUpdates else nodeUpdates.take k

/-- No number of the commit goes past its machine word where it is used: the epoch
is not the last one, and no path update is at depth 64 or more, unless the commit
is refused before. -/
structure Commit.Safe (s : CocoaSession P) (signer : P.IdentityPublicKey) (c : Commit P) :
    Prop where
  epoch_lt : c.Admitted s → s.epochNumber + 1 < 2 ^ 64
  depth_lt : ∀ nodeUpdates, c.Opens s signer nodeUpdates → ∀ k u, nodeUpdates[k]? = some u →
    verifyParentHashes (c.target s) (verifiedBefore nodeUpdates k) = .ok () →
      u.nodeIndex.depth < 64

namespace Machine

open MachineM

theorem committerNode_of_wellFormed {s : CocoaSession P} {view : PartialTreeView P}
    (h : WellFormed view) {position : Nat} (hp : position < 2 ^ 32) :
    committerNode s view position =
      some (if position ≥ s.memberCount then none
        else view.get (.leaf view.treeDepth position)) := by
  unfold committerNode
  split
  · rfl
  · exact get_of_shallow (shallow_leaf h hp)

/-- The check of the committer's leaf, with the lookup that it skips. -/
theorem committer_checked {position n : Nat} {o : Option (TreeNode P)} :
    ¬ (position ≥ n ∨ (if position ≥ n then none else o).any (·.state.isBlank) = true) ↔
      position < n ∧ ∀ node, o = some node → node.state.isPopulated := by
  by_cases hge : position ≥ n
  · simp [hge]
  · cases o <;> simp [hge, Nat.not_le.mp hge]

/-- When the checks of `process_update` panic. -/
theorem checkUpdate_panics {s : CocoaSession P} {c : UpdateCommit P}
    {signer : P.IdentityPublicKey} (h : WellFormed s.tree) (hc : (Commit.update c).InRange) :
    (checkUpdate s c signer).Panics ↔
      ((Commit.update c).Admitted s ∧ 2 ^ 64 ≤ s.epochNumber + 1) ∨
      (s.epochNumber + 1 < 2 ^ 64 ∧ ∃ nodeUpdates, (Commit.update c).Opens s signer nodeUpdates ∧
        (verifyParentHashes s.tree nodeUpdates).Panics) := by
  have hp : c.updaterLeafPosition < 2 ^ 32 := hc.leafPositions _ (by simp [Commit.leafPositions])
  unfold checkUpdate
  simp only [panics_returns_bind, panics_arith_bind, checkSizeLimits_eq_ok, rejectIf_eq_ok, ne_eq,
    not_not, committerNode_of_wellFormed h hp, panics_bind_pure, addWord_eq_none, addWord_eq_some,
    reduceCtorEq, false_or, Option.some.injEq, exists_eq_left', exists_const, committer_checked,
    Nat.not_le, ge_iff_le]
  constructor
  · rintro ⟨hlim, hgroup, hlt, hmax | ⟨_, ⟨hmax, rfl⟩, hep, _, hsig, ⟨_, hblank⟩,
      nodeUpdates, hconv, delta, hdelta, htag, hround, hpanic⟩⟩
    · exact .inl ⟨⟨hlim, hgroup, hlt⟩, hmax⟩
    · exact .inr ⟨hmax, nodeUpdates, ⟨⟨hlim, hgroup, hlt⟩, delta,
        ⟨hep, hsig, hlt, hblank, hconv, htag, hround⟩, hdelta⟩, hpanic⟩
  · rintro (⟨⟨hlim, hgroup, hlt⟩, hmax⟩ | ⟨hmax, nodeUpdates, ⟨⟨hlim, hgroup, hlt⟩, delta, hpass,
      hdelta⟩, hpanic⟩)
    · exact ⟨hlim, hgroup, hlt, .inl hmax⟩
    · exact ⟨hlim, hgroup, hlt, .inr ⟨_, ⟨hmax, rfl⟩, hpass.epoch_eq, (), hpass.signed,
        ⟨hlt, hpass.committer_not_blank⟩, nodeUpdates, hpass.converted, delta, hdelta, hpass.tag_eq,
        hpass.roundHash_eq, hpanic⟩⟩

/-- When the checks of `process_remove` panic. -/
theorem checkRemove_panics {s : CocoaSession P} {c : RemoveCommit P}
    {signer : P.IdentityPublicKey} (h : WellFormed s.tree) (hc : (Commit.remove c).InRange) :
    (checkRemove s c signer).Panics ↔
      ((Commit.remove c).Admitted s ∧ 2 ^ 64 ≤ s.epochNumber + 1) ∨
      (s.epochNumber + 1 < 2 ^ 64 ∧ ∃ nodeUpdates, (Commit.remove c).Opens s signer nodeUpdates ∧
        (verifyParentHashes ((Commit.remove c).target s) nodeUpdates).Panics) := by
  have hp : c.committerLeafPosition < 2 ^ 32 := hc.leafPositions _ (by simp [Commit.leafPositions])
  have hr : c.removedLeafPosition < 2 ^ 32 := hc.leafPositions _ (by simp [Commit.leafPositions])
  unfold checkRemove
  simp only [panics_returns_bind, panics_arith_bind, checkSizeLimits_eq_ok, rejectIf_eq_ok, ne_eq,
    not_not, committerNode_of_wellFormed h hp, modifyState_of_shallow (shallow_leaf h hr),
    panics_bind_pure, addWord_eq_none, addWord_eq_some, reduceCtorEq, false_or, Option.some.injEq,
    exists_eq_left', exists_const, committer_checked, ge_iff_le]
  constructor
  · rintro ⟨hlim, hgroup, hself, hmax | ⟨_, ⟨hmax, rfl⟩, hep, _, hsig, ⟨hlt, hblank⟩, nodeUpdates,
      hconv, delta, hdelta, htag, hround, hpanic⟩⟩
    · exact .inl ⟨⟨hlim, hgroup, hself⟩, hmax⟩
    · exact .inr ⟨hmax, nodeUpdates, ⟨⟨hlim, hgroup, hself⟩, delta,
        ⟨hep, hsig, hlt, hblank, hconv, htag, hround⟩, hdelta⟩, hpanic⟩
  · rintro (⟨⟨hlim, hgroup, hself⟩, hmax⟩ | ⟨hmax, nodeUpdates, ⟨⟨hlim, hgroup, hself⟩,
      delta, hpass, hdelta⟩, hpanic⟩)
    · exact ⟨hlim, hgroup, hself, .inl hmax⟩
    · exact ⟨hlim, hgroup, hself, .inr ⟨_, ⟨hmax, rfl⟩, hpass.epoch_eq, (), hpass.signed,
        ⟨hpass.committer_lt, hpass.committer_not_blank⟩, nodeUpdates, hpass.converted, delta,
        hdelta, hpass.tag_eq, hpass.roundHash_eq, hpanic⟩⟩

/-- The check of the newcomer, with the lookup that it skips. -/
theorem newcomer_checked {member : Bool} {o : Option (TreeNode P)} :
    ¬ (member = true ∨ (if member = true then none else o).any (·.state.isPopulated) = true) ↔
      member = false ∧ ∀ node, o = some node → node.state.isPopulated = false := by
  cases member <;> cases o <;> simp

/-- When the checks of `process_add` panic. -/
theorem checkAdd_panics {s : CocoaSession P} {c : AddCommit P} {signer : P.IdentityPublicKey}
    (h : WellFormed s.tree) (hc : (Commit.add c).InRange) :
    (checkAdd s c signer).Panics ↔
      ((Commit.add c).Admitted s ∧ 2 ^ 64 ≤ s.epochNumber + 1) ∨
      (s.epochNumber + 1 < 2 ^ 64 ∧ ∃ nodeUpdates, (Commit.add c).Opens s signer nodeUpdates ∧
        (verifyParentHashes ((Commit.add c).target s) nodeUpdates).Panics) := by
  have hp : c.committerLeafPosition < 2 ^ 32 := hc.leafPositions _ (by simp [Commit.leafPositions])
  have hn : c.newLeafPosition < 2 ^ 32 := hc.leafPositions _ (by simp [Commit.leafPositions])
  by_cases hlim : WithinLimits (pathUpdatesWireLen c.pathUpdates) (c.pathUpdates.length - 1)
      (depthForMembers (c.newLeafPosition + 1)) (c.newLeafPosition + 1) s.tree.totalUnmergedLeaves
  · -- The gate bounds the grown tree, so that the two leaves can be looked up in it.
    have hgrown : WellFormed (s.tree.growIfNeeded (c.newLeafPosition + 1)) :=
      h.growIfNeeded hlim.treeDepth_le
    unfold checkAdd
    simp only [panics_returns_bind, checkedAdd_eq_ok, and_assoc, exists_and_left, exists_eq_left,
      checkSizeLimits_eq_ok, rejectIf_eq_ok, ne_eq, not_not, exists_const, panics_arith_bind,
      growIfNeeded_of_wellFormed h, committerNode_of_wellFormed hgrown hp,
      get_of_shallow (shallow_leaf hgrown hn), Option.pure_def, ← apply_ite some, panics_bind_pure,
      addWord_eq_none, addWord_eq_some, reduceCtorEq, false_or, Option.some.injEq, exists_eq_left',
      committer_checked, newcomer_checked, ge_iff_le]
    constructor
    · rintro ⟨hu32, _, hgroup, hmax | ⟨hmax, hep, _, hsig, hlt, hblank, hmember, hfree, nodeUpdates,
        hconv, delta, hdelta, htag, hround, hpanic⟩⟩
      · exact .inl ⟨⟨hu32, hlim, hgroup⟩, hmax⟩
      · exact .inr ⟨hmax, nodeUpdates, ⟨⟨⟨hu32, hlim, hgroup⟩, hmember, hfree⟩, delta,
          ⟨hep, hsig, hlt, hblank, hconv, htag, hround⟩, hdelta⟩, hpanic⟩
    · rintro (⟨⟨hu32, _, hgroup⟩, hmax⟩ | ⟨hmax, nodeUpdates, ⟨⟨⟨hu32, _, hgroup⟩, hmember, hfree⟩,
        delta, hpass, hdelta⟩, hpanic⟩)
      · exact ⟨hu32, hlim, hgroup, .inl hmax⟩
      · exact ⟨hu32, hlim, hgroup, .inr ⟨hmax, hpass.epoch_eq, (), hpass.signed,
          hpass.committer_lt, hpass.committer_not_blank, hmember, hfree,
          nodeUpdates, hpass.converted, delta, hdelta, hpass.tag_eq, hpass.roundHash_eq, hpanic⟩⟩
  · refine iff_of_false ?_ ?_
    · unfold checkAdd
      simp only [panics_returns_bind, checkedAdd_eq_ok, checkSizeLimits_eq_ok]
      rintro ⟨_, ⟨_, rfl⟩, _, hlim', _⟩
      exact hlim hlim'
    · rintro (⟨hadmitted, _⟩ | ⟨_, _, hopens, _⟩)
      · exact hlim hadmitted.2.1
      · exact hlim hopens.1.1.2.1

/-- The checks of a receiver. -/
def check (signer : P.IdentityPublicKey) (s : CocoaSession P) :
    Commit P → MachineM CryptoError (Seed × Bytes32)
  | .add c => checkAdd s c signer
  | .update c => checkUpdate s c signer
  | .remove c => checkRemove s c signer

theorem check_panics {s : CocoaSession P} {c : Commit P} {signer : P.IdentityPublicKey}
    (h : WellFormed s.tree) (hc : c.InRange) :
    (check signer s c).Panics ↔
      (c.Admitted s ∧ 2 ^ 64 ≤ s.epochNumber + 1) ∨
      (s.epochNumber + 1 < 2 ^ 64 ∧ ∃ nodeUpdates, c.Opens s signer nodeUpdates ∧
        (verifyParentHashes (c.target s) nodeUpdates).Panics) := by
  cases c with
  | add c => exact checkAdd_panics h hc
  | update c => exact checkUpdate_panics h hc
  | remove c => exact checkRemove_panics h hc

end Machine

/-- The checks of a receiver, over unbounded numbers. -/
def Commit.check (signer : P.IdentityPublicKey) (s : CocoaSession P) :
    Commit P → Result (Seed × Bytes32)
  | add c => checkAdd s c signer
  | update c => checkUpdate s c signer
  | remove c => checkRemove s c signer

theorem Commit.Opens.admitted {s : CocoaSession P} {signer : P.IdentityPublicKey} {c : Commit P}
    {nodeUpdates : List (NodeUpdate P)} (h : c.Opens s signer nodeUpdates) : c.Admitted s := by
  cases c with
  | add c => exact h.1.1
  | update c => exact h.1
  | remove c => exact h.1

theorem Commit.Opens.converted {s : CocoaSession P} {signer : P.IdentityPublicKey} {c : Commit P}
    {nodeUpdates : List (NodeUpdate P)} (h : c.Opens s signer nodeUpdates) :
    convertPathUpdatesToNodeUpdates P c.pathUpdates = .ok nodeUpdates := by
  cases c with
  | add c =>
    rcases h.2 with ⟨_, hpass, _⟩
    exact hpass.converted
  | update c =>
    rcases h.2 with ⟨_, hpass, _⟩
    exact hpass.converted
  | remove c =>
    rcases h.2 with ⟨_, hpass, _⟩
    exact hpass.converted

theorem Checked.passes {s : CocoaSession P} {view scratch : PartialTreeView P}
    {signer : P.IdentityPublicKey} {content : CommitContent} {pathUpdates : List PathUpdate}
    {signature : P.Signature} {tag : Bytes32} {removed added : List UserId}
    {nodeUpdates : List (NodeUpdate P)} {delta : Seed}
    (h : Checked s view scratch signer content pathUpdates signature tag removed added nodeUpdates
      delta) :
    PassesUntilParentHashes s view signer content pathUpdates signature tag removed added
      nodeUpdates delta :=
  ⟨h.epoch_eq, h.signed, h.committer_lt, h.committer_not_blank, h.converted, h.tag_eq,
    h.roundHash_eq⟩

theorem PassesUntilParentHashes.checked {s : CocoaSession P} {view scratch : PartialTreeView P}
    {signer : P.IdentityPublicKey} {content : CommitContent} {pathUpdates : List PathUpdate}
    {signature : P.Signature} {tag : Bytes32} {removed added : List UserId}
    {nodeUpdates : List (NodeUpdate P)} {delta : Seed}
    (h : PassesUntilParentHashes s view signer content pathUpdates signature tag removed added
      nodeUpdates delta) (hgroup : content.groupId = s.groupId)
    (hverify : verifyParentHashes scratch nodeUpdates = .ok ()) :
    Checked s view scratch signer content pathUpdates signature tag removed added nodeUpdates
      delta :=
  ⟨hgroup, h.epoch_eq, h.signed, h.committer_lt, h.committer_not_blank, h.converted, h.tag_eq,
    h.roundHash_eq, hverify⟩

/-- What is left of the checks after `Commit.Opens` is the one of the parent
hashes. -/
theorem Commit.check_ok_iff {s : CocoaSession P} {c : Commit P} {signer : P.IdentityPublicKey} :
    (∃ r, c.check signer s = .ok r) ↔
      ∃ nodeUpdates, c.Opens s signer nodeUpdates ∧
        verifyParentHashes (c.target s) nodeUpdates = .ok () := by
  constructor
  · rintro ⟨r, hr⟩
    cases c with
    | add c =>
      rcases (checkAdd_eq_ok rfl).mp hr with ⟨hu32, hlim, ⟨hmember, hfree⟩, us, hc, hdelta, _⟩
      exact ⟨us, ⟨⟨⟨hu32, hlim, hc.groupId_eq⟩, hmember, hfree⟩, r.1, hc.passes, hdelta⟩,
        hc.parentHashes⟩
    | update c =>
      rcases checkUpdate_eq_ok.mp hr with ⟨hlim, us, hc, hdelta, _⟩
      exact ⟨us, ⟨⟨hlim, hc.groupId_eq, hc.committer_lt⟩, r.1, hc.passes, hdelta⟩, hc.parentHashes⟩
    | remove c =>
      rcases checkRemove_eq_ok.mp hr with ⟨hlim, hself, us, hc, hdelta, _⟩
      exact ⟨us, ⟨⟨hlim, hc.groupId_eq, hself⟩, r.1, hc.passes, hdelta⟩, hc.parentHashes⟩
  · rintro ⟨us, hopens, hverify⟩
    cases c with
    | add c =>
      rcases hopens with ⟨⟨⟨hu32, hlim, hgroup⟩, hmember, hfree⟩, delta, hpass, hdelta⟩
      exact ⟨(delta, _), (checkAdd_eq_ok rfl).mpr ⟨hu32, hlim, ⟨hmember, hfree⟩, us,
        hpass.checked hgroup hverify, hdelta, rfl⟩⟩
    | update c =>
      rcases hopens with ⟨⟨hlim, hgroup, _⟩, delta, hpass, hdelta⟩
      exact ⟨(delta, _), checkUpdate_eq_ok.mpr
        ⟨hlim, us, hpass.checked hgroup hverify, hdelta, rfl⟩⟩
    | remove c =>
      rcases hopens with ⟨⟨hlim, hgroup, hself⟩, delta, hpass, hdelta⟩
      exact ⟨(delta, _), checkRemove_eq_ok.mpr ⟨hlim, hself, us,
        hpass.checked hgroup hverify, hdelta, rfl⟩⟩

/-- The indices of the parsed path are those of the wire. -/
theorem nodeIndex_of_converted {pus : List PathUpdate} {us : List (NodeUpdate P)}
    (h : convertPathUpdatesToNodeUpdates P pus = .ok us) :
    us.map (·.nodeIndex) = pus.map (·.nodeIndex) := by
  rw [convertPathUpdatesToNodeUpdates, Except.mapM_eq_ok] at h
  induction h with
  | nil => rfl
  | cons hhead _ ih =>
    simp only [convertPathUpdate, Except.bind_eq_ok, Except.pure_eq_ok] at hhead
    rcases hhead with ⟨_, _, _, _, rfl⟩
    rw [List.map_cons, List.map_cons, ih]

theorem verifyLevels_take {t : PartialTreeView P} {updates : List (NodeUpdate P)} {level : Nat}
    {prevH2 : Bytes32} {predecessors : List P.PublicKey}
    (h : verifyLevels t level prevH2 predecessors updates = .ok ()) (k : Nat) :
    verifyLevels t level prevH2 predecessors (updates.take k) = .ok () := by
  induction updates generalizing level prevH2 predecessors k with
  | nil => simpa using h
  | cons update updates ih =>
    cases k with
    | zero => rfl
    | succ k =>
      rw [verifyLevels, Except.bind_eq_ok] at h
      rcases h with ⟨_, hhead, htail⟩
      rw [List.take_succ_cons, verifyLevels, Except.bind_eq_ok]
      exact ⟨(), hhead, ih htail k⟩

namespace Machine

open MachineM

theorem check_refines (signer : P.IdentityPublicKey) (s : CocoaSession P) (c : Commit P) :
    (check signer s c).Refines (c.check signer s) := by
  cases c with
  | add c => exact checkAdd_refines s c signer
  | update c => exact checkUpdate_refines s c signer
  | remove c => exact checkRemove_refines s c signer

/-- The path updates are the mutation that can panic, in front of others that do
not. -/
theorem writes_panic_iff {s : CocoaSession P} {pus : List PathUpdate} {sig : P.Signature}
    {updaterId : UserId} {β : Type} {f : CocoaSession P → MachineM CryptoError β}
    (hepoch : s.epochNumber + 1 < 2 ^ 64)
    (hkeys : ∀ pu ∈ pus, ∃ pk, P.publicKeyFromBytes pu.newPublicKey = .ok pk)
    (hpos : ∀ pu ∈ pus, pu.nodeIndex.position < 2 ^ 32)
    (hf : ¬ (f (Cocoa.updateTreeFromPathUpdates s pus sig updaterId)).Panics) :
    (arith (updateTreeFromPathUpdates s pus sig updaterId) >>= f).Panics ↔
      ∃ pu ∈ pus, 64 ≤ pu.nodeIndex.depth := by
  rw [updateTreeFromPathUpdates_eq hepoch hkeys hpos]
  by_cases hdeep : ∃ pu ∈ pus, 64 ≤ pu.nodeIndex.depth
  · refine iff_of_true ?_ hdeep
    rw [if_pos hdeep]
    rfl
  · refine iff_of_false ?_ hdeep
    rw [if_neg hdeep, arith_some, returns_ok_bind]
    exact hf

/-- What accepted checks say about the numbers of a commit. -/
theorem ready_of_check {s : CocoaSession P} {c : Commit P} {signer : P.IdentityPublicKey}
    (h : WellFormed s.tree) (hc : c.InRange) {r : Seed × Bytes32}
    (hr : (check signer s c).run = some (.ok r)) :
    s.epochNumber + 1 < 2 ^ 64 ∧ c.Admitted s ∧
      ∀ pu ∈ c.pathUpdates, ∃ pk, P.publicKeyFromBytes pu.newPublicKey = .ok pk := by
  have hnot : ¬ (check signer s c).Panics := by
    intro hpanic
    rw [show (check signer s c).run = none from hpanic] at hr
    cases hr
  rcases Commit.check_ok_iff.mp ⟨r, (check_refines signer s c _ hr).symm⟩ with ⟨us, hopens, _⟩
  refine ⟨?_, hopens.admitted, fun pu hpu => publicKey_of_converted hopens.converted hpu⟩
  by_contra hmax
  exact hnot ((check_panics h hc).mpr (.inl ⟨hopens.admitted, Nat.not_lt.mp hmax⟩))

/-- A receiver panics in its checks, or after them when a path update is too
deep. -/
theorem process_panics {s : CocoaSession P} {c : Commit P} {signer : P.IdentityPublicKey}
    (h : WellFormed s.tree) (hc : c.InRange) :
    (process signer s c).Panics ↔ (check signer s c).Panics ∨
      (∃ r, (check signer s c).run = some (.ok r)) ∧
        ∃ pu ∈ c.pathUpdates, 64 ≤ pu.nodeIndex.depth := by
  have hpos : ∀ pu ∈ c.pathUpdates, pu.nodeIndex.position < 2 ^ 32 := fun pu hpu =>
    (hc.pathUpdates pu hpu).position
  rw [← exists_and_right]
  cases c with
  | add c =>
    have hn : c.newLeafPosition < 2 ^ 32 := hc.leafPositions _ (by simp [Commit.leafPositions])
    refine panics_bind.trans (or_congr Iff.rfl (exists_congr fun r => and_congr_right fun hr => ?_))
    rcases ready_of_check h hc hr with ⟨hepoch, hadmitted, hkeys⟩
    show (arith (growIfNeeded s.tree (c.newLeafPosition + 1)) >>= _).Panics ↔ _
    rw [growIfNeeded_of_wellFormed h, arith_some, returns_ok_bind]
    refine writes_panic_iff hepoch hkeys hpos ?_
    have hleaf := shallow_leaf (h.growIfNeeded hadmitted.2.1.treeDepth_le) hn
    rw [markMemberAsUnmerged_of_shallow, arith_some, returns_ok_bind, advanceEpoch_of_lt,
      arith_some, returns_ok_bind, panics_pure]
    · exact id
    · exact hepoch
    · rw [show (Cocoa.updateTreeFromPathUpdates _ _ _ _).tree.treeDepth = _ from
        congrArg Prod.fst (CocoaSession.shape_updateTreeFromPathUpdates _ _ _ _)]
      exact hleaf
  | update c =>
    have hp : c.updaterLeafPosition < 2 ^ 32 := hc.leafPositions _ (by simp [Commit.leafPositions])
    refine panics_bind.trans (or_congr Iff.rfl (exists_congr fun r => and_congr_right fun hr => ?_))
    rcases ready_of_check h hc hr with ⟨hepoch, _, hkeys⟩
    refine writes_panic_iff hepoch hkeys hpos ?_
    rw [clearUnmergedOnPath_of_shallow, arith_some, returns_ok_bind, advanceEpoch_of_lt, arith_some,
      panics_returns]
    · exact id
    · exact hepoch
    · rw [show (Cocoa.updateTreeFromPathUpdates _ _ _ _).tree.treeDepth = _ from
        congrArg Prod.fst (CocoaSession.shape_updateTreeFromPathUpdates _ _ _ _)]
      exact shallow_leaf h hp
  | remove c =>
    have hr' : c.removedLeafPosition < 2 ^ 32 := hc.leafPositions _ (by simp [Commit.leafPositions])
    refine panics_bind.trans (or_congr Iff.rfl (exists_congr fun r => and_congr_right fun hr => ?_))
    rcases ready_of_check h hc hr with ⟨hepoch, _, hkeys⟩
    rw [modifyState_of_shallow (shallow_leaf h hr'), arith_some, returns_ok_bind]
    refine writes_panic_iff hepoch hkeys hpos ?_
    rw [advanceEpoch_of_lt, arith_some, returns_ok_bind, panics_pure]
    · exact id
    · exact hepoch

end Machine

theorem WellFormed.target {s : CocoaSession P} {c : Commit P} (h : WellFormed s.tree)
    (ha : c.Admitted s) : WellFormed (c.target s) := by
  cases c with
  | add c => exact h.growIfNeeded ha.2.1.treeDepth_le
  | update c => exact h
  | remove c => exact h.blankNode _

/-- A parsed update has the index of an update of the wire. -/
theorem mem_nodeIndex_of_converted {pus : List PathUpdate} {us : List (NodeUpdate P)}
    (h : convertPathUpdatesToNodeUpdates P pus = .ok us) (i : NodeIndex) :
    (∃ u ∈ us, u.nodeIndex = i) ↔ ∃ pu ∈ pus, pu.nodeIndex = i := by
  have hmem : i ∈ us.map (·.nodeIndex) ↔ i ∈ pus.map (·.nodeIndex) := by
    rw [nodeIndex_of_converted h]
  rwa [List.mem_map, List.mem_map] at hmem

theorem verifyParentHashes_verifiedBefore {t : PartialTreeView P} {us : List (NodeUpdate P)}
    (h : verifyParentHashes t us = .ok ()) (k : Nat) :
    verifyParentHashes t (verifiedBefore us k) = .ok () := by
  unfold verifiedBefore
  split
  · exact h
  · exact verifyLevels_take h k

namespace Machine

open MachineM

/-- The checks of a receiver reach the update at the leaf only in the writes, and
those above it when they verify the parent hashes. -/
theorem verifyParentHashes_panics {s : CocoaSession P} {c : Commit P}
    {signer : P.IdentityPublicKey} (h : WellFormed s.tree) (hc : c.InRange)
    {us : List (NodeUpdate P)} (hopens : c.Opens s signer us) :
    (verifyParentHashes (c.target s) us).Panics ↔
      ∃ k u, us[k]? = some u ∧ k ≠ 0 ∧ 64 ≤ u.nodeIndex.depth ∧
        Cocoa.verifyParentHashes (c.target s) (verifiedBefore us k) = .ok () := by
  have hpos : ∀ u ∈ us, u.nodeIndex.position < 2 ^ 32 := by
    intro u hu
    rcases (mem_nodeIndex_of_converted hopens.converted _).mp ⟨u, hu, rfl⟩ with ⟨pu, hpu, hindex⟩
    rw [← hindex]
    exact (hc.pathUpdates pu hpu).position
  unfold verifyParentHashes
  rw [verifyLevels_panics (h.target hopens.admitted) hpos]
  refine exists_congr fun k => exists_congr fun u => and_congr_right fun _ => ?_
  rw [Nat.zero_add]
  refine and_congr_right fun hk => and_congr_right fun _ => ?_
  rw [verifiedBefore, if_neg hk]
  rfl

/-- A commit is accepted when the checks pass over unbounded numbers, and do not
panic. -/
theorem check_run_ok {s : CocoaSession P} {c : Commit P} {signer : P.IdentityPublicKey}
    (hnot : ¬ (check signer s c).Panics) {us : List (NodeUpdate P)} (hopens : c.Opens s signer us)
    (hverify : Cocoa.verifyParentHashes (c.target s) us = .ok ()) :
    ∃ r, (check signer s c).run = some (.ok r) := by
  rcases Commit.check_ok_iff.mpr ⟨us, hopens, hverify⟩ with ⟨r, hr⟩
  refine ⟨r, ?_⟩
  rw [eq_returns (check_refines signer s c) hnot, hr]
  rfl

/-- A receiver with a well-formed tree panics at the commits that are not safe,
and at no others. -/
theorem process_safe_iff {s : CocoaSession P} {c : Commit P} {signer : P.IdentityPublicKey}
    (h : WellFormed s.tree) (hc : c.InRange) :
    ¬ (process signer s c).Panics ↔ c.Safe s signer := by
  rw [process_panics h hc]
  constructor
  · intro hnot
    have hchecks : ¬ (check signer s c).Panics := fun hpanic => hnot (.inl hpanic)
    have hepoch : c.Admitted s → s.epochNumber + 1 < 2 ^ 64 := by
      intro ha
      by_contra hmax
      exact hchecks ((check_panics h hc).mpr (.inl ⟨ha, Nat.not_lt.mp hmax⟩))
    refine ⟨hepoch, fun us hopens k u hu hverify => ?_⟩
    by_contra hdeep
    by_cases hk : k = 0
    · -- At the leaf the checks go through, and the writes panic.
      rw [verifiedBefore, if_pos hk] at hverify
      have hmem : u ∈ us := List.mem_of_getElem? hu
      rcases (mem_nodeIndex_of_converted hopens.converted _).mp ⟨u, hmem, rfl⟩
        with ⟨pu, hpu, hindex⟩
      refine hnot (.inr ⟨check_run_ok hchecks hopens hverify, pu, hpu, ?_⟩)
      rw [hindex]
      exact Nat.not_lt.mp hdeep
    · refine hchecks ((check_panics h hc).mpr (.inr ⟨hepoch hopens.admitted, us, hopens, ?_⟩))
      exact (verifyParentHashes_panics h hc hopens).mpr ⟨k, u, hu, hk, Nat.not_lt.mp hdeep, hverify⟩
  · rintro hsafe (hpanic | ⟨⟨r, hr⟩, pu, hpu, hdeep⟩)
    · rcases (check_panics h hc).mp hpanic with ⟨ha, hmax⟩ | ⟨_, us, hopens, hlevels⟩
      · exact absurd (hsafe.epoch_lt ha) (Nat.not_lt.mpr hmax)
      · rcases (verifyParentHashes_panics h hc hopens).mp hlevels with ⟨k, u, hu, _, hd, hverify⟩
        exact absurd (hsafe.depth_lt us hopens k u hu hverify) (Nat.not_lt.mpr hd)
    · rcases Commit.check_ok_iff.mp ⟨r, (check_refines signer s c _ hr).symm⟩ with
        ⟨us, hopens, hverify⟩
      rcases (mem_nodeIndex_of_converted hopens.converted _).mpr ⟨pu, hpu, rfl⟩
        with ⟨u, hmem, hindex⟩
      rcases List.getElem?_of_mem hmem with ⟨k, hu⟩
      have hlt := hsafe.depth_lt us hopens k u hu (verifyParentHashes_verifiedBefore hverify k)
      rw [hindex] at hlt
      exact absurd hlt (Nat.not_lt.mpr hdeep)

end Machine

/-! ## Welcomes -/

/-- The welcome passes the checks before the ones of its tree info, and seals the
given bytes. -/
structure Welcome.Opens (w : Welcome P) (kem : P.KeyPair) (committer : P.IdentityPublicKey)
    (plaintext : Bytes) : Prop where
  withinLimits : WithinLimits (w.encryptedInfo.length + w.encapsulation.length) 0 w.treeDepth
    w.memberCount 0
  signed : P.verifyWithContext committer (welcomeSignBody w.groupId w.epoch w.leafPosition
    w.treeDepth w.memberCount w.encapsulation w.encryptedInfo) welcomeSignContext w.signature =
      .ok ()
  sealed : ∃ encapsulation sharedSecret nonce,
    P.encapsulationFromBytes w.encapsulation = .ok encapsulation ∧
    P.decapsulate kem encapsulation = .ok sharedSecret ∧
    nonce.val = w.encryptedInfo.take 24 ∧
    P.decryptCommitting (deriveWelcomeKey P sharedSecret) nonce (w.encryptedInfo.drop 24)
      w.groupId.val = .ok plaintext
  length_le : welcomeInfoPlaintextSize ≤ plaintext.length

/-- No node of the tree info of a welcome is at depth 64 or more, unless the
welcome is refused before. -/
def Welcome.Safe (w : Welcome P) (kem : P.KeyPair) (committer : P.IdentityPublicKey) : Prop :=
  ∀ plaintext, w.Opens kem committer plaintext →
    ∀ nodes, parseWelcomeTreeInfo P (plaintext.drop welcomeInfoPlaintextSize) = .ok nodes →
      ∀ node ∈ nodes, node.nodeIndex.depth < 64

/-- The checks in the order of `process_welcome`. -/
theorem Welcome.exists_opens {w : Welcome P} {kem : P.KeyPair} {committer : P.IdentityPublicKey}
    {Q : Bytes → Prop} :
    (∃ plaintext, w.Opens kem committer plaintext ∧ Q plaintext) ↔
      WithinLimits (w.encryptedInfo.length + w.encapsulation.length) 0 w.treeDepth w.memberCount 0 ∧
      ∃ u, P.verifyWithContext committer (welcomeSignBody w.groupId w.epoch w.leafPosition
        w.treeDepth w.memberCount w.encapsulation w.encryptedInfo) welcomeSignContext w.signature =
          .ok u ∧
      ∃ encapsulation, P.encapsulationFromBytes w.encapsulation = .ok encapsulation ∧
      ∃ sharedSecret, P.decapsulate kem encapsulation = .ok sharedSecret ∧
      24 ≤ w.encryptedInfo.length ∧
      ∃ nonce, toArray 24 (w.encryptedInfo.take 24) .malformedMessage = .ok nonce ∧
      ∃ plaintext, P.decryptCommitting (deriveWelcomeKey P sharedSecret) nonce
        (w.encryptedInfo.drop 24) w.groupId.val = .ok plaintext ∧
      welcomeInfoPlaintextSize ≤ plaintext.length ∧ Q plaintext := by
  simp only [toArray_eq_ok]
  constructor
  · rintro ⟨plaintext, ⟨hlim, hsig, ⟨encapsulation, secret, nonce, hencap, hsecret, hnonce, hopen⟩,
      hlen⟩, hq⟩
    have hinfo := congrArg List.length hnonce
    rw [FixedBytes.length_coe, List.length_take] at hinfo
    exact ⟨hlim, (), hsig, encapsulation, hencap, secret, hsecret, by omega, nonce, hnonce.symm,
      plaintext, hopen, hlen, hq⟩
  · rintro ⟨hlim, _, hsig, encapsulation, hencap, secret, hsecret, _, nonce, hnonce,
      plaintext, hopen, hlen, hq⟩
    exact ⟨plaintext, ⟨hlim, hsig, ⟨encapsulation, secret, nonce, hencap, hsecret,
      hnonce.symm, hopen⟩, hlen⟩, hq⟩

/-- The numbers of a tree info are those of four bytes. -/
theorem position_lt_of_parsed {n : Nat} {bytes : Bytes} {nodes : List (NodeUpdate P)}
    (h : parseWelcomeTreeInfoAux P n bytes = .ok nodes) :
    ∀ node ∈ nodes, node.nodeIndex.position < 2 ^ 32 := by
  induction n generalizing bytes nodes with
  | zero =>
    cases h
    simp
  | succ n ih =>
    rw [parseWelcomeTreeInfoAux] at h
    split at h
    · cases h
      simp
    · simp only [Except.bind_eq_ok] at h
      rcases h with ⟨_, _, h⟩
      split at h
      · simp only [Except.bind_eq_ok, Except.pure_eq_ok] at h
        rcases h with ⟨_, _, _, _, _, _, _, _, _, _, _, hrest, rfl⟩
        rw [List.forall_mem_cons]
        refine ⟨?_, ih hrest⟩
        have hlen : ((bytes.drop 4).take 4).length ≤ 4 := List.length_take_le _ _
        exact lt_of_lt_of_le (leValue_lt _) (Nat.pow_le_pow_right (by decide) hlen)
      · exact ih h

namespace Machine

open MachineM

/-- The advances of a joiner end at the epoch of its welcome. -/
theorem advanceTimes_of_le {transcript : Bytes32} {n : Nat} {s : CocoaSession P}
    (h : s.epochNumber + n < 2 ^ 64) : ∃ s', advanceTimes transcript n s = some s' := by
  induction n generalizing s with
  | zero => exact ⟨s, rfl⟩
  | succ n ih =>
    rw [advanceTimes, advanceEpoch_of_lt (by omega), Option.bind_eq_bind, Option.bind_some]
    apply ih
    show s.epochNumber + 1 + n < 2 ^ 64
    omega

/-- The verifier of a tree info panics at a node that is too deep. -/
theorem verifyWelcomeTreeInfo_panics {nodes : List (NodeUpdate P)} {treeDepth : Nat}
    (hpos : ∀ node ∈ nodes, node.nodeIndex.position < 2 ^ 32) :
    (verifyWelcomeTreeInfo nodes treeDepth).Panics ↔ ∃ node ∈ nodes, 64 ≤ node.nodeIndex.depth := by
  have haddr : (∃ i ∈ nodes.map (·.nodeIndex), ¬ Addressable i) ↔
      ∃ node ∈ nodes, 64 ≤ node.nodeIndex.depth := by
    simp only [List.mem_map, exists_exists_and_eq_and]
    refine exists_congr fun node => and_congr_right fun hnode => ?_
    rw [addressable_iff (hpos node hnode), Nat.not_lt]
  unfold verifyWelcomeTreeInfo
  rw [lookups_eq]
  by_cases hdeep : ∃ node ∈ nodes, 64 ≤ node.nodeIndex.depth
  · rw [if_pos (haddr.mpr hdeep)]
    exact iff_of_true rfl hdeep
  · rw [if_neg (mt haddr.mp hdeep), arith_some, returns_ok_bind]
    refine iff_of_false (not_panics_forM fun (node : NodeUpdate P) hnode => ?_) hdeep
    have hshallow : Shallow node.nodeIndex :=
      ⟨Nat.not_le.mp fun hd => hdeep ⟨node, hnode, hd⟩, hpos node hnode⟩
    split
    · simp
    · cases hs : node.nodeIndex.sibling with
      | none => simp
      | some sibling =>
        simp only [toLinear_eq, if_pos (hshallow.sibling hs).addressable, arith_some,
          returns_ok_bind]
        split <;> simp

/-- What is left of `process_welcome` behind the opened bytes. -/
theorem treeInfo_panics {info transcript} {w : Welcome P} {session : CocoaSession P}
    (hlen : info.length < 2 ^ 64) (hepoch : session.epochNumber + w.epoch < 2 ^ 64) :
    (if info.isEmpty then (arith (advanceTimes transcript w.epoch session) : MachineM CryptoError _)
      else do
        let nodes ← parseWelcomeTreeInfo P info
        verifyWelcomeTreeInfo nodes w.treeDepth
        arith (advanceTimes transcript w.epoch session)).Panics ↔
      ∃ nodes, Cocoa.parseWelcomeTreeInfo P info = .ok nodes ∧
        ∃ node ∈ nodes, 64 ≤ node.nodeIndex.depth := by
  have hadvances : ∃ s', advanceTimes transcript w.epoch session = some s' :=
    advanceTimes_of_le hepoch
  rcases hadvances with ⟨s', hadvance⟩
  rw [hadvance]
  split
  · next hempty =>
    rw [List.isEmpty_iff.mp hempty]
    refine iff_of_false (by simp) ?_
    rintro ⟨nodes, hnodes, node, hnode, _⟩
    cases hnodes
    cases hnode
  · rw [parseWelcomeTreeInfo, parseWelcomeTreeInfoAux_eq hlen, panics_returns_bind]
    refine exists_congr fun nodes => and_congr_right fun hnodes => ?_
    rw [arith_some, panics_bind, verifyWelcomeTreeInfo_panics (position_lt_of_parsed hnodes)]
    simp

/-- A joiner panics in the check of the tree info, and only there. -/
theorem processWelcome_panics (hsize : P.SizedAead) {userId : UserId} {kem : P.KeyPair}
    {w : Welcome P} {committer : P.IdentityPublicKey} (hepoch : w.epoch < 2 ^ 64) :
    (processWelcome userId kem w committer).Panics ↔
      ∃ plaintext, w.Opens kem committer plaintext ∧
        ∃ nodes,
          Cocoa.parseWelcomeTreeInfo P (plaintext.drop welcomeInfoPlaintextSize) = .ok nodes ∧
          ∃ node ∈ nodes, 64 ≤ node.nodeIndex.depth := by
  rw [Welcome.exists_opens]
  unfold processWelcome
  simp only [panics_returns_bind, checkSizeLimits_eq_ok, rejectIf_eq_ok, Nat.not_lt, exists_const]
  refine and_congr_right fun hlim => exists_congr fun _ => and_congr_right fun _ => ?_
  refine exists_congr fun encapsulation => and_congr_right fun _ => ?_
  refine exists_congr fun secret => and_congr_right fun _ => and_congr_right fun hinfo => ?_
  rw [Option.bind_eq_bind, arith_copy_eq .malformedMessage (show 24 = 0 + 24 from rfl) hinfo,
    panics_returns_bind]
  refine exists_congr fun nonce => and_congr_right fun _ => ?_
  rw [slice_of_le hinfo le_rfl, ← List.length_drop, List.take_length, arith_some, returns_ok_bind,
    panics_returns_bind]
  refine exists_congr fun plaintext => and_congr_right fun hopen => ?_
  rw [panics_returns_bind]
  simp only [rejectIf_eq_ok, Nat.not_lt, exists_const]
  refine and_congr_right fun hplain => ?_
  have hinfo' : (plaintext.drop welcomeInfoPlaintextSize).length < 2 ^ 64 := by
    have hle := hsize.length_le hopen
    have hmax := hlim.messageLen_le
    simp only [List.length_drop, maxMessageSize] at hle hmax ⊢
    omega
  rcases exists_copy (show 32 = 0 + 32 from rfl) (Nat.le_trans (by decide) hplain) with
    ⟨epochSecret, hsecret⟩
  rcases exists_copy (show welcomeInfoPlaintextSize = 32 + 32 from rfl) hplain with
    ⟨transcriptHash, htranscript⟩
  rw [Option.bind_eq_bind, hsecret, arith_some, returns_ok_bind, htranscript, arith_some,
    returns_ok_bind, slice_of_le hplain le_rfl, ← List.length_drop, List.take_length, arith_some,
    returns_ok_bind]
  refine treeInfo_panics hinfo' ?_
  show 0 + w.epoch < 2 ^ 64
  rwa [Nat.zero_add]

/-- A joiner panics at the welcomes that are not safe, and at no others. -/
theorem processWelcome_safe_iff (hsize : P.SizedAead) {userId : UserId} {kem : P.KeyPair}
    {w : Welcome P} {committer : P.IdentityPublicKey} (hepoch : w.epoch < 2 ^ 64) :
    ¬ (processWelcome userId kem w committer).Panics ↔ w.Safe kem committer := by
  rw [processWelcome_panics hsize hepoch]
  simp only [Welcome.Safe, not_exists, not_and, Nat.not_le]

end Machine

/-- With a well-formed tree, the receivers of commits and of welcomes panic
exactly at the messages that are not safe. -/
theorem receivers_never_panic_iff (hsize : P.SizedAead) {s : CocoaSession P}
    {signer : P.IdentityPublicKey} {c : Commit P} (h : WellFormed s.tree) (hc : c.InRange)
    {userId : UserId} {kem : P.KeyPair} {w : Welcome P} {committer : P.IdentityPublicKey}
    (hepoch : w.epoch < 2 ^ 64) :
    (¬ (Machine.process signer s c).Panics ↔ c.Safe s signer) ∧
      (¬ (Machine.processWelcome userId kem w committer).Panics ↔ w.Safe kem committer) :=
  ⟨Machine.process_safe_iff h hc, Machine.processWelcome_safe_iff hsize hepoch⟩

section Sample

open Symbolic

/-- The fields of an update of one node are those of its index. -/
theorem oneNodeUpdate_inRange {s : CocoaSession symbolic} {index : NodeIndex} {n recipient : Nat}
    (hdepth : index.depth < 2 ^ 32) (hposition : index.position < 2 ^ 32) :
    (Commit.update (oneNodeUpdate s index n recipient)).InRange := by
  refine ⟨fun pu hpu => ?_, fun p hp => ?_⟩
  · rw [List.mem_singleton.mp hpu]
    refine ⟨hdepth, hposition, fun e he => ?_⟩
    change e ∈ sealedTo n recipient index at he
    unfold sealedTo at he
    split at he
    · rw [List.mem_singleton.mp he]
      exact hposition
    · cases he
  · rw [List.mem_singleton.mp hp]
    show 1 < 2 ^ 32
    decide

/-- The creator of a group of three can receive an update of the root, and the
member at leaf 1 can join by its welcome. -/
theorem receivers_never_panic_root :
    ∃ s w welcomes, threeMembers = .ok (s, w :: welcomes) ∧
      (Commit.update (oneNodeUpdate s .root 500 10)).Safe s (word 50) ∧
      w.Safe (keyPair 11) (word 60) := by
  have hrun : okWith threeMembers fun created => match created.2 with
      | w :: _ => ¬ (Machine.process (word 50) created.1
          (.update (oneNodeUpdate created.1 .root 500 10))).Panics ∧
        ¬ (Machine.processWelcome (word 1) (keyPair 11) w (word 60)).Panics ∧ w.epoch = 0
      | [] => false := by
    decide +kernel
  rcases okWith_eq_true.mp hrun with ⟨⟨s, welcomes⟩, hcreate, htest⟩
  rcases welcomes with _ | ⟨w, welcomes⟩
  · cases htest
  · rcases of_decide_eq_true htest with ⟨hcommit, hwelcome, hepoch⟩
    rcases threeMembers_ok with ⟨_, hthree⟩
    have hs : s = member 0 10 (tree 2 3 []) := by
      rw [hthree] at hcreate
      exact (congrArg Prod.fst (Except.ok.inj hcreate)).symm
    have hwf : WellFormed s.tree := by
      rw [hs]
      exact WellFormed.new (by decide)
    have hiff : (¬ (Machine.process (word 50) s
          (.update (oneNodeUpdate s .root 500 10))).Panics ↔ _) ∧
        (¬ (Machine.processWelcome (word 1) (keyPair 11) w (word 60)).Panics ↔ _) :=
      receivers_never_panic_iff sizedAead hwf (oneNodeUpdate_inRange (by decide) (by decide))
        (by rw [hepoch]; decide)
    exact ⟨s, w, welcomes, hcreate, hiff.1.mp hcommit, hiff.2.mp hwelcome⟩

/-- An update of a node at depth 64, signed and sealed to the creator of a group
of three.  The checks accept it, and its write panics. -/
theorem update_overflows :
    ∃ s welcomes, threeMembers = .ok (s, welcomes) ∧ WellFormed s.tree ∧
      (Commit.update (oneNodeUpdate s ⟨64, 0⟩ 500 10)).InRange ∧
      verifyCommitSignature (P := symbolic) (word 50)
        ((oneNodeUpdate s ⟨64, 0⟩ 500 10).content (word 50))
        (oneNodeUpdate s ⟨64, 0⟩ 500 10).signature = .ok () ∧
      (Machine.process (word 50) s (.update (oneNodeUpdate s ⟨64, 0⟩ 500 10))).Panics := by
  rcases threeMembers_ok with ⟨welcomes, hcreate⟩
  have hrun : okWith (verifyCommitSignature (P := symbolic) (word 50)
      ((oneNodeUpdate (member 0 10 (tree 2 3 [])) ⟨64, 0⟩ 500 10).content (word 50))
      (oneNodeUpdate (member 0 10 (tree 2 3 [])) ⟨64, 0⟩ 500 10).signature) fun _ =>
        (Machine.process (word 50) (member 0 10 (tree 2 3 []))
          (.update (oneNodeUpdate (member 0 10 (tree 2 3 [])) ⟨64, 0⟩ 500 10))).Panics := by
    decide +kernel
  rcases okWith_eq_true.mp hrun with ⟨_, hsig, hpanic⟩
  exact ⟨_, welcomes, hcreate, WellFormed.new (by decide),
    oneNodeUpdate_inRange (by decide) (by decide), hsig, of_decide_eq_true hpanic⟩

end Sample

end Trelis.Cocoa
