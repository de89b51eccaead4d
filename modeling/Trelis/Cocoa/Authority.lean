import Trelis.Cocoa.LeafAssignment

/-!
# Who signed a commit

The caller of a receiver names the identity that it takes for the signer.  An
accepted commit is signed by that identity, and the signature covers the user id
of the identity and the leaf that the committer claims
(`accepted_commit_author`).  The leaf is below the member count and not one that
the view holds as blank.

The registry is not consulted, and it has no leaves: whether the signer is a
member, and whether the leaf is its own, is for the caller to know.
-/

namespace Trelis.Cocoa

variable {P : Primitives}

namespace Commit

/-- The content that a commit is signed over. -/
def content (signer : P.IdentityPublicKey) : Commit P → CommitContent
  | add c => c.content signer
  | update c => c.content signer
  | remove c => c.content signer

def signature : Commit P → P.Signature
  | add c => c.signature
  | update c => c.signature
  | remove c => c.signature

/-- The tree in which a receiver looks up the committer's leaf. -/
def view (s : CocoaSession P) : Commit P → PartialTreeView P
  | add c => s.tree.growIfNeeded (c.newLeafPosition + 1)
  | update _ => s.tree
  | remove _ => s.tree

end Commit

/-- An accepted commit is signed by the identity that the caller names, for this
group and the next epoch, over the user id of that identity and the committer's
leaf; the leaf is below the member count, and the view does not hold it as
blank. -/
theorem accepted_commit_author {s s' : CocoaSession P} {c : Commit P}
    {signer : P.IdentityPublicKey} (h : c.process signer s = .ok () s') :
    verifyCommitSignature signer (c.content signer) c.signature = .ok () ∧
      (c.content signer).groupId = s.groupId ∧
      (c.content signer).epoch = s.epochNumber + 1 ∧
      (c.content signer).committerUserId = deriveUserIdFromIdentity signer ∧
      (c.content signer).committerLeafPosition < s.memberCount ∧
      ∀ node, (c.view s).get
          (.leaf (c.view s).treeDepth (c.content signer).committerLeafPosition) = some node →
        node.state.isPopulated := by
  cases c with
  | add c =>
    rcases processAdd_eq_ok.mp h with ⟨_, _, hcheck, _⟩
    rcases (checkAdd_eq_ok rfl).mp hcheck with ⟨_, _, _, _, hc, _⟩
    exact ⟨hc.signed, hc.groupId_eq, hc.epoch_eq, rfl, hc.committer_lt, hc.committer_not_blank⟩
  | update c =>
    rcases processUpdate_eq_ok.mp h with ⟨_, _, hcheck, _⟩
    rcases checkUpdate_eq_ok.mp hcheck with ⟨_, _, hc, _⟩
    exact ⟨hc.signed, hc.groupId_eq, hc.epoch_eq, rfl, hc.committer_lt, hc.committer_not_blank⟩
  | remove c =>
    rcases processRemove_eq_ok.mp h with ⟨_, _, hcheck, _⟩
    rcases checkRemove_eq_ok.mp hcheck with ⟨_, _, _, hc, _⟩
    exact ⟨hc.signed, hc.groupId_eq, hc.epoch_eq, rfl, hc.committer_lt, hc.committer_not_blank⟩

section Sample

open Symbolic

/-- The identity that signs the sample commits. -/
private def outsider : symbolic.IdentityPublicKey := word 50

theorem accepted_commit_author_add :
    verifyCommitSignature outsider ((Commit.add (addWithoutPath 3)).content outsider)
      (Commit.add (addWithoutPath 3)).signature = .ok () := by
  have hrun : okAnd (processAdd (addWithoutPath 3) (word 50) (member 0 10 (tree 2 3 []))) fun _ _ =>
      true := by
    decide +kernel
  rcases okAnd_eq_true.mp hrun with ⟨_, s', h, _⟩
  have hprocess : (Commit.add (addWithoutPath 3)).process outsider (member 0 10 (tree 2 3 [])) =
      .ok () s' := h
  exact (accepted_commit_author hprocess).1

/-- The creator of a group of three accepts an add of someone who is not in the
group, and who claims the leaf of the third member. -/
theorem outsider_accepted :
    ∃ s welcomes s', threeMembers = .ok (s, welcomes) ∧
      processAdd (addWithoutPath 3) outsider s = .ok () s' ∧
      (addWithoutPath 3).committerLeafPosition = 2 ∧
      deriveUserIdFromIdentity outsider ∉ s.members ∧
      ∃ r : Roster symbolic, r.Consistent ∧ r.session = s ∧
        r.current = [(word 0, 0), (word 101, 1), (word 102, 2)] ∧
        ∀ m ∈ r.current, m.1 ≠ deriveUserIdFromIdentity outsider := by
  rcases threeMembers_ok with ⟨welcomes, hcreate⟩
  have hrun : okAnd (processAdd (addWithoutPath 3) (word 50) (member 0 10 (tree 2 3 []))) fun _ _ =>
      true := by
    decide +kernel
  rcases okAnd_eq_true.mp hrun with ⟨_, s', h, _⟩
  refine ⟨_, welcomes, s', hcreate, h, rfl, by decide +kernel,
    ⟨member 0 10 (tree 2 3 []), [(word 0, 0), (word 101, 1), (word 102, 2)]⟩,
    ⟨by decide, by decide⟩, rfl, rfl, by decide +kernel⟩

end Sample

end Trelis.Cocoa
