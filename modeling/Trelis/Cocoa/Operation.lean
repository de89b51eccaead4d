import Trelis.Cocoa.Build
import Trelis.Cocoa.Process

/-!
# Operations

The three builders as one: `Operation` is a call of `createUpdate`, `addMember`
or `removeMember`, and `Operation.build` runs it.  `Commit.process` is the
counterpart on the receiving side.

* `Operation.session` is the session that the commit is built in, with the tree
  grown or with the removed leaf blank, and `Operation.recipients` gives the
  recipients of a path node there.
* `Operation.build_ok` says what a successful call did.
* `mem_recipients` says who the recipients are: the nodes of the sibling's
  resolution that are not above the removed leaf, and the newcomer.
-/

namespace Trelis.Cocoa

open PartialTreeView

variable {P : Primitives}

/-- The path updates of a commit. -/
def Commit.pathUpdates : Commit P → List PathUpdate
  | add commit => commit.pathUpdates
  | update commit => commit.pathUpdates
  | remove commit => commit.pathUpdates

/-- What a member sends: a commit, and the welcome of an add. -/
structure Message (P : Primitives) where
  commit : Commit P
  welcome : Option (Welcome P)

/-- A call of one of the three builders. -/
inductive Operation (P : Primitives) where
  | add (bundle : PreKeyBundle P) (newMemberId : UserId)
  | update
  | remove (removedMemberId : UserId) (removedPosition : Nat)

namespace Operation

/-- Runs the builder. -/
def build (identity : P.IdentityKeyPair) (draws : Draws P) : Operation P → SessionM P (Message P)
  | add bundle newMemberId => do
    let built ← addMember identity bundle newMemberId draws
    pure ⟨.add built.1, some built.2⟩
  | update => do
    let commit ← createUpdate identity draws
    pure ⟨.update commit, none⟩
  | remove removedMemberId removedPosition => do
    let commit ← removeMember identity removedMemberId removedPosition draws
    pure ⟨.remove commit, none⟩

/-- The session that the commit is built in. -/
def session (s : CocoaSession P) : Operation P → CocoaSession P
  | add _ _ => s.grownFor
  | update => s
  | remove _ removedPosition => s.blankedFor removedPosition

/-- The leaf of the newcomer and its key. -/
def newcomer (s : CocoaSession P) : Operation P → Option (NodeIndex × P.PublicKey)
  | add bundle _ => some (.leaf s.grownFor.tree.treeDepth s.memberCount, bundle.oneTimeKem)
  | update => none
  | remove _ _ => none

/-- The leaf that is removed. -/
def removedLeaf (s : CocoaSession P) : Operation P → Option NodeIndex
  | add _ _ => none
  | update => none
  | remove _ removedPosition => some (.leaf s.tree.treeDepth removedPosition)

/-- The recipients of a path node, with their keys. -/
def recipients (s : CocoaSession P) : Operation P → NodeIndex → List (NodeIndex × P.PublicKey)
  | add bundle _ =>
    addRecipients s.grownFor.tree bundle (.leaf s.grownFor.tree.treeDepth s.memberCount)
  | update => updateRecipients s.tree
  | remove _ removedPosition =>
    removeRecipients (s.blankedFor removedPosition).tree (.leaf s.tree.treeDepth removedPosition)

/-- What a successful call did: it built a path over its session, and wrote no
key into its own tree. -/
structure Sent (op : Operation P) (identity : P.IdentityKeyPair) (draws : Draws P)
    (s s' : CocoaSession P) (m : Message P) (leafSeed : Seed) (result : PathUpdateResult P) :
    Prop where
  leafSeed_eq : draws.leafSeed = .ok leafSeed
  path : BuiltPath (op.session s).tree (op.recipients s) (op.session s).ourLeafNode leafSeed result
  pathUpdates_eq : m.commit.pathUpdates = result.updates.map NodeUpdate.toWire
  nodes : Agree nodeCell s'.tree (op.session s).tree
  depth_eq : s'.tree.treeDepth = (op.session s).tree.treeDepth
  welcome : ∀ w ∈ m.welcome, ∃ bundle newMemberId session position depth transcript welcomeDraws,
    op = .add bundle newMemberId ∧
      createWelcomeMessage session identity bundle position depth result.deltaRoot transcript
        welcomeDraws = .ok w

section Ok

variable {op : Operation P} {identity : P.IdentityKeyPair} {draws : Draws P} {s s' : CocoaSession P}
  {m : Message P}

theorem build_ok (h : op.build identity draws s = .ok m s') :
    ∃ leafSeed result, op.Sent identity draws s s' m leafSeed result := by
  cases op with
  | add bundle newMemberId =>
    simp only [build, EStateM.bind_eq_ok, EStateM.pure_eq_ok] at h
    rcases h with ⟨⟨c, w⟩, _, hadd, rfl, rfl⟩
    rcases addMember_ok hadd with ⟨leafSeed, result, _, hseed, hpath, hhonest, _, hwelcome, rfl⟩
    refine ⟨leafSeed, result, hseed, hpath, hhonest.pathUpdates_eq, ?_, ?_, ?_⟩
    · rw [CocoaSession.tree_insertMember, CocoaSession.tree_advanceEpoch]
      exact CocoaSession.agree_markMemberAsUnmerged _ _
    · rw [CocoaSession.tree_insertMember, CocoaSession.tree_advanceEpoch]
      exact congrArg Prod.fst (CocoaSession.shape_markMemberAsUnmerged _ _)
    · intro w' hw
      cases hw
      exact ⟨_, _, _, _, _, _, _, rfl, hwelcome⟩
  | update =>
    simp only [build, EStateM.bind_eq_ok, EStateM.pure_eq_ok] at h
    rcases h with ⟨c, _, hcreate, rfl, rfl⟩
    rcases createUpdate_ok hcreate with ⟨leafSeed, result, _, hseed, hpath, hhonest, _, rfl⟩
    exact ⟨leafSeed, result, hseed, hpath, hhonest.pathUpdates_eq, Agree.refl _, rfl, by simp⟩
  | remove removedMemberId removedPosition =>
    simp only [build, EStateM.bind_eq_ok, EStateM.pure_eq_ok] at h
    rcases h with ⟨c, _, hremove, rfl, rfl⟩
    rcases removeMember_ok hremove with ⟨leafSeed, result, _, hseed, hpath, hhonest, _, rfl⟩
    exact ⟨leafSeed, result, hseed, hpath, hhonest.pathUpdates_eq, Agree.refl _, rfl, by simp⟩

/-- The keys of the committer's tree after the call. -/
theorem Sent.keyAt {leafSeed : Seed} {result : PathUpdateResult P}
    (h : op.Sent identity draws s s' m leafSeed result) (i : NodeIndex) :
    s'.tree.keyAt i = (op.session s).tree.keyAt i :=
  h.nodes.toKeyCell.keyAt i

end Ok

/-! ## The recipients -/

theorem mem_computeLj {t : PartialTreeView P} {v i : NodeIndex} :
    i ∈ t.computeLj v t.unmergedLeafNodes ↔
      ∃ sibling, v.sibling = some sibling ∧ i ∈ t.resolve sibling := by
  rw [computeLj_eq_resolve]
  cases v.sibling <;> simp

theorem isInSiblingSubtree_iff {v i : NodeIndex} :
    isInSiblingSubtree v i ↔ ∃ sibling, v.sibling = some sibling ∧ i.Under sibling := by
  unfold isInSiblingSubtree
  cases v.sibling with
  | none => simp
  | some sibling =>
    simp only [Bool.or_eq_true, beq_iff_eq, Option.some.injEq, exists_eq_left',
      NodeIndex.under_iff, or_comm]

theorem mem_updateRecipients {t : PartialTreeView P} {v : NodeIndex} {r : NodeIndex × P.PublicKey} :
    r ∈ updateRecipients t v ↔
      ∃ sibling, v.sibling = some sibling ∧ r.1 ∈ t.resolve sibling ∧ t.keyAt r.1 = some r.2 := by
  rcases r with ⟨i, pk⟩
  simp only [updateRecipients, List.mem_filterMap, mem_computeLj, Option.map_eq_some_iff,
    Prod.mk.injEq]
  constructor
  · rintro ⟨j, ⟨sibling, hs, hj⟩, pk', hpk, rfl, rfl⟩
    exact ⟨sibling, hs, hj, hpk⟩
  · rintro ⟨sibling, hs, hi, hpk⟩
    exact ⟨i, ⟨sibling, hs, hi⟩, pk, hpk, rfl, rfl⟩

theorem mem_removeRecipients {t : PartialTreeView P} {leaf v : NodeIndex}
    {r : NodeIndex × P.PublicKey} :
    r ∈ removeRecipients t leaf v ↔ r ∈ updateRecipients t v ∧ ¬ leaf.Under r.1 := by
  rcases r with ⟨i, pk⟩
  have hnot : ∀ j : NodeIndex, (!(j == leaf || leaf.isDescendantOf j)) = true ↔ ¬ leaf.Under j := by
    intro j
    rw [NodeIndex.under_iff, eq_comm (a := leaf)]
    simp
  simp only [removeRecipients, updateRecipients, List.mem_filterMap, List.mem_filter, hnot,
    Option.map_eq_some_iff, Prod.mk.injEq]
  constructor
  · rintro ⟨j, ⟨hj, hout⟩, pk', hpk, rfl, rfl⟩
    exact ⟨⟨j, hj, pk', hpk, rfl, rfl⟩, hout⟩
  · rintro ⟨⟨j, hj, pk', hpk, rfl, rfl⟩, hout⟩
    exact ⟨j, ⟨hj, hout⟩, pk', hpk, rfl, rfl⟩

/-- The recipients of a path node: the nodes of the resolution of its sibling
that are not above the removed leaf, with their keys, and the newcomer where it
is below the sibling. -/
theorem mem_recipients {op : Operation P} {s : CocoaSession P} {v : NodeIndex}
    {r : NodeIndex × P.PublicKey} :
    r ∈ op.recipients s v ↔ ∃ sibling, v.sibling = some sibling ∧
      ((r.1 ∈ (op.session s).tree.resolve sibling ∧ (op.session s).tree.keyAt r.1 = some r.2 ∧
          ∀ leaf ∈ op.removedLeaf s, ¬ leaf.Under r.1) ∨
        (op.newcomer s = some r ∧ r.1.Under sibling)) := by
  cases op with
  | add bundle newMemberId =>
    have hsplit : r ∈ (add bundle newMemberId).recipients s v ↔
        r ∈ updateRecipients s.grownFor.tree v ∨
          (isInSiblingSubtree v (.leaf s.grownFor.tree.treeDepth s.memberCount) ∧
            r = (.leaf s.grownFor.tree.treeDepth s.memberCount, bundle.oneTimeKem)) := by
      simp only [recipients, addRecipients, updateRecipients, List.mem_append]
      split <;> simp [*]
    rw [hsplit, mem_updateRecipients, isInSiblingSubtree_iff]
    simp only [session, newcomer, removedLeaf, Option.mem_def, reduceCtorEq, false_implies,
      implies_true, and_true, Option.some.injEq]
    constructor
    · rintro (⟨sibling, hs, hr⟩ | ⟨⟨sibling, hs, hu⟩, rfl⟩)
      · exact ⟨sibling, hs, .inl hr⟩
      · exact ⟨sibling, hs, .inr ⟨rfl, hu⟩⟩
    · rintro ⟨sibling, hs, hr | ⟨rfl, hu⟩⟩
      · exact .inl ⟨sibling, hs, hr⟩
      · exact .inr ⟨⟨sibling, hs, hu⟩, rfl⟩
  | update => simp [recipients, mem_updateRecipients, session, newcomer, removedLeaf]
  | remove removedMemberId removedPosition =>
    simp only [recipients, mem_removeRecipients, mem_updateRecipients, session, newcomer,
      removedLeaf, Option.mem_def, Option.some.injEq, forall_eq', reduceCtorEq, false_and, or_false]
    constructor
    · rintro ⟨⟨sibling, hs, hi, hpk⟩, hout⟩
      exact ⟨sibling, hs, hi, hpk, hout⟩
    · rintro ⟨sibling, hs, hi, hpk, hout⟩
      exact ⟨⟨sibling, hs, hi, hpk⟩, hout⟩

end Operation

end Trelis.Cocoa
