import Trelis.Cocoa.Operation
import Trelis.Symbolic

/-!
# What a failed call leaves behind

A receiver validates first and mutates afterwards, so a rejected commit leaves
the session as it was (`rejected_keeps_session`).

A builder mutates in between.  `addMember` grows the tree before it draws its
leaf seed and sets the member count before it signs, `createUpdate` replaces the
key pair before it signs, and `removeMember` blanks the leaf before it draws its
leaf seed.  `Operation.build_eq_error` says where a call can fail and what the
session is then; `FailsClean` is the condition under which every failure leaves
the session as it was (`failed_build_keeps_session_iff`).
-/

namespace Trelis.Cocoa

open PartialTreeView

variable {P : Primitives}

/-! ## Receivers -/

/-- A commit that is rejected leaves the session as it was. -/
theorem rejected_keeps_session {c : Commit P} {signer : P.IdentityPublicKey} {s s' : CocoaSession P}
    {e : CryptoError} (h : c.process signer s = .error e s') : s' = s := by
  rw [← errorOf_eq_some] at h
  cases c with
  | add c =>
    simp only [Commit.process, processAdd, errorOf_get_bind, errorOf_lift_bind, errorOf_set] at h
    split at h
    · cases h
    · cases h; rfl
  | update c =>
    simp only [Commit.process, processUpdate, errorOf_get_bind, errorOf_lift_bind, errorOf_set] at h
    split at h
    · cases h
    · cases h; rfl
  | remove c =>
    simp only [Commit.process, processRemove, errorOf_get_bind, errorOf_lift_bind, errorOf_set] at h
    split at h
    · cases h
    · cases h; rfl

/-- A member at epoch 0 rejects a commit for epoch 8. -/
theorem rejected_keeps_session_epoch :
    ∃ c : AddCommit symbolic, ∃ e s', c.epoch = 8 ∧
      processAdd c (Symbolic.word 50) (Symbolic.member 0 10 (Symbolic.tree 2 3 [])) = .error e s' ∧
      s' = Symbolic.member 0 10 (Symbolic.tree 2 3 []) := by
  have hrun : failsWith (processAdd { Symbolic.addWithoutPath 3 with epoch := 8 } (Symbolic.word 50)
      (Symbolic.member 0 10 (Symbolic.tree 2 3 []))) (.epochMismatch 1 8) := by
    decide +kernel
  rcases failsWith_eq_true.mp hrun with ⟨s', h⟩
  exact ⟨_, _, s', rfl, h,
    rejected_keeps_session (c := .add { Symbolic.addWithoutPath 3 with epoch := 8 }) h⟩

/-! ## Builders -/

namespace Operation

/-- The checks on the arguments, before any change. -/
def precheck (s : CocoaSession P) : Operation P → Result Unit
  | add _ newMemberId => do
    rejectIf (s.isMember newMemberId) .duplicateMember
    rejectIf (s.memberCount + 1 ≥ 2 ^ 32) .treeDepthExceeded
    checkGroupGrowthLimits (s.memberCount + 1)
  | update => pure ()
  | remove _ removedPosition => do
    rejectIf (removedPosition = s.ourLeafPosition) .selfRemovalForbidden
    rejectIf (removedPosition ≥ s.memberCount) .invalidLeafPosition

/-- The recipients of each level of the path, and their keys. -/
def resolution (s : CocoaSession P) (nodes : List NodeIndex) :
    Operation P → List (List NodeIndex) × List (List P.PublicKey)
  | add bundle _ =>
    computeAddResolutionSetsAndKeys s.grownFor.tree nodes bundle s.grownFor.tree.treeDepth
      s.memberCount
  | update => computeResolutionSetsAndKeys s.tree nodes
  | remove _ removedPosition =>
    computeRemoveResolutionSetsAndKeys (s.blankedFor removedPosition).tree nodes removedPosition

/-- The seeds of the path and its updates. -/
def path (s : CocoaSession P) (draws : Draws P) (op : Operation P) :
    Result (List Seed × PathUpdateResult P) := do
  let leafSeed ← draws.leafSeed
  let t := op.session s
  let nodes := pathToRoot t.ourLeafNode
  let pathSeeds := derivePathSeeds P leafSeed nodes.length
  let result ← buildPathUpdatesWithSeeds t.tree.treeDepth t.ourLeafPosition pathSeeds
    (op.resolution s nodes).1 (op.resolution s nodes).2 (computeSiblingLabels t.tree nodes)
    draws.seedCoins
  pure (pathSeeds, result)

/-- The session in which the commit is signed. -/
def prepare (s : CocoaSession P) (draws : Draws P) : Operation P → Result (CocoaSession P)
  | add _ _ => pure (s.grownFor.modifyTree (·.setMemberCount (s.memberCount + 1)))
  | update => s.rotateKeypair draws.keypairCoins
  | remove _ removedPosition => pure (s.blankedFor removedPosition)

/-- The content that the commit is signed over. -/
def content (s : CocoaSession P) (identity : P.IdentityKeyPair) (pathSeeds : List Seed)
    (result : PathUpdateResult P) (op : Operation P) : CommitContent where
  groupId := s.groupId
  epoch := s.epochNumber + 1
  commitType := match op with
    | add _ _ => .add
    | update => .update
    | remove _ _ => .remove
  roundHash := match op with
    | add _ newMemberId => h3RoundHash P (computeRootLabel P pathSeeds) [] [newMemberId]
    | update => h3RoundHash P (computeRootLabel P pathSeeds) [] []
    | remove removedMemberId _ => h3RoundHash P (computeRootLabel P pathSeeds) [removedMemberId] []
  pathUpdatesHash :=
    hashPathUpdates P (serialisePathUpdates (result.updates.map NodeUpdate.toWire))
  committerLeafPosition := s.ourLeafPosition
  committerUserId := deriveUserIdFromIdentity (P.identityPublicKey identity)

/-- The signature, and the welcome of an add. -/
def finish (s : CocoaSession P) (identity : P.IdentityKeyPair) (draws : Draws P)
    (path : List Seed × PathUpdateResult P) (op : Operation P) : Result Unit := do
  let content := op.content s identity path.1 path.2
  let _ ← signCommit identity content draws.signCoins
  match op with
  | add bundle _ => do
    let _ ← createWelcomeMessage (s.grownFor.modifyTree (·.setMemberCount (s.memberCount + 1)))
      identity bundle s.memberCount s.grownFor.tree.treeDepth path.2.deltaRoot
      (h3TranscriptHash P s.transcriptHash content.roundHash)
      ⟨draws.welcomeCoins, draws.welcomeNonce, draws.welcomeSignCoins⟩
    pure ()
  | update => pure ()
  | remove _ _ => pure ()

/-- The steps of a builder that can fail, between the changes that it makes. -/
def fallible (identity : P.IdentityKeyPair) (draws : Draws P) (op : Operation P) :
    SessionM P Unit := do
  let s ← get
  EStateM.lift (op.precheck s)
  set (op.session s)
  let path ← EStateM.lift (op.path s draws)
  let t ← EStateM.lift (op.prepare s draws)
  set t
  EStateM.lift (op.finish s identity draws path)

variable {op : Operation P} {identity : P.IdentityKeyPair} {draws : Draws P} {s s' : CocoaSession P}
  {e : CryptoError}

/-- A builder fails as its fallible steps do. -/
theorem errorOf_build :
    errorOf (op.build identity draws s) = errorOf (op.fallible identity draws s) := by
  cases op with
  | add bundle newMemberId =>
    simp only [build, addMember, fallible, precheck, path, prepare, finish, resolution, session,
      EStateM.lift_bind, EStateM.lift_pure, bind_assoc, pure_bind, errorOf_get_bind,
      errorOf_set_bind, errorOf_lift_bind, errorOf_pure]
    rfl
  | update =>
    simp only [build, createUpdate, fallible, precheck, path, prepare, finish, resolution, session,
      EStateM.lift_bind, EStateM.lift_pure, bind_assoc, pure_bind, errorOf_get_bind,
      errorOf_set_bind, errorOf_lift_bind, errorOf_pure, errorOf_modify_bind]
    rfl
  | remove removedMemberId removedPosition =>
    simp only [build, removeMember, fallible, precheck, path, prepare, finish, resolution, session,
      EStateM.lift_bind, EStateM.lift_pure, bind_assoc, pure_bind, errorOf_get_bind,
      errorOf_set_bind, errorOf_lift_bind, errorOf_pure, errorOf_modify_bind]
    rfl

/-- Where a builder fails, and what it then leaves behind. -/
theorem build_eq_error :
    op.build identity draws s = .error e s' ↔
      (op.precheck s = .error e ∧ s' = s) ∨
      (op.precheck s = .ok () ∧ op.path s draws = .error e ∧ s' = op.session s) ∨
      ∃ path, op.precheck s = .ok () ∧ op.path s draws = .ok path ∧
        ((op.prepare s draws = .error e ∧ s' = op.session s) ∨
          ∃ t, op.prepare s draws = .ok t ∧ op.finish s identity draws path = .error e ∧
            s' = t) := by
  rw [← errorOf_eq_some, errorOf_build]
  simp only [fallible, errorOf_get_bind, errorOf_set_bind, errorOf_lift_bind, errorOf_lift]
  cases op.precheck s with
  | error e' => simp [eq_comm]
  | ok u =>
    cases op.path s draws with
    | error e' => simp [eq_comm]
    | ok path =>
      cases op.prepare s draws with
      | error e' => simp [eq_comm]
      | ok t =>
        cases hfinish : op.finish s identity draws path with
        | error e' =>
          simp only [hfinish, reduceCtorEq, false_and, false_or, true_and, Option.some.injEq,
            Prod.mk.injEq, Except.error.injEq, Except.ok.injEq, existsAndEq, eq_comm]
        | ok u => simp [hfinish]

/-- Every failure of the call comes before the first change, or after a change
that changes nothing. -/
def FailsClean (identity : P.IdentityKeyPair) (draws : Draws P) (s : CocoaSession P)
    (op : Operation P) : Prop :=
  op.precheck s = .ok () →
  match op with
  | add _ _ =>
    (∀ e, op.path s draws = .error e → depthForMembers (s.memberCount + 1) ≤ s.tree.treeDepth) ∧
      ∀ path, op.path s draws = .ok path → op.finish s identity draws path = .ok ()
  | update =>
    ∀ path keypair, op.path s draws = .ok path → P.generate draws.keypairCoins = .ok keypair →
      op.finish s identity draws path = .ok () ∨ keypair = s.ourKeypair
  | remove _ removedPosition =>
    (∃ path, op.path s draws = .ok path ∧ op.finish s identity draws path = .ok ()) ∨
      ∀ node, s.tree.get (.leaf s.tree.treeDepth removedPosition) = some node →
        node.state = .newBlank

end Operation

theorem CocoaSession.modifyTree_eq_iff {s : CocoaSession P}
    {f : PartialTreeView P → PartialTreeView P} : s.modifyTree f = s ↔ f s.tree = s.tree := by
  constructor
  · intro h
    exact congrArg CocoaSession.tree h
  · intro h
    rw [CocoaSession.modifyTree, h]

theorem growIfNeeded_eq_iff {t : PartialTreeView P} {n : Nat} :
    t.growIfNeeded n = t ↔ depthForMembers n ≤ t.treeDepth := by
  unfold growIfNeeded
  split
  · next hgt =>
    refine ⟨fun h => ?_, fun h => absurd hgt (Nat.not_lt.mpr h)⟩
    have hdepth : t.treeDepth + 1 = t.treeDepth := congrArg PartialTreeView.treeDepth h
    omega
  · next hle => exact ⟨fun _ => Nat.not_lt.mp hle, fun _ => rfl⟩

namespace Operation

/-- The failures that leave the session as it was, one step after another. -/
theorem keeps_session_iff {op : Operation P} {identity : P.IdentityKeyPair} {draws : Draws P}
    {s : CocoaSession P} :
    (∀ e s', op.build identity draws s = .error e s' → s' = s) ↔ (op.precheck s = .ok () →
      (∀ e, op.path s draws = .error e → op.session s = s) ∧
        ∀ path, op.path s draws = .ok path →
          (∀ e, op.prepare s draws = .error e → op.session s = s) ∧
            ∀ t, op.prepare s draws = .ok t →
              op.finish s identity draws path = .ok () ∨ t = s) := by
  simp only [build_eq_error]
  constructor
  · intro h hprecheck
    refine ⟨fun e hpath => h e _ (.inr (.inl ⟨hprecheck, hpath, rfl⟩)), fun path hpath => ⟨?_, ?_⟩⟩
    · intro e hprepare
      exact h e _ (.inr (.inr ⟨path, hprecheck, hpath, .inl ⟨hprepare, rfl⟩⟩))
    · intro t hprepare
      cases hfinish : op.finish s identity draws path with
      | ok u => exact .inl rfl
      | error e =>
        exact .inr (h e t (.inr (.inr ⟨path, hprecheck, hpath, .inr ⟨t, hprepare, hfinish, rfl⟩⟩)))
  · rintro h e s' (⟨_, rfl⟩ | ⟨hprecheck, hpath, rfl⟩ |
      ⟨path, hprecheck, hpath, ⟨hprepare, rfl⟩ | ⟨t, hprepare, hfinish, rfl⟩⟩)
    · rfl
    · exact (h hprecheck).1 e hpath
    · exact ((h hprecheck).2 path hpath).1 e hprepare
    · rcases ((h hprecheck).2 path hpath).2 _ hprepare with hok | heq
      · rw [hok] at hfinish
        cases hfinish
      · exact heq

end Operation

/-- A builder that fails leaves the session as it was, exactly under
`FailsClean`. -/
theorem failed_build_keeps_session_iff (op : Operation P) (identity : P.IdentityKeyPair)
    (draws : Draws P) (s : CocoaSession P) :
    (∀ e s', op.build identity draws s = .error e s' → s' = s) ↔
      op.FailsClean identity draws s := by
  rw [Operation.keeps_session_iff]
  apply imp_congr_right
  intro _
  cases op with
  | add bundle newMemberId =>
    have hgrown : s.grownFor = s ↔ depthForMembers (s.memberCount + 1) ≤ s.tree.treeDepth := by
      rw [CocoaSession.grownFor, CocoaSession.modifyTree_eq_iff, growIfNeeded_eq_iff]
    have hcounted : s.grownFor.modifyTree (·.setMemberCount (s.memberCount + 1)) ≠ s := by
      intro h
      have hcount : s.memberCount + 1 = s.memberCount :=
        congrArg CocoaSession.memberCount h
      omega
    simp only [Operation.session, Operation.prepare, Except.pure_eq_ok, forall_eq', hgrown,
      hcounted, or_false]
    refine and_congr_right fun _ => forall_congr' fun path => imp_congr_right fun _ => ?_
    apply and_iff_right
    intro _ h
    cases h
  | update =>
    simp only [Operation.session, implies_true, true_and]
    constructor
    · intro h path keypair hpath hkeypair
      have ht : (s.rotateKeypair draws.keypairCoins) = .ok { s with ourKeypair := keypair } := by
        simp [CocoaSession.rotateKeypair, hkeypair]
      exact (h path hpath _ ht).imp_right fun heq => congrArg CocoaSession.ourKeypair heq
    · intro h path hpath t ht
      simp only [Operation.prepare, CocoaSession.rotateKeypair, Except.bind_eq_ok,
        Except.pure_eq_ok] at ht
      rcases ht with ⟨keypair, hkeypair, rfl⟩
      refine (h path keypair hpath hkeypair).imp_right fun heq => ?_
      rw [heq]
  | remove removedMemberId removedPosition =>
    have hblanked : s.blankedFor removedPosition = s ↔
        ∀ node, s.tree.get (.leaf s.tree.treeDepth removedPosition) = some node →
          node.state = .newBlank := by
      rw [CocoaSession.blankedFor, CocoaSession.modifyTree_eq_iff, blankNode_eq_iff]
    simp only [Operation.session, Operation.prepare, Except.pure_eq_ok, forall_eq', hblanked]
    constructor
    · rintro ⟨hpath, hfinish⟩
      cases hp : Operation.path s draws (.remove removedMemberId removedPosition) with
      | error e => exact .inr (hpath e hp)
      | ok path =>
        exact (hfinish path hp).2.imp_left fun h => ⟨path, rfl, h⟩
    · rintro (⟨path, hpath, hfinish⟩ | hblank)
      · constructor
        · intro e h
          rw [hpath] at h
          cases h
        · intro path' h
          rw [hpath] at h
          cases h
          refine ⟨?_, .inl hfinish⟩
          intro _ h'
          cases h'
      · exact ⟨fun _ _ => hblank, fun _ _ => ⟨fun _ _ => hblank, .inr hblank⟩⟩

section Sample

open Symbolic

/-- No random bytes for the leaf seed. -/
private def noEntropy : Draws symbolic :=
  { draws 500 with leafSeed := .error .rngFailure }

/-- A creator adds a member and cannot draw a leaf seed: its tree stays one level
deeper.  A member removes another one and cannot draw a leaf seed: the leaf
stays blank. -/
theorem failed_build_changes_session :
    (∃ e s', addMember (word 50) ⟨key 90, key 91⟩ (word 9) noEntropy (member 0 10 (tree 0 1 [])) =
      .error e s' ∧ s' ≠ member 0 10 (tree 0 1 [])) ∧
    ∃ e s', removeMember (word 50) (word 9) 1 noEntropy (member 0 10 (tree 1 2 [node ⟨1, 1⟩ 11])) =
      .error e s' ∧ s' ≠ member 0 10 (tree 1 2 [node ⟨1, 1⟩ 11]) := by
  constructor
  · have hrun : failsAnd (addMember (word 50) ⟨key 90, key 91⟩ (word 9) noEntropy
        (member 0 10 (tree 0 1 []))) fun _ s' => s'.tree.treeDepth = 1 := by
      decide +kernel
    rcases failsAnd_eq_true.mp hrun with ⟨e, s', h, htest⟩
    refine ⟨e, s', h, ?_⟩
    rintro rfl
    cases htest
  · have hrun : failsAnd (removeMember (word 50) (word 9) 1 noEntropy
        (member 0 10 (tree 1 2 [node ⟨1, 1⟩ 11]))) fun _ s' => s'.tree.keyAt ⟨1, 1⟩ = none := by
      decide +kernel
    rcases failsAnd_eq_true.mp hrun with ⟨e, s', h, htest⟩
    refine ⟨e, s', h, ?_⟩
    rintro rfl
    revert htest
    decide +kernel

end Sample

end Trelis.Cocoa
