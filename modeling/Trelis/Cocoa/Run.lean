import Trelis.Lib.Transition
import Trelis.Cocoa.Atomicity
import Trelis.Cocoa.Messaging

/-!
# The runs of one member

A member starts from `createGroup` or from `processWelcome`, and then calls
builders and receives commits.  `MemberStep` is one such call.  A commit that is
rejected changes nothing, so a step receives only what is accepted; a builder
that fails does change something, so it is a step.

`admits` is a condition on the commits that a run accepts, and `MemberStep.mono`
loosens it.  The last part says what a step does to the epoch and to the tree.
-/

namespace Trelis.Cocoa

open PartialTreeView

variable {P : Primitives}

/-- A session that a member starts with: its own new group, or a welcome that
meets the condition. -/
inductive Started (admits : Welcome P → Prop) : CocoaSession P → Prop
  | created {identity kem userId bundles draws s welcomes}
      (h : createGroup identity kem userId bundles draws = .ok (s, welcomes)) : Started admits s
  | welcomed {userId kem welcome committer s}
      (h : processWelcome userId kem welcome committer = .ok s) (hadmits : admits welcome) :
      Started admits s

/-- One call at a member: a builder, whether it succeeds or not, or a commit that
is accepted and that meets the condition. -/
inductive MemberStep (admits : CocoaSession P → Commit P → Prop) :
    CocoaSession P → CocoaSession P → Prop
  | built {op : Operation P} {identity draws m s s'} (h : op.build identity draws s = .ok m s') :
      MemberStep admits s s'
  | failed {op : Operation P} {identity draws e s s'}
      (h : op.build identity draws s = .error e s') : MemberStep admits s s'
  | accepted {c : Commit P} {signer s s'} (h : c.process signer s = .ok () s')
      (hadmits : admits s c) : MemberStep admits s s'

/-- Delivers commits one after another, each made for the session that it
reaches. -/
def deliver (signer : P.IdentityPublicKey) : List (CocoaSession P → Commit P) → SessionM P Unit
  | [] => pure ()
  | commit :: commits => do
    let session ← get
    (commit session).process signer
    deliver signer commits

theorem reachable_deliver {init : CocoaSession P → Prop} {signer : P.IdentityPublicKey}
    {commits : List (CocoaSession P → Commit P)} {s s' : CocoaSession P}
    (hs : Reachable init (MemberStep fun _ _ => True) s)
    (h : deliver signer commits s = .ok () s') :
    Reachable init (MemberStep fun _ _ => True) s' := by
  induction commits generalizing s with
  | nil =>
    rw [deliver, EStateM.pure_eq_ok] at h
    rcases h with ⟨_, rfl⟩
    exact hs
  | cons commit commits ih =>
    simp only [deliver, EStateM.bind_eq_ok, EStateM.get_eq_ok, existsAndEq, and_assoc, true_and,
      exists_and_left] at h
    rcases h with ⟨_, _, hprocess, hrest⟩
    exact ih (hs.next (.accepted hprocess trivial)) hrest

/-! ## Accepted commits -/

/-- An accepted commit moves the session to the next epoch. -/
theorem Commit.advanced {c : Commit P} {signer : P.IdentityPublicKey} {s s' : CocoaSession P}
    (h : c.process signer s = .ok () s') : ∃ delta transcript, Advanced s s' delta transcript := by
  cases c with
  | add c =>
    rcases processAdd_eq_ok.mp h with ⟨delta, transcript, _, rfl⟩
    exact ⟨delta, transcript, applyAdd_advanced ..⟩
  | update c =>
    rcases processUpdate_eq_ok.mp h with ⟨delta, transcript, _, rfl⟩
    exact ⟨delta, transcript, applyUpdate_advanced ..⟩
  | remove c =>
    rcases processRemove_eq_ok.mp h with ⟨delta, transcript, _, rfl⟩
    exact ⟨delta, transcript, applyRemove_advanced ..⟩

/-! ## Builders -/

namespace Operation

/-- The trees that a builder may leave behind, successful or not. -/
inductive LeavesTree (s : CocoaSession P) : Operation P → PartialTreeView P → Prop
  | same {op} : LeavesTree s op s.tree
  | grown {bundle id} :
      LeavesTree s (.add bundle id) (s.tree.growIfNeeded (s.memberCount + 1))
  | counted {bundle id} :
      LeavesTree s (.add bundle id)
        ((s.tree.growIfNeeded (s.memberCount + 1)).setMemberCount (s.memberCount + 1))
  | marked {bundle id} :
      LeavesTree s (.add bundle id)
        (markMemberAsUnmerged (s.grownFor.modifyTree (·.setMemberCount (s.memberCount + 1)))
          s.memberCount).tree
  | blanked {id position} :
      LeavesTree s (.remove id position) (s.tree.blankNode (.leaf s.tree.treeDepth position))

variable {op : Operation P} {identity : P.IdentityKeyPair} {draws : Draws P} {s s' : CocoaSession P}
  {m : Message P} {e : CryptoError}

/-- A builder that succeeds moves to the next epoch. -/
theorem advanced_of_ok (h : op.build identity draws s = .ok m s') :
    ∃ delta transcript, Advanced s s' delta transcript := by
  cases op with
  | add bundle newMemberId =>
    simp only [build, EStateM.bind_eq_ok, EStateM.pure_eq_ok] at h
    rcases h with ⟨⟨c, w⟩, _, hadd, rfl, rfl⟩
    rcases addMember_ok hadd with ⟨_, result, _, _, _, _, _, _, rfl⟩
    refine ⟨result.deltaRoot, h3TranscriptHash P s.transcriptHash c.roundHash, ?_⟩
    constructor <;> simp [markMemberAsUnmerged, CocoaSession.grownFor]
  | update =>
    simp only [build, EStateM.bind_eq_ok, EStateM.pure_eq_ok] at h
    rcases h with ⟨c, _, hcreate, rfl, rfl⟩
    rcases createUpdate_ok hcreate with ⟨_, _, _, _, _, _, _, rfl⟩
    exact ⟨_, _, rfl, rfl, rfl⟩
  | remove removedMemberId removedPosition =>
    simp only [build, EStateM.bind_eq_ok, EStateM.pure_eq_ok] at h
    rcases h with ⟨c, _, hremove, rfl, rfl⟩
    rcases removeMember_ok hremove with ⟨_, _, _, _, _, _, _, rfl⟩
    exact ⟨_, _, rfl, rfl, rfl⟩

theorem leavesTree_of_ok (h : op.build identity draws s = .ok m s') :
    op.LeavesTree s s'.tree ∧ s'.ourLeafPosition = s.ourLeafPosition := by
  cases op with
  | add bundle newMemberId =>
    simp only [build, EStateM.bind_eq_ok, EStateM.pure_eq_ok] at h
    rcases h with ⟨⟨c, w⟩, _, hadd, rfl, rfl⟩
    rcases addMember_ok hadd with ⟨_, _, _, _, _, _, _, _, rfl⟩
    rw [CocoaSession.tree_insertMember, CocoaSession.tree_advanceEpoch]
    refine ⟨.marked, ?_⟩
    simp [markMemberAsUnmerged, CocoaSession.grownFor]
  | update =>
    simp only [build, EStateM.bind_eq_ok, EStateM.pure_eq_ok] at h
    rcases h with ⟨c, _, hcreate, rfl, rfl⟩
    rcases createUpdate_ok hcreate with ⟨_, _, _, _, _, _, _, rfl⟩
    exact ⟨.same, rfl⟩
  | remove removedMemberId removedPosition =>
    simp only [build, EStateM.bind_eq_ok, EStateM.pure_eq_ok] at h
    rcases h with ⟨c, _, hremove, rfl, rfl⟩
    rcases removeMember_ok hremove with ⟨_, _, _, _, _, _, _, rfl⟩
    exact ⟨.blanked, rfl⟩

/-- A builder that fails stays in its epoch. -/
theorem leavesTree_of_error (h : op.build identity draws s = .error e s') :
    op.LeavesTree s s'.tree ∧ s'.ourLeafPosition = s.ourLeafPosition ∧ s'.epoch = s.epoch := by
  have hsession : op.LeavesTree s (op.session s).tree ∧
      (op.session s).ourLeafPosition = s.ourLeafPosition ∧ (op.session s).epoch = s.epoch := by
    cases op with
    | add bundle newMemberId => exact ⟨.grown, rfl, rfl⟩
    | update => exact ⟨.same, rfl, rfl⟩
    | remove removedMemberId removedPosition => exact ⟨.blanked, rfl, rfl⟩
  rcases build_eq_error.mp h with ⟨_, rfl⟩ | ⟨_, _, rfl⟩ |
    ⟨path, _, _, ⟨_, rfl⟩ | ⟨t, hprepare, _, rfl⟩⟩
  · exact ⟨.same, rfl, rfl⟩
  · exact hsession
  · exact hsession
  · cases op with
    | add bundle newMemberId =>
      cases hprepare
      exact ⟨.counted, rfl, rfl⟩
    | update =>
      simp only [prepare, CocoaSession.rotateKeypair, Except.bind_eq_ok,
        Except.pure_eq_ok] at hprepare
      rcases hprepare with ⟨_, _, rfl⟩
      exact ⟨.same, rfl, rfl⟩
    | remove removedMemberId removedPosition =>
      cases hprepare
      exact ⟨.blanked, rfl, rfl⟩

end Operation

end Trelis.Cocoa
