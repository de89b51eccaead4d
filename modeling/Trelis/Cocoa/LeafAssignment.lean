import Trelis.Cocoa.NodeInvariant

/-!
# Leaves and their holders

The adder gives a new member the leaf numbered by its member count.  A receiver
takes the leaf from the commit, where the signature does not cover it, and
counts its members from it.

`Roster` is a session with the current members and the leaves that they were
given.  All of these leaves are below the member count as long as no accepted
add names a lower one (`Commit.Appends`), and a leaf at the member count is
free.
-/

namespace Trelis.Cocoa

variable {P : Primitives}

/-- A session and the current members of its group, each with its leaf. -/
structure Roster (P : Primitives) where
  session : CocoaSession P
  current : List (UserId × Nat)

/-- An add names a leaf at or past the member count. -/
def Commit.Appends (s : CocoaSession P) : Commit P → Prop
  | add c => s.memberCount ≤ c.newLeafPosition
  | update _ => True
  | remove _ => True

namespace Roster

/-- Different members hold different leaves, all below the member count. -/
structure Consistent (r : Roster P) : Prop where
  below : ∀ m ∈ r.current, m.2 < r.session.memberCount
  unique : ∀ m ∈ r.current, ∀ n ∈ r.current, m.2 = n.2 → m.1 = n.1

/-- The members after a commit, with the session after it. -/
def after (r : Roster P) (s' : CocoaSession P) : Commit P → Roster P
  | .add c => ⟨s', (c.newMemberId, c.newLeafPosition) :: r.current⟩
  | .update _ => ⟨s', r.current⟩
  | .remove c => ⟨s', r.current.filter (·.1 ≠ c.removedMemberId)⟩

end Roster

/-- One call at a member: a builder, or a commit that is accepted and that meets
the condition. -/
inductive RosterStep (admits : CocoaSession P → Commit P → Prop) : Roster P → Roster P → Prop
  | built {r s'} {op : Operation P} {identity draws m}
      (h : op.build identity draws r.session = .ok m s') : RosterStep admits r (r.after s' m.commit)
  | failed {r s'} {op : Operation P} {identity draws e}
      (h : op.build identity draws r.session = .error e s') : RosterStep admits r ⟨s', r.current⟩
  | accepted {r s'} {c : Commit P} {signer} (h : c.process signer r.session = .ok () s')
      (hadmits : admits r.session c) : RosterStep admits r (r.after s' c)

/-! ## The member count -/

theorem Operation.LeavesTree.memberCount_le {s : CocoaSession P} {op : Operation P}
    {t : PartialTreeView P} (h : op.LeavesTree s t) : s.memberCount ≤ t.memberCount := by
  cases h with
  | same => exact le_rfl
  | grown => exact (PartialTreeView.memberCount_growIfNeeded _ _).ge
  | counted => exact Nat.le_succ _
  | marked =>
    have hcount := congrArg Prod.snd (CocoaSession.shape_markMemberAsUnmerged
      (s.grownFor.modifyTree (·.setMemberCount (s.memberCount + 1))) s.memberCount)
    exact (Nat.le_succ _).trans_eq hcount.symm
  | blanked => exact le_rfl

/-- The commit of an honest builder appends, and its committer counts its
members as it says. -/
theorem Operation.appends_of_ok {op : Operation P} {identity : P.IdentityKeyPair} {draws : Draws P}
    {s s' : CocoaSession P} {m : Message P} (h : op.build identity draws s = .ok m s') :
    m.commit.Appends s ∧ s'.memberCount = m.commit.newMemberCount s := by
  cases op with
  | add bundle newMemberId =>
    simp only [build, EStateM.bind_eq_ok, EStateM.pure_eq_ok] at h
    rcases h with ⟨⟨c, w⟩, _, hadd, rfl, rfl⟩
    rcases addMember_ok hadd with ⟨_, _, _, _, _, _, ⟨_, hleaf⟩, _, rfl⟩
    refine ⟨hleaf.ge, ?_⟩
    rw [CocoaSession.memberCount, CocoaSession.tree_insertMember, CocoaSession.tree_advanceEpoch,
      Commit.newMemberCount, hleaf]
    exact congrArg Prod.snd (CocoaSession.shape_markMemberAsUnmerged _ _)
  | update =>
    simp only [build, EStateM.bind_eq_ok, EStateM.pure_eq_ok] at h
    rcases h with ⟨c, _, hcreate, rfl, rfl⟩
    rcases createUpdate_ok hcreate with ⟨_, _, _, _, _, _, _, rfl⟩
    exact ⟨trivial, rfl⟩
  | remove removedMemberId removedPosition =>
    simp only [build, EStateM.bind_eq_ok, EStateM.pure_eq_ok] at h
    rcases h with ⟨c, _, hremove, rfl, rfl⟩
    rcases removeMember_ok hremove with ⟨_, _, _, _, _, _, _, rfl⟩
    exact ⟨trivial, rfl⟩

/-! ## The invariant -/

namespace Roster.Consistent

variable {r : Roster P} {s' : CocoaSession P}

/-- No current member holds a leaf at or past the member count. -/
theorem free (h : r.Consistent) {leaf : Nat} (hleaf : r.session.memberCount ≤ leaf) :
    ∀ m ∈ r.current, m.2 ≠ leaf := by
  intro m hm heq
  have hlt := h.below m hm
  omega

theorem after (h : r.Consistent) {c : Commit P} (happends : c.Appends r.session)
    (hcount : s'.memberCount = c.newMemberCount r.session) : (r.after s' c).Consistent := by
  cases c with
  | add c =>
    constructor
    · intro m hm
      show m.2 < s'.memberCount
      rw [hcount]
      rcases List.mem_cons.mp hm with rfl | hm
      · exact Nat.lt_succ_self _
      · exact (h.below m hm).trans_le (happends.trans (Nat.le_succ _))
    · intro m hm n hn heq
      rcases List.mem_cons.mp hm with rfl | hm <;> rcases List.mem_cons.mp hn with rfl | hn
      · rfl
      · exact absurd heq.symm (h.free happends n hn)
      · exact absurd heq (h.free happends m hm)
      · exact h.unique m hm n hn heq
  | update c => exact ⟨fun m hm => (h.below m hm).trans_eq hcount.symm, h.unique⟩
  | remove c =>
    constructor
    · intro m hm
      exact (h.below m (List.mem_of_mem_filter hm)).trans_eq hcount.symm
    · intro m hm n hn
      exact h.unique m (List.mem_of_mem_filter hm) n (List.mem_of_mem_filter hn)

theorem step (h : r.Consistent) {r' : Roster P} (hstep : RosterStep Commit.Appends r r') :
    r'.Consistent := by
  cases hstep with
  | built hbuild =>
    rcases Operation.appends_of_ok hbuild with ⟨happends, hcount⟩
    exact h.after happends hcount
  | failed hbuild =>
    have hcount := (Operation.leavesTree_of_error hbuild).1.memberCount_le
    exact ⟨fun m hm => (h.below m hm).trans_le hcount, h.unique⟩
  | accepted hprocess happends =>
    exact h.after happends (congrArg Prod.snd (Commit.process_tree hprocess).1)

end Roster.Consistent

/-- In a run whose accepted adds append: different current members hold
different leaves, and have no leaf and counter in common to derive a message key
from; and an add, built or accepted, assigns a leaf that no current member
holds. -/
theorem leaves_unique {r : Roster P}
    (h : Reachable Roster.Consistent (RosterStep Commit.Appends) r) :
    (∀ m ∈ r.current, ∀ n ∈ r.current, m.1 ≠ n.1 →
      m.2 ≠ n.2 ∧ ∀ i j : Nat, (r.session.currentEpochSecret, m.2, i) ≠
        (r.session.currentEpochSecret, n.2, j)) ∧
    (∀ identity bundle newMemberId draws c w s',
      addMember identity bundle newMemberId draws r.session = .ok (c, w) s' →
        ∀ m ∈ r.current, m.2 ≠ c.newLeafPosition) ∧
    ∀ c signer s', processAdd c signer r.session = .ok () s' → (Commit.add c).Appends r.session →
      ∀ m ∈ r.current, m.2 ≠ c.newLeafPosition := by
  have hconsistent : r.Consistent :=
    h.invariant (fun _ hstart => hstart) fun _ _ hr hstep => hr.step hstep
  refine ⟨?_, ?_, ?_⟩
  · intro m hm n hn hne
    have hleaf : m.2 ≠ n.2 := fun heq => hne (hconsistent.unique m hm n hn heq)
    refine ⟨hleaf, fun i j heq => hleaf ?_⟩
    exact congrArg (fun triple => triple.2.1) heq
  · intro identity bundle newMemberId draws c w s' hadd
    rcases addMember_ok hadd with ⟨_, _, _, _, _, _, ⟨_, hleaf⟩, _⟩
    exact hconsistent.free hleaf.ge
  · intro c signer s' _ happends
    exact hconsistent.free happends

section Sample

open Symbolic

/-- A tree in which the second member holds the leaves of the first two. -/
private def firstLeaves : PartialTreeView symbolic :=
  tree 2 3 [node ⟨2, 0⟩ 10, node ⟨2, 1⟩ 11]

/-- The second member adds a fourth. -/
theorem leaves_unique_fourth_member :
    ∃ r : Roster symbolic, r.current.length = 4 ∧
      ∀ m ∈ r.current, ∀ n ∈ r.current, m.1 ≠ n.1 → m.2 ≠ n.2 := by
  have hrun : okAnd (addMember (word 50) ⟨key 90, key 91⟩ (word 9) (draws 500)
      (member 1 11 firstLeaves)) fun _ _ => true := by
    decide +kernel
  rcases okAnd_eq_true.mp hrun with ⟨⟨c, w⟩, s', h, _⟩
  let start : Roster symbolic :=
    ⟨member 1 11 firstLeaves, [(word 0, 0), (word 1, 1), (word 2, 2)]⟩
  have hstart : start.Consistent := ⟨by decide, by decide⟩
  have hbuild : (Operation.add ⟨key 90, key 91⟩ (word 9)).build (word 50) (draws 500)
      start.session = .ok ⟨.add c, some w⟩ s' := by
    show (addMember (word 50) ⟨key 90, key 91⟩ (word 9) (draws 500) >>= _) _ = _
    rw [EStateM.bind_eq_ok]
    exact ⟨(c, w), s', h, rfl⟩
  have hreach : Reachable Roster.Consistent (RosterStep Commit.Appends) (start.after s' (.add c)) :=
    (Reachable.start hstart).next (.built hbuild)
  exact ⟨_, rfl, fun m hm n hn hne => ((leaves_unique hreach).1 m hm n hn hne).1⟩

/-- The second of three members adds a fourth at leaf 3, and on the way the leaf
position becomes that of the third member.  The first member accepts the add:
two of its current members hold leaf 2. -/
theorem leaves_collide :
    ∃ c w s s',
      addMember (word 50) ⟨key 90, key 91⟩ (word 9) (draws 500) (member 1 11 firstLeaves) =
        .ok (c, w) s ∧ c.newLeafPosition = 3 ∧
      processAdd { c with newLeafPosition := 2 } (word 50) (member 0 10 firstLeaves) = .ok () s' ∧
      ∃ r : Roster symbolic, r.Consistent ∧ r.session = member 0 10 firstLeaves ∧
        ∃ m ∈ (r.after s' (.add { c with newLeafPosition := 2 })).current,
          ∃ n ∈ (r.after s' (.add { c with newLeafPosition := 2 })).current,
            m.1 ≠ n.1 ∧ m.2 = n.2 := by
  have hrun : okAnd (addMember (word 50) ⟨key 90, key 91⟩ (word 9) (draws 500)
      (member 1 11 firstLeaves)) fun built _ =>
        decide (built.1.newLeafPosition = 3 ∧ built.1.newMemberId = word 9) &&
        okAnd (processAdd { built.1 with newLeafPosition := 2 } (word 50) (member 0 10 firstLeaves))
          fun _ _ => true := by
    decide +kernel
  simp only [okAnd_eq_true, Bool.and_eq_true, decide_eq_true_eq] at hrun
  rcases hrun with ⟨⟨c, w⟩, s, h, ⟨hleaf, hid⟩, _, s', hprocess, _⟩
  refine ⟨c, w, s, s', h, hleaf, hprocess,
    ⟨member 0 10 firstLeaves, [(word 0, 0), (word 1, 1), (word 2, 2)]⟩, ⟨by decide, by decide⟩, rfl,
    (c.newMemberId, 2), List.mem_cons_self, (word 2, 2), by simp [Roster.after], ?_, rfl⟩
  show c.newMemberId ≠ word 2
  rw [hid]
  decide

end Sample

end Trelis.Cocoa
