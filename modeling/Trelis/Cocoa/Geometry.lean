import Trelis.Cocoa.NodeInvariant

/-!
# The size of a tree

The member count of a session fits the leaves of its tree, our leaf is one of
them and is taken, and no populated leaf is past the last one (`Geometry`).

A builder keeps this: it adds one member, and a level where it needs one.  A
receiver takes the new member count from the commit, and adds at most one level
whatever the count; it writes path updates at the indices of the commit; and a
joiner takes all three numbers from its welcome.  `Commit.Fits` and
`Welcome.Fits` are what these have to satisfy, and `geometry_kept` says that
they are enough over a whole run.
-/

namespace Trelis.Cocoa

open PartialTreeView

variable {P : Primitives}

/-! ## Depths and capacities -/

theorem bitLength_le_iff {n d : Nat} : bitLength n ≤ d ↔ n < 2 ^ d := by
  unfold bitLength
  split
  · next h => simp [h]
  · next h => rw [Nat.succ_le_iff, Nat.log2_lt h]

/-- The depth that is enough for some leaves. -/
theorem depthForMembers_le_iff {n d : Nat} : depthForMembers n ≤ d ↔ n ≤ 2 ^ d := by
  unfold depthForMembers
  split
  · next h => simp [h]
  · next h =>
    rw [bitLength_le_iff]
    omega

/-- The tree grows by one level where the members do not fit. -/
theorem le_capacity_growIfNeeded {t : PartialTreeView P} {n : Nat} :
    n ≤ (t.growIfNeeded n).capacity ↔ n ≤ 2 * t.capacity := by
  rw [capacity, treeDepth_growIfNeeded, capacity]
  split
  · rw [Nat.pow_succ, Nat.mul_comm]
  · next h =>
    have hle : n ≤ 2 ^ t.treeDepth := depthForMembers_le_iff.mp (Nat.not_lt.mp h)
    exact iff_of_true hle (by omega)

/-! ## The invariant -/

/-- A key at leaf depth is at a leaf that exists. -/
def LeafExists (P : Primitives) (treeDepth : Nat) (i : NodeIndex) (key : Option P.PublicKey) :
    Prop :=
  key.isSome → i.depth = treeDepth → i.position < 2 ^ treeDepth

theorem inherited_leafExists : Inherited (LeafExists P) where
  deepen := by
    intro d i k h hk hd
    have hlt : i.position < 2 ^ d := h hk (Nat.succ.inj hd)
    exact hlt.trans (Nat.pow_lt_pow_right (by decide) (Nat.lt_succ_self d))
  blank := by
    intro d i k _ hk
    cases hk

/-- The numbers of a session fit each other. -/
structure Geometry (s : CocoaSession P) : Prop where
  memberCount_le : s.memberCount ≤ s.tree.capacity
  ourLeaf_eq : s.tree.ourLeaf = .leaf s.tree.treeDepth s.ourLeafPosition
  ourLeaf_lt : s.ourLeafPosition < s.memberCount
  leaves : s.tree.All (LeafExists P)

theorem Geometry.depthForMembers_le {s : CocoaSession P} (h : Geometry s) :
    depthForMembers s.memberCount ≤ s.tree.treeDepth :=
  depthForMembers_le_iff.mpr h.memberCount_le

/-- What a commit has to satisfy: an add does not lower the member count, and
one more level is enough for it; a path update at leaf depth is at a leaf that
exists. -/
structure Commit.Fits (s : CocoaSession P) (c : Commit P) : Prop where
  memberCount_le : s.memberCount ≤ c.newMemberCount s
  newMemberCount_le : c.newMemberCount s ≤ 2 * s.tree.capacity
  leaves : ∀ pu ∈ c.pathUpdates, pu.nodeIndex.depth = (c.target s).treeDepth →
    pu.nodeIndex.position < (c.target s).capacity

/-- What a welcome has to satisfy: the leaf is below the member count, and the
tree is deep enough for it. -/
structure Welcome.Fits (w : Welcome P) : Prop where
  leafPosition_lt : w.leafPosition < w.memberCount
  memberCount_le : w.memberCount ≤ 2 ^ w.treeDepth

/-! ## Our leaf -/

theorem ourLeaf_growIfNeeded {t : PartialTreeView P} {position : Nat}
    (h : t.ourLeaf = .leaf t.treeDepth position) (n : Nat) :
    (t.growIfNeeded n).ourLeaf = .leaf (t.growIfNeeded n).treeDepth position := by
  unfold growIfNeeded
  split
  · show NodeIndex.leaf (t.treeDepth + 1) t.ourLeaf.position = .leaf (t.treeDepth + 1) position
    rw [h]
    rfl
  · exact h

theorem ourLeaf_markMemberAsUnmerged (s : CocoaSession P) (leaf : Nat) :
    (markMemberAsUnmerged s leaf).tree.ourLeaf = s.tree.ourLeaf := by
  apply foldl_keeps (g := PartialTreeView.ourLeaf)
  intro t i
  split
  · split <;> rfl
  · rfl

theorem ourLeaf_clearUnmergedOnPath (s : CocoaSession P) (leaf : Nat) :
    (clearUnmergedOnPath s leaf).tree.ourLeaf = s.tree.ourLeaf := by
  apply foldl_keeps (g := PartialTreeView.ourLeaf)
  intro t i
  rfl

/-- An accepted commit leaves our leaf where the target has it. -/
theorem Commit.process_ourLeaf {c : Commit P} {signer : P.IdentityPublicKey} {s s' : CocoaSession P}
    (h : c.process signer s = .ok () s') :
    s'.ourLeafPosition = s.ourLeafPosition ∧ s'.tree.ourLeaf = (c.target s).ourLeaf := by
  cases c with
  | add c =>
    rcases processAdd_eq_ok.mp h with ⟨delta, transcript, _, rfl⟩
    refine ⟨by simp [applyAdd, markMemberAsUnmerged, updateTreeFromPathUpdates], ?_⟩
    exact (ourLeaf_markMemberAsUnmerged _ _).trans
      (CocoaSession.ourLeaf_updateTreeFromPathUpdates ..)
  | update c =>
    rcases processUpdate_eq_ok.mp h with ⟨delta, transcript, _, rfl⟩
    refine ⟨by simp [applyUpdate, clearUnmergedOnPath, updateTreeFromPathUpdates], ?_⟩
    exact (ourLeaf_clearUnmergedOnPath _ _).trans
      (CocoaSession.ourLeaf_updateTreeFromPathUpdates ..)
  | remove c =>
    rcases processRemove_eq_ok.mp h with ⟨delta, transcript, _, rfl⟩
    exact ⟨by simp [applyRemove, updateTreeFromPathUpdates], ourLeaf_applyRemove ..⟩

/-! ## One step -/

theorem started_geometry {s : CocoaSession P} (h : Started Welcome.Fits s) : Geometry s := by
  cases h with
  | created h =>
    have hs := createGroup_ok h
    rcases hs.tree_eq with ⟨count, hcount, htree⟩
    refine ⟨?_, ?_, ?_, ?_⟩
    · rw [CocoaSession.memberCount, htree]
      exact depthForMembers_le_iff.mp le_rfl
    · rw [htree, hs.ourLeafPosition_eq]
      rfl
    · rw [CocoaSession.memberCount, htree, hs.ourLeafPosition_eq]
      exact Nat.pos_of_ne_zero hcount
    · rw [htree]
      exact all_new _ _ _
  | welcomed h hfits =>
    have hs := processWelcome_ok h
    refine ⟨?_, ?_, ?_, ?_⟩
    · rw [CocoaSession.memberCount, hs.tree_eq]
      exact hfits.memberCount_le
    · rw [hs.tree_eq, hs.ourLeafPosition_eq]
      rfl
    · rw [CocoaSession.memberCount, hs.tree_eq, hs.ourLeafPosition_eq]
      exact hfits.leafPosition_lt
    · rw [hs.tree_eq]
      exact all_new _ _ _

/-- The tree that a builder leaves behind has our leaf in its place. -/
theorem ourLeaf_leavesTree {s : CocoaSession P} {op : Operation P} {t : PartialTreeView P}
    (h : s.tree.ourLeaf = .leaf s.tree.treeDepth s.ourLeafPosition) (htree : op.LeavesTree s t) :
    t.ourLeaf = .leaf t.treeDepth s.ourLeafPosition := by
  have hgrown := ourLeaf_growIfNeeded h (s.memberCount + 1)
  cases htree with
  | same => exact h
  | grown => exact hgrown
  | counted => exact hgrown
  | marked =>
    have hdepth := congrArg Prod.fst (CocoaSession.shape_markMemberAsUnmerged
      (s.grownFor.modifyTree (·.setMemberCount (s.memberCount + 1))) s.memberCount)
    simp only [shape] at hdepth
    rw [hdepth, ourLeaf_markMemberAsUnmerged]
    exact hgrown
  | blanked => exact h

/-- So does the tree behind an accepted commit. -/
theorem ourLeaf_process {s s' : CocoaSession P} {c : Commit P} {signer : P.IdentityPublicKey}
    (h : s.tree.ourLeaf = .leaf s.tree.treeDepth s.ourLeafPosition)
    (hprocess : c.process signer s = .ok () s') :
    s'.tree.ourLeaf = .leaf s'.tree.treeDepth s'.ourLeafPosition := by
  rcases Commit.process_tree hprocess with ⟨hshape, _⟩
  rcases Commit.process_ourLeaf hprocess with ⟨hleaf, hour⟩
  have hdepth : s'.tree.treeDepth = (c.target s).treeDepth := congrArg Prod.fst hshape
  rw [hour, hdepth, hleaf]
  cases c with
  | add c => exact ourLeaf_growIfNeeded h _
  | update c => exact h
  | remove c => exact h

/-- The tree that a builder leaves behind has room for its members. -/
theorem Geometry.fits_leavesTree {s : CocoaSession P} {op : Operation P} {t : PartialTreeView P}
    (h : Geometry s) (htree : op.LeavesTree s t) :
    t.memberCount ≤ t.capacity ∧ s.memberCount ≤ t.memberCount := by
  have hroom : s.memberCount + 1 ≤ (s.tree.growIfNeeded (s.memberCount + 1)).capacity := by
    rw [le_capacity_growIfNeeded]
    have hle := h.memberCount_le
    have hpos : 1 ≤ s.tree.capacity := Nat.one_le_two_pow
    omega
  cases htree with
  | same => exact ⟨h.memberCount_le, le_rfl⟩
  | grown =>
    rw [memberCount_growIfNeeded]
    exact ⟨(Nat.le_succ _).trans hroom, le_rfl⟩
  | counted => exact ⟨hroom, Nat.le_succ _⟩
  | marked =>
    have hshape := CocoaSession.shape_markMemberAsUnmerged
      (s.grownFor.modifyTree (·.setMemberCount (s.memberCount + 1))) s.memberCount
    have hdepth := congrArg Prod.fst hshape
    have hcount := congrArg Prod.snd hshape
    simp only [shape] at hdepth hcount
    rw [capacity, hdepth, hcount]
    exact ⟨hroom, Nat.le_succ _⟩
  | blanked => exact ⟨h.memberCount_le, le_rfl⟩

/-- A builder keeps the numbers of the session in order. -/
theorem Geometry.leavesTree {s s' : CocoaSession P} {op : Operation P} (h : Geometry s)
    (htree : op.LeavesTree s s'.tree) (hleaf : s'.ourLeafPosition = s.ourLeafPosition) :
    Geometry s' := by
  rcases h.fits_leavesTree htree with ⟨hroom, hmono⟩
  refine ⟨hroom, ?_, ?_, h.leaves.leavesTree inherited_leafExists htree⟩
  · rw [hleaf]
    exact ourLeaf_leavesTree h.ourLeaf_eq htree
  · rw [hleaf]
    exact h.ourLeaf_lt.trans_le hmono

/-- An accepted commit keeps them in order where it fits. -/
theorem Geometry.process {s s' : CocoaSession P} {c : Commit P} {signer : P.IdentityPublicKey}
    (h : Geometry s) (hprocess : c.process signer s = .ok () s') (hfits : c.Fits s) :
    Geometry s' := by
  rcases Commit.process_tree hprocess with ⟨hshape, _⟩
  rcases Commit.process_ourLeaf hprocess with ⟨hleaf, _⟩
  have hdepth : s'.tree.treeDepth = (c.target s).treeDepth := congrArg Prod.fst hshape
  have hcount : s'.memberCount = c.newMemberCount s := congrArg Prod.snd hshape
  refine ⟨?_, ourLeaf_process h.ourLeaf_eq hprocess, ?_, ?_⟩
  · rw [hcount, capacity, hdepth]
    cases c with
    | add c => exact le_capacity_growIfNeeded.mpr hfits.newMemberCount_le
    | update c => exact h.memberCount_le
    | remove c => exact h.memberCount_le
  · rw [hleaf, hcount]
    exact h.ourLeaf_lt.trans_le hfits.memberCount_le
  · exact h.leaves.process inherited_leafExists hprocess fun pu hpu pk _ _ hd =>
      hfits.leaves pu hpu hd

/-- The bounds on the member count are necessary, too. -/
theorem Commit.newMemberCount_fits {s s' : CocoaSession P} {c : Commit P}
    {signer : P.IdentityPublicKey} (hs : s.memberCount ≤ s.tree.capacity)
    (hprocess : c.process signer s = .ok () s') (hroom : s'.memberCount ≤ s'.tree.capacity)
    (hmono : s.memberCount ≤ s'.memberCount) :
    s.memberCount ≤ c.newMemberCount s ∧ c.newMemberCount s ≤ 2 * s.tree.capacity := by
  rcases Commit.process_tree hprocess with ⟨hshape, _⟩
  have hdepth : s'.tree.treeDepth = (c.target s).treeDepth := congrArg Prod.fst hshape
  have hcount : s'.memberCount = c.newMemberCount s := congrArg Prod.snd hshape
  rw [hcount, capacity, hdepth] at hroom
  refine ⟨hmono.trans_eq hcount, ?_⟩
  cases c with
  | add c => exact le_capacity_growIfNeeded.mp hroom
  | update c =>
    show s.memberCount ≤ _
    omega
  | remove c =>
    show s.memberCount ≤ _
    omega

theorem Geometry.step {s s' : CocoaSession P} (h : Geometry s)
    (hstep : MemberStep (fun s c => c.Fits s) s s') : Geometry s' := by
  cases hstep with
  | built hbuild =>
    rcases Operation.leavesTree_of_ok hbuild with ⟨htree, hleaf⟩
    exact h.leavesTree htree hleaf
  | failed hbuild =>
    rcases Operation.leavesTree_of_error hbuild with ⟨htree, hleaf, _⟩
    exact h.leavesTree htree hleaf
  | accepted hprocess hfits => exact h.process hprocess hfits

/-! ## Over a run -/

/-- In a run whose welcome and accepted commits fit, the numbers of the session
are in order throughout, and the member count goes up on an add and stays on an
update or a remove. -/
theorem geometry_kept {s : CocoaSession P}
    (h : Reachable (Started Welcome.Fits) (MemberStep fun s c => c.Fits s) s) :
    (depthForMembers s.memberCount ≤ s.tree.treeDepth ∧
      s.tree.ourLeaf = .leaf s.tree.treeDepth s.ourLeafPosition ∧
      s.ourLeafPosition < s.memberCount ∧
      ∀ i node, s.tree.get i = some node → node.state.isPopulated →
        node.index.isLeaf s.tree.treeDepth → node.index.position < s.tree.capacity) ∧
    ∀ c : Commit P, ∀ signer s', c.Fits s → c.process signer s = .ok () s' →
      match c with
      | .add _ => s.memberCount ≤ s'.memberCount
      | .update _ => s'.memberCount = s.memberCount
      | .remove _ => s'.memberCount = s.memberCount := by
  have hgeometry : Geometry s :=
    h.invariant (fun _ hstart => started_geometry hstart) fun _ _ hs hstep => hs.step hstep
  refine ⟨⟨hgeometry.depthForMembers_le, hgeometry.ourLeaf_eq, hgeometry.ourLeaf_lt, ?_⟩, ?_⟩
  · intro i node hget hpop hleaf
    have hkey : node.state.publicKey.isSome := by
      rcases (NodeState.isPopulated_iff_publicKey _).mp hpop with ⟨pk, hpk⟩
      rw [hpk]
      rfl
    exact hgeometry.leaves i node hget hkey (by simpa [NodeIndex.isLeaf] using hleaf)
  · intro c signer s' hfits hprocess
    have hcount : s'.memberCount = c.newMemberCount s :=
      congrArg Prod.snd (Commit.process_tree hprocess).1
    cases c with
    | add c => exact hfits.memberCount_le.trans_eq hcount.symm
    | update c => exact hcount
    | remove c => exact hcount

section Sample

open Symbolic

/-- The creator of a group of three accepts a fourth member at leaf 3. -/
theorem geometry_kept_fourth_member :
    ∃ s : CocoaSession symbolic, s.memberCount = 4 ∧
      depthForMembers s.memberCount ≤ s.tree.treeDepth := by
  rcases threeMembers_ok with ⟨_, hcreate⟩
  have hrun : okAnd (processAdd (addWithoutPath 3) (word 50) (member 0 10 (tree 2 3 [])))
      fun _ s' => s'.memberCount = 4 := by
    decide +kernel
  rcases okAnd_eq_true.mp hrun with ⟨_, s', h, hcount⟩
  have hfits : (Commit.add (addWithoutPath 3)).Fits (member 0 10 (tree 2 3 [])) :=
    ⟨by decide, by decide, fun _ hpu => by cases hpu⟩
  have hprocess : (Commit.add (addWithoutPath 3)).process (word 50) (member 0 10 (tree 2 3 [])) =
      .ok () s' := h
  have hreach : Reachable (Started Welcome.Fits) (MemberStep fun s c => c.Fits s) s' :=
    (Reachable.start (Started.created hcreate)).next (.accepted hprocess hfits)
  exact ⟨s', of_decide_eq_true hcount, (geometry_kept hreach).1.1⟩

/-- The creator of a group of three accepts a member at leaf 100 of a tree that
then has eight leaves, and a member at leaf 0. -/
theorem geometry_broken :
    ∃ s welcomes, threeMembers = .ok (s, welcomes) ∧
      (∃ s', processAdd (addWithoutPath 100) (word 50) s = .ok () s' ∧
        s'.tree.treeDepth < depthForMembers s'.memberCount) ∧
      ∃ s', processAdd (addWithoutPath 0) (word 50) s = .ok () s' ∧
        s'.memberCount < s.memberCount := by
  rcases threeMembers_ok with ⟨welcomes, hcreate⟩
  refine ⟨_, welcomes, hcreate, ?_, ?_⟩
  · have hrun : okAnd (processAdd (addWithoutPath 100) (word 50) (member 0 10 (tree 2 3 [])))
        fun _ s' => s'.tree.treeDepth < depthForMembers s'.memberCount := by
      decide +kernel
    rcases okAnd_eq_true.mp hrun with ⟨_, s', h, htest⟩
    exact ⟨s', h, of_decide_eq_true htest⟩
  · have hrun : okAnd (processAdd (addWithoutPath 0) (word 50) (member 0 10 (tree 2 3 [])))
        fun _ s' => s'.memberCount < 3 := by
      decide +kernel
    rcases okAnd_eq_true.mp hrun with ⟨_, s', h, htest⟩
    exact ⟨s', h, of_decide_eq_true htest⟩

end Sample

end Trelis.Cocoa
