import Trelis.Cocoa.NodeInvariant

/-!
# Where the nodes of a view are stored

A node is stored under the linear index of its own index, whatever that is; a
view cannot be built otherwise.  Two indices can have one linear index, though,
and a path update is written at the index that its sender chose.

Where every node is `InTree`, with a position that exists at its depth and a
depth that exists in the tree, a slot has one index (`InTree.eq_of_toLinear`),
and a lookup at an index that exists finds the node of that index.  Growing,
blanking, removing and the builders keep this, and so do the commits whose path
updates are in the tree.
-/

namespace Trelis.Cocoa

open PartialTreeView

variable {P : Primitives}

/-- The index exists in a tree of the given depth. -/
structure NodeIndex.InTree (i : NodeIndex) (treeDepth : Nat) : Prop where
  inRange : i.InRange
  depth_le : i.depth ≤ treeDepth

/-- One slot has one index. -/
theorem NodeIndex.InTree.eq_of_toLinear {i j : NodeIndex} {d e : Nat} (hi : i.InTree d)
    (hj : j.InTree e) (h : i.toLinear = j.toLinear) : i = j :=
  toLinear_inj hi.inRange hj.inRange h

theorem inherited_inTree : Inherited (P := P) fun d i _ => i.InTree d where
  deepen := by
    intro d i _ h
    refine ⟨?_, Nat.succ_le_succ h.depth_le⟩
    exact Nat.lt_trans h.inRange (Nat.pow_lt_pow_right (by decide) (Nat.lt_succ_self _))
  blank := id

/-- The path updates of a commit are in the tree that they are written into. -/
def Commit.InTree (s : CocoaSession P) (c : Commit P) : Prop :=
  ∀ pu ∈ c.pathUpdates, pu.nodeIndex.InTree (c.target s).treeDepth

/-- What happens to the view of a member: a step of the member, or a change that
its application makes through `tree_mut`. -/
inductive ViewStep : CocoaSession P → CocoaSession P → Prop
  | moved {s s'} (h : MemberStep (fun s c => c.InTree s) s s') : ViewStep s s'
  | inserted {s node} (h : node.index.InTree s.tree.treeDepth) :
      ViewStep s (s.modifyTree (·.insert node))
  | blanked {s i} : ViewStep s (s.modifyTree (·.blankNode i))
  | removed {s i} : ViewStep s (s.modifyTree (·.remove i))
  | grown {s} : ViewStep s (s.modifyTree (·.growTree))

theorem PartialTreeView.All.remove {p : Nat → NodeIndex → Option P.PublicKey → Prop}
    {t : PartialTreeView P} (h : t.All p) (i : NodeIndex) : (t.remove i).All p := by
  intro j node hget
  change (t.nodes.erase i.toLinear)[j.toLinear]? = some node at hget
  rw [Std.ExtTreeMap.getElem?_erase] at hget
  split at hget
  · cases hget
  · exact h j node hget

theorem all_inTree_step {s s' : CocoaSession P} (hall : s.tree.All fun d i _ => i.InTree d)
    (h : ViewStep s s') : s'.tree.All fun d i _ => i.InTree d := by
  cases h with
  | moved h =>
    cases h with
    | built hbuild => exact hall.leavesTree inherited_inTree (Operation.leavesTree_of_ok hbuild).1
    | failed hbuild =>
      exact hall.leavesTree inherited_inTree (Operation.leavesTree_of_error hbuild).1
    | accepted hprocess hin =>
      exact hall.process inherited_inTree hprocess fun pu hpu _ _ => hin pu hpu
  | inserted hnode => exact hall.insert hnode
  | blanked => exact hall.blankNode inherited_inTree _
  | removed => exact hall.remove _
  | grown => exact hall.growTree inherited_inTree

theorem all_inTree_started {s : CocoaSession P} (h : Started (fun _ => True) s) :
    s.tree.All fun d i _ => i.InTree d := by
  cases h with
  | created h =>
    rcases (createGroup_ok h).tree_eq with ⟨_, _, htree⟩
    rw [htree]
    exact all_new _ _ _
  | welcomed h _ =>
    rw [(processWelcome_ok h).tree_eq]
    exact all_new _ _ _

/-- In a run whose accepted commits and inserted nodes are in the tree: a node is
stored under the linear index of its own index, which exists in the tree; a
lookup finds only the node of the index that it is given, if that exists; and no
two path updates of an accepted commit share a slot with each other, or with a
node of the view, unless they have one index. -/
theorem representation_kept {s : CocoaSession P}
    (h : Reachable (Started fun _ => True) ViewStep s) :
    (∀ (k : Nat) (node : TreeNode P), s.tree.nodes[k]? = some node →
      node.index.toLinear = k ∧ node.index.InRange ∧ node.index.depth ≤ s.tree.treeDepth) ∧
    (∀ i node, i.InRange → s.tree.get i = some node → node.index = i) ∧
    ∀ c : Commit P, c.InTree s → ∀ pu ∈ c.pathUpdates,
      (∀ pu' ∈ c.pathUpdates, pu.nodeIndex.toLinear = pu'.nodeIndex.toLinear →
        pu.nodeIndex = pu'.nodeIndex) ∧
      ∀ node, s.tree.get pu.nodeIndex = some node → node.index = pu.nodeIndex := by
  have hall : s.tree.All fun d i _ => i.InTree d := by
    induction h with
    | start hstart => exact all_inTree_started hstart
    | next _ hstep ih => exact all_inTree_step ih hstep
  have hlookup : ∀ i node, i.InRange → s.tree.get i = some node → node.index = i := by
    intro i node hi hget
    exact NodeIndex.toLinear_inj (hall i node hget).inRange hi (s.tree.keyed _ node hget)
  refine ⟨?_, hlookup, ?_⟩
  · intro k node hk
    have hkey : node.index.toLinear = k := s.tree.keyed k node hk
    have hget : s.tree.get node.index = some node := by
      rw [PartialTreeView.get, hkey]
      exact hk
    have hin := hall _ node hget
    exact ⟨hkey, hin.inRange, hin.depth_le⟩
  · intro c hin pu hpu
    refine ⟨fun pu' hpu' heq => (hin pu hpu).eq_of_toLinear (hin pu' hpu') heq, ?_⟩
    intro node hget
    exact hlookup _ node (hin pu hpu).inRange hget

section Sample

open Symbolic

/-- The creator of a group of three accepts an update of the root. -/
theorem representation_kept_root :
    ∃ s : CocoaSession symbolic, s.tree.keyAt .root = some (key 500) ∧
      ∀ i node, i.InRange → s.tree.get i = some node → node.index = i := by
  rcases threeMembers_ok with ⟨_, hcreate⟩
  have hrun : okAnd (processUpdate (oneNodeUpdate (member 0 10 (tree 2 3 [])) .root 500 10)
      (word 50) (member 0 10 (tree 2 3 []))) fun _ s' => s'.tree.keyAt .root = some (key 500) := by
    decide +kernel
  rcases okAnd_eq_true.mp hrun with ⟨_, s', h, hkey⟩
  have hprocess : (Commit.update (oneNodeUpdate (member 0 10 (tree 2 3 [])) .root 500 10)).process
      (word 50) (member 0 10 (tree 2 3 [])) = .ok () s' := h
  have hin : (Commit.update (oneNodeUpdate (member 0 10 (tree 2 3 [])) .root 500 10)).InTree
      (member 0 10 (tree 2 3 [])) := by
    intro pu hpu
    rw [List.mem_singleton.mp hpu]
    exact ⟨Nat.one_pos, Nat.zero_le _⟩
  have hreach : Reachable (Started fun _ => True) ViewStep s' :=
    (Reachable.start (Started.created hcreate)).next (.moved (.accepted hprocess hin))
  exact ⟨s', of_decide_eq_true hkey, (representation_kept hreach).2.1⟩

/-- The creator of a group of three accepts an update of a root at position 5.
The node is in the slot of `(2, 2)`, and a lookup there finds it. -/
theorem representation_broken :
    ∃ s welcomes, threeMembers = .ok (s, welcomes) ∧ ∃ s' node,
      processUpdate (oneNodeUpdate s ⟨0, 5⟩ 500 10) (word 50) s = .ok () s' ∧
        s'.tree.get ⟨2, 2⟩ = some node ∧ node.index = ⟨0, 5⟩ ∧ ¬ node.index.InRange := by
  rcases threeMembers_ok with ⟨welcomes, hcreate⟩
  have hrun : okAnd (processUpdate (oneNodeUpdate (member 0 10 (tree 2 3 [])) ⟨0, 5⟩ 500 10)
      (word 50) (member 0 10 (tree 2 3 []))) fun _ s' =>
        (s'.tree.get ⟨2, 2⟩).any fun node => node.index = ⟨0, 5⟩ := by
    decide +kernel
  rcases okAnd_eq_true.mp hrun with ⟨_, s', h, htest⟩
  rcases Option.any_eq_true_iff_get _ _ |>.mp htest with ⟨hsome, hindex⟩
  have hindex' := of_decide_eq_true hindex
  refine ⟨_, welcomes, hcreate, s', _, h, (Option.some_get hsome).symm, hindex', ?_⟩
  rw [hindex']
  decide

end Sample

end Trelis.Cocoa
