import Trelis.Cocoa.Run

/-!
# Properties of every node

`t.All p` says that `p` holds of the index and the key of every node of a view,
at the depth of its tree.  Where `p` survives the re-indexing of a growing tree
and the loss of a key (`Inherited`), every builder keeps `t.All p`
(`All.leavesTree`), and so does every accepted commit whose path updates meet
`p` (`All.process`).
-/

namespace Trelis.Cocoa

open PartialTreeView

variable {P : Primitives}

/-- The index one level further down. -/
def NodeIndex.deepen (i : NodeIndex) : NodeIndex := ⟨i.depth + 1, i.position⟩

namespace PartialTreeView

/-- `p` holds of every node. -/
def All (p : Nat → NodeIndex → Option P.PublicKey → Prop) (t : PartialTreeView P) : Prop :=
  ∀ i node, t.get i = some node → p t.treeDepth node.index node.state.publicKey

/-- A property that a node keeps when the tree grows and when it loses its
key. -/
structure Inherited (p : Nat → NodeIndex → Option P.PublicKey → Prop) : Prop where
  deepen : ∀ {d i k}, p d i k → p (d + 1) i.deepen k
  blank : ∀ {d i k}, p d i k → p d i none

variable {p : Nat → NodeIndex → Option P.PublicKey → Prop} {s t : PartialTreeView P}

theorem all_new (ourLeafPosition treeDepth count : Nat) :
    All p ((new P ourLeafPosition treeDepth).setMemberCount count) := by
  intro i node h
  change (∅ : Std.ExtTreeMap Nat (TreeNode P))[i.toLinear]? = some node at h
  simp at h

theorem All.setMemberCount (h : t.All p) (n : Nat) : (t.setMemberCount n).All p := h

/-- The property does not see what the keys do not. -/
theorem All.congr (h : t.All p) (hagree : Agree keyCell s t) (hdepth : s.treeDepth = t.treeDepth) :
    s.All p := by
  intro i node hget
  have hcell := hagree.get i
  rw [hget, Option.map_some] at hcell
  rcases Option.map_eq_some_iff.mp hcell.symm with ⟨node', hget', hnode⟩
  have hp := h i node' hget'
  rw [show node'.index = node.index from congrArg Prod.fst hnode,
    show node'.state.publicKey = node.state.publicKey from congrArg Prod.snd hnode] at hp
  rwa [hdepth]

theorem All.growTree (hp : Inherited p) (h : t.All p) : t.growTree.All p := by
  intro i node hget
  rcases get_growTree hget with ⟨old, hold, rfl⟩
  exact hp.deepen (h _ old hold)

theorem All.growIfNeeded (hp : Inherited p) (h : t.All p) (n : Nat) : (t.growIfNeeded n).All p := by
  unfold PartialTreeView.growIfNeeded
  split
  · exact h.growTree hp
  · exact h

theorem All.blankNode (hp : Inherited p) (h : t.All p) (i : NodeIndex) : (t.blankNode i).All p := by
  intro j node hget
  change (t.modifyState i _).get j = some node at hget
  rw [get_modifyState] at hget
  split at hget
  · rcases Option.map_eq_some_iff.mp hget with ⟨old, hold, rfl⟩
    exact hp.blank (h j old hold)
  · exact h j node hget

theorem All.insert (h : t.All p) {node : TreeNode P}
    (hnode : p t.treeDepth node.index node.state.publicKey) : (t.insert node).All p := by
  intro i new hget
  rw [get_insert] at hget
  split at hget
  · cases hget
    exact hnode
  · exact h i new hget

/-- Path updates keep the property where they have it. -/
theorem All.writePathUpdates (h : t.All p) (transcript : Bytes32) (epoch : Nat) (sig : P.Signature)
    (updater : UserId) {pus : List PathUpdate}
    (hpus : ∀ pu ∈ pus, ∀ pk, P.publicKeyFromBytes pu.newPublicKey = .ok pk →
      p t.treeDepth pu.nodeIndex (some pk)) :
    (pus.foldl (writePathUpdate transcript epoch sig updater) t).All p := by
  induction pus generalizing t with
  | nil => exact h
  | cons pu pus ih =>
    have hdepth : (writePathUpdate transcript epoch sig updater t pu).treeDepth = t.treeDepth :=
      congrArg Prod.fst (shape_writePathUpdate transcript epoch sig updater t pu)
    have hhead : (writePathUpdate transcript epoch sig updater t pu).All p := by
      unfold writePathUpdate
      split
      · next pk hpk => exact h.insert (hpus pu (by simp) pk hpk)
      · exact h
    apply ih hhead
    intro q hq pk hpk
    rw [hdepth]
    exact hpus q (List.mem_cons_of_mem _ hq) pk hpk

/-- A builder keeps the property. -/
theorem All.leavesTree (hp : Inherited p) {s : CocoaSession P} {op : Operation P}
    (h : s.tree.All p) (htree : op.LeavesTree s t) : t.All p := by
  cases htree with
  | same => exact h
  | grown => exact h.growIfNeeded hp _
  | counted => exact (h.growIfNeeded hp _).setMemberCount _
  | marked =>
    refine ((h.growIfNeeded hp (s.memberCount + 1)).setMemberCount (s.memberCount + 1)).congr
      (CocoaSession.agree_markMemberAsUnmerged _ _).toKeyCell ?_
    exact congrArg Prod.fst (CocoaSession.shape_markMemberAsUnmerged _ _)
  | blanked => exact h.blankNode hp _

end PartialTreeView

/-- The tree that the path updates of a commit are written into. -/
def Commit.target (s : CocoaSession P) : Commit P → PartialTreeView P
  | add c => s.tree.growIfNeeded (c.newLeafPosition + 1)
  | update _ => s.tree
  | remove c => s.tree.blankNode (.leaf s.tree.treeDepth c.removedLeafPosition)

/-- The number of members after a commit. -/
def Commit.newMemberCount (s : CocoaSession P) : Commit P → Nat
  | add c => c.newLeafPosition + 1
  | update _ => s.memberCount
  | remove _ => s.memberCount

/-- What an accepted commit does to a tree: it writes its path updates into the
target, and changes nothing else that the keys see. -/
theorem Commit.process_tree {c : Commit P} {signer : P.IdentityPublicKey} {s s' : CocoaSession P}
    (h : c.process signer s = .ok () s') :
    s'.tree.shape = ((c.target s).treeDepth, c.newMemberCount s) ∧
      ∃ transcript epoch sig updater, Agree nodeCell s'.tree
        (c.pathUpdates.foldl (writePathUpdate transcript epoch sig updater) (c.target s)) := by
  cases c with
  | add c =>
    rcases processAdd_eq_ok.mp h with ⟨delta, transcript, _, rfl⟩
    exact ⟨shape_applyAdd .., _, _, _, _, agree_applyAdd ..⟩
  | update c =>
    rcases processUpdate_eq_ok.mp h with ⟨delta, transcript, _, rfl⟩
    exact ⟨shape_applyUpdate .., _, _, _, _, agree_applyUpdate ..⟩
  | remove c =>
    rcases processRemove_eq_ok.mp h with ⟨delta, transcript, _, rfl⟩
    exact ⟨shape_applyRemove .., _, _, _, _, agree_applyRemove ..⟩

/-- An accepted commit keeps a property of the nodes that its path updates
have. -/
theorem PartialTreeView.All.process {p : Nat → NodeIndex → Option P.PublicKey → Prop}
    (hp : Inherited p) {c : Commit P} {signer : P.IdentityPublicKey} {s s' : CocoaSession P}
    (hall : s.tree.All p) (h : c.process signer s = .ok () s')
    (hpus : ∀ pu ∈ c.pathUpdates, ∀ pk, P.publicKeyFromBytes pu.newPublicKey = .ok pk →
      p (c.target s).treeDepth pu.nodeIndex (some pk)) : s'.tree.All p := by
  rcases Commit.process_tree h with ⟨hshape, transcript, epoch, sig, updater, hagree⟩
  have htarget : (c.target s).All p := by
    cases c with
    | add c => exact hall.growIfNeeded hp _
    | update c => exact hall
    | remove c => exact hall.blankNode hp _
  refine (htarget.writePathUpdates transcript epoch sig updater hpus).congr hagree.toKeyCell ?_
  rw [show s'.tree.treeDepth = (c.target s).treeDepth from congrArg Prod.fst hshape]
  exact (congrArg Prod.fst (foldl_keeps (shape_writePathUpdate _ _ _ _) _ _)).symm

end Trelis.Cocoa
