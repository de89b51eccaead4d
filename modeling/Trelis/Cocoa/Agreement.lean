import Trelis.Cocoa.Commit

/-!
# Agreement of two trees

What the members of a group have in common is the shape of the tree and its
keys, not the bookkeeping beside them: a receiver writes its own user id where
the sender of an update writes nothing, and takes only its own leaf off the
unmerged lists.  Two projections of a node say what is compared.

* `keyCell`: the index and the public key.  It decides the resolutions, the
  recipient sets, the sibling labels and the completeness of a subtree.
* `nodeCell`: the parent hash as well.  Every change that a commit makes to a
  tree respects it.
-/

namespace Trelis.Cocoa

variable {P : Primitives}

/-- The index of a node and its public key, `none` at a blank node. -/
def keyCell (node : TreeNode P) : NodeIndex × Option P.PublicKey :=
  (node.index, node.state.publicKey)

/-- The index, the public key and the parent hash of a node. -/
def nodeCell (node : TreeNode P) :
    NodeIndex × Option P.PublicKey × Option (Bytes32 × Bytes32) :=
  (node.index, node.state.publicKey, node.state.parentHash)

theorem keyCell_eq_of_nodeCell_eq {m n : TreeNode P} (h : nodeCell m = nodeCell n) :
    keyCell m = keyCell n := by
  simp only [nodeCell, Prod.mk.injEq] at h
  simp only [keyCell, h.1, h.2.1]

private theorem isPopulated_eq_isSome (st : NodeState P) :
    st.isPopulated = st.publicKey.isSome := by
  cases st <;> rfl

namespace PartialTreeView

variable {s t : PartialTreeView P}

/-! ## Reading agreeing trees -/

theorem Agree.toKeyCell (h : Agree nodeCell s t) : Agree keyCell s t :=
  h.mono fun _ _ => keyCell_eq_of_nodeCell_eq

theorem Agree.keyAt (h : Agree keyCell s t) (i : NodeIndex) : s.keyAt i = t.keyAt i := by
  have hi := h.get i
  unfold PartialTreeView.keyAt
  cases hs : s.get i <;> cases ht : t.get i <;> simp_all [keyCell]

theorem Agree.isPopulated (h : Agree keyCell s t) (i : NodeIndex) :
    (s.get i).map (·.state.isPopulated) = (t.get i).map (·.state.isPopulated) := by
  have hi := congrArg (Option.map fun cell => cell.2.isSome) (h.get i)
  simpa only [Option.map_map, Function.comp_def, keyCell, isPopulated_eq_isSome] using hi

theorem Agree.siblingLabel (h : Agree keyCell s t) (v : NodeIndex) :
    s.siblingLabel v = t.siblingLabel v := by
  unfold PartialTreeView.siblingLabel
  cases v.sibling with
  | none => rfl
  | some sibling => simp only [h.keyAt]

variable (hdepth : s.treeDepth = t.treeDepth)
include hdepth

theorem Agree.resolve (h : Agree keyCell s t) (i : NodeIndex) : s.resolve i = t.resolve i :=
  foldBlank_congr _ _ _ _ hdepth h.isPopulated i

theorem Agree.resolveComplete (h : Agree keyCell s t) (i : NodeIndex) :
    s.resolveComplete i = t.resolveComplete i :=
  foldBlank_congr _ _ _ _ hdepth h.isPopulated i

theorem Agree.computeLj (h : Agree keyCell s t) (v : NodeIndex) :
    s.computeLj v s.unmergedLeafNodes = t.computeLj v t.unmergedLeafNodes := by
  rw [computeLj_eq_resolve, computeLj_eq_resolve]
  cases v.sibling with
  | none => rfl
  | some sibling => exact h.resolve hdepth sibling

end PartialTreeView

/-! ## Writing agreeing trees -/

namespace PartialTreeView

variable {s t : PartialTreeView P}

/-- A change that the projection does not see. -/
theorem agree_modifyState {α : Type} {c : TreeNode P → α} (t : PartialTreeView P) (i : NodeIndex)
    {f : NodeState P → NodeState P} (hf : ∀ m, c { m with state := f m.state } = c m) :
    Agree c (t.modifyState i f) t := by
  rw [agree_iff]
  intro k
  show ((t.nodes.modify i.toLinear _)[k]?).map c = _
  rw [Std.ExtTreeMap.getElem?_modify]
  split
  · next heq =>
    rw [compare_eq_iff_eq] at heq
    rw [← heq, Option.map_map]
    congr 1
    funext m
    exact hf m
  · rfl

theorem Agree.trans {α : Type} {c : TreeNode P → α} {u : PartialTreeView P} (h : Agree c s t)
    (h' : Agree c t u) : Agree c s u :=
  Eq.trans h h'

/-- Making the same node blank in both trees. -/
theorem Agree.blankNode (h : Agree nodeCell s t) (i : NodeIndex) :
    Agree nodeCell (s.blankNode i) (t.blankNode i) := by
  apply h.modifyState i
  intro m n hmn
  have hidx : m.index = n.index := congrArg Prod.fst hmn
  simp [nodeCell, hidx]

theorem Agree.blankKey (h : Agree keyCell s t) (i : NodeIndex) :
    Agree keyCell (s.blankNode i) (t.blankNode i) := by
  apply h.modifyState i
  intro m n hmn
  have hidx : m.index = n.index := congrArg Prod.fst hmn
  simp [keyCell, hidx]

/-- The unmerged lists are outside the projection. -/
theorem agree_addUnmergedLeaf (t : PartialTreeView P) (i : NodeIndex) (leaf : Nat) :
    Agree nodeCell (t.addUnmergedLeaf i leaf) t :=
  t.agree_modifyState i fun m => by simp [nodeCell]

theorem agree_removeUnmergedLeaf (t : PartialTreeView P) (i : NodeIndex) (leaf : Nat) :
    Agree nodeCell (t.removeUnmergedLeaf i leaf) t :=
  t.agree_modifyState i fun m => by simp [nodeCell]

/-- Growing both trees for the same member count. -/
theorem Agree.growFor (h : Agree nodeCell s t) (hdepth : s.treeDepth = t.treeDepth) (n : Nat) :
    Agree nodeCell (s.growIfNeeded n) (t.growIfNeeded n) := by
  apply h.growIfNeeded hdepth
  · intro m m' hm
    exact congrArg Prod.fst hm
  · intro m m' hm
    simp only [nodeCell, deepen, Prod.mk.injEq] at hm ⊢
    exact ⟨by rw [hm.1], hm.2⟩

theorem Agree.growKeys (h : Agree keyCell s t) (hdepth : s.treeDepth = t.treeDepth) (n : Nat) :
    Agree keyCell (s.growIfNeeded n) (t.growIfNeeded n) := by
  apply h.growIfNeeded hdepth
  · intro m m' hm
    exact congrArg Prod.fst hm
  · intro m m' hm
    simp only [keyCell, deepen, Prod.mk.injEq] at hm ⊢
    exact ⟨by rw [hm.1], hm.2⟩

/-! ## The writes of a commit -/

/-- The depth of a tree and its member count. -/
def shape (t : PartialTreeView P) : Nat × Nat := (t.treeDepth, t.memberCount)

/-- What no step of a loop changes, the loop does not change. -/
theorem foldl_keeps {α β : Type} {f : PartialTreeView P → α → PartialTreeView P}
    {g : PartialTreeView P → β} (hf : ∀ t x, g (f t x) = g t) (xs : List α)
    (t : PartialTreeView P) : g (xs.foldl f t) = g t := by
  induction xs generalizing t with
  | nil => rfl
  | cons x xs ih => rw [List.foldl_cons, ih, hf]

private theorem agree_foldl {α β : Type} {c : TreeNode P → β}
    {f : PartialTreeView P → α → PartialTreeView P} (hf : ∀ t x, Agree c (f t x) t) (xs : List α)
    (t : PartialTreeView P) : Agree c (xs.foldl f t) t := by
  induction xs generalizing t with
  | nil => rfl
  | cons x xs ih =>
    rw [List.foldl_cons]
    exact (ih (f t x)).trans (hf t x)

theorem shape_writePathUpdate (transcript : Bytes32) (epoch : Nat) (sig : P.Signature)
    (updater : UserId) (t : PartialTreeView P) (pu : PathUpdate) :
    (writePathUpdate transcript epoch sig updater t pu).shape = t.shape := by
  unfold writePathUpdate
  split <;> rfl

/-- Two trees that agree still agree when the same update is written to both,
whatever else is recorded with it. -/
theorem Agree.writePathUpdate (h : Agree nodeCell s t) (transcript transcript' : Bytes32)
    (epoch epoch' : Nat) (sig : P.Signature) (updater updater' : UserId) (pu : PathUpdate) :
    Agree nodeCell (Cocoa.writePathUpdate transcript epoch sig updater s pu)
      (Cocoa.writePathUpdate transcript' epoch' sig updater' t pu) := by
  unfold Cocoa.writePathUpdate
  split
  · exact h.insert rfl rfl
  · exact h

theorem Agree.writePathUpdates (h : Agree nodeCell s t) (transcript transcript' : Bytes32)
    (epoch epoch' : Nat) (sig : P.Signature) (updater updater' : UserId) (pus : List PathUpdate) :
    Agree nodeCell (pus.foldl (Cocoa.writePathUpdate transcript epoch sig updater) s)
      (pus.foldl (Cocoa.writePathUpdate transcript' epoch' sig updater') t) := by
  induction pus generalizing s t with
  | nil => exact h
  | cons pu pus ih => exact ih (h.writePathUpdate _ _ _ _ _ _ _ pu)

end PartialTreeView

namespace CocoaSession

open PartialTreeView

variable (s : CocoaSession P)

theorem shape_updateTreeFromPathUpdates (pus : List PathUpdate) (sig : P.Signature)
    (updater : UserId) :
    (updateTreeFromPathUpdates s pus sig updater).tree.shape = s.tree.shape :=
  foldl_keeps (shape_writePathUpdate _ _ _ _) pus s.tree

theorem ourLeaf_updateTreeFromPathUpdates (pus : List PathUpdate) (sig : P.Signature)
    (updater : UserId) :
    (updateTreeFromPathUpdates s pus sig updater).tree.ourLeaf = s.tree.ourLeaf := by
  apply foldl_keeps (g := PartialTreeView.ourLeaf)
  intro t pu
  unfold writePathUpdate
  split <;> rfl

theorem shape_clearUnmergedOnPath (leaf : Nat) :
    (clearUnmergedOnPath s leaf).tree.shape = s.tree.shape := by
  apply foldl_keeps (g := shape)
  intro t i
  rfl

theorem shape_markMemberAsUnmerged (leaf : Nat) :
    (markMemberAsUnmerged s leaf).tree.shape = s.tree.shape := by
  apply foldl_keeps (g := shape)
  intro t i
  split
  · split <;> rfl
  · rfl

/-- Clearing unmerged leaves changes no key. -/
theorem agree_clearUnmergedOnPath (leaf : Nat) :
    Agree nodeCell (clearUnmergedOnPath s leaf).tree s.tree := by
  apply agree_foldl
  intro t i
  exact t.agree_removeUnmergedLeaf i s.ourLeafPosition

/-- Marking a member as unmerged changes no key. -/
theorem agree_markMemberAsUnmerged (leaf : Nat) :
    Agree nodeCell (markMemberAsUnmerged s leaf).tree s.tree := by
  apply agree_foldl
  intro t i
  split
  · split
    · exact t.agree_addUnmergedLeaf i leaf
    · exact Agree.refl t
  · exact Agree.refl t

end CocoaSession

end Trelis.Cocoa
