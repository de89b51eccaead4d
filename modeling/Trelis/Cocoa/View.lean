import Std.Data.ExtTreeMap
import Trelis.Cocoa.Node

/-!
# The partial tree view

`PartialTreeView` of `tree/view.rs`: the nodes that one member holds, keyed by
linear index, together with its own leaf, the depth of the tree and the number
of members.

A view carries the proof that every node is stored under the linear index of
its own `index` field.  The Rust type keeps this because `insert` computes the
key from the node and no other method changes an index in place.

The lemmas come in three groups.

* Reading back after a write: `get_insert`, `get_modifyState`.
* Agreement.  `Agree c s t` says that two views hold nodes at the same keys,
  and that the projection `c` of the two nodes at a key is the same.  Every
  write that treats the projection alike keeps it, `growTree` included.
* The blank fold.  `resolve` and its completeness-tracking twin walk the same
  subtree, down through the blank nodes.  `foldBlank` is this walk; its
  unfolding `foldBlank_eq` and its induction `blankInduction` hide the fuel.
-/

namespace Trelis.Cocoa

open Std (ExtTreeMap)

/-- The nodes a member holds, keyed by linear index. -/
@[ext] structure PartialTreeView (P : Primitives) where
  nodes : ExtTreeMap Nat (TreeNode P)
  /-- Our leaf. -/
  ourLeaf : NodeIndex
  /-- The depth of the leaf level. -/
  treeDepth : Nat
  /-- The number of members. -/
  memberCount : Nat
  /-- A node is stored under its own linear index. -/
  keyed : ∀ (k : Nat) (node : TreeNode P), nodes[k]? = some node → node.index.toLinear = k

namespace PartialTreeView

variable {P : Primitives}

/-- A new empty view. -/
def new (P : Primitives) (ourLeafPosition treeDepth : Nat) : PartialTreeView P where
  nodes := ∅
  ourLeaf := .leaf treeDepth ourLeafPosition
  treeDepth := treeDepth
  memberCount := 0
  keyed := by simp

/-- Sets the member count. -/
def setMemberCount (t : PartialTreeView P) (count : Nat) : PartialTreeView P :=
  { t with memberCount := count }

/-- The node at an index. -/
def get (t : PartialTreeView P) (index : NodeIndex) : Option (TreeNode P) :=
  t.nodes[index.toLinear]?

private theorem keyed_insert {nodes : ExtTreeMap Nat (TreeNode P)}
    (h : ∀ (k : Nat) (node : TreeNode P), nodes[k]? = some node → node.index.toLinear = k)
    (new : TreeNode P) :
    ∀ (k : Nat) (node : TreeNode P), (nodes.insert new.index.toLinear new)[k]? = some node →
      node.index.toLinear = k := by
  intro k node hk
  rw [ExtTreeMap.getElem?_insert] at hk
  split at hk
  · next heq =>
    cases hk
    simpa using heq
  · exact h k node hk

/-- Inserts or replaces a node. -/
def insert (t : PartialTreeView P) (node : TreeNode P) : PartialTreeView P :=
  { t with
    nodes := t.nodes.insert node.index.toLinear node
    keyed := keyed_insert t.keyed node }

/-- `get_mut` followed by a change of the node's state; nothing happens where
there is no node. -/
def modifyState (t : PartialTreeView P) (index : NodeIndex)
    (f : NodeState P → NodeState P) : PartialTreeView P :=
  { t with
    nodes := t.nodes.modify index.toLinear fun node => { node with state := f node.state }
    keyed := by
      intro k node hk
      rw [ExtTreeMap.getElem?_modify] at hk
      split at hk
      · next heq =>
        rw [compare_eq_iff_eq] at heq
        subst heq
        rcases Option.map_eq_some_iff.mp hk with ⟨old, hold, rfl⟩
        exact t.keyed _ old hold
      · exact t.keyed k node hk }

/-- Makes a node blank, where there is one. -/
def blankNode (t : PartialTreeView P) (index : NodeIndex) : PartialTreeView P :=
  t.modifyState index fun _ => .newBlank

/-- Adds an unmerged leaf position to a node. -/
def addUnmergedLeaf (t : PartialTreeView P) (index : NodeIndex) (leafPosition : Nat) :
    PartialTreeView P :=
  t.modifyState index (·.addUnmergedLeaf leafPosition)

/-- Removes an unmerged leaf position from a node. -/
def removeUnmergedLeaf (t : PartialTreeView P) (index : NodeIndex) (leafPosition : Nat) :
    PartialTreeView P :=
  t.modifyState index (·.removeUnmergedLeaf leafPosition)

/-- Takes a node out of the view. -/
def remove (t : PartialTreeView P) (index : NodeIndex) : PartialTreeView P :=
  { t with
    nodes := t.nodes.erase index.toLinear
    keyed := by
      intro k node hk
      rw [ExtTreeMap.getElem?_erase] at hk
      split at hk
      · cases hk
      · exact t.keyed k node hk }

/-- The number of unmerged leaf positions over the blank nodes of the view. -/
def totalUnmergedLeaves (t : PartialTreeView P) : Nat :=
  t.nodes.foldl (fun acc _ node =>
    match node.state.unmergedLeaves with
    | some leaves => acc + leaves.length
    | none => acc) 0

/-- `32 - n.leading_zeros()`: the number of bits of a number. -/
def bitLength (n : Nat) : Nat := if n = 0 then 0 else n.log2 + 1

/-- The depth that a tree of `count` leaves needs, the ceiling of the binary
logarithm. -/
def depthForMembers (count : Nat) : Nat :=
  if count = 0 then 0 else bitLength (count - 1)

/-- The node one level further down, as the growth re-indexes it. -/
def deepen (node : TreeNode P) : TreeNode P :=
  { node with index := ⟨node.index.depth + 1, node.index.position⟩ }

/-- The loop of `grow_tree`: re-inserts the nodes, one level further down. -/
def growNodes (old : List (Nat × TreeNode P)) (acc : ExtTreeMap Nat (TreeNode P)) :
    ExtTreeMap Nat (TreeNode P) :=
  old.foldl (fun m entry => m.insert (deepen entry.2).index.toLinear (deepen entry.2)) acc

private theorem keyed_growNodes (old : List (Nat × TreeNode P)) :
    ∀ acc : ExtTreeMap Nat (TreeNode P),
      (∀ (k : Nat) (node : TreeNode P), acc[k]? = some node → node.index.toLinear = k) →
      ∀ (k : Nat) (node : TreeNode P), (growNodes old acc)[k]? = some node →
        node.index.toLinear = k := by
  induction old with
  | nil => intro acc h; exact h
  | cons entry old ih =>
    intro acc h
    exact ih _ (keyed_insert h _)

/-- Adds a level: every node moves one level down, and keeps its position. -/
def growTree (t : PartialTreeView P) : PartialTreeView P where
  nodes := growNodes t.nodes.toList ∅
  ourLeaf := .leaf (t.treeDepth + 1) t.ourLeaf.position
  treeDepth := t.treeDepth + 1
  memberCount := t.memberCount
  keyed := keyed_growNodes _ _ (by simp)

/-- The number of leaves that the tree can hold. -/
def capacity (t : PartialTreeView P) : Nat := 2 ^ t.treeDepth

/-- Adds a level if the members do not fit; at most one. -/
def growIfNeeded (t : PartialTreeView P) (memberCount : Nat) : PartialTreeView P :=
  if depthForMembers memberCount > t.treeDepth then t.growTree else t

/-! ## Reading back after a write -/

/-- Two views with the same nodes are the same, up to their other fields. -/
theorem ext_get {s t : PartialTreeView P} (hleaf : s.ourLeaf = t.ourLeaf)
    (hdepth : s.treeDepth = t.treeDepth) (hcount : s.memberCount = t.memberCount)
    (h : ∀ i, s.get i = t.get i) : s = t := by
  apply PartialTreeView.ext
  · apply ExtTreeMap.ext_getElem?
    intro k
    have hk := h ⟨0, k⟩
    have hlinear : NodeIndex.toLinear ⟨0, k⟩ = k := by simp [NodeIndex.toLinear]
    simpa only [get, hlinear] using hk
  · exact hleaf
  · exact hdepth
  · exact hcount

theorem get_insert (t : PartialTreeView P) (node : TreeNode P) (i : NodeIndex) :
    (t.insert node).get i =
      if node.index.toLinear = i.toLinear then some node else t.get i := by
  show (t.nodes.insert node.index.toLinear node)[i.toLinear]? = _
  rw [ExtTreeMap.getElem?_insert]
  simp only [compare_eq_iff_eq]
  rfl

theorem get_modifyState (t : PartialTreeView P) (j : NodeIndex)
    (f : NodeState P → NodeState P) (i : NodeIndex) :
    (t.modifyState j f).get i =
      if j.toLinear = i.toLinear then
        (t.get i).map fun node => { node with state := f node.state }
      else t.get i := by
  show (t.nodes.modify j.toLinear _)[i.toLinear]? = _
  rw [ExtTreeMap.getElem?_modify]
  simp only [compare_eq_iff_eq]
  split
  · next h => rw [h]; rfl
  · rfl

@[simp] theorem get_setMemberCount (t : PartialTreeView P) (n : Nat) (i : NodeIndex) :
    (t.setMemberCount n).get i = t.get i := rfl

@[simp] theorem treeDepth_insert (t : PartialTreeView P) (node : TreeNode P) :
    (t.insert node).treeDepth = t.treeDepth := rfl

@[simp] theorem memberCount_insert (t : PartialTreeView P) (node : TreeNode P) :
    (t.insert node).memberCount = t.memberCount := rfl

@[simp] theorem treeDepth_modifyState (t : PartialTreeView P) (j : NodeIndex)
    (f : NodeState P → NodeState P) : (t.modifyState j f).treeDepth = t.treeDepth := rfl

@[simp] theorem memberCount_modifyState (t : PartialTreeView P) (j : NodeIndex)
    (f : NodeState P → NodeState P) : (t.modifyState j f).memberCount = t.memberCount := rfl

@[simp] theorem treeDepth_setMemberCount (t : PartialTreeView P) (n : Nat) :
    (t.setMemberCount n).treeDepth = t.treeDepth := rfl

@[simp] theorem memberCount_setMemberCount (t : PartialTreeView P) (n : Nat) :
    (t.setMemberCount n).memberCount = n := rfl

@[simp] theorem memberCount_growIfNeeded (t : PartialTreeView P) (n : Nat) :
    (t.growIfNeeded n).memberCount = t.memberCount := by
  unfold growIfNeeded
  split <;> rfl

theorem treeDepth_growIfNeeded (t : PartialTreeView P) (n : Nat) :
    (t.growIfNeeded n).treeDepth =
      if depthForMembers n > t.treeDepth then t.treeDepth + 1 else t.treeDepth := by
  unfold growIfNeeded
  split <;> rfl

/-! ## Agreement -/

section Agreement

variable {α : Type} {c : TreeNode P → α} {s t : PartialTreeView P}

/-- Two views hold nodes at the same keys, and nodes at one key have the same
projection `c`. -/
def Agree (c : TreeNode P → α) (s t : PartialTreeView P) : Prop :=
  s.nodes.map (fun _ node => c node) = t.nodes.map (fun _ node => c node)

theorem Agree.refl (t : PartialTreeView P) : Agree c t t := rfl

theorem Agree.symm (h : Agree c s t) : Agree c t s := Eq.symm h

theorem agree_iff : Agree c s t ↔ ∀ k : Nat, (s.nodes[k]?).map c = (t.nodes[k]?).map c := by
  constructor
  · intro h k
    have hk : (s.nodes.map fun _ node => c node)[k]? = (t.nodes.map fun _ node => c node)[k]? := by
      rw [h]
    simpa only [ExtTreeMap.getElem?_map] using hk
  · intro h
    apply ExtTreeMap.ext_getElem?
    intro k
    simpa only [ExtTreeMap.getElem?_map] using h k

theorem Agree.get (h : Agree c s t) (i : NodeIndex) : (s.get i).map c = (t.get i).map c :=
  agree_iff.mp h i.toLinear

/-- A coarser projection agrees where a finer one does. -/
theorem Agree.mono {β : Type} {d : TreeNode P → β} (h : Agree c s t)
    (hcd : ∀ m n, c m = c n → d m = d n) : Agree d s t := by
  rw [agree_iff] at h ⊢
  intro k
  have hk := h k
  cases hs : s.nodes[k]? <;> cases ht : t.nodes[k]? <;> simp_all
  exact hcd _ _ hk

theorem Agree.insert (h : Agree c s t) {m n : TreeNode P} (hi : m.index = n.index)
    (hc : c m = c n) : Agree c (s.insert m) (t.insert n) := by
  rw [agree_iff] at h ⊢
  intro k
  show ((s.nodes.insert m.index.toLinear m)[k]?).map c =
    ((t.nodes.insert n.index.toLinear n)[k]?).map c
  rw [ExtTreeMap.getElem?_insert, ExtTreeMap.getElem?_insert, hi]
  split
  · simp [hc]
  · exact h k

theorem Agree.modifyState (h : Agree c s t) (i : NodeIndex) {f : NodeState P → NodeState P}
    (hf : ∀ m n, c m = c n → c { m with state := f m.state } = c { n with state := f n.state }) :
    Agree c (s.modifyState i f) (t.modifyState i f) := by
  rw [agree_iff] at h ⊢
  intro k
  show ((s.nodes.modify i.toLinear _)[k]?).map c = ((t.nodes.modify i.toLinear _)[k]?).map c
  rw [ExtTreeMap.getElem?_modify, ExtTreeMap.getElem?_modify]
  split
  · have hi := h i.toLinear
    clear h
    cases hs : s.nodes[i.toLinear]? <;> cases ht : t.nodes[i.toLinear]? <;> simp_all
    exact hf _ _ hi
  · exact h k

private theorem map_growNodes (hi : ∀ m n, c m = c n → m.index = n.index)
    (hd : ∀ m n, c m = c n → c (deepen m) = c (deepen n)) :
    ∀ (xs ys : List (Nat × TreeNode P)) (a b : ExtTreeMap Nat (TreeNode P)),
      xs.map (fun p => c p.2) = ys.map (fun p => c p.2) →
      a.map (fun _ node => c node) = b.map (fun _ node => c node) →
      (growNodes xs a).map (fun _ node => c node) =
        (growNodes ys b).map (fun _ node => c node) := by
  intro xs
  induction xs with
  | nil =>
    intro ys a b hxy hab
    rw [List.map_nil, eq_comm, List.map_eq_nil_iff] at hxy
    subst hxy
    exact hab
  | cons x xs ih =>
    intro ys a b hxy hab
    cases ys with
    | nil => simp at hxy
    | cons y ys =>
      simp only [List.map_cons, List.cons.injEq] at hxy
      apply ih ys _ _ hxy.2
      apply ExtTreeMap.ext_getElem?
      intro k
      have hk : (a.map fun _ node => c node)[k]? = (b.map fun _ node => c node)[k]? := by
        rw [hab]
      have hidx : (deepen x.2).index = (deepen y.2).index := by
        simp only [deepen, hi _ _ hxy.1]
      simp only [ExtTreeMap.getElem?_map, ExtTreeMap.getElem?_insert, hidx] at hk ⊢
      split
      · simp [hd _ _ hxy.1]
      · exact hk

/-- Growth re-indexes agreeing views alike.  Out-of-range positions can make
two nodes collide, and then the order of the keys decides which one stays; the
order is the same in both views. -/
theorem Agree.growTree (h : Agree c s t) (hi : ∀ m n, c m = c n → m.index = n.index)
    (hd : ∀ m n, c m = c n → c (deepen m) = c (deepen n)) :
    Agree c s.growTree t.growTree := by
  apply map_growNodes hi hd
  · have hl := congrArg (fun m => m.toList.map Prod.snd) h
    simpa only [ExtTreeMap.toList_map, List.map_map, Function.comp_def] using hl
  · rfl

theorem Agree.growIfNeeded (h : Agree c s t) (hdepth : s.treeDepth = t.treeDepth)
    (hi : ∀ m n, c m = c n → m.index = n.index)
    (hd : ∀ m n, c m = c n → c (deepen m) = c (deepen n)) (count : Nat) :
    Agree c (s.growIfNeeded count) (t.growIfNeeded count) := by
  unfold PartialTreeView.growIfNeeded
  rw [hdepth]
  split
  · exact h.growTree hi hd
  · exact h

end Agreement

/-! ## The blank fold -/

section FoldBlank

variable {β : Type}

/-- The highest key in use.  No node is present beyond it. -/
def maxKey (t : PartialTreeView P) : Nat := t.nodes.keys.foldr max 0

private theorem le_foldr_max {k : Nat} {ks : List Nat} (h : k ∈ ks) : k ≤ ks.foldr max 0 := by
  induction ks with
  | nil => cases h
  | cons a ks ih =>
    rw [List.foldr_cons]
    rcases List.mem_cons.mp h with rfl | h
    · exact le_max_left _ _
    · exact (ih h).trans (le_max_right _ _)

theorem get_eq_none_of_maxKey_lt {t : PartialTreeView P} {i : NodeIndex}
    (h : t.maxKey < i.toLinear) : t.get i = none := by
  apply ExtTreeMap.getElem?_eq_none
  intro hmem
  have hle := le_foldr_max (ExtTreeMap.mem_keys.mpr hmem)
  rw [maxKey] at h
  omega

/-- The walk down through the blank nodes: `absent` where the view has no
node, `populated` at a node with a key, `blankLeaf` at a blank leaf, and
`blank` of the two children elsewhere. -/
def foldBlankAux (t : PartialTreeView P) (absent : β) (populated : NodeIndex → β)
    (blankLeaf : β) (blank : β → β → β) : Nat → NodeIndex → β
  | 0, _ => absent
  | n + 1, index =>
    match t.get index with
    | some node =>
      if node.state.isPopulated then populated index
      else if index.isLeaf t.treeDepth then blankLeaf
      else
        blank (foldBlankAux t absent populated blankLeaf blank n index.leftChild)
          (foldBlankAux t absent populated blankLeaf blank n index.rightChild)
    | none => absent

/-- The walk from `index`.  The linear index grows on the way down and the
walk stops where the view has no node, so the fuel does not run out. -/
def foldBlank (t : PartialTreeView P) (absent : β) (populated : NodeIndex → β)
    (blankLeaf : β) (blank : β → β → β) (index : NodeIndex) : β :=
  foldBlankAux t absent populated blankLeaf blank (t.maxKey + 1) index

private theorem foldBlankAux_fuel (t : PartialTreeView P) (absent : β)
    (populated : NodeIndex → β) (blankLeaf : β) (blank : β → β → β) :
    ∀ (m n : Nat) (i : NodeIndex), t.maxKey < m + i.toLinear → t.maxKey < n + i.toLinear →
      foldBlankAux t absent populated blankLeaf blank m i =
        foldBlankAux t absent populated blankLeaf blank n i := by
  intro m
  induction m with
  | zero =>
    intro n i hm _
    have hnone : t.get i = none := get_eq_none_of_maxKey_lt (by omega)
    cases n with
    | zero => rfl
    | succ n => simp [foldBlankAux, hnone]
  | succ m ih =>
    intro n i hm hn
    have hl := i.toLinear_leftChild
    have hr := i.toLinear_rightChild
    cases n with
    | zero =>
      have hnone : t.get i = none := get_eq_none_of_maxKey_lt (by omega)
      simp [foldBlankAux, hnone]
    | succ n =>
      rw [foldBlankAux, foldBlankAux, ih n i.leftChild (by omega) (by omega),
        ih n i.rightChild (by omega) (by omega)]

/-- The unfolding of the walk, with no fuel in sight. -/
theorem foldBlank_eq (t : PartialTreeView P) (absent : β) (populated : NodeIndex → β)
    (blankLeaf : β) (blank : β → β → β) (i : NodeIndex) :
    foldBlank t absent populated blankLeaf blank i =
      match t.get i with
      | some node =>
        if node.state.isPopulated then populated i
        else if i.isLeaf t.treeDepth then blankLeaf
        else
          blank (foldBlank t absent populated blankLeaf blank i.leftChild)
            (foldBlank t absent populated blankLeaf blank i.rightChild)
      | none => absent := by
  have hl := i.toLinear_leftChild
  have hr := i.toLinear_rightChild
  rw [foldBlank, foldBlankAux, foldBlank, foldBlank,
    foldBlankAux_fuel t absent populated blankLeaf blank t.maxKey (t.maxKey + 1) i.leftChild
      (by omega) (by omega),
    foldBlankAux_fuel t absent populated blankLeaf blank t.maxKey (t.maxKey + 1) i.rightChild
      (by omega) (by omega)]

/-- The induction that goes with the walk: a property of an index may assume
itself for both children at a blank internal node that is present. -/
theorem blankInduction (t : PartialTreeView P) {motive : NodeIndex → Prop}
    (step : ∀ i, (∀ node, t.get i = some node → node.state.isPopulated = false →
      i.isLeaf t.treeDepth = false → motive i.leftChild ∧ motive i.rightChild) → motive i)
    (i : NodeIndex) : motive i := by
  have main : ∀ (n : Nat) (j : NodeIndex), t.maxKey < n + j.toLinear → motive j := by
    intro n
    induction n with
    | zero =>
      intro j hj
      apply step
      intro node hnode
      rw [get_eq_none_of_maxKey_lt (by omega)] at hnode
      cases hnode
    | succ n ih =>
      intro j hj
      have hl := j.toLinear_leftChild
      have hr := j.toLinear_rightChild
      apply step
      intro _ _ _ _
      exact ⟨ih _ (by omega), ih _ (by omega)⟩
  exact main (t.maxKey + 1) i (by omega)

end FoldBlank

end PartialTreeView

end Trelis.Cocoa
