import Trelis.Lib.Bytes
import Mathlib.Data.Nat.Bitwise
import Mathlib.Tactic.Ring

/-!
# Tree indices

`NodeIndex` of `tree/index.rs` and the paths of `tree/path.rs`.  A node is
named by its depth and by its position at that depth, the root being `(0, 0)`.

Depths and positions are natural numbers here.  The Rust fields are `u32`, and
an operation whose result does not fit panics there; the model gives such a
call the unbounded result.  The same operations over machine words are in
`Cocoa/Machine.lean`.

Two groups of facts follow the definitions.

* Linear indices.  `toLinear` is the key of the tree map, and it is injective
  on the indices whose position exists at their depth (`toLinear_inj`).
* Ancestors.  `ancestor i k` is the node `k` levels above `i`, and
  `Under i v` says that `i` lies in the subtree of `v`.  The subtrees of two
  siblings are disjoint (`not_under_sibling`).
-/

namespace Trelis.Cocoa

/-- The index of a node: depth `0` is the root. -/
structure NodeIndex where
  depth : Nat
  position : Nat
deriving DecidableEq, Repr

namespace NodeIndex

/-- The root. -/
def root : NodeIndex := ⟨0, 0⟩

/-- The leaf at a position of a tree of the given depth. -/
def leaf (treeDepth leafPosition : Nat) : NodeIndex := ⟨treeDepth, leafPosition⟩

/-- `true` when the node is on the leaf level of a tree of the given depth. -/
def isLeaf (i : NodeIndex) (treeDepth : Nat) : Bool := i.depth == treeDepth

/-- The parent, or `none` at depth `0`. -/
def parent (i : NodeIndex) : Option NodeIndex :=
  if i.depth = 0 then none else some ⟨i.depth - 1, i.position / 2⟩

/-- The left child. -/
def leftChild (i : NodeIndex) : NodeIndex := ⟨i.depth + 1, i.position * 2⟩

/-- The right child. -/
def rightChild (i : NodeIndex) : NodeIndex := ⟨i.depth + 1, i.position * 2 + 1⟩

/-- The sibling, or `none` at depth `0`. -/
def sibling (i : NodeIndex) : Option NodeIndex :=
  if i.depth = 0 then none else some ⟨i.depth, i.position ^^^ 1⟩

/-- `true` when `other` is a proper ancestor of this node. -/
def isDescendantOf (i other : NodeIndex) : Bool :=
  if other.depth ≥ i.depth then false
  else i.position >>> (i.depth - other.depth) == other.position

/-- The level-order number of a node, the key of the tree map. -/
def toLinear (i : NodeIndex) : Nat := 2 ^ i.depth - 1 + i.position

/-- The position exists at the depth. -/
def InRange (i : NodeIndex) : Prop := i.position < 2 ^ i.depth

instance (i : NodeIndex) : Decidable i.InRange := by unfold InRange; infer_instance

/-! ## Linear indices -/

/-- Two in-range nodes with the same linear index are the same node. -/
theorem toLinear_inj {i j : NodeIndex} (hi : i.InRange) (hj : j.InRange)
    (h : i.toLinear = j.toLinear) : i = j := by
  obtain ⟨d, p⟩ := i
  obtain ⟨e, q⟩ := j
  simp only [InRange, toLinear] at hi hj h
  have hd := Nat.one_le_two_pow (n := d)
  have he := Nat.one_le_two_pow (n := e)
  rcases Nat.lt_trichotomy d e with hlt | rfl | hgt
  · have hle : 2 ^ (d + 1) ≤ 2 ^ e := Nat.pow_le_pow_right (by decide) hlt
    rw [Nat.pow_succ] at hle
    omega
  · rw [show p = q by omega]
  · have hle : 2 ^ (e + 1) ≤ 2 ^ d := Nat.pow_le_pow_right (by decide) hgt
    rw [Nat.pow_succ] at hle
    omega

/-- The children come after their parent in level order. -/
theorem toLinear_leftChild (i : NodeIndex) : i.leftChild.toLinear = 2 * i.toLinear + 1 := by
  have h := Nat.one_le_two_pow (n := i.depth)
  simp only [toLinear, leftChild, Nat.pow_succ]
  omega

theorem toLinear_rightChild (i : NodeIndex) : i.rightChild.toLinear = 2 * i.toLinear + 2 := by
  have h := Nat.one_le_two_pow (n := i.depth)
  simp only [toLinear, rightChild, Nat.pow_succ]
  omega

/-! ## Siblings -/

theorem sibling_depth {i s : NodeIndex} (h : i.sibling = some s) : s.depth = i.depth := by
  unfold sibling at h
  split at h
  · cases h
  · cases h; rfl

theorem sibling_isSome_iff {i : NodeIndex} : i.sibling.isSome ↔ i.depth ≠ 0 := by
  unfold sibling
  split <;> simp_all

theorem xor_one_ne (p : Nat) : p ^^^ 1 ≠ p := by
  intro h
  have : p ^^^ (p ^^^ 1) = p ^^^ p := by rw [h]
  simp at this

/-- A node is the sibling of its sibling. -/
theorem sibling_sibling {i s : NodeIndex} (h : i.sibling = some s) : s.sibling = some i := by
  have hd := sibling_depth h
  unfold sibling at h ⊢
  split at h
  · cases h
  · next h0 =>
    cases h
    simp [h0]

theorem sibling_ne {i s : NodeIndex} (h : i.sibling = some s) : s ≠ i := by
  unfold sibling at h
  split at h
  · cases h
  · cases h
    intro he
    exact xor_one_ne i.position (congrArg NodeIndex.position he)

/-! ## Ancestors and subtrees -/

/-- The node `k` levels above `i`. -/
def ancestor (i : NodeIndex) (k : Nat) : NodeIndex := ⟨i.depth - k, i.position >>> k⟩

/-- `i` lies in the subtree of `v`: it is `v` or a descendant of `v`. -/
def Under (i v : NodeIndex) : Prop :=
  v.depth ≤ i.depth ∧ i.position >>> (i.depth - v.depth) = v.position

instance (i v : NodeIndex) : Decidable (i.Under v) := by unfold Under; infer_instance

theorem isDescendantOf_iff {i v : NodeIndex} :
    i.isDescendantOf v ↔ v.depth < i.depth ∧ i.Under v := by
  unfold isDescendantOf Under
  split
  · next h => simp only [Bool.false_eq_true, false_iff]; omega
  · next h =>
    simp only [beq_iff_eq]
    constructor
    · intro he; exact ⟨by omega, by omega, he⟩
    · intro he; exact he.2.2

theorem Under.refl (i : NodeIndex) : i.Under i := ⟨le_rfl, by simp⟩

theorem Under.trans {i j k : NodeIndex} (hij : i.Under j) (hjk : j.Under k) : i.Under k := by
  obtain ⟨hd, hp⟩ := hij
  obtain ⟨hd', hp'⟩ := hjk
  refine ⟨hd'.trans hd, ?_⟩
  rw [← hp', ← hp, ← Nat.shiftRight_add]
  congr 1
  omega

theorem leftChild_under (i : NodeIndex) : i.leftChild.Under i := by
  refine ⟨Nat.le_succ _, ?_⟩
  simp [leftChild, Nat.shiftRight_eq_div_pow]

theorem rightChild_under (i : NodeIndex) : i.rightChild.Under i := by
  refine ⟨Nat.le_succ _, ?_⟩
  simp only [rightChild, Nat.add_sub_cancel_left, Nat.shiftRight_eq_div_pow]
  omega

/-- At most one node of each depth has `i` in its subtree. -/
theorem Under.unique {i v w : NodeIndex} (hv : i.Under v) (hw : i.Under w)
    (hd : v.depth = w.depth) : v = w := by
  obtain ⟨dv, pv⟩ := v
  obtain ⟨dw, pw⟩ := w
  obtain ⟨_, hpv⟩ := hv
  obtain ⟨_, hpw⟩ := hw
  simp only at hd hpv hpw
  subst hd
  rw [← hpv, ← hpw]

/-- `i` lies below `v` when it is `v` or a descendant of `v`. -/
theorem under_iff {i v : NodeIndex} : i.Under v ↔ i = v ∨ i.isDescendantOf v := by
  rw [isDescendantOf_iff]
  constructor
  · intro h
    rcases Nat.lt_or_ge v.depth i.depth with hlt | hge
    · exact .inr ⟨hlt, h⟩
    · exact .inl ((Under.refl i).unique h (Nat.le_antisymm hge h.1))
  · rintro (rfl | ⟨_, h⟩)
    · exact Under.refl i
    · exact h

/-- The subtrees of two siblings have no node in common. -/
theorem not_under_sibling {i v s : NodeIndex} (hs : v.sibling = some s) (hv : i.Under v) :
    ¬ i.Under s := by
  intro h
  exact sibling_ne hs (h.unique hv (sibling_depth hs))

end NodeIndex

/-! ## Paths -/

/-- The loop of `path_to_root`: `current` and then its ancestors.  The fuel
counts the levels that are left to climb. -/
def pathToRootAux : Nat → NodeIndex → List NodeIndex
  | 0, current => [current]
  | n + 1, current =>
    match current.parent with
    | some parent => current :: pathToRootAux n parent
    | none => [current]

/-- The path from a leaf to the root, both included.  A node at depth `d` has
`d` proper ancestors, so the fuel does not run out (`pathToRoot_eq_cons`). -/
def pathToRoot (leaf : NodeIndex) : List NodeIndex := pathToRootAux leaf.depth leaf

/-- The unfolding of the loop, with no fuel in sight. -/
theorem pathToRoot_eq_cons {leaf parent : NodeIndex} (h : leaf.parent = some parent) :
    pathToRoot leaf = leaf :: pathToRoot parent := by
  have hd : leaf.depth = parent.depth + 1 := by
    unfold NodeIndex.parent at h
    split at h
    · cases h
    · cases h
      show leaf.depth = leaf.depth - 1 + 1
      omega
  rw [pathToRoot, hd]
  show (match leaf.parent with
    | some parent => leaf :: pathToRootAux _ parent
    | none => [leaf]) = _
  rw [h]
  rfl

/-- The path of a node at depth `d` lists its ancestors, `0` to `d` levels
up. -/
theorem pathToRoot_eq_map (leaf : NodeIndex) :
    pathToRoot leaf = (List.range (leaf.depth + 1)).map leaf.ancestor := by
  rcases leaf with ⟨d, p⟩
  induction d generalizing p with
  | zero => rfl
  | succ d ih =>
    have hparent : NodeIndex.parent ⟨d + 1, p⟩ = some ⟨d, p / 2⟩ := by
      simp [NodeIndex.parent]
    rw [pathToRoot_eq_cons hparent, ih, List.range_succ_eq_map (n := d + 1), List.map_cons,
      List.map_map]
    congr 1
    apply List.map_congr_left
    intro k _
    show NodeIndex.ancestor ⟨d, p / 2⟩ k = NodeIndex.ancestor ⟨d + 1, p⟩ (k + 1)
    unfold NodeIndex.ancestor
    rw [Nat.shiftRight_succ_inside, Nat.add_sub_add_right]

@[simp] theorem pathToRoot_length (leaf : NodeIndex) :
    (pathToRoot leaf).length = leaf.depth + 1 := by
  simp [pathToRoot_eq_map]

end Trelis.Cocoa
