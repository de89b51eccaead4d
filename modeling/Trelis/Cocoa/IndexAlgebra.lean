import Trelis.Lib.Forest
import Trelis.Cocoa.WellFormed

/-!
# The algebra of the tree indices

The formulas of `tree/index.rs` and `tree/path.rs` against the tree that they stand
for.  The indices are a forest under `NodeIndex.parent`, in which `climb` counts the
steps to an ancestor (`climb_parent`).

* The level-order numbers of the indices down to depth 32 are the numbers below
  `2 ^ 33 - 1`, one each (`fromLinear_toLinear`, `toLinear_fromLinear`).
* The shift of `is_descendant_of` and the loops of `lowest_common_ancestor` find
  what the steps to the parent find.
* Growth is an embedding.  Every index moves one level down and keeps its position
  (`deepen`), below the left child of the new root, and the nodes move with their
  indices (`get_growTree_eq_some`).
-/

namespace Trelis.Cocoa

open PartialTreeView

variable {P : Primitives}

namespace NodeIndex

variable {i j : NodeIndex}

/-! ## Level-order numbers -/

/-- What the level-order number of an index is made of. -/
theorem toLinear_succ (i : NodeIndex) : i.toLinear + 1 = 2 ^ i.depth + i.position := by
  have hpos : 1 ≤ 2 ^ i.depth := Nat.one_le_two_pow
  unfold toLinear
  omega

theorem log2_toLinear_succ (h : i.InRange) : (i.toLinear + 1).log2 = i.depth := by
  have hrange : i.position < 2 ^ i.depth := h
  rw [toLinear_succ, Nat.log2_eq_iff (by omega), Nat.pow_succ]
  omega

/-! ## Steps to the root -/

theorem parent_of_root_level (h : i.depth = 0) : i.parent = none := if_pos h

theorem parent_of_deeper (h : i.depth ≠ 0) : i.parent = some ⟨i.depth - 1, i.position / 2⟩ :=
  if_neg h

theorem sibling_of_deeper (h : i.depth ≠ 0) : i.sibling = some ⟨i.depth, i.position ^^^ 1⟩ :=
  if_neg h

theorem graded_parent : Graded parent depth := by
  intro i p hp
  by_cases hdepth : i.depth = 0
  · rw [parent_of_root_level hdepth] at hp
    cases hp
  · rw [parent_of_deeper hdepth] at hp
    cases hp
    show i.depth = i.depth - 1 + 1
    omega

/-- The ancestors of an index are those of the formula, up to the root level. -/
theorem climb_parent (i : NodeIndex) (k : Nat) :
    climb parent k i = if k ≤ i.depth then some (i.ancestor k) else none := by
  induction k generalizing i with
  | zero => rfl
  | succ k ih =>
    show (i.parent).bind (climb parent k) = _
    by_cases hdepth : i.depth = 0
    · rw [parent_of_root_level hdepth, if_neg (by omega)]
      rfl
    · rw [parent_of_deeper hdepth, Option.bind_some, ih]
      have hancestor : ancestor ⟨i.depth - 1, i.position / 2⟩ k = i.ancestor (k + 1) := by
        unfold ancestor
        rw [Nat.shiftRight_succ_inside, Nat.sub_sub, Nat.add_comm 1 k]
      by_cases hk : k + 1 ≤ i.depth
      · rw [if_pos (show k ≤ i.depth - 1 by omega), if_pos hk, hancestor]
      · rw [if_neg (show ¬ k ≤ i.depth - 1 by omega), if_neg hk]

/-- An index is below another one where the steps to the parent lead there. -/
theorem under_iff_climb : i.Under j ↔ ∃ k, climb parent k i = some j := by
  constructor
  · intro hboth
    rcases hboth with ⟨hdepth, hposition⟩
    refine ⟨i.depth - j.depth, ?_⟩
    rw [climb_parent, if_pos (Nat.sub_le _ _), ancestor, hposition, Nat.sub_sub_self hdepth]
  · intro hex
    rcases hex with ⟨k, hk⟩
    rw [climb_parent] at hk
    by_cases hle : k ≤ i.depth
    · rw [if_pos hle, Option.some.injEq] at hk
      rw [← hk]
      refine ⟨Nat.sub_le _ _, ?_⟩
      show i.position >>> (i.depth - (i.depth - k)) = i.position >>> k
      rw [Nat.sub_sub_self hle]
    · rw [if_neg hle] at hk
      cases hk

/-- Every index that exists is below the root. -/
theorem InRange.above_root (h : i.InRange) : Above parent i root := by
  refine ⟨i.depth, ?_⟩
  rw [climb_parent, if_pos (Nat.le_refl _), ancestor, Nat.sub_self, Nat.shiftRight_eq_div_pow,
    Nat.div_eq_of_lt h]
  rfl

/-- `lowest_common_ancestor`: the deeper of the two nodes climbs to the level of the
other, and then both climb until they meet.  No result where an `expect` finds no
parent. -/
def lowestCommonAncestor (a b : NodeIndex) : Option NodeIndex := do
  let nodeA ← climbTo parent depth b.depth a.depth a
  let nodeB ← climbTo parent depth nodeA.depth b.depth b
  climbTogether parent nodeA.depth nodeA nodeB

theorem lowestCommonAncestor_of_inRange {a b : NodeIndex} (ha : a.InRange) (hb : b.InRange) :
    ∃ c, lowestCommonAncestor a b = some c ∧ LowestCommonAncestor parent a b c := by
  obtain ⟨nodeA, nodeB, c, hA, hB, hmeet, hlowest⟩ :=
    climbTo_climbTogether graded_parent ha.above_root hb.above_root
  refine ⟨c, ?_, hlowest⟩
  refine bind_eq_of_some hA ?_
  exact bind_eq_of_some hB hmeet

/-! ## One level further down -/

theorem deepen_injective : Function.Injective deepen := by
  intro i j h
  obtain ⟨hdepth, hposition⟩ := NodeIndex.mk.inj h
  obtain ⟨d, p⟩ := i
  obtain ⟨e, q⟩ := j
  rw [show d = e from Nat.succ.inj hdepth, show p = q from hposition]

theorem InRange.deepen (h : i.InRange) : i.deepen.InRange :=
  Nat.lt_trans h (Nat.pow_lt_pow_right (by decide) (Nat.lt_succ_self _))

theorem parent_deepen (h : i.depth ≠ 0) : i.deepen.parent = i.parent.map deepen := by
  have hdeepen : i.deepen.depth ≠ 0 := Nat.succ_ne_zero i.depth
  rw [parent_of_deeper h, parent_of_deeper hdeepen, Option.map_some]
  show some (NodeIndex.mk (i.depth + 1 - 1) (i.position / 2)) =
    some (NodeIndex.mk (i.depth - 1 + 1) (i.position / 2))
  rw [show i.depth + 1 - 1 = i.depth - 1 + 1 by omega]

theorem sibling_deepen (h : i.depth ≠ 0) : i.deepen.sibling = i.sibling.map deepen := by
  have hdeepen : i.deepen.depth ≠ 0 := Nat.succ_ne_zero i.depth
  rw [sibling_of_deeper h, sibling_of_deeper hdeepen]
  rfl

end NodeIndex

/-! ## The formulas, in machine arithmetic -/

namespace Machine

/-- `leading_zeros` of a word of `w` bits. -/
def leadingZeros (w n : Nat) : Nat := w - bitLength n

/-- `from_linear`. -/
def fromLinear (linear : Nat) : Option NodeIndex :=
  if linear = 0 then pure .root
  else do
    let next ← addWord 64 linear 1
    let used ← subWord 64 (leadingZeros 64 next)
    let depth ← subWord used 1
    let level ← shlWord 64 1 depth
    let nodesBefore ← subWord level 1
    let position ← subWord linear nodesBefore
    pure ⟨depth, position % 2 ^ 32⟩

/-- `is_descendant_of`, whose shift panics from a distance of 32. -/
def isDescendantOf (i other : NodeIndex) : Option Bool :=
  if other.depth ≥ i.depth then pure false
  else do
    let depthDiff ← subWord i.depth other.depth
    let ancestorPos ← shrWord 32 i.position depthDiff
    pure (ancestorPos == other.position)

variable {i j : NodeIndex}

/-- The depth is the logarithm of the next number. -/
theorem fromLinear_of_lt {n : Nat} (h : n + 1 < 2 ^ 64) :
    fromLinear n = some ⟨(n + 1).log2, (n + 1 - 2 ^ (n + 1).log2) % 2 ^ 32⟩ := by
  have hle : 2 ^ (n + 1).log2 ≤ n + 1 := Nat.log2_self_le (Nat.succ_ne_zero n)
  have hdepth : (n + 1).log2 < 64 := (Nat.log2_lt (Nat.succ_ne_zero n)).mpr h
  have hpos : 1 ≤ 2 ^ (n + 1).log2 := Nat.one_le_two_pow
  have hzeros : leadingZeros 64 (n + 1) = 63 - (n + 1).log2 := by
    unfold leadingZeros bitLength
    rw [if_neg (Nat.succ_ne_zero n)]
    omega
  have hlevel : 1 <<< (n + 1).log2 % 2 ^ 64 = 2 ^ (n + 1).log2 := by
    rw [Nat.one_shiftLeft, Nat.mod_eq_of_lt (Nat.pow_lt_pow_right (by decide) hdepth)]
  unfold fromLinear
  by_cases hzero : n = 0
  · subst hzero
    rfl
  · rw [if_neg hzero]
    refine bind_eq_of_some (addWord_of_lt h) ?_
    rw [hzeros]
    refine bind_eq_of_some (if_pos (by omega)) ?_
    refine bind_eq_of_some (if_pos (by omega)) ?_
    rw [show 64 - (63 - (n + 1).log2) - 1 = (n + 1).log2 by omega]
    refine bind_eq_of_some (if_pos hdepth) ?_
    rw [hlevel]
    refine bind_eq_of_some (if_pos hpos) ?_
    refine bind_eq_of_some (if_pos (by omega)) ?_
    rw [show n - (2 ^ (n + 1).log2 - 1) = n + 1 - 2 ^ (n + 1).log2 by omega]
    rfl

/-- Down to depth 32, the number of an index fits, and leads back to it. -/
theorem fromLinear_toLinear (hdepth : i.depth ≤ 32) (h : i.InRange) :
    toLinear i = some i.toLinear ∧ i.toLinear < 2 ^ 33 - 1 ∧ fromLinear i.toLinear = some i := by
  have hrange : i.position < 2 ^ i.depth := h
  have hpow : 2 ^ i.depth ≤ 2 ^ 32 := Nat.pow_le_pow_right (by decide) hdepth
  have hsucc := NodeIndex.toLinear_succ i
  have hshallow : Shallow i := ⟨by omega, by omega⟩
  refine ⟨?_, by omega, ?_⟩
  · rw [toLinear_eq, if_pos hshallow.addressable]
  · rw [fromLinear_of_lt (by omega), NodeIndex.log2_toLinear_succ h, NodeIndex.toLinear_succ,
      Nat.add_sub_cancel_left, Nat.mod_eq_of_lt (by omega)]

/-- Every number below the bound belongs to an index that exists. -/
theorem toLinear_fromLinear {n : Nat} (h : n < 2 ^ 33 - 1) :
    ∃ i, fromLinear n = some i ∧ i.depth ≤ 32 ∧ i.InRange ∧ toLinear i = some n := by
  have hle : 2 ^ (n + 1).log2 ≤ n + 1 := Nat.log2_self_le (Nat.succ_ne_zero n)
  have hlt : n + 1 < 2 ^ ((n + 1).log2 + 1) := Nat.lt_log2_self
  have hdepth : (n + 1).log2 < 33 := (Nat.log2_lt (Nat.succ_ne_zero n)).mpr (by omega)
  have hpow : 2 ^ (n + 1).log2 ≤ 2 ^ 32 := Nat.pow_le_pow_right (by decide) (by omega)
  rw [Nat.pow_succ] at hlt
  have hfrom := fromLinear_of_lt (n := n) (by omega)
  rw [Nat.mod_eq_of_lt (by omega)] at hfrom
  have hrange : NodeIndex.InRange ⟨(n + 1).log2, n + 1 - 2 ^ (n + 1).log2⟩ := by
    show n + 1 - 2 ^ (n + 1).log2 < 2 ^ (n + 1).log2
    omega
  have hnumber : NodeIndex.toLinear ⟨(n + 1).log2, n + 1 - 2 ^ (n + 1).log2⟩ = n := by
    have hsucc := NodeIndex.toLinear_succ ⟨(n + 1).log2, n + 1 - 2 ^ (n + 1).log2⟩
    simp only at hsucc
    omega
  refine ⟨_, hfrom, by show (n + 1).log2 ≤ 32; omega, hrange, ?_⟩
  rw [(fromLinear_toLinear (by show (n + 1).log2 ≤ 32; omega) hrange).1, hnumber]

/-- Down to depth 31 the shift is not too long. -/
theorem isDescendantOf_eq (hdepth : i.depth ≤ 31) :
    isDescendantOf i j = some (i.isDescendantOf j) := by
  unfold isDescendantOf NodeIndex.isDescendantOf
  by_cases hge : j.depth ≥ i.depth
  · rw [if_pos hge, if_pos hge]
    rfl
  · rw [if_neg hge, if_neg hge]
    refine bind_eq_of_some (if_pos (by omega)) ?_
    exact bind_eq_of_some (if_pos (by omega)) rfl

/-- A proper ancestor is one or more steps away. -/
theorem isDescendantOf_iff_climb :
    i.isDescendantOf j ↔ ∃ k, 1 ≤ k ∧ climb NodeIndex.parent k i = some j := by
  rw [NodeIndex.isDescendantOf_iff, NodeIndex.under_iff_climb]
  constructor
  · intro hboth
    rcases hboth with ⟨hdepth, k, hk⟩
    have hsteps := NodeIndex.graded_parent.depth_climb hk
    exact ⟨k, by omega, hk⟩
  · intro hex
    rcases hex with ⟨k, hpos, hk⟩
    have hsteps := NodeIndex.graded_parent.depth_climb hk
    exact ⟨by omega, k, hk⟩

/-- The children of an index down to depth 31 are words. -/
theorem children_of_inRange (hdepth : i.depth ≤ 31) (h : i.InRange) :
    leftChild i = some i.leftChild ∧ rightChild i = some i.rightChild := by
  have hrange : i.position < 2 ^ i.depth := h
  have hpow : 2 ^ i.depth ≤ 2 ^ 31 := Nat.pow_le_pow_right (by decide) hdepth
  have hdeeper : addWord 32 i.depth 1 = some (i.depth + 1) := addWord_of_lt (by omega)
  have hdouble : mulWord 32 i.position 2 = some (i.position * 2) := mulWord_of_lt (by omega)
  constructor
  · refine bind_eq_of_some hdeeper ?_
    exact bind_eq_of_some hdouble rfl
  · refine bind_eq_of_some hdeeper ?_
    refine bind_eq_of_some hdouble ?_
    exact bind_eq_of_some (addWord_of_lt (by omega)) rfl

end Machine

/-! ## Growth -/

/-- `f` carries the tree of the indices below the left child of the root: it keeps
parents, children and siblings. -/
structure NodeIndex.Embedding (f : NodeIndex → NodeIndex) : Prop where
  injective : Function.Injective f
  inRange : ∀ i, i.InRange → (f i).InRange
  root : Machine.leftChild .root = some (f .root)
  parent : ∀ i, i.depth ≠ 0 → (f i).parent = i.parent.map f
  sibling : ∀ i, i.depth ≠ 0 → (f i).sibling = i.sibling.map f
  leftChild : ∀ i, i.depth ≤ 30 → i.InRange →
    Machine.leftChild i = some i.leftChild ∧ Machine.leftChild (f i) = some (f i.leftChild)
  rightChild : ∀ i, i.depth ≤ 30 → i.InRange →
    Machine.rightChild i = some i.rightChild ∧ Machine.rightChild (f i) = some (f i.rightChild)

theorem NodeIndex.embedding_deepen : Embedding deepen where
  injective := deepen_injective
  inRange := fun _ h => h.deepen
  root := rfl
  parent := fun _ h => parent_deepen h
  sibling := fun _ h => sibling_deepen h
  leftChild := by
    intro i hdepth h
    have hdeepen : i.deepen.depth ≤ 31 := Nat.succ_le_succ hdepth
    exact ⟨(Machine.children_of_inRange (by omega) h).1,
      (Machine.children_of_inRange hdeepen h.deepen).1⟩
  rightChild := by
    intro i hdepth h
    have hdeepen : i.deepen.depth ≤ 31 := Nat.succ_le_succ hdepth
    exact ⟨(Machine.children_of_inRange (by omega) h).2,
      (Machine.children_of_inRange hdeepen h.deepen).2⟩

namespace PartialTreeView

variable {t t' : PartialTreeView P}

/-- Where all the nodes for a key are one node, the loop leaves that node there. -/
theorem getElem?_growNodes_of_unique {old : List (Nat × TreeNode P)} {key : Nat}
    {node : TreeNode P} {acc : Std.ExtTreeMap Nat (TreeNode P)}
    (hsome : acc[key]? = some node ∨ ∃ entry ∈ old, (deepen entry.2).index.toLinear = key)
    (hunique : ∀ entry ∈ old, (deepen entry.2).index.toLinear = key → deepen entry.2 = node) :
    (growNodes old acc)[key]? = some node := by
  induction old generalizing acc with
  | nil =>
    obtain hacc | ⟨entry, hmem, _⟩ := hsome
    · exact hacc
    · cases hmem
  | cons entry rest ih =>
    refine ih ?_ fun e he => hunique e (List.mem_cons_of_mem entry he)
    rw [Std.ExtTreeMap.getElem?_insert]
    by_cases hkey : (deepen entry.2).index.toLinear = key
    · rw [if_pos (by simpa using hkey)]
      exact .inl (congrArg some (hunique entry List.mem_cons_self hkey))
    · rw [if_neg (by simpa using hkey)]
      obtain hacc | ⟨e, he, hdeep⟩ := hsome
      · exact .inl hacc
      · obtain rfl | hrest := List.mem_cons.mp he
        · exact absurd hdeep hkey
        · exact .inr ⟨e, hrest, hdeep⟩

/-- What growth makes of a view: each node moves with its index, and nothing else is
in the new tree. -/
structure GrowsTo (t t' : PartialTreeView P) : Prop where
  treeDepth : t'.treeDepth = t.treeDepth + 1
  memberCount : t'.memberCount = t.memberCount
  ourLeaf : t.ourLeaf.depth = t.treeDepth → t'.ourLeaf = t.ourLeaf.deepen
  get_deepen : ∀ i : NodeIndex, i.InRange →
    t'.get i.deepen = (t.get i).map fun node => ⟨i.deepen, node.state⟩
  get_other : ∀ j : NodeIndex, j.InRange → (∀ i : NodeIndex, i.InRange → j ≠ i.deepen) →
    t'.get j = none

section Stored

variable (hstored : ∀ (key : Nat) (node : TreeNode P), t.nodes[key]? = some node →
  node.index.InRange)
include hstored

theorem index_of_get_growTree {j : NodeIndex} {node : TreeNode P} (hj : j.InRange)
    (hget : t.growTree.get j = some node) :
    ∃ old, t.get old.index = some old ∧ j = old.index.deepen ∧ node = deepen old := by
  obtain ⟨old, hold, rfl⟩ := get_growTree hget
  have hrange : old.index.deepen.InRange := (hstored _ old hold).deepen
  have hkey : old.index.deepen.toLinear = j.toLinear := t.growTree.keyed _ _ hget
  exact ⟨old, hold, (NodeIndex.toLinear_inj hrange hj hkey).symm, rfl⟩

theorem get_growTree_of_get {old : TreeNode P} (hold : t.get old.index = some old) :
    t.growTree.get old.index.deepen = some (deepen old) := by
  have hrange := (hstored _ old hold).deepen
  refine getElem?_growNodes_of_unique (.inr ⟨(old.index.toLinear, old), ?_, rfl⟩) ?_
  · exact Std.ExtTreeMap.mem_toList_iff_getElem?_eq_some.mpr hold
  · intro entry hentry hkey
    have hnode : t.nodes[entry.1]? = some entry.2 :=
      Std.ExtTreeMap.mem_toList_iff_getElem?_eq_some.mp hentry
    have hsame : entry.2.index.deepen = old.index.deepen :=
      NodeIndex.toLinear_inj (hstored _ _ hnode).deepen hrange hkey
    have hindex := NodeIndex.deepen_injective hsame
    rw [← t.keyed _ _ hnode, hindex] at hnode
    obtain rfl : old = entry.2 := Option.some.inj (hold.symm.trans hnode)
    rfl

theorem growsTo_growTree : t.GrowsTo t.growTree where
  treeDepth := rfl
  memberCount := rfl
  ourLeaf := by
    intro hleaf
    show NodeIndex.mk (t.treeDepth + 1) t.ourLeaf.position = ⟨t.ourLeaf.depth + 1, _⟩
    rw [hleaf]
  get_deepen := by
    intro i hi
    cases hget : t.get i with
    | some old =>
      have hindex : old.index = i :=
        NodeIndex.toLinear_inj (hstored _ old hget) hi (t.keyed _ old hget)
      rw [← hindex] at hget ⊢
      exact get_growTree_of_get hstored hget
    | none =>
      cases hgrown : t.growTree.get i.deepen with
      | none => rfl
      | some node =>
        obtain ⟨old, hold, hdeepen, _⟩ := index_of_get_growTree hstored hi.deepen hgrown
        rw [← NodeIndex.deepen_injective hdeepen, hget] at hold
        cases hold
  get_other := by
    intro j hj hother
    cases hgrown : t.growTree.get j with
    | none => rfl
    | some node =>
      obtain ⟨old, hold, hdeepen, _⟩ := index_of_get_growTree hstored hj hgrown
      exact absurd hdeepen (hother old.index (hstored _ old hold))

end Stored

end PartialTreeView

/-! ## The algebra -/

/-- The level-order numbers and the indices correspond, the formulas for ancestors
find what the steps to the parent find, and growth embeds the tree below the left
child of the new root. -/
theorem node_index_algebra (P : Primitives) :
    (∀ i : NodeIndex, i.depth ≤ 32 → i.InRange →
      ∃ n, Machine.toLinear i = some n ∧ Machine.fromLinear n = some i) ∧
    (∀ n, n < 2 ^ 33 - 1 → ∃ i, Machine.fromLinear n = some i ∧ i.depth ≤ 32 ∧ i.InRange ∧
      Machine.toLinear i = some n) ∧
    (∀ a b : NodeIndex, a.depth ≤ 31 → ∃ below, Machine.isDescendantOf a b = some below ∧
      (below ↔ ∃ k, 1 ≤ k ∧ climb NodeIndex.parent k a = some b)) ∧
    (∀ a b : NodeIndex, a.InRange → b.InRange → ∃ c, NodeIndex.lowestCommonAncestor a b = some c ∧
      Above NodeIndex.parent a c ∧ Above NodeIndex.parent b c ∧
      ∀ d, Above NodeIndex.parent a d → Above NodeIndex.parent b d →
        d.depth ≤ c.depth ∧ (d.depth = c.depth → d = c)) ∧
    NodeIndex.Embedding NodeIndex.deepen ∧
    ∀ t : PartialTreeView P, t.treeDepth ≤ 32 →
      (∀ (key : Nat) (node : TreeNode P), t.nodes[key]? = some node → node.index.InTree 32) →
      ∃ t', Machine.growTree t = some t' ∧ t.GrowsTo t' := by
  refine ⟨?_, ?_, ?_, ?_, NodeIndex.embedding_deepen, ?_⟩
  · intro i hdepth h
    obtain ⟨hto, _, hfrom⟩ := Machine.fromLinear_toLinear hdepth h
    exact ⟨i.toLinear, hto, hfrom⟩
  · intro n hn
    exact Machine.toLinear_fromLinear hn
  · intro a b hdepth
    exact ⟨a.isDescendantOf b, Machine.isDescendantOf_eq hdepth, Machine.isDescendantOf_iff_climb⟩
  · intro a b ha hb
    obtain ⟨c, hfound, hlowest⟩ := NodeIndex.lowestCommonAncestor_of_inRange ha hb
    refine ⟨c, hfound, hlowest.left, hlowest.right, ?_⟩
    intro d had hbd
    refine ⟨NodeIndex.graded_parent.depth_le_of_lowest hlowest had hbd, ?_⟩
    intro hdepth
    exact (NodeIndex.graded_parent.eq_of_above (hlowest.lowest d had hbd) hdepth.symm.le).symm
  · intro t hdepth hstored
    refine ⟨t.growTree, Machine.growTree_of_shallow (by omega) ?_, ?_⟩
    · intro key node hkey
      obtain ⟨hrange, hle⟩ := hstored key node hkey
      have hpow : 2 ^ node.index.depth ≤ 2 ^ 32 := Nat.pow_le_pow_right (by decide) hle
      exact ⟨by show node.index.depth + 1 < 64; omega, lt_of_lt_of_le hrange hpow⟩
    · exact growsTo_growTree fun key node hkey => (hstored key node hkey).inRange

end Trelis.Cocoa
