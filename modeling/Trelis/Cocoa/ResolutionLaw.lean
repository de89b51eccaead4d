import Trelis.Cocoa.ParentHash
import Trelis.Symbolic

/-!
# The resolution law

What a resolution is for, and what its three computations have in common.

* `resolve` lists the topmost populated nodes of a subtree: each of them once,
  none above another, and every populated node of the subtree has exactly one of
  them above it (`resolve_nodup`, `resolve_antichain`, `mem_resolve_iff`,
  `existsUnique_mem_resolve`).  Coverage needs a view that is closed under
  ancestors within the subtree, as `resolve` stops at a node that it does not
  find.
* The reconstructions of the receiving side are the builder's recipient set less
  the unmerged leaves of the path node.  In a tree where unmerged leaves lie below
  the nodes that list them this drops nothing
  (`notUnmergedAt_of_mem_resolve`); in an arbitrary view it may
  (`resolution_law_unmerged_sibling`).
-/

namespace Trelis.Cocoa

variable {P : Primitives}

namespace NodeIndex

/-- A node below another one, other than it, is below one of its children. -/
theorem under_child {i v : NodeIndex} (h : i.Under v) (hne : i ≠ v) :
    i.Under v.leftChild ∨ i.Under v.rightChild := by
  have hlt : v.depth < i.depth := by
    rcases under_iff.mp h with heq | hdesc
    · exact absurd heq hne
    · exact (isDescendantOf_iff.mp hdesc).1
  rcases h with ⟨_, hpos⟩
  have hsplit : i.position >>> (i.depth - (v.depth + 1)) >>> 1 = v.position := by
    rw [← Nat.shiftRight_add, ← hpos]
    congr 1
    omega
  rw [Nat.shiftRight_eq_div_pow _ 1] at hsplit
  simp only [Under, leftChild, rightChild]
  omega

/-- Of two nodes above a third, one is above the other. -/
theorem under_of_under {i v w : NodeIndex} (hv : i.Under v) (hw : i.Under w)
    (hle : v.depth ≤ w.depth) : w.Under v := by
  refine ⟨hle, ?_⟩
  rw [← hw.2, ← hv.2, ← Nat.shiftRight_add]
  congr 1
  have hd := hw.1
  omega

theorem under_antisymm {v w : NodeIndex} (hv : v.Under w) (hw : w.Under v) : v = w :=
  (Under.refl v).unique hv (Nat.le_antisymm hw.1 hv.1)

end NodeIndex

namespace PartialTreeView

/-- The view holds a populated node at the index. -/
def Populated (t : PartialTreeView P) (i : NodeIndex) : Prop := (t.keyAt i).isSome

/-- The nodes of the subtree of `v`: those below it, and in a tree none below the
leaf level. -/
def InSubtree (t : PartialTreeView P) (v i : NodeIndex) : Prop :=
  i.Under v ∧ (v.depth ≤ t.treeDepth → i.depth ≤ t.treeDepth)

/-- Every node between `v` and a stored node of its subtree is stored. -/
def ClosedBelow (t : PartialTreeView P) (v : NodeIndex) : Prop :=
  ∀ i, t.InSubtree v i → (t.get i).isSome → ∀ j, i.Under j → j.Under v → (t.get j).isSome

/-- A populated node of the subtree of `v` with no populated node above it there. -/
def Topmost (t : PartialTreeView P) (v i : NodeIndex) : Prop :=
  t.InSubtree v i ∧ t.Populated i ∧ ∀ j, j.Under v → i.Under j → t.Populated j → j = i

/-- The view holds an internal node at the index that is blank. -/
def BlankInternal (t : PartialTreeView P) (i : NodeIndex) : Prop :=
  ∃ node, t.get i = some node ∧ node.state.isPopulated = false ∧ i.isLeaf t.treeDepth = false

/-- The traversal of `v` meets the node `i`. -/
inductive Visited (t : PartialTreeView P) : NodeIndex → NodeIndex → Prop
  | here (v) : Visited t v v
  | left {v i} (hblank : t.BlankInternal v) (h : Visited t v.leftChild i) : Visited t v i
  | right {v i} (hblank : t.BlankInternal v) (h : Visited t v.rightChild i) : Visited t v i

variable {t : PartialTreeView P}

/-! ## Subtrees -/

theorem Populated.stored {i : NodeIndex} (h : t.Populated i) : (t.get i).isSome := by
  unfold Populated keyAt at h
  cases hget : t.get i with
  | none => simp [hget] at h
  | some node => rfl

theorem populated_iff {i : NodeIndex} {node : TreeNode P} (h : t.get i = some node) :
    t.Populated i ↔ node.state.isPopulated = true := by
  rw [Populated, keyAt, h, Option.bind_some, NodeState.isPopulated_iff_publicKey,
    Option.isSome_iff_exists]

theorem InSubtree.refl (t : PartialTreeView P) (v : NodeIndex) : t.InSubtree v v :=
  ⟨.refl v, id⟩

/-- The subtree of a node above the leaf level is the node and the subtrees of
its children. -/
theorem inSubtree_iff {v i : NodeIndex} (hleaf : v.isLeaf t.treeDepth = false) :
    t.InSubtree v i ↔ i = v ∨ t.InSubtree v.leftChild i ∨ t.InSubtree v.rightChild i := by
  have hne : v.depth ≠ t.treeDepth := by simpa [NodeIndex.isLeaf] using hleaf
  constructor
  · intro h
    by_cases heq : i = v
    · exact .inl heq
    · have hdepth : v.depth + 1 ≤ t.treeDepth → i.depth ≤ t.treeDepth := fun hv =>
        h.2 (Nat.le_of_succ_le hv)
      rcases NodeIndex.under_child h.1 heq with hl | hr
      · exact .inr (.inl ⟨hl, hdepth⟩)
      · exact .inr (.inr ⟨hr, hdepth⟩)
  · intro h
    have hdepth : ∀ hchild : v.depth + 1 ≤ t.treeDepth → i.depth ≤ t.treeDepth,
        v.depth ≤ t.treeDepth → i.depth ≤ t.treeDepth := fun hchild hv => hchild (by omega)
    rcases h with rfl | hl | hr
    · exact .refl t i
    · exact ⟨hl.1.trans v.leftChild_under, hdepth hl.2⟩
    · exact ⟨hr.1.trans v.rightChild_under, hdepth hr.2⟩

/-- The subtree of a leaf is the leaf. -/
theorem inSubtree_leaf {v i : NodeIndex} (hleaf : v.isLeaf t.treeDepth = true) :
    t.InSubtree v i ↔ i = v := by
  have hd : v.depth = t.treeDepth := by simpa [NodeIndex.isLeaf] using hleaf
  constructor
  · intro h
    have hle : i.depth ≤ v.depth := by
      rw [hd]
      exact h.2 hd.le
    exact (NodeIndex.Under.refl i).unique h.1 (Nat.le_antisymm hle h.1.1)
  · intro h
    rw [h]
    exact .refl t v

theorem ClosedBelow.child {v w : NodeIndex} (h : t.ClosedBelow v) (hw : w.Under v)
    (hsub : ∀ i, t.InSubtree w i → t.InSubtree v i) : t.ClosedBelow w := by
  intro i hi hstored j hij hjw
  exact h i (hsub i hi) hstored j hij (hjw.trans hw)

/-! ## The law -/

/-- A resolution lists no node twice. -/
theorem resolve_nodup (t : PartialTreeView P) (v : NodeIndex) : (t.resolve v).Nodup := by
  apply t.blankInduction (motive := fun v => (t.resolve v).Nodup)
  intro v ih
  rw [resolve_eq]
  cases hget : t.get v with
  | none => exact List.nodup_nil
  | some node =>
    by_cases hpop : node.state.isPopulated
    · simp [hpop]
    · by_cases hleaf : v.isLeaf t.treeDepth
      · simp [hpop, hleaf]
      · have hboth := ih node hget (by simpa using hpop) (by simpa using hleaf)
        simp only [hpop, hleaf, Bool.false_eq_true, if_false]
        rw [List.nodup_append]
        refine ⟨hboth.1, hboth.2, ?_⟩
        intro a ha b hb heq
        exact NodeIndex.toLinear_ne_of_under_children (t.under_of_mem_resolve _ a ha)
          (t.under_of_mem_resolve _ b hb) (congrArg NodeIndex.toLinear heq)

/-- No node of a resolution is above another one. -/
theorem resolve_antichain (t : PartialTreeView P) (v : NodeIndex) :
    ∀ a ∈ t.resolve v, ∀ b ∈ t.resolve v, a.Under b → a = b := by
  apply t.blankInduction (motive := fun v =>
    ∀ a ∈ t.resolve v, ∀ b ∈ t.resolve v, a.Under b → a = b)
  intro v ih
  rw [resolve_eq]
  cases hget : t.get v with
  | none =>
    intro a ha
    cases ha
  | some node =>
    by_cases hpop : node.state.isPopulated
    · simp [hpop]
    · by_cases hleaf : v.isLeaf t.treeDepth
      · simp [hpop, hleaf]
      · have hboth := ih node hget (by simpa using hpop) (by simpa using hleaf)
        simp only [hpop, hleaf, Bool.false_eq_true, if_false]
        intro a ha b hb hab
        -- Two nodes in the subtrees of different children have nothing to do with each other.
        have hdisjoint : ∀ c : NodeIndex, c.Under v.leftChild → ¬ c.Under v.rightChild :=
          fun c hl hr => NodeIndex.toLinear_ne_of_under_children hl hr rfl
        rcases List.mem_append.mp ha with ha | ha <;> rcases List.mem_append.mp hb with hb | hb
        · exact hboth.1 a ha b hb hab
        · exact absurd (hab.trans (t.under_of_mem_resolve _ b hb))
            (hdisjoint a (t.under_of_mem_resolve _ a ha))
        · exact absurd (t.under_of_mem_resolve _ a ha)
            (hdisjoint a (hab.trans (t.under_of_mem_resolve _ b hb)))
        · exact hboth.2 a ha b hb hab

/-- The nodes of a resolution belong to the subtree. -/
theorem inSubtree_of_mem_resolve (t : PartialTreeView P) (v : NodeIndex) :
    ∀ r ∈ t.resolve v, t.InSubtree v r := by
  apply t.blankInduction (motive := fun v => ∀ r ∈ t.resolve v, t.InSubtree v r)
  intro v ih r hr
  rw [resolve_eq] at hr
  cases hget : t.get v with
  | none => simp [hget] at hr
  | some node =>
    simp only [hget] at hr
    split at hr
    · rw [List.mem_singleton] at hr
      rw [hr]
      exact .refl t v
    · next hpop =>
      split at hr
      · cases hr
      · next hleaf =>
        have hboth := ih node hget (by simpa using hpop) (by simpa using hleaf)
        rw [inSubtree_iff (by simpa using hleaf)]
        rcases List.mem_append.mp hr with hl | hr
        · exact .inr (.inl (hboth.1 r hl))
        · exact .inr (.inr (hboth.2 r hr))

/-- Every populated node of a subtree has a node of its resolution above it. -/
theorem exists_mem_resolve {v : NodeIndex} (h : t.ClosedBelow v) {i : NodeIndex}
    (hi : t.InSubtree v i) (hpop : t.Populated i) : ∃ r ∈ t.resolve v, i.Under r := by
  induction v using t.blankInduction with
  | step v ih =>
    cases hget : t.get v with
    | none =>
      have hv := h i hi hpop.stored v hi.1 (.refl v)
      rw [hget] at hv
      cases hv
    | some node =>
      rw [resolve_eq, hget]
      by_cases hnode : node.state.isPopulated
      · exact ⟨v, by simp [hnode], hi.1⟩
      · have hnode' : node.state.isPopulated = false := by simpa using hnode
        have hne : i ≠ v := by
          intro heq
          rw [heq] at hpop
          exact hnode ((populated_iff hget).mp hpop)
        by_cases hleaf : v.isLeaf t.treeDepth
        · exact absurd ((inSubtree_leaf hleaf).mp hi) hne
        · have hleaf' : v.isLeaf t.treeDepth = false := by simpa using hleaf
          have hboth := ih node hget hnode' hleaf'
          simp only [hnode', hleaf', Bool.false_eq_true, if_false]
          rcases (inSubtree_iff hleaf').mp hi with heq | hl | hr
          · exact absurd heq hne
          · have hclosed : t.ClosedBelow v.leftChild :=
              h.child v.leftChild_under fun j hj => (inSubtree_iff hleaf').mpr (.inr (.inl hj))
            rcases hboth.1 hclosed hl with ⟨r, hr, hir⟩
            exact ⟨r, List.mem_append_left _ hr, hir⟩
          · have hclosed : t.ClosedBelow v.rightChild :=
              h.child v.rightChild_under fun j hj => (inSubtree_iff hleaf').mpr (.inr (.inr hj))
            rcases hboth.2 hclosed hr with ⟨r, hr, hir⟩
            exact ⟨r, List.mem_append_right _ hr, hir⟩

/-- The node above it is the only one. -/
theorem existsUnique_mem_resolve {v : NodeIndex} (h : t.ClosedBelow v) {i : NodeIndex}
    (hi : t.InSubtree v i) (hpop : t.Populated i) : ∃! r, r ∈ t.resolve v ∧ i.Under r := by
  rcases exists_mem_resolve h hi hpop with ⟨r, hr, hir⟩
  refine ⟨r, ⟨hr, hir⟩, ?_⟩
  intro r' hr'
  rcases Nat.le_total r.depth r'.depth with hle | hle
  · exact t.resolve_antichain v r' hr'.1 r hr (NodeIndex.under_of_under hir hr'.2 hle)
  · exact (t.resolve_antichain v r hr r' hr'.1 (NodeIndex.under_of_under hr'.2 hir hle)).symm

/-- A resolution lists the topmost populated nodes. -/
theorem mem_resolve_iff {v : NodeIndex} (h : t.ClosedBelow v) {i : NodeIndex} :
    i ∈ t.resolve v ↔ t.Topmost v i := by
  constructor
  · intro hi
    have hsub := t.inSubtree_of_mem_resolve v i hi
    refine ⟨hsub, t.keyAt_of_mem_resolve v i hi, ?_⟩
    intro j hj hij hpop
    have hjsub : t.InSubtree v j := ⟨hj, fun hd => hij.1.trans (hsub.2 hd)⟩
    rcases exists_mem_resolve h hjsub hpop with ⟨r, hr, hjr⟩
    have heq : i = r := t.resolve_antichain v i hi r hr (hij.trans hjr)
    rw [← heq] at hjr
    exact NodeIndex.under_antisymm hjr hij
  · intro htop
    rcases htop with ⟨hsub, hpop, hmost⟩
    rcases exists_mem_resolve h hsub hpop with ⟨r, hr, hir⟩
    have heq : r = i :=
      hmost r (t.under_of_mem_resolve v r hr) hir (t.keyAt_of_mem_resolve v r hr)
    rw [← heq]
    exact hr

/-! ## The reconstructions -/

/-- The filter keeps what the path node does not list as unmerged. -/
theorem notUnmergedAt_iff {v i : NodeIndex} :
    t.notUnmergedAt v i = true ↔ i ∉ t.unmergedLeafNodes v := by
  rcases i with ⟨d, p⟩
  unfold notUnmergedAt unmergedLeafNodes
  cases hleaves : (t.get v).bind (·.state.unmergedLeaves) with
  | none => simp
  | some leaves =>
    simp only [Option.getD_some, Bool.not_eq_true', Bool.and_eq_false_imp, beq_iff_eq, List.mem_map,
      NodeIndex.leaf, NodeIndex.mk.injEq, not_exists, not_and]
    constructor
    · intro h q hq hd hp
      subst hp
      have hnot := h hd.symm
      rw [← Bool.not_eq_true, List.contains_iff_mem] at hnot
      exact hnot hq
    · intro h hd
      rw [← Bool.not_eq_true, List.contains_iff_mem]
      intro hp
      exact h p hp hd.symm rfl

/-- The reconstruction drops from the recipient set what the path node lists as
unmerged. -/
theorem reconstructResolutionComplete_eq_filter (t : PartialTreeView P) (v : NodeIndex) :
    (t.reconstructResolutionComplete v).1 =
      (t.computeLj v t.unmergedLeafNodes).filter (· ∉ t.unmergedLeafNodes v) := by
  rw [reconstructResolutionComplete_fst]
  refine List.filter_congr fun r _ => ?_
  rw [Bool.eq_iff_iff, notUnmergedAt_iff, decide_eq_true_iff]

/-- The filter drops nothing exactly when the path node lists no node of the
recipient set as unmerged. -/
theorem reconstructResolutionComplete_eq_computeLj {v : NodeIndex} :
    (t.reconstructResolutionComplete v).1 = t.computeLj v t.unmergedLeafNodes ↔
      ∀ r ∈ t.computeLj v t.unmergedLeafNodes, r ∉ t.unmergedLeafNodes v := by
  rw [reconstructResolutionComplete_eq_filter, List.filter_eq_self]
  simp only [decide_eq_true_iff]

/-- The keys of a list of populated nodes. -/
theorem map_some_filterMap_keyAt {rs : List NodeIndex} (h : ∀ r ∈ rs, (t.keyAt r).isSome) :
    (rs.filterMap t.keyAt).map some = rs.map t.keyAt := by
  induction rs with
  | nil => rfl
  | cons r rs ih =>
    rcases Option.isSome_iff_exists.mp (h r (by simp)) with ⟨pk, hpk⟩
    rw [List.filterMap_cons_some hpk, List.map_cons, List.map_cons, hpk,
      ih fun x hx => h x (List.mem_cons_of_mem _ hx)]

/-- The keys are those of the nodes, in the same order. -/
theorem map_some_reconstructResolutionKeys (t : PartialTreeView P) (v : NodeIndex) :
    (t.reconstructResolutionKeys v).map some =
      (t.reconstructResolutionComplete v).1.map t.keyAt := by
  rw [reconstructResolutionComplete_fst, reconstructResolutionKeys]
  apply map_some_filterMap_keyAt
  intro r hr
  exact t.keyAt_of_mem_computeLj v r (List.mem_filter.mp hr).1

/-- The traversal of a node meets the node, and below a blank internal node what
the traversals of the children meet. -/
theorem visited_iff {v i : NodeIndex} :
    t.Visited v i ↔
      i = v ∨ t.BlankInternal v ∧ (t.Visited v.leftChild i ∨ t.Visited v.rightChild i) := by
  constructor
  · intro h
    cases h with
    | here => exact .inl rfl
    | left hblank h => exact .inr ⟨hblank, .inl h⟩
    | right hblank h => exact .inr ⟨hblank, .inr h⟩
  · intro h
    rcases h with rfl | ⟨hblank, h | h⟩
    · exact .here i
    · exact .left hblank h
    · exact .right hblank h

/-- The flag is set exactly when the view holds every node that the traversal
meets. -/
theorem resolveComplete_snd_iff {v : NodeIndex} :
    (t.resolveComplete v).2 = true ↔ ∀ i, t.Visited v i → (t.get i).isSome := by
  induction v using t.blankInduction with
  | step v ih =>
    rw [resolveComplete_unfold]
    cases hget : t.get v with
    | none =>
      refine iff_of_false Bool.false_ne_true fun hall => ?_
      have hv := hall v (.here v)
      rw [hget] at hv
      cases hv
    | some node =>
      have hstored : (t.get v).isSome := by
        rw [hget]
        rfl
      by_cases hblank : node.state.isPopulated = false ∧ v.isLeaf t.treeDepth = false
      · have hboth := ih node hget hblank.1 hblank.2
        have hinternal : t.BlankInternal v := ⟨node, hget, hblank⟩
        simp only [hblank.1, hblank.2, Bool.false_eq_true, if_false, Bool.and_eq_true, hboth.1,
          hboth.2]
        constructor
        · intro h i hi
          rcases visited_iff.mp hi with rfl | ⟨_, hl | hr⟩
          · exact hstored
          · exact h.1 i hl
          · exact h.2 i hr
        · intro h
          exact ⟨fun i hi => h i (.left hinternal hi), fun i hi => h i (.right hinternal hi)⟩
      · have hhere : ∀ i, t.Visited v i → (t.get i).isSome := by
          intro i hi
          rcases visited_iff.mp hi with rfl | ⟨⟨node', hget', hnode'⟩, _⟩
          · exact hstored
          · rw [hget, Option.some_inj] at hget'
            rw [← hget'] at hnode'
            exact absurd hnode' hblank
        refine iff_of_true ?_ hhere
        by_cases hpop : node.state.isPopulated
        · simp [hpop]
        · have hleaf : v.isLeaf t.treeDepth = true := by simpa [hpop] using hblank
          simp [hpop, hleaf]

end PartialTreeView

open PartialTreeView in
/-- In a view that is closed under ancestors within a subtree, the resolution of
the subtree lists its topmost populated nodes, each once and none above another,
and each populated node of the subtree has exactly one of them above it.  In any
view the reconstructions of the receiving side find the builder's recipient set
without the nodes that the path node lists as unmerged, in its order, and their
keys; the whole set exactly when it lists none of them.  The flag tells whether
the traversal met only stored nodes. -/
theorem resolution_law (t : PartialTreeView P) :
    (∀ v, t.ClosedBelow v →
      (t.resolve v).Nodup ∧ (∀ a ∈ t.resolve v, ∀ b ∈ t.resolve v, a.Under b → a = b) ∧
      (∀ i, i ∈ t.resolve v ↔ t.Topmost v i) ∧
      ∀ i, t.InSubtree v i → t.Populated i → ∃! r, r ∈ t.resolve v ∧ i.Under r) ∧
    ∀ v,
      (t.reconstructResolutionComplete v).1 =
        (t.computeLj v t.unmergedLeafNodes).filter (· ∉ t.unmergedLeafNodes v) ∧
      ((t.reconstructResolutionComplete v).1 = t.computeLj v t.unmergedLeafNodes ↔
        ∀ r ∈ t.computeLj v t.unmergedLeafNodes, r ∉ t.unmergedLeafNodes v) ∧
      (t.reconstructResolutionKeys v).map some =
        (t.reconstructResolutionComplete v).1.map t.keyAt ∧
      ((t.reconstructResolutionComplete v).2 = true ↔
        ∀ sibling, v.sibling = some sibling → ∀ i, t.Visited sibling i → (t.get i).isSome) := by
  refine ⟨fun v hclosed => ?_, fun v => ?_⟩
  · exact ⟨t.resolve_nodup v, t.resolve_antichain v, fun _ => mem_resolve_iff hclosed,
      fun _ hi hpop => existsUnique_mem_resolve hclosed hi hpop⟩
  · refine ⟨t.reconstructResolutionComplete_eq_filter v, reconstructResolutionComplete_eq_computeLj,
      t.map_some_reconstructResolutionKeys v, ?_⟩
    cases hs : v.sibling with
    | none => simp [PartialTreeView.reconstructResolutionComplete, hs]
    | some sibling =>
      rw [reconstructResolutionComplete_snd hs, resolveComplete_snd_iff]
      simp

section Sample

open Symbolic

/-- A view in which the left half lists a leaf of the right half as unmerged. -/
def unmergedAcross : PartialTreeView symbolic :=
  tree 2 4 [blank ⟨1, 0⟩ [3], blank ⟨1, 1⟩ [], node ⟨2, 3⟩ 5]

/-- The builder encrypts to that leaf, and the reconstructions leave it out. -/
theorem resolution_law_unmerged_sibling :
    unmergedAcross.computeLj ⟨1, 0⟩ unmergedAcross.unmergedLeafNodes = [⟨2, 3⟩] ∧
      (unmergedAcross.reconstructResolutionComplete ⟨1, 0⟩).1 = [] ∧
      unmergedAcross.reconstructResolutionKeys ⟨1, 0⟩ = [] := by
  decide +kernel

end Sample

end Trelis.Cocoa
