import Trelis.Cocoa.View

/-!
# Resolutions

`tree/resolution.rs`: the populated nodes that stand for a subtree, and the
recipient set of a path node.

`resolve` treats a node that the view does not hold like a blank leaf.
`computeLj` adds the unmerged leaves of the nodes of a resolution.  Those nodes
are populated and populated nodes have no unmerged leaves, so with the closure
that every caller passes the recipient set is the resolution of the sibling
(`computeLj_eq_resolve`).

A resolution is a list here, as its order decides the order of the recipient
entries.  `Resolution.union` drops repeated nodes, and `resolve_eq` shows that
in a resolution there are none to drop: the two subtrees below a node share no
linear index, whatever the position of the node.
-/

namespace Trelis.Cocoa

/-- The nodes of a resolution, in order. -/
abbrev Resolution := List NodeIndex

/-- The union of two resolutions.  `NodeIndex` is ordered by linear index, so
the set of known nodes is a set of linear indices. -/
def Resolution.union (self other : Resolution) : Resolution :=
  if other.isEmpty then self
  else if self.isEmpty then other
  else self ++ other.filter fun node => !self.any fun known => known.toLinear == node.toLinear

namespace PartialTreeView

variable {P : Primitives}

/-- The resolution of a node: the node itself when it is populated, nothing
when it is a blank leaf or absent, the union over the children otherwise. -/
def resolve (t : PartialTreeView P) (index : NodeIndex) : Resolution :=
  t.foldBlank [] (fun i => [i]) [] Resolution.union index

/-- The recipient set of a path node: the resolution of its sibling, and the
unmerged leaves of the nodes in it. -/
def computeLj (t : PartialTreeView P) (pathNode : NodeIndex)
    (unmergedFn : NodeIndex → List NodeIndex) : Resolution :=
  match pathNode.sibling with
  | none => []
  | some sibling =>
    let resolution := t.resolve sibling
    let unmerged := resolution.foldl (fun acc nodeIdx =>
      (unmergedFn nodeIdx).foldl (fun acc leafIdx => Resolution.union acc [leafIdx]) acc) []
    Resolution.union resolution unmerged

/-- The closure that every caller passes to `computeLj`: the unmerged leaf
positions of a node, as indices on the leaf level. -/
def unmergedLeafNodes (t : PartialTreeView P) (nodeIdx : NodeIndex) : List NodeIndex :=
  match (t.get nodeIdx).bind (·.state.unmergedLeaves) with
  | some positions => positions.map (NodeIndex.leaf t.treeDepth)
  | none => []

/-- The public key stored at an index. -/
def keyAt (t : PartialTreeView P) (index : NodeIndex) : Option P.PublicKey :=
  (t.get index).bind (·.state.publicKey)

end PartialTreeView

/-! ## Disjoint subtrees -/

namespace NodeIndex

/-- In level order, the ancestors of a node are found by halving. -/
theorem toLinear_div_of_under {i v : NodeIndex} (h : i.Under v) :
    (i.toLinear + 1) / 2 ^ (i.depth - v.depth) = v.toLinear + 1 := by
  rcases i with ⟨d, p⟩
  rcases v with ⟨e, q⟩
  rcases h with ⟨hd, hp⟩
  simp only [toLinear] at hd hp ⊢
  have h1 := Nat.one_le_two_pow (n := d)
  have h2 := Nat.one_le_two_pow (n := e)
  have hpow : 2 ^ d = 2 ^ (d - e) * 2 ^ e := by
    rw [← Nat.pow_add, Nat.sub_add_cancel hd]
  have hpos : 0 < 2 ^ (d - e) := Nat.two_pow_pos _
  rw [Nat.shiftRight_eq_div_pow] at hp
  rw [show 2 ^ d - 1 + p + 1 = p + 2 ^ (d - e) * 2 ^ e by omega,
    Nat.add_mul_div_left _ _ hpos, hp]
  omega

/-- A node below the left child and a node below the right child have
different linear indices. -/
theorem toLinear_ne_of_under_children {i j v : NodeIndex} (hi : i.Under v.leftChild)
    (hj : j.Under v.rightChild) : i.toLinear ≠ j.toLinear := by
  intro heq
  have hl := toLinear_div_of_under hi
  have hr := toLinear_div_of_under hj
  rw [toLinear_leftChild] at hl
  rw [toLinear_rightChild] at hr
  rw [heq] at hl
  have hpos : 0 < v.toLinear + 1 := Nat.succ_pos _
  generalize i.depth - v.leftChild.depth = a at hl
  generalize j.depth - v.rightChild.depth = b at hr
  generalize j.toLinear + 1 = n at hl hr
  -- The two quotients differ, so the two exponents do, and the larger exponent
  -- gives a quotient that is at most half of the other one.
  rcases Nat.lt_trichotomy a b with hlt | rfl | hgt
  · have hsplit : n / 2 ^ b = n / 2 ^ a / 2 ^ (b - a) := by
      rw [Nat.div_div_eq_div_mul, ← Nat.pow_add, Nat.add_sub_cancel' hlt.le]
    have hhalf : n / 2 ^ a / 2 ^ (b - a) ≤ n / 2 ^ a / 2 ^ 1 :=
      Nat.div_le_div_left (Nat.pow_le_pow_right (by decide) (by omega)) (by decide)
    omega
  · omega
  · have hsplit : n / 2 ^ a = n / 2 ^ b / 2 ^ (a - b) := by
      rw [Nat.div_div_eq_div_mul, ← Nat.pow_add, Nat.add_sub_cancel' hgt.le]
    have hhalf : n / 2 ^ b / 2 ^ (a - b) ≤ n / 2 ^ b / 2 ^ 1 :=
      Nat.div_le_div_left (Nat.pow_le_pow_right (by decide) (by omega)) (by decide)
    omega

end NodeIndex

/-- The union of two resolutions without a common linear index is their
concatenation. -/
theorem Resolution.union_eq_append {self other : Resolution}
    (h : ∀ a ∈ self, ∀ b ∈ other, a.toLinear ≠ b.toLinear) :
    Resolution.union self other = self ++ other := by
  unfold Resolution.union
  split
  · next he => rw [List.isEmpty_iff.mp he, List.append_nil]
  · split
    · next he => rw [List.isEmpty_iff.mp he, List.nil_append]
    · congr 1
      rw [List.filter_eq_self]
      intro b hb
      simp only [Bool.not_eq_true', List.any_eq_false, beq_iff_eq]
      intro a ha
      exact h a ha b hb

namespace PartialTreeView

variable {P : Primitives}

/-! ## The nodes of a resolution -/

private theorem resolve_unfold (t : PartialTreeView P) (i : NodeIndex) :
    t.resolve i =
      match t.get i with
      | some node =>
        if node.state.isPopulated then [i]
        else if i.isLeaf t.treeDepth then []
        else Resolution.union (t.resolve i.leftChild) (t.resolve i.rightChild)
      | none => [] :=
  foldBlank_eq t [] (fun i => [i]) [] Resolution.union i

private theorem mem_union {a : NodeIndex} {self other : Resolution}
    (h : a ∈ Resolution.union self other) : a ∈ self ∨ a ∈ other := by
  unfold Resolution.union at h
  split at h
  · exact Or.inl h
  · split at h
    · exact Or.inr h
    · rw [List.mem_append, List.mem_filter] at h
      rcases h with h | h
      · exact Or.inl h
      · exact Or.inr h.1

/-- The nodes of a resolution lie in the subtree that is resolved. -/
theorem under_of_mem_resolve (t : PartialTreeView P) (i : NodeIndex) :
    ∀ r ∈ t.resolve i, r.Under i := by
  apply t.blankInduction (motive := fun i => ∀ r ∈ t.resolve i, r.Under i)
  intro i ih r hr
  rw [resolve_unfold] at hr
  cases hget : t.get i with
  | none => simp [hget] at hr
  | some node =>
    simp only [hget] at hr
    split at hr
    · rw [List.mem_singleton] at hr
      rw [hr]
      exact NodeIndex.Under.refl i
    · next hpop =>
      split at hr
      · cases hr
      · next hleaf =>
        have hboth := ih node hget (by simpa using hpop) (by simpa using hleaf)
        rcases mem_union hr with hl | hr
        · exact (hboth.1 r hl).trans i.leftChild_under
        · exact (hboth.2 r hr).trans i.rightChild_under

/-- The unfolding of `resolve`, with the union as a concatenation. -/
theorem resolve_eq (t : PartialTreeView P) (i : NodeIndex) :
    t.resolve i =
      match t.get i with
      | some node =>
        if node.state.isPopulated then [i]
        else if i.isLeaf t.treeDepth then []
        else t.resolve i.leftChild ++ t.resolve i.rightChild
      | none => [] := by
  rw [resolve_unfold, Resolution.union_eq_append]
  intro a ha b hb
  exact NodeIndex.toLinear_ne_of_under_children (t.under_of_mem_resolve _ a ha)
    (t.under_of_mem_resolve _ b hb)

/-- The nodes of a resolution are populated. -/
theorem keyAt_of_mem_resolve (t : PartialTreeView P) (i : NodeIndex) :
    ∀ r ∈ t.resolve i, (t.keyAt r).isSome := by
  apply t.blankInduction (motive := fun i => ∀ r ∈ t.resolve i, (t.keyAt r).isSome)
  intro i ih r hr
  rw [resolve_eq] at hr
  cases hget : t.get i with
  | none => simp [hget] at hr
  | some node =>
    simp only [hget] at hr
    split at hr
    · next hpop =>
      rw [List.mem_singleton] at hr
      rcases (NodeState.isPopulated_iff_publicKey _).mp hpop with ⟨pk, hpk⟩
      simp [keyAt, hr, hget, hpk]
    · next hpop =>
      split at hr
      · cases hr
      · next hleaf =>
        have hboth := ih node hget (by simpa using hpop) (by simpa using hleaf)
        rcases List.mem_append.mp hr with hl | hr
        · exact hboth.1 r hl
        · exact hboth.2 r hr

/-- A node with a key has no unmerged leaves. -/
theorem unmergedLeafNodes_of_keyAt {t : PartialTreeView P} {r : NodeIndex}
    (h : (t.keyAt r).isSome) : t.unmergedLeafNodes r = [] := by
  unfold keyAt at h
  unfold unmergedLeafNodes
  cases hget : t.get r with
  | none => simp [hget] at h
  | some node =>
    rw [hget] at h
    cases hst : node.state with
    | populated data => simp [NodeState.unmergedLeaves, hst]
    | blank leaves => simp [NodeState.publicKey, hst] at h

/-- The recipient set of a path node is the resolution of its sibling. -/
theorem computeLj_eq_resolve (t : PartialTreeView P) (pathNode : NodeIndex) :
    t.computeLj pathNode t.unmergedLeafNodes =
      match pathNode.sibling with
      | none => []
      | some sibling => t.resolve sibling := by
  unfold computeLj
  cases pathNode.sibling with
  | none => rfl
  | some sibling =>
    have hnone : ∀ r ∈ t.resolve sibling, t.unmergedLeafNodes r = [] := fun r hr =>
      unmergedLeafNodes_of_keyAt (t.keyAt_of_mem_resolve sibling r hr)
    have hfold : ∀ (rs : List NodeIndex), (∀ r ∈ rs, t.unmergedLeafNodes r = []) →
        rs.foldl (fun acc nodeIdx => (t.unmergedLeafNodes nodeIdx).foldl
          (fun acc leafIdx => Resolution.union acc [leafIdx]) acc) ([] : Resolution) = [] := by
      intro rs hrs
      induction rs with
      | nil => rfl
      | cons r rs ih =>
        rw [List.foldl_cons, hrs r (by simp)]
        exact ih fun x hx => hrs x (List.mem_cons_of_mem _ hx)
    show Resolution.union (t.resolve sibling) _ = t.resolve sibling
    rw [hfold _ hnone]
    rfl

/-- The nodes of a recipient set are populated. -/
theorem keyAt_of_mem_computeLj (t : PartialTreeView P) (pathNode : NodeIndex) :
    ∀ r ∈ t.computeLj pathNode t.unmergedLeafNodes, (t.keyAt r).isSome := by
  rw [computeLj_eq_resolve]
  intro r hr
  cases hs : pathNode.sibling with
  | none => simp [hs] at hr
  | some sibling =>
    rw [hs] at hr
    exact t.keyAt_of_mem_resolve sibling r hr

/-- Two views that agree on which nodes are populated walk alike. -/
theorem foldBlank_congr {β : Type} {s t : PartialTreeView P} (absent : β)
    (populated : NodeIndex → β) (blankLeaf : β) (blank : β → β → β)
    (hdepth : s.treeDepth = t.treeDepth)
    (h : ∀ i, (s.get i).map (·.state.isPopulated) = (t.get i).map (·.state.isPopulated))
    (i : NodeIndex) :
    s.foldBlank absent populated blankLeaf blank i =
      t.foldBlank absent populated blankLeaf blank i := by
  apply s.blankInduction (motive := fun i => s.foldBlank absent populated blankLeaf blank i =
      t.foldBlank absent populated blankLeaf blank i)
  intro i ih
  rw [foldBlank_eq s, foldBlank_eq t]
  have hi := h i
  cases hs : s.get i with
  | none =>
    rw [hs, Option.map_none, eq_comm, Option.map_eq_none_iff] at hi
    rw [hi]
  | some m =>
    rw [hs] at hi
    rcases Option.map_eq_some_iff.mp hi.symm with ⟨n, hn, hpop⟩
    simp only [hn, hpop, hdepth]
    split
    · rfl
    · next hp =>
      split
      · rfl
      · next hleaf =>
        have hboth := ih m hs (by simpa using hp) (by rw [hdepth]; simpa using hleaf)
        rw [hboth.1, hboth.2]

end PartialTreeView

end Trelis.Cocoa
