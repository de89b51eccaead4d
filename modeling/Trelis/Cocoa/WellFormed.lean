import Trelis.Cocoa.MachineRefines
import Trelis.Cocoa.ParentHash
import Trelis.Cocoa.Representation
import Trelis.Cocoa.WireFormat

/-!
# Machine arithmetic on a well-formed tree

The numbers of a well-formed tree are small: it is within the depth ceiling, its
nodes are in it, and the leaves that a node lists as unmerged are below it.  So
an operation that starts at an index that can be addressed returns, whatever the
sender of the index meant by it (`Shallow`); the walks go on only below nodes
that are held.  At a deeper index the lookups panic, and with them the verifier
(`verifyLevels_panics`) and the path updates (`updateTreeFromPathUpdates_eq`).
-/

namespace Trelis.Cocoa

open PartialTreeView

variable {P : Primitives}

/-! ## Well-formed trees -/

/-- A tree within the ceiling, whose nodes are in it, and whose unmerged leaves
are below the nodes that list them. -/
structure WellFormed (t : PartialTreeView P) : Prop where
  treeDepth_le : t.treeDepth ≤ maxTreeDepth
  inTree : t.All fun d i _ => i.InTree d
  unmerged : ∀ i node leaves, t.get i = some node → node.state.unmergedLeaves = some leaves →
    ∀ l ∈ leaves, (NodeIndex.leaf t.treeDepth l).Under node.index

namespace WellFormed

variable {t : PartialTreeView P}

/-- The empty tree of a new group is well-formed. -/
theorem new {position treeDepth count : Nat} (h : treeDepth ≤ maxTreeDepth) :
    WellFormed ((PartialTreeView.new P position treeDepth).setMemberCount count) := by
  refine ⟨h, all_new position treeDepth count, ?_⟩
  intro i node leaves hget
  change (∅ : Std.ExtTreeMap Nat (TreeNode P))[i.toLinear]? = some node at hget
  simp at hget

theorem treeDepth_lt (h : WellFormed t) : t.treeDepth < 64 := by
  have hle := h.treeDepth_le
  unfold maxTreeDepth at hle
  omega

/-- The linear index of a node that is held is small. -/
theorem toLinear_lt (h : WellFormed t) {i : NodeIndex} {node : TreeNode P}
    (hget : t.get i = some node) : i.toLinear + 1 < 2 ^ (t.treeDepth + 1) := by
  have hin := h.inTree i node hget
  rw [← t.keyed _ node hget]
  have hrange : node.index.position < 2 ^ node.index.depth := hin.inRange
  have hpow : 2 ^ (node.index.depth + 1) ≤ 2 ^ (t.treeDepth + 1) :=
    Nat.pow_le_pow_right (by decide) (Nat.succ_le_succ hin.depth_le)
  have hpos := Nat.one_le_two_pow (n := node.index.depth)
  rw [Nat.pow_succ] at hpow
  unfold NodeIndex.toLinear
  omega

/-- An index that finds a node is small, whatever its sender meant by it. -/
theorem index_lt (h : WellFormed t) {i : NodeIndex} {node : TreeNode P}
    (hget : t.get i = some node) : i.depth < 21 ∧ i.position < 2 ^ 21 := by
  have hlt := h.toLinear_lt hget
  have hpow : 2 ^ (t.treeDepth + 1) ≤ 2 ^ 21 :=
    Nat.pow_le_pow_right (by decide) (Nat.succ_le_succ h.treeDepth_le)
  have hpos := Nat.one_le_two_pow (n := i.depth)
  unfold NodeIndex.toLinear at hlt
  refine ⟨?_, by omega⟩
  rw [← Nat.pow_lt_pow_iff_right (a := 2) (by decide)]
  omega

theorem growIfNeeded (h : WellFormed t) {n : Nat} (hn : depthForMembers n ≤ maxTreeDepth) :
    WellFormed (t.growIfNeeded n) := by
  unfold PartialTreeView.growIfNeeded
  split
  · next hlt =>
    refine ⟨(Nat.succ_le_of_lt hlt).trans hn, h.inTree.growTree inherited_inTree, ?_⟩
    intro i node leaves hget hleaves l hl
    rcases get_growTree hget with ⟨old, hold, rfl⟩
    have hunder := h.unmerged _ old leaves hold hleaves l hl
    refine ⟨Nat.succ_le_succ hunder.1, ?_⟩
    show l >>> (t.treeDepth + 1 - (old.index.depth + 1)) = old.index.position
    rw [Nat.add_sub_add_right]
    exact hunder.2
  · exact h

theorem blankNode (h : WellFormed t) (i : NodeIndex) : WellFormed (t.blankNode i) := by
  refine ⟨h.treeDepth_le, h.inTree.blankNode inherited_inTree i, ?_⟩
  intro j node leaves hget hleaves l hl
  change (t.modifyState i _).get j = some node at hget
  rw [get_modifyState] at hget
  split at hget
  · rcases Option.map_eq_some_iff.mp hget with ⟨old, _, rfl⟩
    cases hleaves
    cases hl
  · exact h.unmerged j node leaves hget hleaves l hl

end WellFormed

/-! ## Resolutions -/

namespace NodeIndex

theorem inRange_of_under {i v : NodeIndex} (hi : i.InRange) (h : i.Under v) : v.InRange := by
  unfold InRange at hi ⊢
  rw [← h.2, Nat.shiftRight_eq_div_pow, Nat.div_lt_iff_lt_mul (Nat.two_pow_pos _), ← Nat.pow_add,
    Nat.add_sub_cancel' h.1]
  exact hi

theorem inRange_sibling {i s : NodeIndex} (h : i.sibling = some s) (hs : s.InRange) :
    i.InRange := by
  have hback := sibling_sibling h
  unfold sibling at hback
  split at hback
  · cases hback
  · next hd =>
    cases hback
    exact Nat.xor_lt_two_pow hs (Nat.one_lt_two_pow hd)

end NodeIndex

/-- The subtraction in the reconstruction of a resolution drops nothing: the
unmerged leaves of a node are below it, and its resolution is below its
sibling. -/
theorem notUnmergedAt_of_mem_resolve {t : PartialTreeView P} (h : WellFormed t) {v s : NodeIndex}
    (hs : v.sibling = some s) : ∀ r ∈ t.resolve s, t.notUnmergedAt v r = true := by
  intro r hr
  unfold notUnmergedAt
  rw [Bool.not_eq_true', Bool.and_eq_false_iff]
  by_contra hboth
  simp only [not_or, Bool.not_eq_false, beq_iff_eq] at hboth
  obtain ⟨hdepth, hmem⟩ := hboth
  have hunder := t.under_of_mem_resolve s r hr
  -- `r` is in range, so its ancestor `s` and the sibling `v` of that are.
  rcases Option.isSome_iff_exists.mp (t.keyAt_of_mem_resolve s r hr) with ⟨pk, hpk⟩
  rcases Option.bind_eq_some_iff.mp hpk with ⟨held, hheld, _⟩
  have hlt := h.toLinear_lt hheld
  have hrange : r.InRange := by
    have hpos := Nat.one_le_two_pow (n := t.treeDepth)
    unfold NodeIndex.InRange
    unfold NodeIndex.toLinear at hlt
    rw [Nat.pow_succ] at hlt
    rw [hdepth] at hlt ⊢
    omega
  have hv : v.InRange := NodeIndex.inRange_sibling hs (NodeIndex.inRange_of_under hrange hunder)
  -- The node that lists `r` as unmerged is `v`, and so `r` is below `v` as well.
  cases hget : t.get v with
  | none => simp [hget] at hmem
  | some node =>
    cases hleaves : node.state.unmergedLeaves with
    | none => simp [hget, hleaves] at hmem
    | some leaves =>
      simp only [hget, Option.bind_some, hleaves, Option.getD_some, List.contains_iff_mem] at hmem
      have hbelow := h.unmerged v node leaves hget hleaves r.position hmem
      rw [NodeIndex.toLinear_inj (h.inTree v node hget).inRange hv (t.keyed _ node hget),
        ← hdepth] at hbelow
      exact NodeIndex.not_under_sibling hs hbelow hunder

namespace Machine

open MachineM

variable {t : PartialTreeView P} {β : Type}

/-! ## What does not panic -/

/-- The two words of an index that came from the wire, at a depth that can be
addressed. -/
structure Shallow (i : NodeIndex) : Prop where
  depth_lt : i.depth < 64
  position_lt : i.position < 2 ^ 32

theorem Shallow.addressable {i : NodeIndex} (h : Shallow i) : Addressable i :=
  (addressable_iff h.position_lt).mpr h.depth_lt

theorem Shallow.sibling {i s : NodeIndex} (h : Shallow i) (hs : i.sibling = some s) :
    Shallow s := by
  refine ⟨by rw [NodeIndex.sibling_depth hs]; exact h.depth_lt, ?_⟩
  unfold NodeIndex.sibling at hs
  split at hs
  · cases hs
  · cases hs
    exact Nat.xor_lt_two_pow h.position_lt (by decide)

/-- An index that finds a node can be looked up. -/
theorem shallow_of_get (h : WellFormed t) {i : NodeIndex} {node : TreeNode P}
    (hget : t.get i = some node) : Shallow i := by
  have hlt := h.index_lt hget
  exact ⟨by omega, by omega⟩

theorem shallow_leaf (h : WellFormed t) {position : Nat} (hp : position < 2 ^ 32) :
    Shallow (.leaf t.treeDepth position) := ⟨h.treeDepth_lt, hp⟩

theorem get_of_shallow {i : NodeIndex} (h : Shallow i) : get t i = some (t.get i) := by
  rw [get_eq, if_pos h.addressable]

theorem modifyState_of_shallow {i : NodeIndex} (h : Shallow i) (f : NodeState P → NodeState P) :
    modifyState t i f = some (t.modifyState i f) := by
  rw [modifyState_eq, if_pos h.addressable]

theorem lookups_of_shallow {is : List NodeIndex} (h : ∀ i ∈ is, Shallow i) :
    lookups is = some () := by
  rw [lookups_eq, if_neg]
  rintro ⟨i, hi, hnot⟩
  exact hnot (h i hi).addressable

/-- A tree grows where its nodes can be addressed one level further down. -/
theorem growTree_of_shallow (hdepth : t.treeDepth + 1 < 2 ^ 32)
    (hnodes : ∀ (key : Nat) (node : TreeNode P), t.nodes[key]? = some node →
      Shallow node.index.deepen) : growTree t = some t.growTree := by
  have hround : ∀ entry ∈ t.nodes.toList, ∀ _ : Unit,
      ((growNode entry.2).map fun _ => ()) = if False then none else some () := by
    intro entry hentry _
    have hshallow := hnodes entry.1 entry.2
      (Std.ExtTreeMap.mem_toList_iff_getElem?_eq_some.mp hentry)
    have hlt : entry.2.index.depth + 1 < 64 := hshallow.depth_lt
    have hkey : toLinear entry.2.index.deepen = some entry.2.index.deepen.toLinear := by
      rw [toLinear_eq, if_pos hshallow.addressable]
    unfold growNode
    rw [addWord_of_lt (by omega), Option.bind_eq_bind, Option.bind_some]
    show (toLinear entry.2.index.deepen).map _ = _
    rw [hkey]
    rfl
  unfold growTree
  rw [addWord_of_lt hdepth, foldlM_eq (g := fun _ _ => ()) hround]
  simp

/-- Below a node that is held, the two children are words again. -/
theorem children_of_get (h : WellFormed t) {i : NodeIndex} {node : TreeNode P}
    (hget : t.get i = some node) :
    (leftChild i = some i.leftChild ∧ Shallow i.leftChild) ∧
      rightChild i = some i.rightChild ∧ Shallow i.rightChild := by
  have hlt := h.index_lt hget
  refine ⟨⟨?_, ?_, ?_⟩, ?_, ?_, ?_⟩
  · simp only [leftChild, addWord, mulWord]
    rw [if_pos (by omega), if_pos (by omega)]
    rfl
  · show i.depth + 1 < 64
    omega
  · show i.position * 2 < 2 ^ 32
    omega
  · simp only [rightChild, addWord, mulWord]
    rw [if_pos (by omega), if_pos (by omega)]
    show (if _ then _ else _ : Option Nat).bind _ = _
    rw [if_pos (by omega)]
    rfl
  · show i.depth + 1 < 64
    omega
  · show i.position * 2 + 1 < 2 ^ 32
    omega

/-- In a well-formed tree the walk does not panic.  It goes on only below nodes
that are held, and these are within the tree. -/
theorem foldBlankAux_of_shallow (h : WellFormed t) {absent : β} {populated : NodeIndex → β}
    {blankLeaf : β} {blank : β → β → β} (n : Nat) (i : NodeIndex) (hi : Shallow i)
    (hn : 64 < n + i.depth) :
    foldBlankAux t absent populated blankLeaf blank n i =
      some (t.foldBlank absent populated blankLeaf blank i) := by
  induction n generalizing i with
  | zero =>
    have hd := hi.depth_lt
    omega
  | succ n ih =>
    rw [foldBlankAux, get_of_shallow hi, foldBlank_eq]
    simp only [Option.bind_eq_bind, Option.bind_some]
    cases hget : t.get i with
    | none => rfl
    | some node =>
      rcases children_of_get h hget with ⟨⟨hleft, hleft'⟩, hright, hright'⟩
      have hdl : i.leftChild.depth = i.depth + 1 := rfl
      have hdr : i.rightChild.depth = i.depth + 1 := rfl
      simp only [hleft, hright, Option.bind_some, ih _ hleft' (by omega), ih _ hright' (by omega)]
      split
      · rfl
      · split <;> rfl

theorem resolve_of_shallow (h : WellFormed t) {i : NodeIndex} (hi : Shallow i) :
    resolve t i = some (t.resolve i) :=
  foldBlankAux_of_shallow h 65 i hi (by omega)

theorem resolveComplete_of_shallow (h : WellFormed t) {i : NodeIndex} (hi : Shallow i) :
    resolveComplete t i = some (t.resolveComplete i) :=
  foldBlankAux_of_shallow h 65 i hi (by omega)

/-- The nodes of a resolution are held. -/
theorem shallow_of_mem_resolve (h : WellFormed t) {i : NodeIndex} :
    ∀ r ∈ t.resolve i, Shallow r := by
  intro r hr
  rcases Option.isSome_iff_exists.mp (t.keyAt_of_mem_resolve i r hr) with ⟨pk, hpk⟩
  rcases Option.bind_eq_some_iff.mp hpk with ⟨node, hget, _⟩
  exact shallow_of_get h hget

theorem computeLj_of_shallow (h : WellFormed t) {v : NodeIndex} (hv : Shallow v) :
    computeLj t v = some (t.computeLj v t.unmergedLeafNodes) := by
  unfold computeLj
  split
  · next hs => simp [PartialTreeView.computeLj, hs]
  · next s hs =>
    have hnone : (t.resolve s).flatMap t.unmergedLeafNodes = [] := by
      rw [List.flatMap_eq_nil_iff]
      intro r hr
      exact unmergedLeafNodes_of_keyAt (t.keyAt_of_mem_resolve s r hr)
    rw [resolve_of_shallow h (hv.sibling hs)]
    simp only [Option.bind_eq_bind, Option.bind_some, hnone,
      lookups_of_shallow (shallow_of_mem_resolve h)]
    rfl

theorem reconstructResolutionComplete_of_shallow (h : WellFormed t) {v : NodeIndex}
    (hv : Shallow v) :
    reconstructResolutionComplete t v = some (t.reconstructResolutionComplete v) := by
  unfold reconstructResolutionComplete PartialTreeView.reconstructResolutionComplete
  cases hs : v.sibling with
  | none => rfl
  | some s =>
    have hall : (t.resolveComplete s).1.filter (t.notUnmergedAt v) = (t.resolveComplete s).1 := by
      rw [resolveComplete_fst]
      exact List.filter_eq_self.mpr (notUnmergedAt_of_mem_resolve h hs)
    simp only [resolveComplete_of_shallow h (hv.sibling hs), Option.bind_eq_bind, Option.bind_some,
      hall, lookups_of_shallow (show ∀ i ∈ [v], Shallow i by simpa using hv), assertion, if_true]
    rfl

theorem reconstructResolutionKeys_of_shallow (h : WellFormed t) {v : NodeIndex} (hv : Shallow v) :
    reconstructResolutionKeys t v = some (t.reconstructResolutionKeys v) := by
  have hmem : ∀ r ∈ t.computeLj v t.unmergedLeafNodes,
      Shallow r ∧ t.notUnmergedAt v r = true := by
    intro r hr
    rw [computeLj_eq_resolve] at hr
    cases hs : v.sibling with
    | none => simp [hs] at hr
    | some s =>
      rw [hs] at hr
      exact ⟨shallow_of_mem_resolve h r hr, notUnmergedAt_of_mem_resolve h hs r hr⟩
  have hall := List.filter_eq_self.mpr fun r hr => (hmem r hr).2
  unfold reconstructResolutionKeys PartialTreeView.reconstructResolutionKeys
  rw [computeLj_of_shallow h hv]
  simp only [Option.bind_eq_bind, Option.bind_some, hall, lookups_of_shallow
    (show ∀ i ∈ [v], Shallow i by simpa using hv), assertion, if_true,
    lookups_of_shallow fun r hr => (hmem r hr).1]
  rfl

/-! ## Parent hashes -/

/-- A round of the verifier returns at an index that can be addressed. -/
theorem verifyLevel_of_shallow (h : WellFormed t) {level : Nat} {prevH2 : Bytes32}
    {predecessors : List P.PublicKey} {update : NodeUpdate P} (hv : Shallow update.nodeIndex) :
    verifyLevel t level prevH2 predecessors update =
      returns (Cocoa.verifyLevel t level prevH2 predecessors update) := by
  apply eq_returns (verifyLevel_refines t level prevH2 predecessors update)
  have hlabel : siblingLabel t update.nodeIndex ≠ none := by
    unfold siblingLabel
    split
    · simp
    · next s hs =>
      rw [get_of_shallow (hv.sibling hs)]
      simp only [Option.bind_eq_bind, Option.bind_some]
      split <;> simp
  unfold verifyLevel
  split
  · simp
  · simp only [panics_arith_bind, hlabel, false_or, panics_returns_bind,
      reconstructResolutionComplete_of_shallow h hv, reconstructResolutionKeys_of_shallow h hv]
    rintro ⟨label, _, _, _, hbad | ⟨rLocal, _, hbad⟩⟩
    · cases hbad
    · split at hbad
      · simp only [panics_returns_bind, panics_arith_bind, panics_returns] at hbad
        rcases hbad with ⟨_, _, hbad | ⟨_, _, hbad⟩⟩
        · cases hbad
        · exact hbad
      · simp at hbad

/-- A round above the leaf looks the sibling up first. -/
theorem verifyLevel_of_deep {level : Nat} {prevH2 : Bytes32} {predecessors : List P.PublicKey}
    {update : NodeUpdate P} (hlevel : level ≠ 0) (hdeep : 64 ≤ update.nodeIndex.depth) :
    (verifyLevel t level prevH2 predecessors update).Panics := by
  have hlabel : siblingLabel t update.nodeIndex = none := by
    unfold siblingLabel
    split
    · next hs =>
      have hsome := NodeIndex.sibling_isSome_iff.mpr (show update.nodeIndex.depth ≠ 0 by omega)
      rw [hs] at hsome
      cases hsome
    · next s hs =>
      have hdepth := NodeIndex.sibling_depth hs
      rw [get_eq, if_neg]
      · rfl
      · intro haddr
        have hlt := haddr.depth_lt
        omega
  unfold verifyLevel
  rw [if_neg hlevel, panics_arith_bind]
  exact .inl hlabel

theorem verifyLevel_zero {prevH2 : Bytes32} {predecessors : List P.PublicKey}
    {update : NodeUpdate P} :
    verifyLevel t 0 prevH2 predecessors update =
      returns (Cocoa.verifyLevel t 0 prevH2 predecessors update) := rfl

/-- The verifier panics at the first index above the leaf that is too deep, if
the levels before it are right. -/
theorem verifyLevels_panics (h : WellFormed t) {level : Nat} {prevH2 : Bytes32}
    {predecessors : List P.PublicKey} {updates : List (NodeUpdate P)}
    (hpos : ∀ u ∈ updates, u.nodeIndex.position < 2 ^ 32) :
    (verifyLevels t level prevH2 predecessors updates).Panics ↔
      ∃ k u, updates[k]? = some u ∧ level + k ≠ 0 ∧ 64 ≤ u.nodeIndex.depth ∧
        Cocoa.verifyLevels t level prevH2 predecessors (updates.take k) = .ok () := by
  induction updates generalizing level prevH2 predecessors with
  | nil => simp [verifyLevels]
  | cons update updates ih =>
    have htail : ∀ u ∈ updates, u.nodeIndex.position < 2 ^ 32 := fun u hu =>
      hpos u (List.mem_cons_of_mem _ hu)
    by_cases hdeep : level ≠ 0 ∧ 64 ≤ update.nodeIndex.depth
    · refine iff_of_true ?_ ⟨0, update, rfl, by omega, hdeep.2, rfl⟩
      rw [verifyLevels, panics_bind]
      exact .inl (verifyLevel_of_deep hdeep.1 hdeep.2)
    · have hround : verifyLevel t level prevH2 predecessors update =
          returns (Cocoa.verifyLevel t level prevH2 predecessors update) := by
        by_cases hlevel : level = 0
        · subst hlevel
          exact verifyLevel_zero
        · exact verifyLevel_of_shallow h ⟨by omega, hpos update (by simp)⟩
      rw [verifyLevels, hround, panics_returns_bind]
      constructor
      · rintro ⟨_, hok, hrest⟩
        rcases (ih htail).mp hrest with ⟨k, u, hu, _, hd, hprefix⟩
        refine ⟨k + 1, u, by simpa using hu, by omega, hd, ?_⟩
        rw [List.take_succ_cons, Cocoa.verifyLevels]
        exact Except.bind_eq_ok.mpr ⟨(), hok, hprefix⟩
      · rintro ⟨k, u, hu, hk, hd, hprefix⟩
        cases k with
        | zero =>
          cases hu
          exact absurd ⟨by omega, hd⟩ hdeep
        | succ k =>
          rw [List.take_succ_cons, Cocoa.verifyLevels, Except.bind_eq_ok] at hprefix
          rcases hprefix with ⟨_, hok, hprefix⟩
          exact ⟨(), hok, (ih htail).mpr ⟨k, u, by simpa using hu, by omega, hd, hprefix⟩⟩

/-! ## Changes to the session -/

theorem growIfNeeded_of_wellFormed (h : WellFormed t) (n : Nat) :
    growIfNeeded t n = some (t.growIfNeeded n) := by
  unfold growIfNeeded PartialTreeView.growIfNeeded
  split
  · have hdepth := h.treeDepth_lt
    refine growTree_of_shallow (by omega) ?_
    intro key node hkey
    have hget : t.get ⟨0, key⟩ = some node := by
      rw [PartialTreeView.get, show (⟨0, key⟩ : NodeIndex).toLinear = key by
        simp [NodeIndex.toLinear]]
      exact hkey
    have hin := h.inTree _ _ hget
    have hdepth := hin.depth_le.trans h.treeDepth_le
    have hrange : node.index.position < 2 ^ node.index.depth := hin.inRange
    have hpow : 2 ^ node.index.depth ≤ 2 ^ 20 := Nat.pow_le_pow_right (by decide) hdepth
    unfold maxTreeDepth at hdepth
    exact ⟨by show node.index.depth + 1 < 64; omega, by show node.index.position < 2 ^ 32; omega⟩
  · rfl

/-- The ancestors of a leaf can all be looked up. -/
theorem shallow_of_mem_path {leaf : NodeIndex} (h : Shallow leaf) :
    ∀ i ∈ pathToRoot leaf, Shallow i := by
  intro i hi
  rw [pathToRoot_eq_map] at hi
  rcases List.mem_map.mp hi with ⟨k, _, rfl⟩
  refine ⟨lt_of_le_of_lt (Nat.sub_le _ _) h.depth_lt, ?_⟩
  exact lt_of_le_of_lt (Nat.shiftRight_le _ _) h.position_lt

theorem clearUnmergedOnPath_of_shallow {s : CocoaSession P} {leafPosition : Nat}
    (h : Shallow (.leaf s.tree.treeDepth leafPosition)) :
    clearUnmergedOnPath s leafPosition = some (Cocoa.clearUnmergedOnPath s leafPosition) := by
  have hround : ∀ i ∈ pathToRoot (.leaf s.tree.treeDepth leafPosition),
      ∀ t : PartialTreeView P, modifyState t i (·.removeUnmergedLeaf s.ourLeafPosition) =
        if False then none else some (t.removeUnmergedLeaf i s.ourLeafPosition) := by
    intro i hi t
    rw [modifyState_of_shallow (shallow_of_mem_path h i hi)]
    rfl
  unfold clearUnmergedOnPath
  have hrun := foldlM_eq hround s.tree
  simp only [and_false, exists_false, if_false] at hrun
  exact congrArg (Option.bind · fun tree => some (s.modifyTree fun _ => tree)) hrun

/-- A round of the loop that marks a leaf as unmerged stays in the tree. -/
theorem markRound_of_shallow {t : PartialTreeView P} {i : NodeIndex} (h : Shallow i)
    (leafPosition : Nat) :
    ((get t i).bind fun o =>
        match o with
        | some node =>
          if node.state.isBlank then modifyState t i (·.addUnmergedLeaf leafPosition) else some t
        | none => some t) =
      if False then none else
        some (match t.get i with
          | some node => if node.state.isBlank then t.addUnmergedLeaf i leafPosition else t
          | none => t) := by
  rw [get_of_shallow h, Option.bind_some, modifyState_of_shallow h, if_neg id]
  cases t.get i with
  | none => rfl
  | some node =>
    simp only
    split <;> rfl

theorem markMemberAsUnmerged_of_shallow {s : CocoaSession P} {leafPosition : Nat}
    (h : Shallow (.leaf s.tree.treeDepth leafPosition)) :
    markMemberAsUnmerged s leafPosition = some (Cocoa.markMemberAsUnmerged s leafPosition) := by
  unfold markMemberAsUnmerged
  rw [Option.bind_eq_bind]
  have hrun := foldlM_eq
    (fun i hi t => markRound_of_shallow (t := t) (shallow_of_mem_path h i hi) leafPosition)
    s.tree
  simp only [and_false, exists_false, if_false] at hrun
  exact congrArg (Option.bind · fun tree => some (s.modifyTree fun _ => tree)) hrun

theorem advanceEpoch_of_lt {s : CocoaSession P} (h : s.epochNumber + 1 < 2 ^ 64)
    (delta transcript : Bytes32) :
    advanceEpoch s delta transcript = some (s.advanceEpoch delta transcript) := by
  unfold advanceEpoch
  rw [addWord_of_lt h]
  rfl

/-- The path updates panic when one of them is too deep. -/
theorem updateTreeFromPathUpdates_eq {s : CocoaSession P} {pus : List PathUpdate}
    {sig : P.Signature} {updaterId : UserId} (hepoch : s.epochNumber + 1 < 2 ^ 64)
    (hkeys : ∀ pu ∈ pus, ∃ pk, P.publicKeyFromBytes pu.newPublicKey = .ok pk)
    (hpos : ∀ pu ∈ pus, pu.nodeIndex.position < 2 ^ 32) :
    updateTreeFromPathUpdates s pus sig updaterId =
      if ∃ pu ∈ pus, 64 ≤ pu.nodeIndex.depth then none
      else some (Cocoa.updateTreeFromPathUpdates s pus sig updaterId) := by
  have hround : ∀ pu ∈ pus, ∀ t : PartialTreeView P,
      writePathUpdate s.transcriptHash s.epochNumber sig updaterId t pu =
        if 64 ≤ pu.nodeIndex.depth then none
        else some (Cocoa.writePathUpdate s.transcriptHash s.epochNumber sig updaterId t pu) := by
    intro pu hpu t
    rcases hkeys pu hpu with ⟨pk, hpk⟩
    unfold writePathUpdate Cocoa.writePathUpdate
    rw [hpk, get_eq]
    simp only [addWord_of_lt hepoch, addressable_iff (hpos pu hpu)]
    by_cases hdeep : 64 ≤ pu.nodeIndex.depth
    · rw [if_pos hdeep, if_neg (Nat.not_lt.mpr hdeep)]
      rfl
    · rw [if_neg hdeep, if_pos (Nat.not_le.mp hdeep)]
      simp only [Option.bind_eq_bind, Option.bind_some, insert_eq]
      exact if_pos ((addressable_iff (hpos pu hpu)).mpr (Nat.not_le.mp hdeep))
  unfold updateTreeFromPathUpdates
  rw [foldlM_eq hround]
  split <;> rfl

end Machine

end Trelis.Cocoa
