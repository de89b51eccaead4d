import Trelis.Cocoa.Agreement
import Trelis.Cocoa.Build

/-!
# The keys that a commit writes

`keyAt` after each change of a tree.

* Path updates.  `writtenKey` is the key that a list of path updates leaves at
  an index, the last one that names it (`keyAt_writePathUpdates`).  An honest
  path names each of its nodes once (`writtenKey_built`).
* Blanking and growing.  Blanking takes one key away, and growing takes the
  keys of the old tree and moves them (`keyAt_growIfNeeded`).
-/

namespace Trelis.Cocoa

variable {P : Primitives}

/-! ## Path updates -/

/-- The key that a path update writes at an index. -/
def PathUpdate.keyFor (P : Primitives) (pu : PathUpdate) (i : NodeIndex) : Option P.PublicKey :=
  if pu.nodeIndex.toLinear = i.toLinear then (P.publicKeyFromBytes pu.newPublicKey).toOption
  else none

/-- The key that a list of path updates leaves at an index, if it writes
one. -/
def writtenKey (P : Primitives) (pus : List PathUpdate) (i : NodeIndex) : Option P.PublicKey :=
  pus.reverse.findSome? (·.keyFor P i)

theorem writtenKey_cons (pu : PathUpdate) (pus : List PathUpdate) (i : NodeIndex) :
    writtenKey P (pu :: pus) i = (writtenKey P pus i).or (pu.keyFor P i) := by
  rw [writtenKey, List.reverse_cons, List.findSome?_append, List.findSome?_singleton]
  rfl

/-- A key is written only at an index that some update names. -/
theorem writtenKey_eq_some {pus : List PathUpdate} {i : NodeIndex} {pk : P.PublicKey}
    (h : writtenKey P pus i = some pk) :
    ∃ pu ∈ pus, pu.nodeIndex.toLinear = i.toLinear ∧
      P.publicKeyFromBytes pu.newPublicKey = .ok pk := by
  rcases List.exists_of_findSome?_eq_some h with ⟨pu, hpu, hkey⟩
  rw [List.mem_reverse] at hpu
  unfold PathUpdate.keyFor at hkey
  split at hkey
  · next hlinear =>
    refine ⟨pu, hpu, hlinear, ?_⟩
    cases hparse : P.publicKeyFromBytes pu.newPublicKey with
    | error e => rw [hparse] at hkey; cases hkey
    | ok pk' => rw [hparse] at hkey; cases hkey; rfl
  · cases hkey

/-- No key is written where no update that parses names the index. -/
theorem writtenKey_eq_none {pus : List PathUpdate} {i : NodeIndex}
    (h : ∀ pu ∈ pus, pu.nodeIndex.toLinear ≠ i.toLinear) : writtenKey P pus i = none := by
  rw [writtenKey, List.findSome?_eq_none_iff]
  intro pu hpu
  rw [List.mem_reverse] at hpu
  rw [PathUpdate.keyFor, if_neg (h pu hpu)]

/-- An update whose key parses leaves a key where it names the index. -/
theorem writtenKey_isSome {pus : List PathUpdate} {i : NodeIndex} {pu : PathUpdate} (hpu : pu ∈ pus)
    (hlinear : pu.nodeIndex.toLinear = i.toLinear) {pk : P.PublicKey}
    (hparse : P.publicKeyFromBytes pu.newPublicKey = .ok pk) : (writtenKey P pus i).isSome := by
  rw [writtenKey, List.findSome?_isSome_iff]
  refine ⟨pu, by simpa using hpu, ?_⟩
  rw [PathUpdate.keyFor, if_pos hlinear, hparse]
  rfl

namespace PartialTreeView

theorem keyAt_insert (t : PartialTreeView P) (node : TreeNode P) (i : NodeIndex) :
    (t.insert node).keyAt i =
      if node.index.toLinear = i.toLinear then node.state.publicKey else t.keyAt i := by
  unfold keyAt
  rw [get_insert]
  split <;> rfl

theorem keyAt_writePathUpdate (transcript : Bytes32) (epoch : Nat) (sig : P.Signature)
    (updater : UserId) (t : PartialTreeView P) (pu : PathUpdate) (i : NodeIndex) :
    (writePathUpdate transcript epoch sig updater t pu).keyAt i =
      (pu.keyFor P i).or (t.keyAt i) := by
  unfold writePathUpdate PathUpdate.keyFor
  cases hparse : P.publicKeyFromBytes pu.newPublicKey with
  | error e => simp [Except.toOption]
  | ok pk =>
    simp only
    rw [keyAt_insert]
    show (if pu.nodeIndex.toLinear = i.toLinear then some pk else _) = _
    split <;> rfl

/-- The keys after the writes of a commit. -/
theorem keyAt_writePathUpdates (transcript : Bytes32) (epoch : Nat) (sig : P.Signature)
    (updater : UserId) (pus : List PathUpdate) (t : PartialTreeView P) (i : NodeIndex) :
    (pus.foldl (writePathUpdate transcript epoch sig updater) t).keyAt i =
      (writtenKey P pus i).or (t.keyAt i) := by
  induction pus generalizing t with
  | nil => rfl
  | cons pu pus ih =>
    rw [List.foldl_cons, ih, keyAt_writePathUpdate, writtenKey_cons, Option.or_assoc]

/-! ## Blanking and growing -/

theorem keyAt_blankNode (t : PartialTreeView P) (j i : NodeIndex) :
    (t.blankNode j).keyAt i = if j.toLinear = i.toLinear then none else t.keyAt i := by
  unfold keyAt blankNode
  rw [get_modifyState]
  split
  · cases t.get i <;> rfl
  · rfl

/-- A node is as it was after it has been blanked exactly when it was blank
and listed nothing. -/
theorem map_newBlank_eq_iff {o : Option (TreeNode P)} :
    o.map (fun node => { node with state := .newBlank }) = o ↔
      ∀ node, o = some node → node.state = .newBlank := by
  cases o with
  | none => simp
  | some node =>
    rcases node with ⟨index, state⟩
    simp [eq_comm]

/-- Blanking changes nothing where the view holds no node, or a blank one that
lists nothing. -/
theorem blankNode_eq_iff {t : PartialTreeView P} {i : NodeIndex} :
    t.blankNode i = t ↔ ∀ node, t.get i = some node → node.state = .newBlank := by
  have hget : ∀ j, (t.blankNode i).get j =
      if i.toLinear = j.toLinear then (t.get j).map fun node => { node with state := .newBlank }
      else t.get j := t.get_modifyState i _
  rw [← map_newBlank_eq_iff]
  constructor
  · intro h
    have hi := hget i
    rw [if_pos rfl, h] at hi
    exact hi.symm
  · intro h
    refine ext_get (s := t.blankNode i) (t := t) rfl rfl rfl fun j => ?_
    rw [hget]
    split
    · next hij =>
      have hsame : t.get j = t.get i := by
        show t.nodes[j.toLinear]? = t.nodes[i.toLinear]?
        rw [hij]
      rw [hsame, h]
    · rfl

/-- Nodes are stored under their own index, so a key is found there again. -/
theorem keyAt_of_get {t : PartialTreeView P} {i : NodeIndex} {node : TreeNode P}
    (h : t.get i = some node) : t.keyAt node.index = node.state.publicKey := by
  have hlinear : node.index.toLinear = i.toLinear := t.keyed _ node h
  have hget : t.get node.index = some node := by
    show t.nodes[node.index.toLinear]? = some node
    rw [hlinear]
    exact h
  rw [keyAt, hget]
  rfl

/-- A key of the tree is the key of one of its nodes. -/
theorem mem_keys_of_keyAt {t : PartialTreeView P} {i : NodeIndex} {pk : P.PublicKey}
    (h : t.keyAt i = some pk) : some pk ∈ t.nodes.toList.map (·.2.state.publicKey) := by
  rcases Option.bind_eq_some_iff.mp h with ⟨node, hget, hpk⟩
  rw [List.mem_map]
  exact ⟨(i.toLinear, node), Std.ExtTreeMap.mem_toList_iff_getElem?_eq_some.mpr hget, hpk⟩

private theorem getElem?_growNodes {old : List (Nat × TreeNode P)} :
    ∀ {acc : Std.ExtTreeMap Nat (TreeNode P)} {k : Nat} {node : TreeNode P},
      (growNodes old acc)[k]? = some node →
      acc[k]? = some node ∨ ∃ entry ∈ old, node = deepen entry.2 := by
  induction old with
  | nil => intro acc k node h; exact .inl h
  | cons entry old ih =>
    intro acc k node h
    rcases ih h with hacc | ⟨e, he, hnode⟩
    · rw [Std.ExtTreeMap.getElem?_insert] at hacc
      split at hacc
      · exact .inr ⟨entry, by simp, (Option.some.inj hacc).symm⟩
      · exact .inl hacc
    · exact .inr ⟨e, List.mem_cons_of_mem _ he, hnode⟩

/-- A node of the grown tree is a node of the old one, a level further down. -/
theorem get_growTree {t : PartialTreeView P} {i : NodeIndex} {node : TreeNode P}
    (h : t.growTree.get i = some node) : ∃ old, t.get old.index = some old ∧ node = deepen old := by
  rcases getElem?_growNodes h with hempty | ⟨⟨k, old⟩, hmem, hnode⟩
  · simp at hempty
  · rw [Std.ExtTreeMap.mem_toList_iff_getElem?_eq_some] at hmem
    refine ⟨old, ?_, hnode⟩
    show t.nodes[old.index.toLinear]? = some old
    rw [t.keyed k old hmem, hmem]

/-- A key of the grown tree is a key of the old one. -/
theorem keyAt_growIfNeeded {t : PartialTreeView P} {n : Nat} {i : NodeIndex} {pk : P.PublicKey}
    (h : (t.growIfNeeded n).keyAt i = some pk) : ∃ j, t.keyAt j = some pk := by
  unfold growIfNeeded at h
  split at h
  · rcases Option.bind_eq_some_iff.mp h with ⟨node, hget, hpk⟩
    rcases get_growTree hget with ⟨old, hold, rfl⟩
    exact ⟨old.index, by rw [keyAt_of_get hold]; exact hpk⟩
  · exact ⟨i, h⟩

end PartialTreeView

/-! ## An honest path -/

/-- Two ancestors of a node, at different depths, have different linear
indices. -/
theorem NodeIndex.toLinear_ancestor_ne {i : NodeIndex} {j k : Nat} (hjk : j < k)
    (hk : k ≤ i.depth) : (i.ancestor k).toLinear ≠ (i.ancestor j).toLinear := by
  have hunder : ∀ m ≤ i.depth, (i.toLinear + 1) / 2 ^ m = (i.ancestor m).toLinear + 1 := by
    intro m hm
    have hu : i.Under (i.ancestor m) := by
      refine ⟨Nat.sub_le _ _, ?_⟩
      show i.position >>> (i.depth - (i.depth - m)) = i.position >>> m
      rw [Nat.sub_sub_self hm]
    have h := toLinear_div_of_under hu
    rwa [show i.depth - (i.ancestor m).depth = m from Nat.sub_sub_self hm] at h
  have hj := hunder j (by omega)
  have hk := hunder k hk
  have hsplit : (i.toLinear + 1) / 2 ^ k = (i.toLinear + 1) / 2 ^ j / 2 ^ (k - j) := by
    rw [Nat.div_div_eq_div_mul, ← Nat.pow_add, Nat.add_sub_cancel' hjk.le]
  have hhalf : (i.toLinear + 1) / 2 ^ j / 2 ^ (k - j) ≤ (i.toLinear + 1) / 2 ^ j / 2 ^ 1 :=
    Nat.div_le_div_left (Nat.pow_le_pow_right (by decide) (by omega)) (by decide)
  omega

section Built

variable {t : PartialTreeView P} {R : NodeIndex → List (NodeIndex × P.PublicKey)}
  {leaf : NodeIndex} {level : Nat} {h2 : Bytes32} {preds : List P.PublicKey} {seeds : List Seed}
  {updates : List (NodeUpdate P)}

theorem BuiltLevels.nodeIndex_eq (h : BuiltLevels t R leaf level h2 preds seeds updates) :
    ∀ k u, updates[k]? = some u → u.nodeIndex = leaf.ancestor (level + k) := by
  induction h with
  | nil => simp
  | @cons level h2 preds seed u seeds updates head _ ih =>
    intro k w hw
    cases k with
    | zero =>
      cases hw
      exact head.nodeIndex_eq
    | succ k =>
      rw [ih k w (by simpa using hw)]
      congr 1
      omega

/-- A built path leaves the key of each of its updates at the node of the
update. -/
theorem writtenKey_built {size : Nat} (hpk : P.PublicKeyCodec size)
    (h : BuiltLevels t R leaf level h2 preds seeds updates)
    (hdepth : level + updates.length ≤ leaf.depth + 1) {k : Nat} {u : NodeUpdate P}
    (hu : updates[k]? = some u) :
    writtenKey P (updates.map NodeUpdate.toWire) (leaf.ancestor (level + k)) =
      some u.publicKey := by
  induction h generalizing k with
  | nil => simp at hu
  | @cons level h2 preds seed w seeds updates head tail ih =>
    rw [List.length_cons] at hdepth
    rw [List.map_cons, writtenKey_cons]
    have hkey : ∀ i : NodeIndex, w.toWire.keyFor P i =
        if (leaf.ancestor level).toLinear = i.toLinear then some w.publicKey else none := by
      intro i
      rcases head.keypair_eq with ⟨kp, _, hkp⟩
      have hparse : P.publicKeyFromBytes w.toWire.newPublicKey = .ok w.publicKey := by
        show P.publicKeyFromBytes (P.publicKeyToBytes w.publicKey) = .ok w.publicKey
        rw [hkp]
        exact hpk.fromBytes_toBytes kp
      rw [PathUpdate.keyFor, hparse]
      show (if w.nodeIndex.toLinear = i.toLinear then some w.publicKey else none) = _
      rw [head.nodeIndex_eq]
    cases k with
    | zero =>
      cases hu
      have hnone : writtenKey P (updates.map NodeUpdate.toWire) (leaf.ancestor level) = none := by
        apply writtenKey_eq_none
        intro pu hpu
        rcases List.mem_map.mp hpu with ⟨x, hx, rfl⟩
        rcases List.getElem?_of_mem hx with ⟨j, hj⟩
        have hlt : j < updates.length := (List.getElem?_eq_some_iff.mp hj).1
        show x.nodeIndex.toLinear ≠ _
        rw [tail.nodeIndex_eq j x hj]
        exact NodeIndex.toLinear_ancestor_ne (by omega) (by omega)
      rw [Nat.add_zero, hnone, hkey, if_pos rfl]
      rfl
    | succ k =>
      have hrest := ih (by omega) (by simpa using hu)
      rw [show level + 1 + k = level + (k + 1) by omega] at hrest
      rw [hrest]
      rfl

end Built

end Trelis.Cocoa
