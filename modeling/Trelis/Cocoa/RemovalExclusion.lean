import Mathlib.Data.Set.Basic
import Trelis.Cocoa.NodeInvariant
import Trelis.Cocoa.TreeSecrecy

/-!
# The keys of a removed member

A removed member may know the keys of its leaf and of the nodes above it, as far
as they were published before its removal.  A removal blanks the leaf only.

`Ledger` is the session of a member with the keys that the commits of its group
have published, each with its place in the tree, and with the keys that are
excluded since a removal.  The removals of a run clear the path where no node
above the leaf has a key that the commit does not replace (`ClearsAbove`).  Then
no excluded key is left in the tree, and no entry of a commit is encrypted to
one (`removed_keys_excluded`).
-/

namespace Trelis.Cocoa

open PartialTreeView

variable {P : Primitives}

/-! ## Places -/

/-- Where a node is, in terms that do not change when the tree grows: its height
above the leaves, and its position. -/
abbrev Place := Int × Nat

def NodeIndex.place (treeDepth : Nat) (i : NodeIndex) : Place :=
  ((treeDepth : Int) - i.depth, i.position)

/-- The place is the leaf at a position, or above it. -/
def Place.Over (x : Place) (leafPosition : Nat) : Prop :=
  ∃ height : Nat, x = ((height : Int), leafPosition >>> height)

theorem NodeIndex.place_deepen (d : Nat) (i : NodeIndex) : i.deepen.place (d + 1) = i.place d := by
  refine Prod.ext ?_ rfl
  show ((d + 1 : Nat) : Int) - (i.depth + 1 : Nat) = d - i.depth
  omega

/-- A node is over a leaf exactly when it is an ancestor of it. -/
theorem NodeIndex.over_place_iff {d position : Nat} {i : NodeIndex} :
    (i.place d).Over position ↔ ∃ height ≤ d, i = (NodeIndex.leaf d position).ancestor height := by
  rcases i with ⟨depth, pos⟩
  simp only [Place.Over, NodeIndex.place, Prod.mk.injEq, NodeIndex.ancestor, NodeIndex.leaf,
    NodeIndex.mk.injEq]
  constructor
  · rintro ⟨height, hdepth, hpos⟩
    exact ⟨height, by omega, by omega, hpos⟩
  · rintro ⟨height, hle, hdepth, hpos⟩
    exact ⟨height, by omega, hpos⟩

/-! ## The ledger -/

/-- The keys that a commit publishes, with their places. -/
def Commit.published (s : CocoaSession P) (c : Commit P) : Set (Place × P.PublicKey) :=
  { entry | ∃ pu ∈ c.pathUpdates, P.publicKeyFromBytes pu.newPublicKey = .ok entry.2 ∧
    entry.1 = pu.nodeIndex.place (c.target s).treeDepth }

/-- The leaf that a commit removes. -/
def Commit.removedPosition : Commit P → Option Nat
  | add _ => none
  | update _ => none
  | remove c => some c.removedLeafPosition

/-- The keys that a builder publishes: those of its commit, and the one-time key
of the newcomer at its leaf. -/
def Operation.published (s : CocoaSession P) (op : Operation P) (m : Message P) :
    Set (Place × P.PublicKey) :=
  m.commit.published s ∪
    { entry | ∃ r ∈ op.newcomer s, entry = (r.1.place (op.session s).tree.treeDepth, r.2) }

/-- A session, the keys that the commits of its group have published so far, and
the keys that no removal it knows of has left in use. -/
structure Ledger (P : Primitives) where
  session : CocoaSession P
  published : Set (Place × P.PublicKey)
  excluded : Set P.PublicKey

namespace Ledger

/-- The keys that were published for a leaf and for the nodes above it. -/
def keysOver (L : Ledger P) (position : Nat) : Set P.PublicKey :=
  { pk | ∃ x : Place, x.Over position ∧ (x, pk) ∈ L.published }

/-- The ledger after a commit that publishes `entries` and removes the leaf at
`removed`. -/
def record (L : Ledger P) (s' : CocoaSession P) (entries : Set (Place × P.PublicKey))
    (removed : Option Nat) : Ledger P where
  session := s'
  published := L.published ∪ entries
  excluded := L.excluded ∪ { pk | ∃ position ∈ removed, pk ∈ L.keysOver position }

/-- No key of the entries was published before, and none is published at two
places. -/
def Fresh (L : Ledger P) (entries : Set (Place × P.PublicKey)) : Prop :=
  ∀ x pk, (x, pk) ∈ entries → (∀ y, (y, pk) ∉ L.published) ∧ ∀ y, (y, pk) ∈ entries → y = x

end Ledger

/-- Every node above a leaf that has a key is replaced by the path updates. -/
def ClearsAbove (t : PartialTreeView P) (pus : List PathUpdate) (position : Nat) : Prop :=
  ∀ height, 0 < height → height ≤ t.treeDepth →
    (t.keyAt ((NodeIndex.leaf t.treeDepth position).ancestor height)).isSome →
      ∃ pu ∈ pus, pu.nodeIndex = (NodeIndex.leaf t.treeDepth position).ancestor height

/-- A member starts with nothing on its ledger. -/
def LedgerStart (L : Ledger P) : Prop :=
  Started (fun _ => True) L.session ∧ L.published = ∅ ∧ L.excluded = ∅

/-- A step of the member, or a commit of its group that it does not accept.  Its
removals clear the path above the removed leaf; a committer does not write its
own path. -/
inductive LedgerStep : Ledger P → Ledger P → Prop
  | built {L : Ledger P} {op : Operation P} {identity draws m s'}
      (h : op.build identity draws L.session = .ok m s')
      (hfresh : L.Fresh (op.published L.session m))
      (hclear : ∀ position ∈ m.commit.removedPosition, ClearsAbove L.session.tree [] position) :
      LedgerStep L (L.record s' (op.published L.session m) m.commit.removedPosition)
  | failed {L : Ledger P} {op : Operation P} {identity draws e s'}
      (h : op.build identity draws L.session = .error e s') :
      LedgerStep L { L with session := s' }
  | accepted {L : Ledger P} {c : Commit P} {signer s'} (h : c.process signer L.session = .ok () s')
      (hfresh : L.Fresh (c.published L.session))
      (hclear : ∀ position ∈ c.removedPosition,
        ClearsAbove L.session.tree c.pathUpdates position) :
      LedgerStep L (L.record s' (c.published L.session) c.removedPosition)
  | elsewhere {L : Ledger P} {entries : Set (Place × P.PublicKey)} (hfresh : L.Fresh entries) :
      LedgerStep L { L with published := L.published ∪ entries }

/-- Every key of the tree was published for its node, a key was published for
one place only, and the tree has no excluded key. -/
structure Ledger.Sound (L : Ledger P) : Prop where
  held : L.session.tree.All fun d i k => ∀ pk ∈ k, (i.place d, pk) ∈ L.published
  unique : ∀ x y pk, (x, pk) ∈ L.published → (y, pk) ∈ L.published → x = y
  known : ∀ pk ∈ L.excluded, ∃ x, (x, pk) ∈ L.published
  clean : L.session.tree.All fun _ _ k => ∀ pk ∈ k, pk ∉ L.excluded

/-! ## What a removal leaves -/

/-- Only a removal has a removed leaf. -/
theorem Operation.eq_remove_of_ok {op : Operation P} {identity : P.IdentityKeyPair}
    {draws : Draws P} {s s' : CocoaSession P} {m : Message P}
    (h : op.build identity draws s = .ok m s') {position : Nat}
    (hposition : position ∈ m.commit.removedPosition) :
    ∃ removedMemberId, op = .remove removedMemberId position := by
  cases op with
  | add bundle newMemberId =>
    simp only [build, EStateM.bind_eq_ok, EStateM.pure_eq_ok] at h
    rcases h with ⟨_, _, _, rfl, _⟩
    cases hposition
  | update =>
    simp only [build, EStateM.bind_eq_ok, EStateM.pure_eq_ok] at h
    rcases h with ⟨_, _, _, rfl, _⟩
    cases hposition
  | remove removedMemberId removedPosition =>
    simp only [build, EStateM.bind_eq_ok, EStateM.pure_eq_ok] at h
    rcases h with ⟨c, _, hremove, rfl, _⟩
    rcases removeMember_ok hremove with ⟨_, _, _, _, _, _, ⟨_, hremoved⟩, _⟩
    cases hposition
    exact ⟨removedMemberId, by rw [hremoved]⟩

/-- Once a leaf is blank, a key of one of its ancestors is above it, and was there
before. -/
theorem keyAt_ancestor_of_blank {t : PartialTreeView P} {position height : Nat} {pk : P.PublicKey}
    (h : (t.blankNode (.leaf t.treeDepth position)).keyAt
      ((NodeIndex.leaf t.treeDepth position).ancestor height) = some pk) :
    0 < height ∧ t.keyAt ((NodeIndex.leaf t.treeDepth position).ancestor height) = some pk := by
  rw [keyAt_blankNode] at h
  split at h
  · cases h
  · next hne =>
    refine ⟨Nat.pos_of_ne_zero ?_, h⟩
    rintro rfl
    exact hne rfl

/-- A key of an ancestor of the removed leaf, after a removal that clears the
path, is one that the commit has published. -/
theorem published_of_keyAt_ancestor {s s' : CocoaSession P} {c : Commit P}
    {signer : P.IdentityPublicKey} (h : c.process signer s = .ok () s') {position : Nat}
    (hposition : position ∈ c.removedPosition)
    (hclear : ClearsAbove s.tree c.pathUpdates position) {height : Nat}
    (hheight : height ≤ s'.tree.treeDepth) {pk : P.PublicKey}
    (hkey : s'.tree.keyAt ((NodeIndex.leaf s'.tree.treeDepth position).ancestor height) = some pk) :
    ∃ x, (x, pk) ∈ c.published s := by
  cases c with
  | add c => cases hposition
  | update c => cases hposition
  | remove c =>
    cases hposition
    rcases processRemove_eq_ok.mp h with ⟨delta, transcript, hcheck, rfl⟩
    rcases (checkRemove_eq_ok.mp hcheck).2.2 with ⟨nodeUpdates, hchecked, _⟩
    have hdepth : (applyRemove s c delta transcript).tree.treeDepth = s.tree.treeDepth :=
      congrArg Prod.fst (shape_applyRemove ..)
    rw [hdepth] at hheight hkey
    rw [keyAt_applyRemove] at hkey
    cases hwritten : writtenKey P c.pathUpdates
        ((NodeIndex.leaf s.tree.treeDepth c.removedLeafPosition).ancestor height) with
    | some written =>
      rw [hwritten] at hkey
      cases hkey
      rcases writtenKey_eq_some hwritten with ⟨pu, hpu, _, hparse⟩
      exact ⟨_, pu, hpu, hparse, rfl⟩
    | none =>
      rw [hwritten, Option.none_or] at hkey
      rcases keyAt_ancestor_of_blank hkey with ⟨hpos, hold⟩
      rcases hclear height hpos hheight (by rw [hold]; rfl) with ⟨pu, hpu, hindex⟩
      rcases publicKey_of_converted hchecked.converted hpu with ⟨fresh, hparse⟩
      have hsome : (writtenKey P c.pathUpdates _).isSome :=
        writtenKey_isSome hpu (congrArg NodeIndex.toLinear hindex) hparse
      rw [hwritten] at hsome
      cases hsome

/-- After a committer has removed a leaf and cleared the path, no ancestor of the
leaf has a key. -/
theorem keyAt_ancestor_of_built {s s' : CocoaSession P} {op : Operation P}
    {identity : P.IdentityKeyPair} {draws : Draws P} {m : Message P}
    (h : op.build identity draws s = .ok m s') {position : Nat}
    (hposition : position ∈ m.commit.removedPosition) (hclear : ClearsAbove s.tree [] position)
    {height : Nat} (hheight : height ≤ s'.tree.treeDepth) :
    s'.tree.keyAt ((NodeIndex.leaf s'.tree.treeDepth position).ancestor height) = none := by
  rcases Operation.eq_remove_of_ok h hposition with ⟨removedMemberId, rfl⟩
  rcases Operation.build_ok h with ⟨_, _, hsent⟩
  have hdepth : s'.tree.treeDepth = s.tree.treeDepth := hsent.depth_eq
  rw [hdepth] at hheight ⊢
  rw [Option.eq_none_iff_forall_not_mem]
  intro pk hkey
  rw [Option.mem_def, hsent.keyAt] at hkey
  rcases keyAt_ancestor_of_blank hkey with ⟨hpos, hold⟩
  rcases hclear height hpos hheight (by rw [hold]; rfl) with ⟨pu, hpu, _⟩
  cases hpu

/-! ## The invariant -/

theorem inherited_held (S : Set (Place × P.PublicKey)) :
    Inherited fun d i k => ∀ pk ∈ k, (NodeIndex.place d i, pk) ∈ S where
  deepen := by
    intro d i k h pk hpk
    rw [NodeIndex.place_deepen]
    exact h pk hpk
  blank := by
    intro d i k _ pk hpk
    cases hpk

/-- Only nodes over a removed leaf have a key of the set. -/
theorem inherited_over (S : Set P.PublicKey) (removed : Option Nat) :
    Inherited (P := P) fun d i k =>
      ∀ pk ∈ k, pk ∈ S → ∃ position ∈ removed, (NodeIndex.place d i).Over position where
  deepen := by
    intro d i k h pk hpk hS
    rw [NodeIndex.place_deepen]
    exact h pk hpk hS
  blank := by
    intro d i k _ pk hpk
    cases hpk

theorem PartialTreeView.All.mono {p q : Nat → NodeIndex → Option P.PublicKey → Prop}
    {t : PartialTreeView P} (h : t.All p) (hpq : ∀ d i k, p d i k → q d i k) : t.All q :=
  fun i node hget => hpq _ _ _ (h i node hget)

namespace Ledger

variable {L : Ledger P} {s' : CocoaSession P} {entries : Set (Place × P.PublicKey)}
  {removed : Option Nat}

/-- A fresh key is not excluded. -/
theorem Fresh.not_mem_excluded (hfresh : L.Fresh entries) (h : L.Sound) {x : Place}
    {pk : P.PublicKey} (hpk : (x, pk) ∈ entries) : pk ∉ (L.record s' entries removed).excluded := by
  rintro (hold | ⟨position, _, y, _, hy⟩)
  · rcases h.known pk hold with ⟨y, hy⟩
    exact (hfresh x pk hpk).1 y hy
  · exact (hfresh x pk hpk).1 y hy

namespace Sound

theorem of_start (h : LedgerStart L) : L.Sound := by
  rcases h with ⟨hstart, hpublished, hexcluded⟩
  have hempty : ∀ {p : Nat → NodeIndex → Option P.PublicKey → Prop}, L.session.tree.All p := by
    intro p
    cases hstart with
    | created h =>
      rcases (createGroup_ok h).tree_eq with ⟨_, _, htree⟩
      rw [htree]
      exact all_new _ _ _
    | welcomed h _ =>
      rw [(processWelcome_ok h).tree_eq]
      exact all_new _ _ _
  refine ⟨hempty, ?_, ?_, hempty⟩ <;> simp [hpublished, hexcluded]

/-- A key that a removal excludes is held only by nodes over the removed leaf. -/
theorem held_over (h : L.Sound) :
    L.session.tree.All fun d i k => ∀ pk ∈ k, pk ∈ (L.record s' entries removed).excluded →
      ∃ position ∈ removed, (i.place d).Over position := by
  intro i node hget pk hpk hexcluded
  rcases hexcluded with hold | ⟨position, hposition, x, hover, hx⟩
  · exact absurd hold (h.clean i node hget pk hpk)
  · rw [h.unique _ _ pk hx (h.held i node hget pk hpk)] at hover
    exact ⟨position, hposition, hover⟩

/-- What a step has to show for the tree that it leaves. -/
theorem record (h : L.Sound) (hfresh : L.Fresh entries)
    (hheld : s'.tree.All fun d i k => ∀ pk ∈ k, (i.place d, pk) ∈ L.published ∪ entries)
    (hover : s'.tree.All fun d i k => ∀ pk ∈ k, pk ∈ (L.record s' entries removed).excluded →
      ∃ position ∈ removed, (i.place d).Over position)
    (hclear : ∀ position ∈ removed, ∀ height ≤ s'.tree.treeDepth, ∀ pk, s'.tree.keyAt
      ((NodeIndex.leaf s'.tree.treeDepth position).ancestor height) = some pk →
        pk ∉ (L.record s' entries removed).excluded) :
    (L.record s' entries removed).Sound where
  held := hheld
  unique := by
    rintro x y pk (hx | hx) (hy | hy)
    · exact h.unique x y pk hx hy
    · exact absurd hx ((hfresh y pk hy).1 x)
    · exact absurd hy ((hfresh x pk hx).1 y)
    · exact ((hfresh x pk hx).2 y hy).symm
  known := by
    rintro pk (hold | ⟨position, _, x, _, hx⟩)
    · rcases h.known pk hold with ⟨x, hx⟩
      exact ⟨x, .inl hx⟩
    · exact ⟨x, .inl hx⟩
  clean := by
    intro i node hget pk hpk hexcluded
    rcases hover i node hget pk hpk hexcluded with ⟨position, hposition, hplace⟩
    rcases NodeIndex.over_place_iff.mp hplace with ⟨height, hheight, hindex⟩
    refine hclear position hposition height hheight pk ?_ hexcluded
    have hkey : s'.tree.keyAt node.index = node.state.publicKey := keyAt_of_get hget
    rw [← hindex, hkey]
    exact hpk

theorem step {L' : Ledger P} (h : L.Sound) (hstep : LedgerStep L L') : L'.Sound := by
  cases hstep with
  | built hbuild hfresh hclear =>
    have htree := (Operation.leavesTree_of_ok hbuild).1
    refine h.record hfresh ?_ (h.held_over.leavesTree (inherited_over _ _) htree) ?_
    · exact (h.held.leavesTree (inherited_held _) htree).mono
        fun _ _ _ hp pk hpk => .inl (hp pk hpk)
    · intro position hposition height hheight pk hkey
      rw [keyAt_ancestor_of_built hbuild hposition (hclear position hposition) hheight] at hkey
      cases hkey
  | failed hbuild =>
    have htree := (Operation.leavesTree_of_error hbuild).1
    have hkept : Inherited (P := P) fun _ _ k => ∀ pk ∈ k, pk ∉ L.excluded := by
      refine ⟨id, ?_⟩
      intro d i k _ pk hpk
      cases hpk
    exact ⟨h.held.leavesTree (inherited_held _) htree, h.unique, h.known,
      h.clean.leavesTree hkept htree⟩
  | @accepted c _ _ hprocess hfresh hclear =>
    have hnew : ∀ pu ∈ c.pathUpdates, ∀ pk, P.publicKeyFromBytes pu.newPublicKey = .ok pk →
        (pu.nodeIndex.place (c.target L.session).treeDepth, pk) ∈ c.published L.session :=
      fun pu hpu pk hparse => ⟨pu, hpu, hparse, rfl⟩
    have hheld : L.session.tree.All fun d i k =>
        ∀ pk ∈ k, (i.place d, pk) ∈ L.published ∪ c.published L.session :=
      h.held.mono fun _ _ _ hp pk hpk => .inl (hp pk hpk)
    refine h.record hfresh ?_ ?_ ?_
    · apply hheld.process (inherited_held _) hprocess
      intro pu hpu pk hparse written hwritten
      cases hwritten
      exact .inr (hnew pu hpu pk hparse)
    · apply h.held_over.process (inherited_over _ _) hprocess
      intro pu hpu pk hparse written hwritten hexcluded
      cases hwritten
      exact absurd hexcluded (hfresh.not_mem_excluded h (hnew pu hpu pk hparse))
    · intro position hposition height hheight pk hkey
      rcases published_of_keyAt_ancestor hprocess hposition (hclear position hposition) hheight
        hkey with ⟨x, hx⟩
      exact hfresh.not_mem_excluded h hx
  | @elsewhere entries hfresh =>
    have hrecord : (L.record L.session entries none).Sound :=
      h.record hfresh (h.held.mono fun _ _ _ hp pk hpk => .inl (hp pk hpk)) h.held_over
        (fun _ hposition => nomatch hposition)
    refine ⟨hrecord.held, hrecord.unique, ?_, h.clean⟩
    intro pk hpk
    exact hrecord.known pk (.inl hpk)

theorem of_reachable (h : Reachable LedgerStart LedgerStep L) : L.Sound :=
  h.invariant (fun _ => of_start) fun _ _ => step

end Sound

end Ledger

/-! ## Excluded keys stay excluded -/

/-- In a run whose commits publish fresh keys and whose removals clear the path
above the removed leaf: no node of the tree has an excluded key, and every entry
of the next commit that the member builds is encrypted to a key that is not
excluded, also by that commit. -/
theorem removed_keys_excluded {L : Ledger P} (h : Reachable LedgerStart LedgerStep L) :
    (∀ i pk, L.session.tree.keyAt i = some pk → pk ∉ L.excluded) ∧
    ∀ (op : Operation P) identity draws m s', op.build identity draws L.session = .ok m s' →
      L.Fresh (op.published L.session m) →
      (∀ position ∈ m.commit.removedPosition, ClearsAbove L.session.tree [] position) →
      ∀ pu ∈ m.commit.pathUpdates, ∀ es ∈ pu.encryptedSeeds, ∃ seed pk,
        es.Carries seed pu.nodeIndex pk ∧
          pk ∉ (L.record s' (op.published L.session m) m.commit.removedPosition).excluded := by
  have hclean : ∀ {L : Ledger P}, L.Sound → ∀ i pk, L.session.tree.keyAt i = some pk →
      pk ∉ L.excluded := by
    intro L hsound i pk hkey
    rcases Option.bind_eq_some_iff.mp hkey with ⟨node, hget, hpk⟩
    exact hsound.clean i node hget pk hpk
  have hsound := Ledger.Sound.of_reachable h
  refine ⟨hclean hsound, ?_⟩
  intro op identity draws m s' hbuild hfresh hclear pu hpu es hes
  have hnext := hsound.step (.built hbuild hfresh hclear)
  let commit : HonestCommit P := ⟨op, identity, draws, L.session, m, s', hbuild⟩
  rcases commit.entry hpu hes with ⟨_, _, _, r, hr, seed, _, hcarries⟩
  refine ⟨seed, r.2, hcarries, ?_⟩
  rcases Operation.keyOf_of_mem_recipients hr with hkey | hnewcomer
  · rcases Operation.build_ok hbuild with ⟨_, _, hsent⟩
    refine hclean hnext r.1 r.2 ?_
    show s'.tree.keyAt r.1 = some r.2
    rw [hsent.keyAt]
    exact hkey
  · exact hfresh.not_mem_excluded hsound (.inr ⟨r, hnewcomer, rfl⟩)

section Sample

open Symbolic

/-- The member at leaf 1 of a group of three updates its leaf and is removed.  Its
key is excluded, and the tree of the creator does not hold it. -/
theorem removed_keys_excluded_leaf :
    ∃ L : Ledger symbolic, Reachable LedgerStart LedgerStep L ∧ key 500 ∈ L.excluded ∧
      ∀ i pk, L.session.tree.keyAt i = some pk → pk ∉ L.excluded := by
  rcases threeMembers_ok with ⟨_, hcreate⟩
  let s₀ : CocoaSession symbolic := member 0 10 (tree 2 3 [])
  let update : Commit symbolic := .update (oneNodeUpdate s₀ ⟨2, 1⟩ 500 10)
  have hrun : okAnd (update.process (word 50) s₀) fun _ s₁ =>
      (s₁.tree.treeDepth = 2 ∧ s₁.tree.keyAt ⟨1, 0⟩ = none ∧ s₁.tree.keyAt ⟨0, 0⟩ = none) ∧
        okAnd (processRemove (removeAt 1 s₁) (word 50) s₁) fun _ _ => true := by
    decide +kernel
  rcases okAnd_eq_true.mp hrun with ⟨_, s₁, hupdate, htest⟩
  rcases of_decide_eq_true htest with ⟨⟨hdepth, hone, hroot⟩, hremove⟩
  rcases okAnd_eq_true.mp hremove with ⟨_, s₂, hremove, _⟩
  let L₀ : Ledger symbolic := ⟨s₀, ∅, ∅⟩
  let L₁ : Ledger symbolic := L₀.record s₁ (update.published s₀) none
  let removal : Commit symbolic := .remove (removeAt 1 s₁)
  have hfresh₀ : L₀.Fresh (update.published s₀) := by
    rintro x pk ⟨pu, hpu, hparse, rfl⟩
    refine ⟨fun y hy => hy, ?_⟩
    rintro y ⟨pu', hpu', _, rfl⟩
    rw [List.mem_singleton.mp hpu, List.mem_singleton.mp hpu']
  have hfresh₁ : L₁.Fresh (removal.published s₁) := by
    rintro x pk ⟨pu, hpu, _⟩
    cases hpu
  have hclear : ∀ position ∈ removal.removedPosition,
      ClearsAbove s₁.tree removal.pathUpdates position := by
    intro position hposition height hpos hle hkey
    obtain rfl : 1 = position := Option.some.inj hposition
    rw [hdepth] at hle hkey
    have hheight : height = 1 ∨ height = 2 := by omega
    rcases hheight with rfl | rfl
    · change (s₁.tree.keyAt ⟨1, 0⟩).isSome at hkey
      rw [hone] at hkey
      cases hkey
    · change (s₁.tree.keyAt ⟨0, 0⟩).isSome at hkey
      rw [hroot] at hkey
      cases hkey
  have hreach : Reachable LedgerStart LedgerStep
      (L₁.record s₂ (removal.published s₁) removal.removedPosition) := by
    have hstart : LedgerStart L₀ := ⟨.created hcreate, rfl, rfl⟩
    have hfirst : LedgerStep L₀ L₁ :=
      .accepted hupdate hfresh₀ (fun _ hposition => nomatch hposition)
    exact ((Reachable.start hstart).next hfirst).next (.accepted hremove hfresh₁ hclear)
  refine ⟨_, hreach, ?_, (removed_keys_excluded hreach).1⟩
  have hparse : symbolic.publicKeyFromBytes (word 500).val = .ok (key 500) :=
    publicKeyFromBytes_coe (word 500)
  have hpublished : ((0, 1), key 500) ∈ L₁.published :=
    .inr ⟨_, List.mem_singleton_self _, hparse, rfl⟩
  exact .inr ⟨1, rfl, (0, 1), ⟨0, rfl⟩, hpublished⟩

/-- The member at leaf 1 writes the node above its leaf, and is removed.  The
remover keeps that node, and encrypts its next update to the key: whoever holds
it derives the new root seed. -/
theorem removed_key_used :
    ∃ s₀ s₁ s₂ s₃ : CocoaSession symbolic, ∃ (sent : UpdateCommit symbolic)
        (removal : RemoveCommit symbolic) (update : UpdateCommit symbolic),
      Started (fun _ => True) s₀ ∧
      sent.updaterLeafPosition = 1 ∧ sent.pathUpdates.map (·.nodeIndex) = [⟨1, 0⟩] ∧
      processUpdate sent (word 50) s₀ = .ok () s₁ ∧ s₁.tree.keyAt ⟨1, 0⟩ = some (key 500) ∧
      removeMember (word 60) (word 1) 1 (draws 600) s₁ = .ok removal s₂ ∧
      s₂.tree.keyAt ⟨1, 0⟩ = some (key 500) ∧
      createUpdate (word 60) (draws 700) s₂ = .ok update s₃ ∧
      ∃ nodeUpdates delta,
        convertPathUpdatesToNodeUpdates symbolic update.pathUpdates = .ok nodeUpdates ∧
        applyPathUpdates nodeUpdates (keyPair 500) 1 update.updaterLeafPosition = .ok delta ∧
        computeConfirmationTag symbolic delta s₃.transcriptHash s₃.epochNumber =
          update.confirmationTag := by
  have hrun : okWith (joiner 2 4) fun s₀ =>
      okAnd (processUpdate (oneNodeUpdate s₀ ⟨1, 0⟩ 500 13) (word 50) s₀) fun _ s₁ =>
        s₁.tree.keyAt ⟨1, 0⟩ = some (key 500) ∧
        okAnd (removeMember (word 60) (word 1) 1 (draws 600) s₁) fun _ s₂ =>
          s₂.tree.keyAt ⟨1, 0⟩ = some (key 500) ∧
          okAnd (createUpdate (word 60) (draws 700) s₂) fun update s₃ =>
            okWith (convertPathUpdatesToNodeUpdates symbolic update.pathUpdates) fun us =>
              okWith (applyPathUpdates us (keyPair 500) 1 update.updaterLeafPosition) fun delta =>
                computeConfirmationTag symbolic delta s₃.transcriptHash s₃.epochNumber =
                  update.confirmationTag := by
    decide +kernel
  rcases okWith_eq_true.mp hrun with ⟨s₀, hjoin, hrun⟩
  simp only [joiner, Except.bind_eq_ok] at hjoin
  rcases hjoin with ⟨_, _, hwelcome⟩
  rcases okAnd_eq_true.mp hrun with ⟨_, s₁, hsent, hrun⟩
  rcases of_decide_eq_true hrun with ⟨hbefore, hrun⟩
  rcases okAnd_eq_true.mp hrun with ⟨removal, s₂, hremove, hrun⟩
  rcases of_decide_eq_true hrun with ⟨hafter, hrun⟩
  rcases okAnd_eq_true.mp hrun with ⟨update, s₃, hupdate, hrun⟩
  rcases okWith_eq_true.mp hrun with ⟨nodeUpdates, hconvert, hrun⟩
  rcases okWith_eq_true.mp hrun with ⟨delta, hopen, htag⟩
  exact ⟨s₀, s₁, s₂, s₃, _, removal, update, .welcomed hwelcome trivial, rfl, rfl, hsent, hbefore,
    hremove, hafter, hupdate, nodeUpdates, delta, hconvert, hopen, of_decide_eq_true htag⟩

end Sample

end Trelis.Cocoa
