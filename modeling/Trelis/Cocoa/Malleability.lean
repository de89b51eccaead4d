import Trelis.Cocoa.Process
import Trelis.Cocoa.WireFormat
import Trelis.Symbolic

/-!
# What the signature of a commit leaves open

A relay may alter the fields of a commit that the signature does not cover.
Acceptance pins most of them: the path updates by their hash, and the user id
of the added or removed member by the round hash.  The leaf position of that
member is pinned by nothing.

`next_state_iff` says when two accepted commits with the same signed content
lead to the same state: for an add when they name the same leaf, and for a
remove when they do, or when blanking either leaf leaves no trace.
-/

namespace Trelis.Cocoa

open PartialTreeView

variable {P : Primitives}

/-! ## Two commits with one signature -/

/-- Two commits carry the same signature over the same content, and the hashes
in it do not collide on what they stand for. -/
structure SameSigned (s : CocoaSession P) (content₁ content₂ : CommitContent)
    (signature₁ signature₂ : P.Signature) (path₁ path₂ : List PathUpdate)
    (removed₁ added₁ removed₂ added₂ : List UserId) : Prop where
  signature_eq : signature₁ = signature₂
  content_eq : content₁ = content₂
  inRange₁ : ∀ pu ∈ path₁, pu.InRange
  inRange₂ : ∀ pu ∈ path₂, pu.InRange
  path_free : hashPathUpdates P (serialisePathUpdates path₁) =
    hashPathUpdates P (serialisePathUpdates path₂) →
      serialisePathUpdates path₁ = serialisePathUpdates path₂
  round_free : ∀ nodeUpdates delta,
    convertPathUpdatesToNodeUpdates P path₁ = .ok nodeUpdates →
    deltaRootOf nodeUpdates s = .ok delta →
    h3RoundHash P (P.deriveKey rootLabelContext delta.val) removed₁ added₁ =
        h3RoundHash P (P.deriveKey rootLabelContext delta.val) removed₂ added₂ →
      removed₁ = removed₂ ∧ added₁ = added₂

/-- What acceptance pins of two such commits: the path, the root seed and the
users. -/
theorem SameSigned.pinned {s : CocoaSession P} {content₁ content₂ : CommitContent}
    {sig₁ sig₂ : P.Signature} {path₁ path₂ : List PathUpdate}
    {removed₁ added₁ removed₂ added₂ : List UserId}
    (h : SameSigned s content₁ content₂ sig₁ sig₂ path₁ path₂ removed₁ added₁ removed₂ added₂)
    (hpath₁ : content₁.pathUpdatesHash = hashPathUpdates P (serialisePathUpdates path₁))
    (hpath₂ : content₂.pathUpdatesHash = hashPathUpdates P (serialisePathUpdates path₂))
    (hsize₁ : pathUpdatesWireLen path₁ ≤ maxMessageSize)
    (hsize₂ : pathUpdatesWireLen path₂ ≤ maxMessageSize)
    {view₁ view₂ scratch₁ scratch₂ : PartialTreeView P} {signer₁ signer₂ : P.IdentityPublicKey}
    {tag₁ tag₂ : Bytes32} {nodeUpdates₁ nodeUpdates₂ : List (NodeUpdate P)} {delta₁ delta₂ : Seed}
    (hc₁ : Checked s view₁ scratch₁ signer₁ content₁ path₁ sig₁ tag₁ removed₁ added₁ nodeUpdates₁
      delta₁)
    (hc₂ : Checked s view₂ scratch₂ signer₂ content₂ path₂ sig₂ tag₂ removed₂ added₂ nodeUpdates₂
      delta₂)
    (hdelta₁ : deltaRootOf nodeUpdates₁ s = .ok delta₁)
    (hdelta₂ : deltaRootOf nodeUpdates₂ s = .ok delta₂) :
    path₁ = path₂ ∧ delta₁ = delta₂ ∧ removed₁ = removed₂ ∧ added₁ = added₂ := by
  have hpath : path₁ = path₂ := by
    apply serialisePathUpdates_inj
    · exact PathUpdate.fits_of_accepted h.inRange₁ hsize₁ hc₁.converted
    · exact PathUpdate.fits_of_accepted h.inRange₂ hsize₂ hc₂.converted
    · apply h.path_free
      rw [← hpath₁, ← hpath₂, h.content_eq]
  have hnodes : nodeUpdates₁ = nodeUpdates₂ := by
    have hconv := hc₂.converted
    rw [← hpath, hc₁.converted] at hconv
    exact Except.ok.inj hconv
  have hdelta : delta₁ = delta₂ := by
    rw [← hnodes, hdelta₁] at hdelta₂
    exact Except.ok.inj hdelta₂
  have hround : h3RoundHash P (P.deriveKey rootLabelContext delta₁.val) removed₁ added₁ =
      h3RoundHash P (P.deriveKey rootLabelContext delta₁.val) removed₂ added₂ := by
    rw [hc₁.roundHash_eq, hdelta, hc₂.roundHash_eq, h.content_eq]
  have husers := h.round_free nodeUpdates₁ delta₁ hc₁.converted hdelta₁ hround
  exact ⟨hpath, hdelta, husers.1, husers.2⟩

/-! ## Trees that differ before the writes -/

section Writes

variable {transcript : Bytes32} {epoch : Nat} {sig : P.Signature} {updater : UserId}

/-- How many updates name an index. -/
def timesNamed (pus : List PathUpdate) (i : NodeIndex) : Nat :=
  pus.countP fun pu => pu.nodeIndex.toLinear == i.toLinear

theorem keyAt_congr (t : PartialTreeView P) {i j : NodeIndex} (h : i.toLinear = j.toLinear) :
    t.keyAt i = t.keyAt j := by
  unfold PartialTreeView.keyAt PartialTreeView.get
  rw [h]

theorem get_writePathUpdate {pu : PathUpdate} {pk : P.PublicKey}
    (hparse : P.publicKeyFromBytes pu.newPublicKey = .ok pk) (t : PartialTreeView P)
    (i : NodeIndex) :
    (writePathUpdate transcript epoch sig updater t pu).get i =
      if pu.nodeIndex.toLinear = i.toLinear then
        some (TreeNode.newPopulated pu.nodeIndex pk (t.keyAt i) pu.parentHash updater sig transcript
          zero32 ⟨epoch + 1, 0, 0⟩)
      else t.get i := by
  unfold writePathUpdate
  rw [hparse]
  simp only
  rw [get_insert]
  by_cases hlinear : pu.nodeIndex.toLinear = i.toLinear
  · rw [if_pos hlinear, keyAt_congr t hlinear]
    exact if_pos hlinear
  · rw [if_neg hlinear]
    exact if_neg hlinear

/-- The same writes make two trees equal at an index when they were equal
there, or when the index is named and the two keys were equal, or when it is
named twice: a written node keeps the key before it and nothing else. -/
theorem get_writes_eq_iff {pus : List PathUpdate} {i : NodeIndex}
    (hparse : ∀ pu ∈ pus, ∃ pk, P.publicKeyFromBytes pu.newPublicKey = .ok pk) :
    ∀ t₁ t₂ : PartialTreeView P,
      (pus.foldl (writePathUpdate transcript epoch sig updater) t₁).get i =
          (pus.foldl (writePathUpdate transcript epoch sig updater) t₂).get i ↔
        t₁.get i = t₂.get i ∨ (1 ≤ timesNamed pus i ∧ t₁.keyAt i = t₂.keyAt i) ∨
          2 ≤ timesNamed pus i := by
  induction pus with
  | nil => simp [timesNamed]
  | cons pu pus ih =>
    intro t₁ t₂
    rcases hparse pu (by simp) with ⟨pk, hpk⟩
    rw [List.foldl_cons, List.foldl_cons, ih fun q hq => hparse q (List.mem_cons_of_mem _ hq)]
    by_cases hlinear : pu.nodeIndex.toLinear = i.toLinear
    · have hnamed : timesNamed (pu :: pus) i = timesNamed pus i + 1 := by
        simp [timesNamed, hlinear]
      have hkey : ∀ t : PartialTreeView P,
          (writePathUpdate transcript epoch sig updater t pu).keyAt i = some pk := by
        intro t
        rw [keyAt_writePathUpdate, PathUpdate.keyFor, if_pos hlinear, hpk]
        rfl
      have hget : (writePathUpdate transcript epoch sig updater t₁ pu).get i =
          (writePathUpdate transcript epoch sig updater t₂ pu).get i ↔
            t₁.keyAt i = t₂.keyAt i := by
        rw [get_writePathUpdate hpk, get_writePathUpdate hpk, if_pos hlinear, if_pos hlinear]
        simp [TreeNode.newPopulated]
      have hkeys : t₁.get i = t₂.get i → t₁.keyAt i = t₂.keyAt i := by
        intro h
        rw [PartialTreeView.keyAt, PartialTreeView.keyAt, h]
      rw [hget, hkey, hkey, hnamed]
      constructor
      · intro h
        rcases h with h | ⟨h, _⟩ | h
        · exact .inr (.inl ⟨by omega, h⟩)
        · exact .inr (.inr (by omega))
        · exact .inr (.inr (by omega))
      · intro h
        rcases h with h | ⟨_, h⟩ | h
        · exact .inl (hkeys h)
        · exact .inl h
        · exact .inr (.inl ⟨by omega, rfl⟩)
    · have hnamed : timesNamed (pu :: pus) i = timesNamed pus i := by
        simp [timesNamed, hlinear]
      have hget : ∀ t : PartialTreeView P,
          (writePathUpdate transcript epoch sig updater t pu).get i = t.get i := by
        intro t
        rw [get_writePathUpdate hpk, if_neg hlinear]
      have hkey : ∀ t : PartialTreeView P,
          (writePathUpdate transcript epoch sig updater t pu).keyAt i = t.keyAt i := by
        intro t
        rw [PartialTreeView.keyAt, hget]
        rfl
      rw [hget, hget, hkey, hkey, hnamed]

/-- Blanking the leaf leaves no trace after the writes of the path: it is
absent or already blank, or it is named and holds no key, or it is named
twice. -/
def BlankingHidden (t : PartialTreeView P) (pus : List PathUpdate) (leaf : NodeIndex) : Prop :=
  (∀ node, t.get leaf = some node → node.state = .newBlank) ∨
    (1 ≤ timesNamed pus leaf ∧ t.keyAt leaf = none) ∨ 2 ≤ timesNamed pus leaf

/-- Blanking two different leaves and then writing the same path gives the same
nodes exactly when neither blanking shows. -/
theorem get_writes_blanked_iff {pus : List PathUpdate}
    (hparse : ∀ pu ∈ pus, ∃ pk, P.publicKeyFromBytes pu.newPublicKey = .ok pk)
    (t : PartialTreeView P) {leaf₁ leaf₂ : NodeIndex} (hne : leaf₁.toLinear ≠ leaf₂.toLinear) :
    (∀ i, (pus.foldl (writePathUpdate transcript epoch sig updater) (t.blankNode leaf₁)).get i =
        (pus.foldl (writePathUpdate transcript epoch sig updater) (t.blankNode leaf₂)).get i) ↔
      BlankingHidden t pus leaf₁ ∧ BlankingHidden t pus leaf₂ := by
  have hself : ∀ leaf, (t.blankNode leaf).get leaf =
      (t.get leaf).map fun node => { node with state := .newBlank } := by
    intro leaf
    rw [blankNode, get_modifyState, if_pos rfl]
  have hother : ∀ {leaf i : NodeIndex}, leaf.toLinear ≠ i.toLinear →
      (t.blankNode leaf).get i = t.get i := by
    intro leaf i h
    rw [blankNode, get_modifyState, if_neg h]
  have hkself : ∀ leaf, (t.blankNode leaf).keyAt leaf = none := by
    intro leaf
    rw [keyAt_blankNode, if_pos rfl]
  have hkother : ∀ {leaf i : NodeIndex}, leaf.toLinear ≠ i.toLinear →
      (t.blankNode leaf).keyAt i = t.keyAt i := by
    intro leaf i h
    rw [keyAt_blankNode, if_neg h]
  simp only [get_writes_eq_iff hparse]
  constructor
  · intro h
    have h₁ := h leaf₁
    have h₂ := h leaf₂
    rw [hself, hother hne.symm, hkself, hkother hne.symm, map_newBlank_eq_iff] at h₁
    rw [hself, hother hne, hkself, hkother hne, eq_comm, map_newBlank_eq_iff] at h₂
    refine ⟨?_, h₂⟩
    rcases h₁ with h | ⟨hn, hk⟩ | h
    · exact .inl h
    · exact .inr (.inl ⟨hn, hk.symm⟩)
    · exact .inr (.inr h)
  · intro h i
    by_cases hi₁ : leaf₁.toLinear = i.toLinear
    · have hget : ∀ u : PartialTreeView P, u.get i = u.get leaf₁ := by
        intro u
        rw [PartialTreeView.get, PartialTreeView.get, hi₁]
      have hnamed : timesNamed pus i = timesNamed pus leaf₁ := by rw [timesNamed, timesNamed, hi₁]
      rw [hget, hget, ← keyAt_congr _ hi₁, ← keyAt_congr _ hi₁, hnamed, hself, hother hne.symm,
        hkself, hkother hne.symm, map_newBlank_eq_iff]
      rcases h.1 with h | ⟨hn, hk⟩ | h
      · exact .inl h
      · exact .inr (.inl ⟨hn, hk.symm⟩)
      · exact .inr (.inr h)
    · by_cases hi₂ : leaf₂.toLinear = i.toLinear
      · have hget : ∀ u : PartialTreeView P, u.get i = u.get leaf₂ := by
          intro u
          rw [PartialTreeView.get, PartialTreeView.get, hi₂]
        have hnamed : timesNamed pus i = timesNamed pus leaf₂ := by rw [timesNamed, timesNamed, hi₂]
        rw [hget, hget, ← keyAt_congr _ hi₂, ← keyAt_congr _ hi₂, hnamed, hself, hother hne, hkself,
          hkother hne, eq_comm (a := t.get leaf₂), map_newBlank_eq_iff]
        exact h.2
      · rw [hother hi₁, hother hi₂]
        exact .inl rfl

end Writes

/-! ## The next state -/

section Next

variable {s s₁ s₂ : CocoaSession P} {signer₁ signer₂ : P.IdentityPublicKey}

theorem processAdd_next_iff {c₁ c₂ : AddCommit P} (h₁ : processAdd c₁ signer₁ s = .ok () s₁)
    (h₂ : processAdd c₂ signer₂ s = .ok () s₂)
    (hsame : SameSigned s (c₁.content signer₁) (c₂.content signer₂) c₁.signature c₂.signature
      c₁.pathUpdates c₂.pathUpdates [] [c₁.newMemberId] [] [c₂.newMemberId]) :
    s₁ = s₂ ↔ c₁.newLeafPosition = c₂.newLeafPosition := by
  rcases processAdd_eq_ok.mp h₁ with ⟨delta₁, transcript₁, hcheck₁, rfl⟩
  rcases processAdd_eq_ok.mp h₂ with ⟨delta₂, transcript₂, hcheck₂, rfl⟩
  rcases (checkAdd_eq_ok rfl).mp hcheck₁ with ⟨_, hlim₁, _, nus₁, hc₁, hdelta₁, htr₁⟩
  rcases (checkAdd_eq_ok rfl).mp hcheck₂ with ⟨_, hlim₂, _, nus₂, hc₂, hdelta₂, htr₂⟩
  have hpinned := hsame.pinned rfl rfl hlim₁.messageLen_le hlim₂.messageLen_le hc₁ hc₂ hdelta₁
    hdelta₂
  have hround : c₁.roundHash = c₂.roundHash := congrArg CommitContent.roundHash hsame.content_eq
  have htranscript : transcript₁ = transcript₂ := by
    simp only at htr₁ htr₂
    rw [htr₁, htr₂, hround]
  have hid : c₁.newMemberId = c₂.newMemberId := by simpa using hpinned.2.2.2
  constructor
  · intro h
    have hcount := congrArg (fun s => s.tree.shape.2) h
    simp only [shape_applyAdd] at hcount
    omega
  · intro hpos
    simp only [applyAdd, hpos, hpinned.1, hsame.signature_eq, hid]
    rw [show delta₁ = delta₂ from hpinned.2.1, htranscript]

theorem processRemove_next_iff {c₁ c₂ : RemoveCommit P}
    (h₁ : processRemove c₁ signer₁ s = .ok () s₁) (h₂ : processRemove c₂ signer₂ s = .ok () s₂)
    (hsame : SameSigned s (c₁.content signer₁) (c₂.content signer₂) c₁.signature c₂.signature
      c₁.pathUpdates c₂.pathUpdates [c₁.removedMemberId] [] [c₂.removedMemberId] []) :
    s₁ = s₂ ↔ c₁.removedLeafPosition = c₂.removedLeafPosition ∨
      (BlankingHidden s.tree c₁.pathUpdates (.leaf s.tree.treeDepth c₁.removedLeafPosition) ∧
        BlankingHidden s.tree c₁.pathUpdates
          (.leaf s.tree.treeDepth c₂.removedLeafPosition)) := by
  rcases processRemove_eq_ok.mp h₁ with ⟨delta₁, transcript₁, hcheck₁, rfl⟩
  rcases processRemove_eq_ok.mp h₂ with ⟨delta₂, transcript₂, hcheck₂, rfl⟩
  rcases checkRemove_eq_ok.mp hcheck₁ with ⟨hlim₁, _, nus₁, hc₁, hdelta₁, htr₁⟩
  rcases checkRemove_eq_ok.mp hcheck₂ with ⟨hlim₂, _, nus₂, hc₂, hdelta₂, htr₂⟩
  have hpinned := hsame.pinned rfl rfl hlim₁.messageLen_le hlim₂.messageLen_le hc₁ hc₂ hdelta₁
    hdelta₂
  have hround : c₁.roundHash = c₂.roundHash := congrArg CommitContent.roundHash hsame.content_eq
  have htranscript : transcript₁ = transcript₂ := by
    simp only at htr₁ htr₂
    rw [htr₁, htr₂, hround]
  have hid : c₁.removedMemberId = c₂.removedMemberId := by simpa using hpinned.2.2.1
  have hdelta : delta₁ = delta₂ := hpinned.2.1
  subst hdelta htranscript
  by_cases hpos : c₁.removedLeafPosition = c₂.removedLeafPosition
  · simp only [hpos, true_or, iff_true]
    simp only [applyRemove, hpos, hpinned.1, hsame.signature_eq, hid]
  · have hne : (NodeIndex.leaf s.tree.treeDepth c₁.removedLeafPosition).toLinear ≠
        (NodeIndex.leaf s.tree.treeDepth c₂.removedLeafPosition).toLinear := by
      simp only [NodeIndex.toLinear, NodeIndex.leaf]
      omega
    have hparse : ∀ pu ∈ c₁.pathUpdates, ∃ pk, P.publicKeyFromBytes pu.newPublicKey = .ok pk :=
      fun pu hpu => publicKey_of_converted hc₁.converted hpu
    have hstate : applyRemove s c₁ delta₁ transcript₁ = applyRemove s c₂ delta₁ transcript₁ ↔
        ∀ i, (applyRemove s c₁ delta₁ transcript₁).tree.get i =
          (applyRemove s c₂ delta₁ transcript₁).tree.get i := by
      constructor
      · intro h i
        rw [h]
      · intro h
        have htree : (applyRemove s c₁ delta₁ transcript₁).tree =
            (applyRemove s c₂ delta₁ transcript₁).tree := by
          have hshape := (shape_applyRemove s delta₁ transcript₁ c₁).trans
            (shape_applyRemove s delta₁ transcript₁ c₂).symm
          have hleaf : (applyRemove s c₁ delta₁ transcript₁).tree.ourLeaf =
              (applyRemove s c₂ delta₁ transcript₁).tree.ourLeaf := by
            rw [ourLeaf_applyRemove, ourLeaf_applyRemove]
          exact ext_get hleaf (congrArg Prod.fst hshape) (congrArg Prod.snd hshape) h
        apply CocoaSession.ext
        case tree => exact htree
        all_goals simp [applyRemove, updateTreeFromPathUpdates, hid]
    have hnodes : ∀ (c : RemoveCommit P) (i : NodeIndex),
        (applyRemove s c delta₁ transcript₁).tree.get i =
          (c.pathUpdates.foldl (writePathUpdate s.transcriptHash s.epochNumber c.signature
            s.ourUserId) (s.tree.blankNode
              (.leaf s.tree.treeDepth c.removedLeafPosition))).get i := fun _ _ => rfl
    rw [hstate]
    simp only [hnodes, ← hpinned.1, ← hsame.signature_eq, hpos, false_or]
    exact get_writes_blanked_iff hparse s.tree hne

end Next

/-- Two accepted commits with the same signed content lead to the same state
exactly when they add the member at the same leaf, and when they remove the
same leaf or neither blanking shows. -/
theorem next_state_iff (s : CocoaSession P) (signer₁ signer₂ : P.IdentityPublicKey) :
    (∀ (c₁ c₂ : AddCommit P) s₁ s₂, processAdd c₁ signer₁ s = .ok () s₁ →
      processAdd c₂ signer₂ s = .ok () s₂ →
      SameSigned s (c₁.content signer₁) (c₂.content signer₂) c₁.signature c₂.signature
        c₁.pathUpdates c₂.pathUpdates [] [c₁.newMemberId] [] [c₂.newMemberId] →
      (s₁ = s₂ ↔ c₁.newLeafPosition = c₂.newLeafPosition)) ∧
    (∀ (c₁ c₂ : RemoveCommit P) s₁ s₂, processRemove c₁ signer₁ s = .ok () s₁ →
      processRemove c₂ signer₂ s = .ok () s₂ →
      SameSigned s (c₁.content signer₁) (c₂.content signer₂) c₁.signature c₂.signature
        c₁.pathUpdates c₂.pathUpdates [c₁.removedMemberId] [] [c₂.removedMemberId] [] →
      (s₁ = s₂ ↔ c₁.removedLeafPosition = c₂.removedLeafPosition ∨
        (BlankingHidden s.tree c₁.pathUpdates (.leaf s.tree.treeDepth c₁.removedLeafPosition) ∧
          BlankingHidden s.tree c₁.pathUpdates
            (.leaf s.tree.treeDepth c₂.removedLeafPosition)))) :=
  ⟨fun _ _ _ _ h₁ h₂ hsame => processAdd_next_iff h₁ h₂ hsame,
    fun _ _ _ _ h₁ h₂ hsame => processRemove_next_iff h₁ h₂ hsame⟩

section Sample

open Symbolic

/-- The leaves of three members. -/
private def leaves : PartialTreeView symbolic :=
  tree 2 3 [node ⟨2, 0⟩ 10, node ⟨2, 1⟩ 11, node ⟨2, 2⟩ 12]

/-- Two adds that differ in the leaf only lead to different states. -/
theorem next_state_iff_add :
    ∃ s₁ s₂, processAdd (addWithoutPath 3) (word 50) (member 0 10 leaves) = .ok () s₁ ∧
      processAdd (addWithoutPath 4) (word 50) (member 0 10 leaves) = .ok () s₂ ∧ s₁ ≠ s₂ := by
  have hrun : okAnd (processAdd (addWithoutPath 3) (word 50) (member 0 10 leaves)) (fun _ _ =>
      okAnd (processAdd (addWithoutPath 4) (word 50) (member 0 10 leaves)) fun _ _ => true) := by
    decide +kernel
  simp only [okAnd_eq_true] at hrun
  rcases hrun with ⟨_, s₁, h₁, _, s₂, h₂, _⟩
  have hsame : SameSigned (member 0 10 leaves) ((addWithoutPath 3).content (word 50))
      ((addWithoutPath 4).content (word 50)) (addWithoutPath 3).signature
      (addWithoutPath 4).signature (addWithoutPath 3).pathUpdates (addWithoutPath 4).pathUpdates []
      [(addWithoutPath 3).newMemberId] [] [(addWithoutPath 4).newMemberId] := by
    refine ⟨rfl, rfl, ?_, ?_, fun _ => rfl, fun _ _ _ _ _ => ⟨rfl, rfl⟩⟩
    · intro pu hpu
      cases hpu
    · intro pu hpu
      cases hpu
  have hiff := (next_state_iff (P := symbolic) (member 0 10 leaves) (word 50) (word 50)).1
    (addWithoutPath 3) (addWithoutPath 4) s₁ s₂ h₁ h₂ hsame
  refine ⟨s₁, s₂, h₁, h₂, ?_⟩
  intro heq
  have hpos : (3 : Nat) = 4 := hiff.mp heq
  omega

/-- One signature, two leaves: both commits are accepted, and the two states
differ in the member count after an add, and in who is left after a remove. -/
theorem signature_leaves_leaf_open :
    (∃ s₁ s₂, (addWithoutPath 3).signature = (addWithoutPath 4).signature ∧
      (addWithoutPath 3).content (word 50) = (addWithoutPath 4).content (word 50) ∧
      processAdd (addWithoutPath 3) (word 50) (member 0 10 leaves) = .ok () s₁ ∧
      processAdd (addWithoutPath 4) (word 50) (member 0 10 leaves) = .ok () s₂ ∧
      s₁.memberCount = 4 ∧ s₂.memberCount = 5) ∧
    (∃ s₁ s₂, (removeWithoutPath 1).signature = (removeWithoutPath 2).signature ∧
      (removeWithoutPath 1).content (word 50) = (removeWithoutPath 2).content (word 50) ∧
      processRemove (removeWithoutPath 1) (word 50) (member 0 10 leaves) = .ok () s₁ ∧
      processRemove (removeWithoutPath 2) (word 50) (member 0 10 leaves) = .ok () s₂ ∧
      s₁.tree.keyAt ⟨2, 1⟩ = none ∧ s₂.tree.keyAt ⟨2, 1⟩ = some (key 11)) := by
  constructor
  · have hrun : okAnd (processAdd (addWithoutPath 3) (word 50) (member 0 10 leaves)) (fun _ s₁ =>
        okAnd (processAdd (addWithoutPath 4) (word 50) (member 0 10 leaves)) fun _ s₂ =>
          decide (s₁.memberCount = 4) && decide (s₂.memberCount = 5)) := by
      decide +kernel
    simp only [okAnd_eq_true, Bool.and_eq_true, decide_eq_true_eq] at hrun
    rcases hrun with ⟨_, s₁, h₁, _, s₂, h₂, hcount₁, hcount₂⟩
    exact ⟨s₁, s₂, rfl, rfl, h₁, h₂, hcount₁, hcount₂⟩
  · have hrun : okAnd (processRemove (removeWithoutPath 1) (word 50) (member 0 10 leaves))
        (fun _ s₁ =>
          okAnd (processRemove (removeWithoutPath 2) (word 50) (member 0 10 leaves)) fun _ s₂ =>
            decide (s₁.tree.keyAt ⟨2, 1⟩ = none) &&
              decide (s₂.tree.keyAt ⟨2, 1⟩ = some (key 11))) := by
      decide +kernel
    simp only [okAnd_eq_true, Bool.and_eq_true, decide_eq_true_eq] at hrun
    rcases hrun with ⟨_, s₁, h₁, _, s₂, h₂, hkey₁, hkey₂⟩
    exact ⟨s₁, s₂, rfl, rfl, h₁, h₂, hkey₁, hkey₂⟩

end Sample

end Trelis.Cocoa
