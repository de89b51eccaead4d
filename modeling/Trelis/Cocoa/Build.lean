import Trelis.Cocoa.Remove
import Trelis.Cocoa.Update

/-!
# What a successful builder did

`createUpdate`, `addMember` and `removeMember` differ in the tree they start
from and in the recipients of each level; the path they build is the same.

* `BuiltLevel` and `BuiltLevels` say what the builder's loop makes of one seed
  and of a list of seeds, for a recipient function `R` that gives the recipients
  of a path node together with their keys.
* `BuiltPath` is the whole path, and `Honest` the rest of the commit around it.
* `createUpdate_ok`, `addMember_ok` and `removeMember_ok` read these off a
  successful call, together with the session it leaves behind.
-/

namespace Trelis.Cocoa

variable {P : Primitives}

/-! ## The levels of a path -/

/-- The entry `s` encrypts `seed` to the recipient `r`, at the path node
`node`. -/
def EncryptsTo (seed : Seed) (node : NodeIndex) (r : NodeIndex × P.PublicKey)
    (s : RecipientSeed P) : Prop :=
  s.recipientIndex = r.1 ∧ ∃ coins, encryptSeedToRecipient seed r.2 node coins = .ok s.encrypted

/-- The update that the builder makes of the seed of one level. -/
structure BuiltLevel (t : PartialTreeView P) (R : NodeIndex → List (NodeIndex × P.PublicKey))
    (leaf : NodeIndex) (level : Nat) (prevH2 : Bytes32) (predecessorKeys : List P.PublicKey)
    (seed : Seed) (update : NodeUpdate P) : Prop where
  nodeIndex_eq : update.nodeIndex = leaf.ancestor level
  keypair_eq : ∃ kp, deriveNodeKeypair seed = .ok kp ∧ update.publicKey = P.publicKey kp
  recipients : List.Forall₂ (EncryptsTo seed (leaf.ancestor level)) (R (leaf.ancestor level))
    update.encryptedSeeds
  parentHash_eq : update.parentHash =
    if level = 0 then (zero32, zero32)
    else
      (h4ParentHashH1 P update.publicKey (t.siblingLabel (leaf.ancestor level)),
        h4ParentHashH2 P update.publicKey predecessorKeys prevH2
          ((R (leaf.ancestor level)).map Prod.snd))

/-- The updates that the builder makes of a list of seeds, with the
accumulators of its loop. -/
inductive BuiltLevels (t : PartialTreeView P) (R : NodeIndex → List (NodeIndex × P.PublicKey))
    (leaf : NodeIndex) :
    Nat → Bytes32 → List P.PublicKey → List Seed → List (NodeUpdate P) → Prop
  | nil (level prevH2 preds) : BuiltLevels t R leaf level prevH2 preds [] []
  | cons {level prevH2 preds seed update seeds updates}
      (head : BuiltLevel t R leaf level prevH2 preds seed update)
      (tail : BuiltLevels t R leaf (level + 1) update.parentHash.2 (preds ++ [update.publicKey])
        seeds updates) :
      BuiltLevels t R leaf level prevH2 preds (seed :: seeds) (update :: updates)

theorem BuiltLevels.length_eq {t : PartialTreeView P}
    {R : NodeIndex → List (NodeIndex × P.PublicKey)} {leaf : NodeIndex} {level : Nat}
    {h2 : Bytes32} {preds : List P.PublicKey} {seeds : List Seed} {updates : List (NodeUpdate P)}
    (h : BuiltLevels t R leaf level h2 preds seeds updates) : updates.length = seeds.length := by
  induction h with
  | nil => rfl
  | cons _ _ ih => simp [ih]

/-- The inner loop encrypts to each recipient in order. -/
theorem encryptToRecipients_ok {seed : Seed} {node : NodeIndex} {coins : Nat → P.Coins}
    {recipients : List (NodeIndex × P.PublicKey)} {seeds : List (RecipientSeed P)}
    (h : encryptToRecipients seed node coins recipients = .ok seeds) :
    List.Forall₂ (EncryptsTo seed node) recipients seeds := by
  rw [encryptToRecipients, Except.mapM_eq_ok] at h
  have hfst : recipients.zipIdx.map Prod.fst = recipients := by simp
  rw [← hfst, List.forall₂_map_left_iff]
  apply h.imp
  intro entry s hs
  simp only [Except.bind_eq_ok, Except.pure_eq_ok] at hs
  rcases hs with ⟨e, he, rfl⟩
  exact ⟨rfl, _, he⟩

section BuildLevels

variable {t : PartialTreeView P} {R : NodeIndex → List (NodeIndex × P.PublicKey)}
  {leaf : NodeIndex}

private theorem getD_map_path {α : Type} (f : NodeIndex → α) (d : α) {level : Nat}
    (h : level ≤ leaf.depth) :
    ((pathToRoot leaf).map f).getD level d = f (leaf.ancestor level) := by
  rw [pathToRoot_eq_map, List.map_map, List.getD_eq_getElem?_getD, List.getElem?_map,
    List.getElem?_range (by omega)]
  rfl

private theorem getD_siblingLabels {level : Nat} (h : level + 1 ≤ leaf.depth) :
    (computeSiblingLabels t (pathToRoot leaf)).getD level zero32 =
      t.siblingLabel (leaf.ancestor (level + 1)) := by
  rw [computeSiblingLabels, List.map_drop, List.getD_eq_getElem?_getD, List.getElem?_drop,
    ← List.getD_eq_getElem?_getD, Nat.add_comm, getD_map_path _ _ h]

private theorem zip_fst_snd {α β : Type} (xs : List (α × β)) :
    (xs.map Prod.fst).zip (xs.map Prod.snd) = xs := by
  rw [List.zip_map']
  exact List.map_id xs

private theorem buildLevel_ok {coins : Nat → Nat → P.Coins} {level : Nat} {h2 : Bytes32}
    {preds : List P.PublicKey} {seed : Seed} {update : NodeUpdate P} (hlevel : level ≤ leaf.depth)
    (h : buildLevel leaf.depth leaf.position ((pathToRoot leaf).map fun v => (R v).map Prod.fst)
      ((pathToRoot leaf).map fun v => (R v).map Prod.snd)
      (computeSiblingLabels t (pathToRoot leaf)) coins level h2 preds seed = .ok update) :
    BuiltLevel t R leaf level h2 preds seed update := by
  simp only [buildLevel, getD_map_path _ _ hlevel, Except.bind_eq_ok, Except.pure_eq_ok,
    zip_fst_snd] at h
  rcases h with ⟨kp, hkp, _, _, seeds, hseeds, rfl⟩
  refine ⟨rfl, ⟨kp, hkp, rfl⟩, encryptToRecipients_ok hseeds, ?_⟩
  rcases level with _ | level
  · rfl
  · simp only [Nat.add_one_ne_zero, if_false, Nat.add_sub_cancel, getD_siblingLabels hlevel]

private theorem buildLevels_ok {coins : Nat → Nat → P.Coins} {seeds : List Seed} :
    ∀ {level : Nat} {h2 : Bytes32} {preds : List P.PublicKey} {updates : List (NodeUpdate P)},
      level + seeds.length ≤ leaf.depth + 1 →
      buildLevels leaf.depth leaf.position ((pathToRoot leaf).map fun v => (R v).map Prod.fst)
        ((pathToRoot leaf).map fun v => (R v).map Prod.snd)
        (computeSiblingLabels t (pathToRoot leaf)) coins level h2 preds seeds = .ok updates →
      BuiltLevels t R leaf level h2 preds seeds updates := by
  induction seeds with
  | nil =>
    intro level h2 preds updates _ h
    rw [buildLevels, Except.pure_eq_ok] at h
    subst h
    exact .nil _ _ _
  | cons seed seeds ih =>
    intro level h2 preds updates hlen h
    rw [List.length_cons] at hlen
    simp only [buildLevels, Except.bind_eq_ok, Except.pure_eq_ok] at h
    rcases h with ⟨update, hupdate, rest, hrest, rfl⟩
    exact .cons (buildLevel_ok (by omega) hupdate) (ih (by omega) hrest)

end BuildLevels

/-! ## A whole path -/

/-- The path that a builder made from a leaf seed, over the tree `t` and with
the recipients `R`. -/
structure BuiltPath (t : PartialTreeView P) (R : NodeIndex → List (NodeIndex × P.PublicKey))
    (leaf : NodeIndex) (leafSeed : Seed) (result : PathUpdateResult P) : Prop where
  levels : BuiltLevels t R leaf 0 zero32 [] (derivePathSeeds P leafSeed (leaf.depth + 1))
    result.updates
  deltaRoot_eq : result.deltaRoot = (deriveH1Seed P)^[leaf.depth] leafSeed

/-- The last seed of a path. -/
theorem derivePathSeeds_getLast? (seed : Seed) (n : Nat) :
    (derivePathSeeds P seed (n + 1)).getLast? = some ((deriveH1Seed P)^[n] seed) := by
  have hdrop := derivePathSeeds_drop (P := P) seed (n + 1) n
  rw [List.getLast?_eq_getElem?, derivePathSeeds_length, Nat.add_sub_cancel]
  have h0 : ((derivePathSeeds P seed (n + 1)).drop n)[0]? = some ((deriveH1Seed P)^[n] seed) := by
    rw [hdrop, Nat.add_sub_cancel_left]
    rfl
  rwa [List.getElem?_drop, Nat.add_zero] at h0

theorem buildPathUpdatesWithSeeds_ok {t : PartialTreeView P}
    {R : NodeIndex → List (NodeIndex × P.PublicKey)} {leaf : NodeIndex} {leafSeed : Seed}
    {coins : Nat → Nat → P.Coins} {result : PathUpdateResult P}
    (h : buildPathUpdatesWithSeeds leaf.depth leaf.position
      (derivePathSeeds P leafSeed (pathToRoot leaf).length)
      ((pathToRoot leaf).map fun v => (R v).map Prod.fst)
      ((pathToRoot leaf).map fun v => (R v).map Prod.snd)
      (computeSiblingLabels t (pathToRoot leaf)) coins = .ok result) :
    BuiltPath t R leaf leafSeed result := by
  simp only [buildPathUpdatesWithSeeds, Except.bind_eq_ok, Except.pure_eq_ok,
    pathToRoot_length, derivePathSeeds_getLast?, Option.getD_some] at h
  rcases h with ⟨_, _, _, _, updates, hupdates, rfl⟩
  exact ⟨buildLevels_ok (by simp) hupdates, rfl⟩

/-- The rest of an honest commit, around the path `result` that its sender
built in the session `s`. -/
structure Honest (s : CocoaSession P) (identity : P.IdentityKeyPair) (content : CommitContent)
    (pathUpdates : List PathUpdate) (signature : P.Signature) (tag : Bytes32)
    (removed added : List UserId) (coins : P.Coins) (result : PathUpdateResult P) : Prop where
  groupId_eq : content.groupId = s.groupId
  epoch_eq : content.epoch = s.epochNumber + 1
  committer_eq : content.committerLeafPosition = s.ourLeafPosition
  pathUpdates_eq : pathUpdates = result.updates.map NodeUpdate.toWire
  roundHash_eq : content.roundHash =
    h3RoundHash P (P.deriveKey rootLabelContext result.deltaRoot.val) removed added
  tag_eq : tag = computeConfirmationTag P result.deltaRoot
    (h3TranscriptHash P s.transcriptHash content.roundHash) content.epoch
  signed : signCommit identity content coins = .ok signature

/-- The root label that the builder computes is that of its root seed. -/
theorem computeRootLabel_derivePathSeeds {t : PartialTreeView P}
    {R : NodeIndex → List (NodeIndex × P.PublicKey)} {leaf : NodeIndex} {leafSeed : Seed}
    {result : PathUpdateResult P} (h : BuiltPath t R leaf leafSeed result) :
    computeRootLabel P (derivePathSeeds P leafSeed (pathToRoot leaf).length) =
      P.deriveKey rootLabelContext result.deltaRoot.val := by
  rw [pathToRoot_length, computeRootLabel, derivePathSeeds_getLast?, h.deltaRoot_eq]

/-! ## The three builders -/

/-- The recipients of one level of an update, with their keys. -/
def updateRecipients (t : PartialTreeView P) (pathNode : NodeIndex) :
    List (NodeIndex × P.PublicKey) :=
  (t.computeLj pathNode t.unmergedLeafNodes).filterMap fun nodeIdx =>
    (t.keyAt nodeIdx).map fun pk => (nodeIdx, pk)

/-- Nodes that all have a key, paired with their keys. -/
theorem map_fst_withKeys {t : PartialTreeView P} {rs : List NodeIndex}
    (h : ∀ r ∈ rs, (t.keyAt r).isSome) :
    (rs.filterMap fun i => (t.keyAt i).map fun pk => (i, pk)).map Prod.fst = rs := by
  induction rs with
  | nil => rfl
  | cons r rs ih =>
    rcases Option.isSome_iff_exists.mp (h r (by simp)) with ⟨pk, hpk⟩
    simp only [List.filterMap_cons, hpk, Option.map_some, List.map_cons]
    rw [ih fun x hx => h x (List.mem_cons_of_mem _ hx)]

theorem map_snd_withKeys (t : PartialTreeView P) (rs : List NodeIndex) :
    (rs.filterMap fun i => (t.keyAt i).map fun pk => (i, pk)).map Prod.snd =
      rs.filterMap t.keyAt := by
  rw [List.map_filterMap]
  congr 1
  funext r
  cases t.keyAt r <;> rfl

/-- Every node of a recipient set has a key, so that pairing the nodes with
their keys loses none of them. -/
theorem map_fst_updateRecipients (t : PartialTreeView P) (v : NodeIndex) :
    (updateRecipients t v).map Prod.fst = t.computeLj v t.unmergedLeafNodes :=
  map_fst_withKeys (t.keyAt_of_mem_computeLj v)

theorem map_snd_updateRecipients (t : PartialTreeView P) (v : NodeIndex) :
    (updateRecipients t v).map Prod.snd =
      (t.computeLj v t.unmergedLeafNodes).filterMap t.keyAt :=
  map_snd_withKeys t _

theorem computeResolutionSetsAndKeys_eq (t : PartialTreeView P) (path : List NodeIndex) :
    computeResolutionSetsAndKeys t path =
      (path.map fun v => (updateRecipients t v).map Prod.fst,
        path.map fun v => (updateRecipients t v).map Prod.snd) := by
  simp only [map_fst_updateRecipients, map_snd_updateRecipients]
  simp [computeResolutionSetsAndKeys, Function.comp_def]

theorem computeAddResolutionSetsAndKeys_eq (t : PartialTreeView P) (path : List NodeIndex)
    (bundle : PreKeyBundle P) (depth position : Nat) :
    computeAddResolutionSetsAndKeys t path bundle depth position =
      (path.map fun v => (addRecipients t bundle (.leaf depth position) v).map Prod.fst,
        path.map fun v => (addRecipients t bundle (.leaf depth position) v).map Prod.snd) := by
  simp [computeAddResolutionSetsAndKeys, Function.comp_def]

theorem computeRemoveResolutionSetsAndKeys_eq (t : PartialTreeView P) (path : List NodeIndex)
    (position : Nat) :
    computeRemoveResolutionSetsAndKeys t path position =
      (path.map fun v => (removeRecipients t (.leaf t.treeDepth position) v).map Prod.fst,
        path.map fun v => (removeRecipients t (.leaf t.treeDepth position) v).map Prod.snd) := by
  simp [computeRemoveResolutionSetsAndKeys, Function.comp_def]

/-- What a successful `create_update` did. -/
theorem createUpdate_ok {identity : P.IdentityKeyPair} {draws : Draws P} {s s' : CocoaSession P}
    {c : UpdateCommit P} (h : createUpdate identity draws s = .ok c s') :
    ∃ leafSeed result keypair,
      draws.leafSeed = .ok leafSeed ∧
      BuiltPath s.tree (updateRecipients s.tree) s.ourLeafNode leafSeed result ∧
      Honest s identity (c.content (P.identityPublicKey identity)) c.pathUpdates c.signature
        c.confirmationTag [] [] draws.signCoins result ∧
      P.generate draws.keypairCoins = .ok keypair ∧
      s' = { s with ourKeypair := keypair }.advanceEpoch result.deltaRoot
        (h3TranscriptHash P s.transcriptHash c.roundHash) := by
  simp only [createUpdate, EStateM.bind_eq_ok, EStateM.lift_eq_ok, EStateM.get_eq_ok,
    EStateM.set_eq_ok, EStateM.modify_eq_ok, EStateM.pure_eq_ok, CocoaSession.rotateKeypair,
    Except.bind_eq_ok, Except.pure_eq_ok, existsAndEq, and_assoc, exists_and_left, true_and,
    exists_const] at h
  rcases h with ⟨leafSeed, hseed, result, hbuild, keypair, hkp, signature, hsign, rfl, rfl⟩
  rw [computeResolutionSetsAndKeys_eq] at hbuild
  have hpath : BuiltPath _ _ (CocoaSession.ourLeafNode _) leafSeed result :=
    buildPathUpdatesWithSeeds_ok hbuild
  refine ⟨leafSeed, result, keypair, hseed, hpath, ?_, hkp, rfl⟩
  exact ⟨rfl, rfl, rfl, rfl, by rw [← computeRootLabel_derivePathSeeds hpath]; rfl, rfl, hsign⟩

/-- What the welcome of an add carries: an encapsulation to the one-time key, and
the welcome information, with the root seed in it, sealed under the associated
data of an add. -/
theorem createWelcomeMessage_ok {session : CocoaSession P} {identity : P.IdentityKeyPair}
    {bundle : PreKeyBundle P} {position depth : Nat} {delta : Seed} {transcript : Bytes32}
    {draws : WelcomeDraws P} {w : Welcome P}
    (h : createWelcomeMessage session identity bundle position depth delta transcript draws =
      .ok w) :
    ∃ k c nonce ct, ∃ info : WelcomeInfo,
      P.encapsulate bundle.oneTimeKem draws.encapsulationCoins = .ok (k, c) ∧
      P.encryptCommitting (deriveWelcomeKey P k) nonce info.toBytes welcomeAddAad = .ok ct ∧
      w.encapsulation = P.encapsulationToBytes c ∧ w.encryptedInfo = nonce.val ++ ct ∧
      info.deltaRoot = delta := by
  simp only [createWelcomeMessage, encryptWelcomeInfo, Except.bind_eq_ok, Except.pure_eq_ok] at h
  rcases h with ⟨_, ⟨⟨k, c⟩, hencap, nonce, _, ct, hct, rfl⟩, _, _, rfl⟩
  exact ⟨k, c, nonce, ct, _, hencap, hct, rfl, rfl, rfl⟩

/-- The session that `add_member` builds its commit in: the tree is grown, and
nothing else has changed. -/
def CocoaSession.grownFor (s : CocoaSession P) : CocoaSession P :=
  s.modifyTree (·.growIfNeeded (s.memberCount + 1))

/-- What a successful `add_member` did. -/
theorem addMember_ok {identity : P.IdentityKeyPair} {bundle : PreKeyBundle P} {newId : UserId}
    {draws : Draws P} {s s' : CocoaSession P} {c : AddCommit P} {w : Welcome P}
    (h : addMember identity bundle newId draws s = .ok (c, w) s') :
    ∃ leafSeed result,
      s.isMember newId = false ∧
      draws.leafSeed = .ok leafSeed ∧
      BuiltPath s.grownFor.tree
        (addRecipients s.grownFor.tree bundle (.leaf s.grownFor.tree.treeDepth s.memberCount))
        s.grownFor.ourLeafNode leafSeed result ∧
      Honest s identity (c.content (P.identityPublicKey identity)) c.pathUpdates c.signature
        c.confirmationTag [] [newId] draws.signCoins result ∧
      (c.newMemberId = newId ∧ c.newLeafPosition = s.memberCount) ∧
      createWelcomeMessage (s.grownFor.modifyTree (·.setMemberCount (s.memberCount + 1))) identity
        bundle s.memberCount s.grownFor.tree.treeDepth result.deltaRoot
        (h3TranscriptHash P s.transcriptHash c.roundHash)
        ⟨draws.welcomeCoins, draws.welcomeNonce, draws.welcomeSignCoins⟩ = .ok w ∧
      s' = ((markMemberAsUnmerged (s.grownFor.modifyTree (·.setMemberCount (s.memberCount + 1)))
        s.memberCount).advanceEpoch result.deltaRoot
          (h3TranscriptHash P s.transcriptHash c.roundHash)).insertMember newId := by
  simp only [addMember, EStateM.bind_eq_ok, EStateM.lift_eq_ok, EStateM.get_eq_ok,
    EStateM.set_eq_ok, EStateM.pure_eq_ok, rejectIf_eq_ok, Prod.mk.injEq, existsAndEq, and_assoc,
    exists_and_left, true_and, exists_const] at h
  rcases h with ⟨hdup, _, _, _, leafSeed, hseed, result, hbuild, signature, hsign, hwelcome, rfl,
    rfl⟩
  rw [computeAddResolutionSetsAndKeys_eq] at hbuild
  have hpath : BuiltPath _ (addRecipients _ bundle _) (CocoaSession.ourLeafNode _) leafSeed
      result := buildPathUpdatesWithSeeds_ok hbuild
  refine ⟨leafSeed, result, by simpa using hdup, hseed, hpath, ?_, ⟨rfl, rfl⟩, ?_, ?_⟩
  · exact ⟨rfl, rfl, rfl, rfl, by rw [← computeRootLabel_derivePathSeeds hpath]; rfl, rfl, hsign⟩
  · exact hwelcome
  · rfl

/-- The session that `remove_member` builds its commit in: the removed leaf is
blank, and nothing else has changed. -/
def CocoaSession.blankedFor (s : CocoaSession P) (removedPosition : Nat) : CocoaSession P :=
  s.modifyTree (·.blankNode (.leaf s.tree.treeDepth removedPosition))

/-- What a successful `remove_member` did. -/
theorem removeMember_ok {identity : P.IdentityKeyPair} {removedId : UserId}
    {removedPosition : Nat} {draws : Draws P} {s s' : CocoaSession P} {c : RemoveCommit P}
    (h : removeMember identity removedId removedPosition draws s = .ok c s') :
    ∃ leafSeed result,
      (removedPosition ≠ s.ourLeafPosition ∧ removedPosition < s.memberCount) ∧
      draws.leafSeed = .ok leafSeed ∧
      BuiltPath (s.blankedFor removedPosition).tree
        (removeRecipients (s.blankedFor removedPosition).tree
          (.leaf s.tree.treeDepth removedPosition))
        s.ourLeafNode leafSeed result ∧
      Honest s identity (c.content (P.identityPublicKey identity)) c.pathUpdates c.signature
        c.confirmationTag [removedId] [] draws.signCoins result ∧
      (c.removedMemberId = removedId ∧ c.removedLeafPosition = removedPosition) ∧
      s' = (s.blankedFor removedPosition).advanceEpoch result.deltaRoot
        (h3TranscriptHash P s.transcriptHash c.roundHash) := by
  simp only [removeMember, EStateM.bind_eq_ok, EStateM.lift_eq_ok, EStateM.get_eq_ok,
    EStateM.set_eq_ok, EStateM.modify_eq_ok, EStateM.pure_eq_ok, rejectIf_eq_ok, not_le,
    ge_iff_le, existsAndEq, and_assoc, exists_and_left, true_and, exists_const] at h
  rcases h with ⟨hself, hlt, leafSeed, hseed, result, hbuild, signature, hsign, rfl, rfl⟩
  rw [computeRemoveResolutionSetsAndKeys_eq] at hbuild
  have hpath : BuiltPath _ (removeRecipients _ _) (CocoaSession.ourLeafNode _) leafSeed result :=
    buildPathUpdatesWithSeeds_ok hbuild
  refine ⟨leafSeed, result, ⟨hself, hlt⟩, hseed, hpath, ?_, ⟨rfl, rfl⟩, rfl⟩
  exact ⟨rfl, rfl, rfl, rfl, by rw [← computeRootLabel_derivePathSeeds hpath]; rfl, rfl, hsign⟩

end Trelis.Cocoa
