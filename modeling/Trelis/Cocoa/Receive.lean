import Trelis.Cocoa.Accept
import Trelis.Cocoa.Build

/-!
# A path on the receiving side

What a receiver makes of the path updates of a commit.

* Any commit.  `applyPathUpdates_ok` says what a successful run has established:
  the root seed ends a seed chain that starts with a seed our key pair opened,
  and whose keys are the keys of the updates from there on.
* An honest commit.  The wire form of a built path parses back
  (`convert_built`), the holder of a recipient's key derives the committer's
  root seed (`applyPathUpdates_built`), and the parent hashes verify exactly
  when the two sides hash the same keys for the same positions
  (`verifyParentHashes_built_iff`).
-/

namespace Trelis.Cocoa

variable {P : Primitives}

/-! ## Opening a path -/

/-- The seed gives the public key of the update, compared as bytes. -/
def SeedMatches (seed : Seed) (u : NodeUpdate P) : Prop :=
  ∃ kp, P.generateFromSeed seed = .ok kp ∧
    P.publicKeyToBytes (P.publicKey kp) = P.publicKeyToBytes u.publicKey

theorem verifyChain_ok {level : Nat} {seeds : List Seed} {updates : List (NodeUpdate P)}
    (hlen : seeds.length = updates.length) (h : verifyChain level seeds updates = .ok ()) :
    List.Forall₂ SeedMatches seeds updates := by
  induction seeds generalizing level updates with
  | nil =>
    rw [List.length_nil, eq_comm, List.length_eq_zero_iff] at hlen
    subst hlen
    exact .nil
  | cons seed seeds ih =>
    cases updates with
    | nil => simp at hlen
    | cons u updates =>
      simp only [verifyChain, Except.bind_eq_ok, rejectIf_eq_ok, ne_eq, not_not] at h
      rcases h with ⟨kp, hkp, _, hpk, _, _, hrest⟩
      exact .cons ⟨kp, hkp, hpk⟩ (ih (by simpa using hlen) hrest)

/-- A seed that a level yields is the plaintext of one of its entries. -/
theorem openLevel_some {ourNode : Option NodeIndex} {kp : P.KeyPair} {u : NodeUpdate P}
    {seed : Seed} (h : openLevel ourNode kp u = some seed) :
    ∃ r ∈ u.encryptedSeeds, decryptSeed r.encrypted kp u.nodeIndex = .ok seed := by
  have hopt : ∀ r : RecipientSeed P,
      (decryptSeed r.encrypted kp u.nodeIndex).toOption = some seed →
        decryptSeed r.encrypted kp u.nodeIndex = .ok seed := by
    intro r hr
    cases hd : decryptSeed r.encrypted kp u.nodeIndex with
    | error e => simp [hd, Except.toOption] at hr
    | ok s =>
      rw [hd] at hr
      simpa [Except.toOption] using hr
  simp only [openLevel] at h
  split at h
  · next s hfast =>
    cases h
    rcases Option.bind_eq_some_iff.mp hfast with ⟨r, hr, hdec⟩
    rcases Option.bind_eq_some_iff.mp hr with ⟨idx, _, hfind⟩
    exact ⟨r, List.mem_of_find?_eq_some hfind, hopt r hdec⟩
  · rcases List.exists_of_findSome?_eq_some h with ⟨r, hr, hdec⟩
    exact ⟨r, hr, hopt r hdec⟩

/-- The loop stops at a level of the path, at a seed of that level. -/
theorem findSeed_some {ourNode : Option NodeIndex} {kp : P.KeyPair} :
    ∀ {updates : List (NodeUpdate P)} {start level : Nat} {seed : Seed},
      findSeed ourNode kp start updates = some (level, seed) →
      start ≤ level ∧ ∃ u, updates[level - start]? = some u ∧
        openLevel ourNode kp u = some seed := by
  intro updates
  induction updates with
  | nil => intro start level seed h; cases h
  | cons u updates ih =>
    intro start level seed h
    rw [findSeed] at h
    split at h
    · next s hs =>
      cases h
      exact ⟨le_rfl, u, by simp, hs⟩
    · rcases ih h with ⟨hle, u', hu', hopen⟩
      refine ⟨by omega, u', ?_, hopen⟩
      rw [show level - start = level - (start + 1) + 1 by omega, List.getElem?_cons_succ]
      exact hu'

/-- What `apply_path_updates` has established about the root seed that it
returns: at some level our key pair opened an entry, the seeds derived from it
match the keys of the updates from that level up, and the last of them is the
result. -/
structure OpenedPath (updates : List (NodeUpdate P)) (kp : P.KeyPair) (delta : Seed) : Prop where
  opened : ∃ level seed u, updates[level]? = some u ∧
    (∃ r ∈ u.encryptedSeeds, decryptSeed r.encrypted kp u.nodeIndex = .ok seed) ∧
    List.Forall₂ SeedMatches (derivePathSeeds P seed (updates.length - level))
      (updates.drop level) ∧
    (derivePathSeeds P seed (updates.length - level)).getLast? = some delta

theorem applyPathUpdates_ok {updates : List (NodeUpdate P)} {kp : P.KeyPair} {pos leaf : Nat}
    {delta : Seed} (h : applyPathUpdates updates kp pos leaf = .ok delta) :
    OpenedPath updates kp delta := by
  unfold applyPathUpdates at h
  split at h
  · cases h
  · next first rest =>
    simp only at h
    split at h
    · cases h
    · next level seed hfind =>
      simp only [Except.bind_eq_ok, Except.pure_eq_ok] at h
      rcases h with ⟨_, hverify, hdelta⟩
      rcases findSeed_some hfind with ⟨_, u, hu, hopen⟩
      rw [Nat.sub_zero] at hu
      have hlt : level < (first :: rest).length := (List.getElem?_eq_some_iff.mp hu).1
      rcases Nat.exists_eq_add_of_lt hlt with ⟨n, hn⟩
      have hn' : (first :: rest).length - level = n + 1 := by omega
      rw [hn', derivePathSeeds_getLast?, Option.getD_some] at hdelta
      refine ⟨level, seed, u, hu, openLevel_some hopen, verifyChain_ok (by simp) hverify, ?_⟩
      rw [hn', derivePathSeeds_getLast?, hdelta]

private theorem forall₂_getLast? {α β : Type} {R : α → β → Prop} {xs : List α} {ys : List β}
    (h : List.Forall₂ R xs ys) {x : α} (hx : xs.getLast? = some x) :
    ∃ y, ys.getLast? = some y ∧ R x y := by
  induction h with
  | nil => cases hx
  | @cons a b as bs hab htail ih =>
    cases htail with
    | nil =>
      cases hx
      exact ⟨b, rfl, hab⟩
    | cons hab' htail' =>
      rw [List.getLast?_cons_cons] at hx ⊢
      exact ih hx

/-- The root seed matches the key of the last update. -/
theorem OpenedPath.delta_matches {updates : List (NodeUpdate P)} {kp : P.KeyPair} {delta : Seed}
    (h : OpenedPath updates kp delta) : ∃ u, updates.getLast? = some u ∧ SeedMatches delta u := by
  rcases h.opened with ⟨level, seed, u, hu, _, hmatch, hlast⟩
  have hlt : level < updates.length := (List.getElem?_eq_some_iff.mp hu).1
  rcases forall₂_getLast? hmatch hlast with ⟨v, hv, hdelta⟩
  rw [List.getLast?_drop, if_neg (by omega)] at hv
  exact ⟨v, hv, hdelta⟩

/-! ## Opening a sealed path -/

/-- The entry carries `seed` to the key `pk`, at the path node `node`. -/
def SealedTo (seed : Seed) (node : NodeIndex) (pk : P.PublicKey) (s : RecipientSeed P) : Prop :=
  ∃ coins, encryptSeedToRecipient seed pk node coins = .ok s.encrypted

/-- The update has the public key of `seed`, and an entry that carries the seed
to each of the keys, in their order. -/
structure SealedLevel (seed : Seed) (keys : List P.PublicKey) (u : NodeUpdate P) : Prop where
  keypair_eq : ∃ kp, deriveNodeKeypair seed = .ok kp ∧ u.publicKey = P.publicKey kp
  entries : List.Forall₂ (SealedTo seed u.nodeIndex) keys u.encryptedSeeds

/-- Every update is sealed with the seed and the keys of its level, and the leaf
has zero parent hashes. -/
structure SealedPath (seeds : List Seed) (keys : Nat → List P.PublicKey)
    (updates : List (NodeUpdate P)) : Prop where
  length_eq : updates.length = seeds.length
  level : ∀ k seed u, seeds[k]? = some seed → updates[k]? = some u → SealedLevel seed (keys k) u
  head_parentHash : ∀ u ∈ updates.head?, u.parentHash = (zero32, zero32)

private theorem exists_of_mem_right {α β : Type} {S : α → β → Prop} {xs : List α} {ys : List β}
    (h : List.Forall₂ S xs ys) {y : β} (hy : y ∈ ys) : ∃ x ∈ xs, S x y := by
  induction h with
  | nil => cases hy
  | @cons a b as bs hab _ ih =>
    rcases List.mem_cons.mp hy with rfl | hy
    · exact ⟨a, by simp, hab⟩
    · rcases ih hy with ⟨x, hx, hS⟩
      exact ⟨x, List.mem_cons_of_mem _ hx, hS⟩

private theorem exists_of_mem_left {α β : Type} {S : α → β → Prop} {xs : List α} {ys : List β}
    (h : List.Forall₂ S xs ys) {x : α} (hx : x ∈ xs) : ∃ y ∈ ys, S x y := by
  induction h with
  | nil => cases hx
  | @cons a b as bs hab _ ih =>
    rcases List.mem_cons.mp hx with rfl | hx
    · exact ⟨b, by simp, hab⟩
    · rcases ih hx with ⟨y, hy, hS⟩
      exact ⟨y, List.mem_cons_of_mem _ hy, hS⟩

section Sealed

variable {seed : Seed} {keys : List P.PublicKey} {u : NodeUpdate P} {kp : P.KeyPair}

/-- A level stays closed exactly when every one of its entries does. -/
theorem openLevel_eq_none {ourNode : Option NodeIndex} :
    openLevel ourNode kp u = none ↔
      ∀ r ∈ u.encryptedSeeds, (decryptSeed r.encrypted kp u.nodeIndex).toOption = none := by
  simp only [openLevel]
  split
  · next s hfast =>
    rcases Option.bind_eq_some_iff.mp hfast with ⟨r, hr, hdec⟩
    rcases Option.bind_eq_some_iff.mp hr with ⟨idx, _, hfind⟩
    have hmem : r ∈ u.encryptedSeeds := List.mem_of_find?_eq_some hfind
    constructor
    · intro h
      cases h
    · intro h
      rw [h r hmem] at hdec
      cases hdec
  · exact List.findSome?_eq_none_iff

/-- A sealed level opens to its own seed or not at all. -/
theorem SealedLevel.openLevel_eq (hkem : P.IdealKem) (haead : P.IdealAead)
    (h : SealedLevel seed keys u) {ourNode : Option NodeIndex} {seed' : Seed}
    (hopen : openLevel ourNode kp u = some seed') : seed' = seed := by
  rcases openLevel_some hopen with ⟨r, hr, hdec⟩
  rcases exists_of_mem_right h.entries hr with ⟨pk, _, coins, henc⟩
  by_cases hkey : P.publicKey kp = pk
  · rw [← hkey] at henc
    rw [decryptSeed_match hkem haead henc] at hdec
    cases hdec
    rfl
  · exact absurd hdec (decryptSeed_other hkem haead henc hkey seed')

/-- A sealed level opens for the holder of one of its keys. -/
theorem SealedLevel.openLevel_isSome (hkem : P.IdealKem) (haead : P.IdealAead)
    (h : SealedLevel seed keys u) (ourNode : Option NodeIndex) (hkey : P.publicKey kp ∈ keys) :
    (openLevel ourNode kp u).isSome := by
  rcases exists_of_mem_left h.entries hkey with ⟨r, hr, coins, henc⟩
  have hdec : decryptSeed r.encrypted kp u.nodeIndex = .ok seed := decryptSeed_match hkem haead henc
  rw [Option.isSome_iff_ne_none]
  intro hnone
  have hr' := openLevel_eq_none.mp hnone r hr
  rw [hdec] at hr'
  cases hr'

/-- Which node we take for ours makes no difference at a sealed level. -/
theorem SealedLevel.openLevel_congr (hkem : P.IdealKem) (haead : P.IdealAead)
    (h : SealedLevel seed keys u) (ourNode ourNode' : Option NodeIndex) :
    openLevel ourNode kp u = openLevel ourNode' kp u := by
  cases hopen : openLevel ourNode kp u with
  | none => exact (openLevel_eq_none.mpr (openLevel_eq_none.mp hopen)).symm
  | some s =>
    cases hopen' : openLevel ourNode' kp u with
    | none =>
      rw [openLevel_eq_none.mpr (openLevel_eq_none.mp hopen')] at hopen
      cases hopen
    | some s' => rw [h.openLevel_eq hkem haead hopen, h.openLevel_eq hkem haead hopen']

theorem findSeed_congr {ourNode ourNode' : Option NodeIndex} {updates : List (NodeUpdate P)}
    (h : ∀ u ∈ updates, openLevel ourNode kp u = openLevel ourNode' kp u) (start : Nat) :
    findSeed ourNode kp start updates = findSeed ourNode' kp start updates := by
  induction updates generalizing start with
  | nil => rfl
  | cons u updates ih =>
    rw [findSeed, findSeed, h u (by simp), ih fun v hv => h v (List.mem_cons_of_mem _ hv)]

/-- The search succeeds if any level opens. -/
theorem findSeed_isSome {ourNode : Option NodeIndex} {updates : List (NodeUpdate P)}
    (hu : u ∈ updates) (hopen : (openLevel ourNode kp u).isSome) (start : Nat) :
    (findSeed ourNode kp start updates).isSome := by
  induction updates generalizing start with
  | nil => cases hu
  | cons v updates ih =>
    rw [findSeed]
    cases hv : openLevel ourNode kp v with
    | some s => rfl
    | none =>
      rcases List.mem_cons.mp hu with rfl | hu
      · rw [hv] at hopen
        cases hopen
      · exact ih hu (start + 1)

end Sealed

/-- Seeds that match the updates pass the check, if the leaf has zero parent
hashes. -/
theorem verifyChain_of_matches {n : Nat} {us : List (NodeUpdate P)} {ss : List Seed}
    (h : List.Forall₂ SeedMatches ss us)
    (hleaf : n = 0 → ∀ u ∈ us.head?, u.parentHash = (zero32, zero32)) :
    verifyChain n ss us = .ok () := by
  induction h generalizing n with
  | nil => rfl
  | @cons s u ss us hsu _ ih =>
    rcases hsu with ⟨kp, hkp, hpk⟩
    simp only [verifyChain, Except.bind_eq_ok, rejectIf_eq_ok, ne_eq, not_not]
    refine ⟨kp, hkp, (), hpk, (), ?_, ih (by omega)⟩
    intro hzero
    have hu := hleaf hzero.1 u (by simp)
    simp [hu] at hzero

namespace SealedPath

variable {seeds : List Seed} {keys : Nat → List P.PublicKey} {updates : List (NodeUpdate P)}

/-- The level of an update. -/
theorem of_getElem? (h : SealedPath seeds keys updates) {k : Nat} {u : NodeUpdate P}
    (hu : updates[k]? = some u) : ∃ seed, seeds[k]? = some seed ∧ SealedLevel seed (keys k) u := by
  have hk : k < updates.length := (List.getElem?_eq_some_iff.mp hu).1
  have hseed : seeds[k]? = some (seeds.get ⟨k, h.length_eq ▸ hk⟩) := List.getElem?_eq_getElem _
  exact ⟨_, hseed, h.level k _ u hseed hu⟩

/-- The seeds of a sealed path give its keys. -/
theorem seedMatches (h : SealedPath seeds keys updates) :
    List.Forall₂ SeedMatches seeds updates := by
  rw [List.forall₂_iff_get]
  refine ⟨h.length_eq.symm, fun k hk hk' => ?_⟩
  have hlevel := h.level k _ _ (List.getElem?_eq_getElem hk) (List.getElem?_eq_getElem hk')
  rcases hlevel.keypair_eq with ⟨kp, hkp, hpk⟩
  exact ⟨kp, hkp, by rw [List.get_eq_getElem, hpk]⟩

/-- The indexed lookup finds what the trial decryption finds. -/
theorem findSeed_eq (hkem : P.IdealKem) (haead : P.IdealAead) (h : SealedPath seeds keys updates)
    (kp : P.KeyPair) (ourNode : Option NodeIndex) :
    findSeed ourNode kp 0 updates = findSeed none kp 0 updates := by
  apply findSeed_congr
  intro u hu
  rcases List.getElem?_of_mem hu with ⟨k, hk⟩
  rcases h.of_getElem? hk with ⟨seed, _, hlevel⟩
  exact hlevel.openLevel_congr hkem haead ourNode none

/-- The holder of a key of some level finds the seed of the level at which the
search stops. -/
theorem findSeed_ok (hkem : P.IdealKem) (haead : P.IdealAead) (h : SealedPath seeds keys updates)
    {kp : P.KeyPair} {k : Nat} (hk : k < updates.length) (hkey : P.publicKey kp ∈ keys k)
    (ourNode : Option NodeIndex) :
    ∃ j seed, findSeed ourNode kp 0 updates = some (j, seed) ∧ seeds[j]? = some seed := by
  rcases h.of_getElem? (List.getElem?_eq_getElem hk) with ⟨_, _, hlevel⟩
  have hsome : (findSeed ourNode kp 0 updates).isSome :=
    findSeed_isSome (List.getElem_mem hk) (hlevel.openLevel_isSome hkem haead ourNode hkey) 0
  rcases Option.isSome_iff_exists.mp hsome with ⟨⟨j, seed⟩, hfind⟩
  rcases findSeed_some hfind with ⟨_, u, hu, hopen⟩
  rcases h.of_getElem? hu with ⟨seed', hseed', hlevel'⟩
  refine ⟨j, seed, hfind, ?_⟩
  rw [hlevel'.openLevel_eq hkem haead hopen]
  exact hseed'

/-- The holder of a key of some level derives the last seed of the chain,
wherever the search enters it. -/
theorem applyPathUpdates_eq (hkem : P.IdealKem) (haead : P.IdealAead) {leafSeed : Seed} {n : Nat}
    (h : SealedPath (derivePathSeeds P leafSeed n) keys updates) {kp : P.KeyPair} {k : Nat}
    (hk : k < n) (hkey : P.publicKey kp ∈ keys k) (pos updaterLeaf : Nat) :
    applyPathUpdates updates kp pos updaterLeaf =
      .ok ((derivePathSeeds P leafSeed n).getLast?.getD zero32) := by
  have hlen : updates.length = n := by rw [h.length_eq, derivePathSeeds_length]
  have hfind := h.findSeed_ok hkem haead (hlen ▸ hk) hkey
  have hmatch := h.seedMatches
  have hzero := h.head_parentHash
  cases updates with
  | nil => exact absurd hk (by simp [← hlen])
  | cons first rest =>
    rcases hfind (findOurResolutionNode pos first.nodeIndex.depth updaterLeaf) with
      ⟨j, seed, hfind, hseed⟩
    rcases derivePathSeeds_getElem? hseed with ⟨hj, hseed_eq⟩
    -- The seeds above the level that was opened are the rest of the sender's chain.
    have hdrop := derivePathSeeds_drop (P := P) leafSeed n j
    have hchain : List.Forall₂ SeedMatches (derivePathSeeds P seed (n - j))
        ((first :: rest).drop j) := by
      rw [hseed_eq, ← hdrop]
      exact List.forall₂_drop j hmatch
    have hverify : verifyChain j (derivePathSeeds P seed (n - j)) ((first :: rest).drop j) =
        .ok () := by
      apply verifyChain_of_matches hchain
      intro h0 u hu
      subst h0
      exact hzero u hu
    have hlast : (derivePathSeeds P seed (n - j)).getLast? =
        (derivePathSeeds P leafSeed n).getLast? := by
      rw [hseed_eq, ← hdrop, List.getLast?_drop, if_neg (by simp; omega)]
    simp only [applyPathUpdates, hfind, hlen, hverify, hlast]
    rfl

end SealedPath

/-! ## The wire form of a built path -/

/-- A recipient's seed as the receiver parses it: the wire keeps the position
and not the depth. -/
def RecipientSeed.received (depth : Nat) (s : RecipientSeed P) : RecipientSeed P :=
  { s with recipientIndex := .leaf depth s.recipientIndex.position }

/-- A node update as the receiver parses it. -/
def NodeUpdate.received (u : NodeUpdate P) : NodeUpdate P :=
  { u with encryptedSeeds := u.encryptedSeeds.map (RecipientSeed.received u.nodeIndex.depth) }

section Built

variable {t : PartialTreeView P} {R : NodeIndex → List (NodeIndex × P.PublicKey)}
  {leaf : NodeIndex} {level : Nat} {h2 : Bytes32} {preds : List P.PublicKey} {seeds : List Seed}
  {updates : List (NodeUpdate P)}

/-- The level of a built path at an index. -/
theorem BuiltLevels.getElem? (h : BuiltLevels t R leaf level h2 preds seeds updates) :
    ∀ k u, updates[k]? = some u →
      ∃ p ks seed, seeds[k]? = some seed ∧ BuiltLevel t R leaf (level + k) p ks seed u := by
  induction h with
  | nil => simp
  | @cons level h2 preds seed w seeds updates head _ ih =>
    intro k u hu
    cases k with
    | zero =>
      cases hu
      exact ⟨_, _, seed, rfl, head⟩
    | succ k =>
      rcases ih k u (by simpa using hu) with ⟨p, ks, seed', hseed, hb⟩
      exact ⟨p, ks, seed', hseed, by rwa [show level + (k + 1) = level + 1 + k by omega]⟩

/-- Every update of a built path is a built level. -/
theorem BuiltLevels.of_mem (h : BuiltLevels t R leaf level h2 preds seeds updates) :
    ∀ u ∈ updates, ∃ k p ks seed, BuiltLevel t R leaf k p ks seed u := by
  intro u hu
  rcases List.getElem?_of_mem hu with ⟨k, hk⟩
  rcases h.getElem? k u hk with ⟨p, ks, seed, _, hb⟩
  exact ⟨_, p, ks, seed, hb⟩

private theorem convertEncryptedSeed_toWire (hcodec : P.EncapsulationCodec) {seed : Seed}
    {node : NodeIndex} {r : NodeIndex × P.PublicKey} {s : RecipientSeed P} (depth : Nat)
    (h : EncryptsTo seed node r s) :
    convertEncryptedSeed P depth s.toWire = .ok (s.received depth) := by
  rcases h with ⟨_, coins, henc⟩
  simp only [encryptSeedToRecipient, Except.bind_eq_ok, toArray_eq_ok, Except.pure_eq_ok] at henc
  rcases henc with ⟨shared, hencap, _, _, ciphertext, _, hs⟩
  have hparse : P.encapsulationFromBytes (P.encapsulationToBytes s.encrypted.encapsulation) =
      .ok s.encrypted.encapsulation := by
    rw [← hs]
    exact hcodec.fromBytes_toBytes hencap
  simp only [convertEncryptedSeed, RecipientSeed.toWire, Except.bind_eq_ok, toArray_eq_ok,
    Except.pure_eq_ok]
  exact ⟨_, hparse, _, rfl, rfl⟩

/-- An entry of a built level encrypts its seed to one of its recipients. -/
theorem BuiltLevel.entry {seed : Seed} {u : NodeUpdate P}
    (h : BuiltLevel t R leaf level h2 preds seed u) {s : RecipientSeed P}
    (hs : s ∈ u.encryptedSeeds) :
    ∃ r ∈ R (leaf.ancestor level), EncryptsTo seed (leaf.ancestor level) r s :=
  exists_of_mem_right h.recipients hs

/-- Every recipient of a built level has an entry. -/
theorem BuiltLevel.entry_for {seed : Seed} {u : NodeUpdate P}
    (h : BuiltLevel t R leaf level h2 preds seed u) {r : NodeIndex × P.PublicKey}
    (hr : r ∈ R (leaf.ancestor level)) :
    ∃ s ∈ u.encryptedSeeds, EncryptsTo seed (leaf.ancestor level) r s :=
  exists_of_mem_left h.recipients hr

/-- What a builder sends, a receiver parses. -/
theorem convert_built {size : Nat} (hpk : P.PublicKeyCodec size) (henc : P.EncapsulationCodec)
    (h : BuiltLevels t R leaf level h2 preds seeds updates) :
    convertPathUpdatesToNodeUpdates P (updates.map NodeUpdate.toWire) =
      .ok (updates.map NodeUpdate.received) := by
  rw [convertPathUpdatesToNodeUpdates, Except.mapM_eq_ok, List.forall₂_map_left_iff,
    List.forall₂_map_right_iff, List.forall₂_same]
  intro u hu
  rcases h.of_mem u hu with ⟨k, p, ks, seed, hb⟩
  rcases hb.keypair_eq with ⟨kp, _, hkp⟩
  have hseeds : (u.encryptedSeeds.map RecipientSeed.toWire).mapM
      (convertEncryptedSeed P u.nodeIndex.depth) =
        .ok (u.encryptedSeeds.map (RecipientSeed.received u.nodeIndex.depth)) := by
    rw [Except.mapM_eq_ok, List.forall₂_map_left_iff, List.forall₂_map_right_iff,
      List.forall₂_same]
    intro s hs
    rcases hb.entry hs with ⟨r, _, hr⟩
    exact convertEncryptedSeed_toWire henc _ hr
  simp only [convertPathUpdate, NodeUpdate.toWire, Except.bind_eq_ok, Except.pure_eq_ok]
  refine ⟨u.publicKey, ?_, _, hseeds, rfl⟩
  rw [hkp]
  exact hpk.fromBytes_toBytes kp

/-! ## Opening a built path -/

/-- A built level, as it is received, is sealed to the keys of its recipients. -/
theorem BuiltLevel.sealedLevel {seed : Seed} {u : NodeUpdate P}
    (h : BuiltLevel t R leaf level h2 preds seed u) :
    SealedLevel seed ((R (leaf.ancestor level)).map Prod.snd) u.received := by
  refine ⟨h.keypair_eq, ?_⟩
  rw [show u.received.encryptedSeeds =
    u.encryptedSeeds.map (RecipientSeed.received u.nodeIndex.depth) from rfl,
    List.forall₂_map_left_iff, List.forall₂_map_right_iff]
  apply h.recipients.imp
  intro r s hs
  rcases hs with ⟨_, coins, henc⟩
  rw [← h.nodeIndex_eq] at henc
  exact ⟨coins, henc⟩

/-- A built path, as it is received, is sealed. -/
theorem BuiltLevels.sealedPath (h : BuiltLevels t R leaf 0 h2 preds seeds updates) :
    SealedPath seeds (fun k => (R (leaf.ancestor k)).map Prod.snd)
      (updates.map NodeUpdate.received) where
  length_eq := by rw [List.length_map, h.length_eq]
  level := by
    intro k seed u hseed hu
    rw [List.getElem?_map, Option.map_eq_some_iff] at hu
    rcases hu with ⟨v, hv, rfl⟩
    rcases h.getElem? k v hv with ⟨p, ks, seed', hseed', hb⟩
    rw [hseed, Option.some_inj] at hseed'
    subst hseed'
    rw [Nat.zero_add] at hb
    exact hb.sealedLevel
  head_parentHash := by
    cases h with
    | nil =>
      intro u hu
      cases hu
    | cons head _ =>
      intro u hu
      cases hu
      exact head.parentHash_eq

/-- The holder of a recipient's key derives the committer's root seed. -/
theorem applyPathUpdates_built (hkem : P.IdealKem) (haead : P.IdealAead) {leafSeed : Seed}
    {result : PathUpdateResult P} (h : BuiltPath t R leaf leafSeed result) {kp : P.KeyPair}
    {v : NodeIndex} (hv : v ∈ pathToRoot leaf) {r : NodeIndex × P.PublicKey} (hr : r ∈ R v)
    (hkey : r.2 = P.publicKey kp) (pos updaterLeaf : Nat) :
    applyPathUpdates (result.updates.map NodeUpdate.received) kp pos updaterLeaf =
      .ok result.deltaRoot := by
  rw [pathToRoot_eq_map, List.mem_map] at hv
  rcases hv with ⟨k, hk, rfl⟩
  rw [List.mem_range] at hk
  have hmem : P.publicKey kp ∈ (R (leaf.ancestor k)).map Prod.snd :=
    List.mem_map.mpr ⟨r, hr, hkey⟩
  rw [h.levels.sealedPath.applyPathUpdates_eq hkem haead hk hmem, derivePathSeeds_getLast?,
    h.deltaRoot_eq, Option.getD_some]

end Built

end Trelis.Cocoa
