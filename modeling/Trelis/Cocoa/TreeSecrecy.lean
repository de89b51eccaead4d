import Trelis.Cocoa.Operation
import Trelis.Symbolic

/-!
# Who can derive the seed of a tree node

The builders encrypt the seed of a path node `v` to the resolution of the
sibling of `v`.  Such a recipient is beside `v` and not below it, so it learns
the seed of a node that is not above it; on the leaf level it learns the new
leaf seed of the committer.

* `CarriesAncestors` says that every entry carries the seed of a proper ancestor
  of its recipient, and `carriesAncestors_iff` that this holds only where there
  are no recipients at all.
* `Derivable` is what a member can derive from everything that was sent: it
  opens entries and welcomes, follows the seed chain upwards, and uses the key
  pairs of the seeds it has.  `Derivable.origin` traces every such seed back to
  a seed of its own or to one that a commit discloses.
-/

namespace Trelis.Cocoa

open PartialTreeView

variable {P : Primitives}

/-! ## Recipient entries -/

/-- The entry carries `seed`, the seed of the node `node`, to the holder of
`pk`. -/
def EncryptedSeed.Carries (es : EncryptedSeed) (seed : Seed) (node : NodeIndex)
    (pk : P.PublicKey) : Prop :=
  ∃ coins encrypted, encryptSeedToRecipient seed pk node coins = .ok encrypted ∧
    es.encapsulation = P.encapsulationToBytes encrypted.encapsulation ∧
    es.ciphertext = encrypted.ciphertext.val

/-- What the builder encrypts to a recipient, it sends. -/
theorem EncryptsTo.carries {seed : Seed} {node : NodeIndex} {r : NodeIndex × P.PublicKey}
    {e : RecipientSeed P} (h : EncryptsTo seed node r e) : e.toWire.Carries seed node r.2 := by
  rcases h with ⟨_, coins, henc⟩
  exact ⟨coins, e.encrypted, henc, rfl, rfl⟩

namespace Operation

/-- The key of a node of the tree that the commit is built over; the newcomer
stands at its leaf with its one-time key. -/
def KeyOf (op : Operation P) (s : CocoaSession P) (i : NodeIndex) (pk : P.PublicKey) : Prop :=
  (op.session s).tree.keyAt i = some pk ∨ op.newcomer s = some (i, pk)

/-- Every entry that is encrypted to the key of a node carries the seed of a
proper ancestor of that node. -/
def CarriesAncestors (op : Operation P) (s : CocoaSession P) (pathUpdates : List PathUpdate) :
    Prop :=
  ∀ pu ∈ pathUpdates, ∀ es ∈ pu.encryptedSeeds, ∀ i pk seed, op.KeyOf s i pk →
    es.Carries seed pu.nodeIndex pk → i.isDescendantOf pu.nodeIndex

/-- Nobody is in a sibling subtree of the committer's path: what the tree holds
there is blank or above the removed leaf, and the newcomer is elsewhere. -/
def NobodyBeside (op : Operation P) (s : CocoaSession P) : Prop :=
  ∀ v ∈ pathToRoot (op.session s).ourLeafNode, ∀ sibling, v.sibling = some sibling →
    (∀ i ∈ (op.session s).tree.resolve sibling, ∃ leaf ∈ op.removedLeaf s, leaf.Under i) ∧
    ∀ n ∈ op.newcomer s, ¬ n.1.Under sibling

/-- Nobody in a sibling subtree, no recipients. -/
theorem nobodyBeside_iff {op : Operation P} {s : CocoaSession P} :
    op.NobodyBeside s ↔
      ∀ v ∈ pathToRoot (op.session s).ourLeafNode, op.recipients s v = [] := by
  constructor
  · intro h v hv
    rw [List.eq_nil_iff_forall_not_mem]
    intro r hr
    rcases mem_recipients.mp hr with ⟨sibling, hs, ⟨hi, _, hout⟩ | ⟨hn, hu⟩⟩
    · rcases (h v hv sibling hs).1 r.1 hi with ⟨leaf, hleaf, hunder⟩
      exact hout leaf hleaf hunder
    · exact (h v hv sibling hs).2 r hn hu
  · intro h v hv sibling hs
    have hnone : ∀ r, r ∉ op.recipients s v := by simp [h v hv]
    refine ⟨?_, ?_⟩
    · intro i hi
      rcases Option.isSome_iff_exists.mp (keyAt_of_mem_resolve _ sibling i hi) with ⟨pk, hpk⟩
      by_contra hout
      push Not at hout
      exact hnone (i, pk) (mem_recipients.mpr ⟨sibling, hs, .inl ⟨hi, hpk, hout⟩⟩)
    · intro n hn hu
      exact hnone n (mem_recipients.mpr ⟨sibling, hs, .inr ⟨hn, hu⟩⟩)

/-- A recipient is beside the path node. -/
theorem not_under_of_mem_recipients {op : Operation P} {s : CocoaSession P} {v : NodeIndex}
    {r : NodeIndex × P.PublicKey} (hr : r ∈ op.recipients s v) : ¬ r.1.Under v := by
  rcases mem_recipients.mp hr with ⟨sibling, hs, hcase⟩
  have hunder : r.1.Under sibling := by
    rcases hcase with ⟨hi, _⟩ | ⟨_, hu⟩
    · exact under_of_mem_resolve _ sibling r.1 hi
    · exact hu
  exact NodeIndex.not_under_sibling (NodeIndex.sibling_sibling hs) hunder

theorem keyOf_of_mem_recipients {op : Operation P} {s : CocoaSession P} {v : NodeIndex}
    {r : NodeIndex × P.PublicKey} (hr : r ∈ op.recipients s v) : op.KeyOf s r.1 r.2 := by
  rcases mem_recipients.mp hr with ⟨sibling, _, ⟨_, hpk, _⟩ | ⟨hn, _⟩⟩
  · exact .inl hpk
  · exact .inr hn

end Operation

/-! ## Honest commits -/

/-- An honest commit, with the call that built it. -/
structure HonestCommit (P : Primitives) where
  operation : Operation P
  identity : P.IdentityKeyPair
  draws : Draws P
  session : CocoaSession P
  message : Message P
  after : CocoaSession P
  built : operation.build identity draws session = .ok message after

/-- The leaf of the committer. -/
def HonestCommit.leaf (c : HonestCommit P) : NodeIndex :=
  (c.operation.session c.session).ourLeafNode

/-- The seed of the node `k` levels above the committer's leaf. -/
def HonestCommit.SeedAt (c : HonestCommit P) (k : Nat) (seed : Seed) : Prop :=
  ∃ leafSeed, c.draws.leafSeed = .ok leafSeed ∧ seed = (deriveH1Seed P)^[k] leafSeed

/-- Every entry of an honest commit encrypts the seed of its path node to a
recipient of that node. -/
theorem HonestCommit.entry (c : HonestCommit P) {pu : PathUpdate}
    (hpu : pu ∈ c.message.commit.pathUpdates) {es : EncryptedSeed} (hes : es ∈ pu.encryptedSeeds) :
    ∃ k ≤ c.leaf.depth, pu.nodeIndex = c.leaf.ancestor k ∧
      ∃ r ∈ c.operation.recipients c.session (c.leaf.ancestor k), ∃ seed, c.SeedAt k seed ∧
        es.Carries seed pu.nodeIndex r.2 := by
  rcases Operation.build_ok c.built with ⟨leafSeed, result, hsent⟩
  rw [hsent.pathUpdates_eq] at hpu
  rcases List.mem_map.mp hpu with ⟨u, hu, rfl⟩
  rcases List.mem_map.mp hes with ⟨e, he, rfl⟩
  rcases List.getElem?_of_mem hu with ⟨k, hk⟩
  rcases hsent.path.levels.getElem? k u hk with ⟨_, _, seed, hseed, hb⟩
  rw [Nat.zero_add] at hb
  rcases derivePathSeeds_getElem? hseed with ⟨hlt, hseed_eq⟩
  rcases hb.entry he with ⟨r, hr, hto⟩
  refine ⟨k, Nat.le_of_lt_succ hlt, hb.nodeIndex_eq, r, hr, seed,
    ⟨leafSeed, hsent.leafSeed_eq, hseed_eq⟩, ?_⟩
  rw [← hb.nodeIndex_eq] at hto
  exact hto.carries

/-- Every recipient of a path node has an entry. -/
theorem HonestCommit.entry_for (c : HonestCommit P) {k : Nat} (hk : k ≤ c.leaf.depth)
    {r : NodeIndex × P.PublicKey}
    (hr : r ∈ c.operation.recipients c.session (c.leaf.ancestor k)) :
    ∃ pu ∈ c.message.commit.pathUpdates, pu.nodeIndex = c.leaf.ancestor k ∧
      ∃ es ∈ pu.encryptedSeeds, ∃ seed, c.SeedAt k seed ∧ es.Carries seed pu.nodeIndex r.2 := by
  rcases Operation.build_ok c.built with ⟨leafSeed, result, hsent⟩
  have hlt : k < result.updates.length := by
    rw [hsent.path.levels.length_eq, derivePathSeeds_length]
    exact Nat.lt_succ_of_le hk
  rcases hsent.path.levels.getElem? k _ (List.getElem?_eq_getElem hlt) with ⟨_, _, seed, hseed, hb⟩
  rw [Nat.zero_add] at hb
  rcases hb.entry_for hr with ⟨e, he, hto⟩
  rw [← hb.nodeIndex_eq] at hto
  refine ⟨result.updates[k].toWire, ?_, hb.nodeIndex_eq, e.toWire, List.mem_map_of_mem he, seed,
    ⟨leafSeed, hsent.leafSeed_eq, (derivePathSeeds_getElem? hseed).2⟩, hto.carries⟩
  rw [hsent.pathUpdates_eq]
  exact List.mem_map_of_mem (List.getElem_mem hlt)

theorem mem_pathToRoot_iff {leaf v : NodeIndex} :
    v ∈ pathToRoot leaf ↔ ∃ k ≤ leaf.depth, leaf.ancestor k = v := by
  simp only [pathToRoot_eq_map, List.mem_map, List.mem_range, Nat.lt_succ_iff]

/-- The entries of an honest commit carry the seeds of ancestors only when there
are no entries. -/
theorem HonestCommit.carriesAncestors_iff (c : HonestCommit P) :
    c.operation.CarriesAncestors c.session c.message.commit.pathUpdates ↔
      c.operation.NobodyBeside c.session := by
  rw [Operation.nobodyBeside_iff]
  constructor
  · intro hcarries v hv
    rcases mem_pathToRoot_iff.mp hv with ⟨k, hk, rfl⟩
    rw [List.eq_nil_iff_forall_not_mem]
    intro r hr
    rcases c.entry_for hk hr with ⟨pu, hpu, hnode, es, hes, seed, _, hto⟩
    have hdesc := hcarries pu hpu es hes r.1 r.2 seed (Operation.keyOf_of_mem_recipients hr) hto
    rw [NodeIndex.isDescendantOf_iff, hnode] at hdesc
    exact Operation.not_under_of_mem_recipients hr hdesc.2
  · intro hnone pu hpu es hes
    rcases c.entry hpu hes with ⟨k, hk, _, r, hr, _⟩
    have hnil : c.operation.recipients c.session (c.leaf.ancestor k) = [] :=
      hnone _ (mem_pathToRoot_iff.mpr ⟨k, hk, rfl⟩)
    rw [hnil] at hr
    cases hr

/-! ## What a member can derive -/

/-- A key pair opens a message and reads a seed: that of an entry, or the root
seed in a welcome. -/
inductive Message.Reads (m : Message P) (kp : P.KeyPair) : Seed → Prop
  | entry {pu es r seed} (hpu : pu ∈ m.commit.pathUpdates) (hes : es ∈ pu.encryptedSeeds)
      (hparse : convertEncryptedSeed P pu.nodeIndex.depth es = .ok r)
      (hopen : decryptSeed r.encrypted kp pu.nodeIndex = .ok seed) : Reads m kp seed
  | welcome {w encapsulation shared aad plaintext} {nonce : FixedBytes 24} {seed : Seed}
      (hw : m.welcome = some w) (hnonce : w.encryptedInfo.take 24 = nonce.val)
      (hparse : P.encapsulationFromBytes w.encapsulation = .ok encapsulation)
      (hdecap : P.decapsulate kp encapsulation = .ok shared)
      (hopen : P.decryptCommitting (deriveWelcomeKey P shared) nonce (w.encryptedInfo.drop 24) aad =
        .ok plaintext)
      (hseed : (plaintext.drop 64).take 32 = seed.val) : Reads m kp seed

/-- What the owner of the key pairs `K` and the seeds `S` can derive from the
messages that were sent. -/
inductive Derivable (K : P.KeyPair → Prop) (S : Seed → Prop) (sent : List (Message P)) :
    Seed → Prop
  | own {seed} (h : S seed) : Derivable K S sent seed
  | next {seed} (h : Derivable K S sent seed) : Derivable K S sent (deriveH1Seed P seed)
  | read {m kp seed} (hm : m ∈ sent) (hkp : K kp) (hread : m.Reads kp seed) :
      Derivable K S sent seed
  | readWith {m seed' kp seed} (h : Derivable K S sent seed')
      (hkp : deriveNodeKeypair seed' = .ok kp) (hm : m ∈ sent) (hread : m.Reads kp seed) :
      Derivable K S sent seed

/-- The seed is on the seed chain of one of the given seeds. -/
def OnChain (P : Primitives) (S : Seed → Prop) (seed : Seed) : Prop :=
  ∃ start n, S start ∧ seed = (deriveH1Seed P)^[n] start

/-- Whatever can be derived is on the chain of a seed of one's own or of a seed
that some message discloses. -/
theorem Derivable.origin {K : P.KeyPair → Prop} {S T : Seed → Prop} {sent : List (Message P)}
    (hread : ∀ m ∈ sent, ∀ kp seed, m.Reads kp seed → T seed) {seed : Seed}
    (h : Derivable K S sent seed) : OnChain P (fun start => S start ∨ T start) seed := by
  induction h with
  | own h => exact ⟨_, 0, .inl h, rfl⟩
  | next _ ih =>
    rcases ih with ⟨start, n, hstart, rfl⟩
    exact ⟨start, n + 1, hstart, (Function.iterate_succ_apply' _ _ _).symm⟩
  | read hm _ hr => exact ⟨_, 0, .inr (hread _ hm _ _ hr), rfl⟩
  | readWith _ _ hm hr _ => exact ⟨_, 0, .inr (hread _ hm _ _ hr), rfl⟩

/-- The seeds that a commit gives away: the seed of a path node with recipients,
and in a welcome the seed of the root. -/
def HonestCommit.Discloses (c : HonestCommit P) (seed : Seed) : Prop :=
  (∃ k ≤ c.leaf.depth, c.operation.recipients c.session (c.leaf.ancestor k) ≠ [] ∧
    c.SeedAt k seed) ∨
  c.message.welcome.isSome ∧ c.SeedAt c.leaf.depth seed

/-- The root seed stands behind the init secret and the transcript hash. -/
theorem WelcomeInfo.deltaRoot_of_toBytes (info : WelcomeInfo) :
    (info.toBytes.drop 64).take 32 = info.deltaRoot.val := by
  rw [WelcomeInfo.toBytes, List.append_assoc, List.drop_left' (by simp),
    List.take_left' (FixedBytes.length_coe _)]

/-- Nothing is ever read in a message but what it discloses. -/
theorem HonestCommit.discloses_of_reads (haead : P.IdealAead) (c : HonestCommit P) {kp : P.KeyPair}
    {seed : Seed} (h : c.message.Reads kp seed) : c.Discloses seed := by
  cases h with
  | entry hpu hes hparse hopen =>
    rcases c.entry hpu hes with ⟨k, hk, _, r, hr, seed', hat, _, encrypted, henc, _, hct⟩
    simp only [convertEncryptedSeed, Except.bind_eq_ok, toArray_eq_ok, Except.pure_eq_ok] at hparse
    rcases hparse with ⟨_, _, ciphertext, hct', rfl⟩
    have hsame : ciphertext = encrypted.ciphertext := Subtype.ext (hct'.symm.trans hct)
    rw [decryptSeed_eq haead henc hsame hopen]
    exact .inl ⟨k, hk, List.ne_nil_of_mem hr, hat⟩
  | @welcome w encapsulation shared aad plaintext nonce _ hw hnonce _ _ hopen hseed =>
    rcases Operation.build_ok c.built with ⟨leafSeed, result, hsent⟩
    rcases hsent.welcome w hw with ⟨_, _, _, _, _, _, _, _, hwelcome⟩
    rcases createWelcomeMessage_ok hwelcome with ⟨_, _, nonce', ct, info, _, hct, _, hinfo, hdelta⟩
    have hn : nonce = nonce' := by
      rw [hinfo, List.take_left' nonce'.property] at hnonce
      exact Subtype.ext hnonce.symm
    rw [hinfo, List.drop_left' nonce'.property, hn] at hopen
    rw [haead.decrypt_eq hct hopen, info.deltaRoot_of_toBytes, hdelta] at hseed
    refine .inr ⟨by simp [hw], leafSeed, hsent.leafSeed_eq, ?_⟩
    rw [← Subtype.ext hseed]
    exact hsent.path.deltaRoot_eq

/-- Over any honest run, a member derives nothing but the chains of its own
seeds and of the seeds that the commits disclose. -/
theorem derivable_of_honest (haead : P.IdealAead) (run : List (HonestCommit P))
    {K : P.KeyPair → Prop} {S : Seed → Prop} {seed : Seed}
    (h : Derivable K S (run.map (·.message)) seed) :
    OnChain P (fun start => S start ∨ ∃ c ∈ run, c.Discloses start) seed := by
  apply h.origin
  intro m hm kp seed hread
  rcases List.mem_map.mp hm with ⟨c, hc, rfl⟩
  exact ⟨c, hc, c.discloses_of_reads haead hread⟩

/-- Every entry of an honest commit carries the seed of a proper ancestor of its
recipient exactly when nobody is beside the committer's path.  In a run of such
commits a member derives nothing but the chains of its own seeds and of the root
seeds that the welcomes carry. -/
theorem tree_secrecy_iff (haead : P.IdealAead) :
    (∀ c : HonestCommit P,
      c.operation.CarriesAncestors c.session c.message.commit.pathUpdates ↔
        c.operation.NobodyBeside c.session) ∧
    ∀ run : List (HonestCommit P), (∀ c ∈ run, c.operation.NobodyBeside c.session) →
      ∀ (K : P.KeyPair → Prop) (S : Seed → Prop) (seed : Seed),
        Derivable K S (run.map (·.message)) seed →
          OnChain P (fun start => S start ∨
            ∃ c ∈ run, c.message.welcome.isSome ∧ c.SeedAt c.leaf.depth start) seed := by
  refine ⟨fun c => c.carriesAncestors_iff, ?_⟩
  intro run hrun K S seed hderive
  rcases derivable_of_honest haead run hderive with ⟨start, n, hstart, hseed⟩
  refine ⟨start, n, ?_, hseed⟩
  rcases hstart with hown | ⟨c, hc, ⟨k, hk, hne, _⟩ | hroot⟩
  · exact .inl hown
  · exact absurd (Operation.nobodyBeside_iff.mp (hrun c hc) _ (mem_pathToRoot_iff.mpr ⟨k, hk, rfl⟩))
      hne
  · exact .inr ⟨c, hc, hroot⟩

section Sample

open Symbolic

/-- Two members, with the keys 10 and 11. -/
private def twoLeaves : PartialTreeView symbolic := tree 1 2 [node ⟨1, 0⟩ 10, node ⟨1, 1⟩ 11]

private theorem not_nobodyBeside_twoLeaves :
    ¬ Operation.update.NobodyBeside (member 0 10 twoLeaves) := by
  intro h
  have hmem : (⟨1, 0⟩ : NodeIndex) ∈ pathToRoot (member 0 10 twoLeaves).ourLeafNode := by
    decide +kernel
  have hnode : (⟨1, 1⟩ : NodeIndex) ∈ twoLeaves.resolve ⟨1, 1⟩ := by decide +kernel
  rcases (h ⟨1, 0⟩ hmem ⟨1, 1⟩ rfl).1 ⟨1, 1⟩ hnode with ⟨leaf, hleaf, _⟩
  cases hleaf

/-- The entries of an update in a group of two do not carry the seeds of
ancestors. -/
theorem tree_secrecy_two_leaves :
    ∃ m s', Operation.update.build (word 50) (draws 500) (member 0 10 twoLeaves) = .ok m s' ∧
      ¬ Operation.update.CarriesAncestors (member 0 10 twoLeaves) m.commit.pathUpdates := by
  have hrun : okAnd (Operation.update.build (word 50) (draws 500) (member 0 10 twoLeaves))
      fun _ _ => true := by
    decide +kernel
  rcases okAnd_eq_true.mp hrun with ⟨m, s', hbuild, _⟩
  have hall := tree_secrecy_iff idealAead
  refine ⟨m, s', hbuild, fun hcarries => not_nobodyBeside_twoLeaves ?_⟩
  exact (hall.1 ⟨.update, word 50, draws 500, member 0 10 twoLeaves, m, s', hbuild⟩).mp hcarries

/-- The sibling of the committer derives the committer's new leaf seed. -/
theorem leaf_seed_disclosed :
    ∃ m s', Operation.update.build (word 50) (draws 500) (member 0 10 twoLeaves) = .ok m s' ∧
      (draws 500).leafSeed = .ok (word 500) ∧
      twoLeaves.keyAt ⟨1, 1⟩ = some (symbolic.publicKey (keyPair 11)) ∧
      Derivable (· = keyPair 11) (fun _ => False) [m] (word 500) ∧
      ¬ Operation.update.CarriesAncestors (member 0 10 twoLeaves) m.commit.pathUpdates := by
  have hrun : okAnd (Operation.update.build (word 50) (draws 500) (member 0 10 twoLeaves))
      fun m _ => m.commit.pathUpdates.any fun pu => pu.encryptedSeeds.any fun es =>
        match convertEncryptedSeed symbolic pu.nodeIndex.depth es with
        | .ok r =>
          match decryptSeed r.encrypted (keyPair 11) pu.nodeIndex with
          | .ok seed => seed = word 500
          | .error _ => false
        | .error _ => false := by
    decide +kernel
  rcases okAnd_eq_true.mp hrun with ⟨m, s', hbuild, htest⟩
  simp only [List.any_eq_true] at htest
  rcases htest with ⟨pu, hpu, es, hes, htest⟩
  refine ⟨m, s', hbuild, rfl, by decide +kernel, ?_, ?_⟩
  · split at htest
    · next r hr =>
      split at htest
      · next seed hseed =>
        rw [decide_eq_true_eq] at htest
        subst htest
        exact .read (List.mem_singleton_self m) rfl (.entry hpu hes hr hseed)
      · cases htest
    · cases htest
  · intro hcarries
    apply not_nobodyBeside_twoLeaves
    exact (HonestCommit.carriesAncestors_iff (P := symbolic)
      ⟨.update, word 50, draws 500, member 0 10 twoLeaves, m, s', hbuild⟩).mp hcarries

end Sample

end Trelis.Cocoa
