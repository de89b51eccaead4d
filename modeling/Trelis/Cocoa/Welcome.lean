import Trelis.Cocoa.Commit

/-!
# Welcomes

`operations/init.rs`, and the half of `operations/add.rs` that makes a welcome:
the message that brings a new member into a group.

Two functions make welcomes.  `createGroup` seals the epoch secret and the
transcript hash to the identity key of each initial member, with the group id
as associated data.  `createWelcomeMessage`, which `add_member` calls, seals a
`WelcomeInfo` to the one-time key of the newcomer, with the associated data
`"cocoa-welcome-add"` of `encryptWelcomeInfo`.  One function reads them,
`processWelcome`, with the group id as associated data.
-/

namespace Trelis.Cocoa

variable {P : Primitives}

/-! ## The welcome message -/

/-- The message for a new member. -/
structure Welcome (P : Primitives) where
  groupId : GroupId
  epoch : Nat
  leafPosition : Nat
  treeDepth : Nat
  memberCount : Nat
  /-- The nonce and the ciphertext. -/
  encryptedInfo : Bytes
  encapsulation : Bytes
  signature : P.Signature

def welcomeInfoPlaintextSize : Nat := 64
def welcomeKeyContext : String := "cocoa-sa-welcome-key-v1"
def welcomeSignContext : Bytes := ascii "cocoa-sa-welcome-sign-v1"
def welcomeAddAad : Bytes := ascii "cocoa-welcome-add"

/-- A length in four bytes, clamped. -/
def lengthPrefix (b : Bytes) : Bytes := leBytes 4 (min b.length (2 ^ 32 - 1))

/-- The bytes that the committer signs. -/
def welcomeSignBody (groupId : GroupId) (epoch leafPosition treeDepth memberCount : Nat)
    (encapsulation encryptedInfo : Bytes) : Bytes :=
  groupId.val ++ leBytes 8 epoch ++ leBytes 4 leafPosition ++ leBytes 4 treeDepth ++
    leBytes 4 memberCount ++ lengthPrefix encapsulation ++ encapsulation ++
    lengthPrefix encryptedInfo ++ encryptedInfo

/-- The AEAD key of a welcome. -/
def deriveWelcomeKey (P : Primitives) (sharedSecret : Bytes32) : Bytes32 :=
  P.deriveKey welcomeKeyContext sharedSecret.val

/-! ## The welcome of `create_group` -/

/-- The random draws of one welcome. -/
structure WelcomeDraws (P : Primitives) where
  encapsulationCoins : P.Coins
  nonce : Result (FixedBytes 24)
  signCoins : P.Coins

/-- One round of the loop of `create_group`: the welcome of the member at leaf
`leafPosition`. -/
def createGroupWelcome (creatorIdentity : P.IdentityKeyPair) (groupId : GroupId)
    (epochSecret transcriptHash : Bytes32) (treeDepth totalMembers leafPosition : Nat)
    (bundle : PreKeyBundle P) (draws : WelcomeDraws P) : Result (Welcome P) := do
  let shared ← P.encapsulate bundle.identityKem draws.encapsulationCoins
  let nonce ← draws.nonce
  let ciphertext ← P.encryptCommitting (deriveWelcomeKey P shared.1) nonce
    (epochSecret.val ++ transcriptHash.val) groupId.val
  let encryptedInfo := nonce.val ++ ciphertext
  let encapsulation := P.encapsulationToBytes shared.2
  let signature ← P.signWithContext creatorIdentity
    (welcomeSignBody groupId 0 leafPosition treeDepth totalMembers encapsulation encryptedInfo)
    welcomeSignContext draws.signCoins
  pure { groupId, leafPosition, treeDepth, encryptedInfo, encapsulation, signature
         epoch := 0
         memberCount := totalMembers }

/-- The random draws of `create_group`. -/
structure CreateGroupDraws (P : Primitives) where
  groupId : Result GroupId
  epochSecret : Result Bytes32
  welcome : Nat → WelcomeDraws P

/-- Creates a group, and a welcome for each initial member.  The number of
bundles is cast to a `u32`, and one is added with saturation. -/
def createGroup (creatorIdentity : P.IdentityKeyPair) (creatorKem : P.KeyPair)
    (creatorUserId : UserId) (memberBundles : List (PreKeyBundle P))
    (draws : CreateGroupDraws P) : Result (CocoaSession P × List (Welcome P)) := do
  let totalMembers := min (memberBundles.length % 2 ^ 32 + 1) (2 ^ 32 - 1)
  checkGroupGrowthLimits totalMembers
  let groupId ← draws.groupId
  let epochSecret ← draws.epochSecret
  let session ← CocoaSession.createGroup groupId creatorUserId creatorKem totalMembers epochSecret
  let welcomes ← memberBundles.zipIdx.mapM fun entry =>
    createGroupWelcome creatorIdentity groupId epochSecret zero32 session.tree.treeDepth
      totalMembers ((entry.2 + 1) % 2 ^ 32) entry.1 (draws.welcome entry.2)
  pure (session, welcomes)

/-! ## The welcome of `add_member` -/

/-- What the welcome of an added member seals. -/
structure WelcomeInfo where
  initSecret : Bytes32
  transcriptHash : Bytes32
  deltaRoot : Bytes32
  treeInfo : Bytes

def WelcomeInfo.toBytes (info : WelcomeInfo) : Bytes :=
  info.initSecret.val ++ info.transcriptHash.val ++ info.deltaRoot.val ++ info.treeInfo

/-- One node of the tree info: its index, and its key and parent hash where it
is populated. -/
def serialiseTreeInfoNode (t : PartialTreeView P) (nodeIdx : NodeIndex) : Bytes :=
  leBytes 4 nodeIdx.depth ++ leBytes 4 nodeIdx.position ++
    match t.get nodeIdx with
    | some node =>
      match node.state.publicKey with
      | some pk =>
        let hashes := node.state.parentHash.getD (zero32, zero32)
        [1] ++ leBytes 2 (P.publicKeyToBytes pk).length ++ P.publicKeyToBytes pk ++
          hashes.1.val ++ hashes.2.val
      | none => [0]
    | none => [0]

/-- The nodes on the adder's path. -/
def serialiseTreeInfo (session : CocoaSession P) : Bytes :=
  (pathToRoot session.ourLeafNode).flatMap (serialiseTreeInfoNode session.tree)

/-- Seals welcome information to a KEM key. -/
def encryptWelcomeInfo (info : WelcomeInfo) (recipientKey : P.PublicKey)
    (draws : WelcomeDraws P) : Result (Bytes × Bytes) := do
  let shared ← P.encapsulate recipientKey draws.encapsulationCoins
  let nonce ← draws.nonce
  let ciphertext ← P.encryptCommitting (deriveWelcomeKey P shared.1) nonce info.toBytes
    welcomeAddAad
  pure (nonce.val ++ ciphertext, P.encapsulationToBytes shared.2)

/-- The welcome of the member that `add_member` adds. -/
def createWelcomeMessage (session : CocoaSession P) (identity : P.IdentityKeyPair)
    (newMemberBundle : PreKeyBundle P) (newPosition treeDepth : Nat) (deltaRoot : Seed)
    (newTranscript : Bytes32) (draws : WelcomeDraws P) : Result (Welcome P) := do
  let groupInfo : WelcomeInfo :=
    { initSecret := session.initSecret
      transcriptHash := newTranscript
      deltaRoot
      treeInfo := serialiseTreeInfo session }
  let sealedInfo ← encryptWelcomeInfo groupInfo newMemberBundle.oneTimeKem draws
  let encryptedInfo := sealedInfo.1
  let encapsulation := sealedInfo.2
  let signature ← P.signWithContext identity
    (welcomeSignBody session.groupId (session.epochNumber + 1) newPosition treeDepth
      (newPosition + 1) encapsulation encryptedInfo)
    welcomeSignContext draws.signCoins
  pure { treeDepth, encryptedInfo, encapsulation, signature
         groupId := session.groupId
         epoch := session.epochNumber + 1
         leafPosition := newPosition
         memberCount := newPosition + 1 }

/-! ## Joining -/

/-- Parses the tree info of a welcome.  Blank nodes carry nothing and are
skipped.  Every round consumes at least nine bytes, so the length is enough
fuel. -/
def parseWelcomeTreeInfoAux (P : Primitives) : Nat → Bytes → Result (List (NodeUpdate P))
  | 0, _ => pure []
  | n + 1, bytes =>
    if bytes.isEmpty then pure []
    else do
      rejectIf (bytes.length < 9) .malformedMessage
      let depth := leValue (bytes.take 4)
      let position := leValue ((bytes.drop 4).take 4)
      let stateFlag := (bytes.drop 8).headD 0
      let bytes := bytes.drop 9
      if stateFlag = 1 then do
        rejectIf (bytes.length < 2) .malformedMessage
        let pkLen := leValue (bytes.take 2)
        let bytes := bytes.drop 2
        rejectIf (bytes.length < pkLen + 64) .malformedMessage
        let publicKey ← P.publicKeyFromBytes (bytes.take pkLen)
        let h1 ← toArray 32 ((bytes.drop pkLen).take 32) .malformedMessage
        let h2 ← toArray 32 ((bytes.drop (pkLen + 32)).take 32) .malformedMessage
        let nodes ← parseWelcomeTreeInfoAux P n (bytes.drop (pkLen + 64))
        pure (⟨⟨depth, position⟩, publicKey, (h1, h2), []⟩ :: nodes)
      else parseWelcomeTreeInfoAux P n bytes

/-- Parses the tree info of a welcome. -/
def parseWelcomeTreeInfo (P : Primitives) (treeInfo : Bytes) : Result (List (NodeUpdate P)) :=
  parseWelcomeTreeInfoAux P treeInfo.length treeInfo

/-- Checks the parent hashes of the nodes of a tree info, as far as a joiner
can: the leaf's are zero, and the sibling component of another node matches
where the tree info names the sibling. -/
def verifyWelcomeTreeInfo (nodes : List (NodeUpdate P)) (treeDepth : Nat) : Result Unit :=
  let view (linear : Nat) : Option P.PublicKey :=
    (nodes.reverse.find? (·.nodeIndex.toLinear = linear)).map (·.publicKey)
  nodes.forM fun node =>
    if node.nodeIndex.depth = treeDepth then
      rejectIf (node.parentHash.1 ≠ zero32 ∨ node.parentHash.2 ≠ zero32) .parentHashMismatch
    else
      match node.nodeIndex.sibling with
      | none => pure ()
      | some sibling =>
        match view sibling.toLinear with
        | none => pure ()
        | some siblingPk =>
          rejectIf (h4ParentHashH1 P node.publicKey
            (h3TreeLabel P sibling.depth sibling.position (P.publicKeyToBytes siblingPk)) ≠
              node.parentHash.1) .parentHashMismatch

/-- Joins a group from a welcome. -/
def processWelcome (ourUserId : UserId) (ourKem : P.KeyPair) (welcome : Welcome P)
    (committerIdentity : P.IdentityPublicKey) : Result (CocoaSession P) := do
  checkSizeLimits (welcome.encryptedInfo.length + welcome.encapsulation.length) 0
    welcome.treeDepth welcome.memberCount 0
  P.verifyWithContext committerIdentity
    (welcomeSignBody welcome.groupId welcome.epoch welcome.leafPosition welcome.treeDepth
      welcome.memberCount welcome.encapsulation welcome.encryptedInfo)
    welcomeSignContext welcome.signature
  let encapsulation ← P.encapsulationFromBytes welcome.encapsulation
  let sharedSecret ← P.decapsulate ourKem encapsulation
  rejectIf (welcome.encryptedInfo.length < 24) .malformedMessage
  let nonce ← toArray 24 (welcome.encryptedInfo.take 24) .malformedMessage
  let plaintext ← P.decryptCommitting (deriveWelcomeKey P sharedSecret) nonce
    (welcome.encryptedInfo.drop 24) welcome.groupId.val
  rejectIf (plaintext.length < welcomeInfoPlaintextSize) .malformedMessage
  let epochSecret ← toArray 32 (plaintext.take 32) .malformedMessage
  let transcriptHash ← toArray 32 ((plaintext.drop 32).take 32) .malformedMessage
  let treeInfo := plaintext.drop welcomeInfoPlaintextSize
  if treeInfo.isEmpty then pure ()
  else do
    let nodes ← parseWelcomeTreeInfo P treeInfo
    verifyWelcomeTreeInfo nodes welcome.treeDepth
  let session := CocoaSession.joinGroup welcome.groupId ourUserId ourKem welcome.leafPosition
    welcome.treeDepth welcome.memberCount epochSecret transcriptHash
  pure ((fun s => s.advanceEpoch zero32 transcriptHash)^[welcome.epoch] session)

/-! ## What the two constructors make -/

/-- A session that was just created: an empty tree for its members, our leaf the
first. -/
structure Created (userId : UserId) (kem : P.KeyPair) (s : CocoaSession P) : Prop where
  tree_eq : ∃ count, count ≠ 0 ∧
    s.tree = (PartialTreeView.new P 0 (PartialTreeView.depthForMembers count)).setMemberCount count
  ourLeafPosition_eq : s.ourLeafPosition = 0
  ourKeypair_eq : s.ourKeypair = kem
  members_eq : s.members = {userId}

/-- A session that has just joined: an empty tree of the size that the welcome
names, our leaf the one that it names. -/
structure Joined (userId : UserId) (kem : P.KeyPair) (welcome : Welcome P) (s : CocoaSession P) :
    Prop where
  tree_eq : s.tree =
    (PartialTreeView.new P welcome.leafPosition welcome.treeDepth).setMemberCount
      welcome.memberCount
  ourLeafPosition_eq : s.ourLeafPosition = welcome.leafPosition
  ourKeypair_eq : s.ourKeypair = kem
  members_eq : s.members = {userId}

theorem createGroup_ok {identity : P.IdentityKeyPair} {kem : P.KeyPair} {userId : UserId}
    {bundles : List (PreKeyBundle P)} {draws : CreateGroupDraws P} {s : CocoaSession P}
    {welcomes : List (Welcome P)}
    (h : createGroup identity kem userId bundles draws = .ok (s, welcomes)) :
    Created userId kem s := by
  simp only [createGroup, CocoaSession.createGroup, Except.bind_eq_ok, rejectIf_eq_ok,
    Except.pure_eq_ok, Prod.mk.injEq] at h
  rcases h with ⟨_, _, _, _, _, _, _, ⟨_, hcount, rfl⟩, _, _, rfl, _⟩
  exact ⟨⟨_, hcount, rfl⟩, rfl, rfl, rfl⟩

theorem processWelcome_ok {userId : UserId} {kem : P.KeyPair} {welcome : Welcome P}
    {committer : P.IdentityPublicKey} {s : CocoaSession P}
    (h : processWelcome userId kem welcome committer = .ok s) : Joined userId kem welcome s := by
  have hadvance : ∀ (transcript : Bytes32) {x : CocoaSession P}, Joined userId kem welcome x →
      Joined userId kem welcome
        ((fun s : CocoaSession P => s.advanceEpoch zero32 transcript)^[welcome.epoch] x) := by
    intro transcript x hx
    exact Function.Iterate.rec _ hx (fun y hy => ⟨hy.1, hy.2, hy.3, hy.4⟩) welcome.epoch
  simp only [processWelcome, Except.bind_eq_ok] at h
  rcases h with ⟨_, _, _, _, _, _, _, _, _, _, _, _, plaintext, _, _, _, epochSecret, _,
    transcript, _, h⟩
  split at h
  · rw [Except.pure_eq_ok] at h
    subst h
    exact hadvance transcript ⟨rfl, rfl, rfl, rfl⟩
  · simp only [Except.bind_eq_ok, Except.pure_eq_ok] at h
    rcases h with ⟨_, _, _, _, rfl⟩
    exact hadvance transcript ⟨rfl, rfl, rfl, rfl⟩

end Trelis.Cocoa
