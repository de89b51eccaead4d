import Trelis.Cocoa.Remove
import Trelis.Cocoa.Update
import Trelis.Cocoa.Welcome

/-!
# A symbolic instance of the primitives

`symbolic` is an instance of `Primitives` that computes, and that satisfies
every law the protocol relies on; so the laws are consistent together.  It
keeps what it is given in the clear, and it is ideal because nobody forges a
value in it.

* A key pair is its own public key, and an encapsulation carries the key it is
  meant for.
* A ciphertext names its key and its associated data.  The two sizes of
  ciphertext are told apart by their length: the 80 bytes of an encrypted seed,
  whose associated data is a position between two constants, and a longer form
  for everything else.
* A signature is the triple of signer, message and context.
* The hash is the value of its input as a number in base 257, modulo `2 ^ 256`.
-/

namespace Trelis.Symbolic

/-- The 32-byte form of a number. -/
def word (n : Nat) : Bytes32 := ⟨leBytes 32 n, leBytes_length 32 n⟩

/-- The hash. -/
def deriveKey (context : String) (input : Bytes) : Bytes32 :=
  word ((ascii context ++ input).foldl (fun acc b => (acc * 257 + b.toNat + 1) % 2 ^ 256) 7)

/-- A signature. -/
structure Signature where
  signer : Bytes32
  message : Bytes
  context : Bytes
deriving DecidableEq

/-! ## Keys and signatures -/

def publicKeyFromBytes (b : Bytes) : Result Bytes32 :=
  match FixedBytes.ofBytes? 32 b with
  | some pk => .ok pk
  | none => .error .malformedMessage

def encapsulationFromBytes (b : Bytes) : Result (Bytes32 × Bytes32) :=
  match FixedBytes.ofBytes? 32 (b.take 32), FixedBytes.ofBytes? 32 (b.drop 32) with
  | some pk, some k => .ok (pk, k)
  | _, _ => .error .malformedMessage

def decapsulate (kp : Bytes32) (c : Bytes32 × Bytes32) : Result Bytes32 :=
  if kp = c.1 then .ok c.2 else .error .decryptionFailed

def verifyWithContext (signer : Bytes32) (message context : Bytes) (signature : Signature) :
    Result Unit :=
  if signature = ⟨signer, message, context⟩ then .ok () else .error .signatureVerificationFailed

/-! ## The AEAD -/

/-- The associated data of an encrypted seed, around the eight bytes of its
position. -/
def seedAad (position : Bytes) : Bytes := leBytes 2 1 ++ position ++ ascii "cocoa-seed-encrypt"

/-- The eight position bytes of a seed's associated data. -/
def positionOf (aad : Bytes) : Bytes := (aad.drop 2).take 8

/-- The plaintext is a seed, and so is the associated data. -/
def isSeedForm (plaintext aad : Bytes) : Bool :=
  plaintext.length == 32 && (positionOf aad).length == 8 && aad == seedAad (positionOf aad)

/-- The ciphertext of a seed. -/
def sealSeed (key : Bytes32) (plaintext aad : Bytes) : Bytes :=
  key.val ++ (plaintext ++ (positionOf aad ++ List.replicate 8 0))

/-- What stands before the plaintext in any other ciphertext: the key, and the
associated data behind its length in unary. -/
def header (key : Bytes32) (aad : Bytes) : Bytes :=
  key.val ++ (List.replicate 81 0 ++ (List.replicate aad.length 1 ++ 0 :: aad))

def encryptCommitting (key : Bytes32) (_nonce : FixedBytes 24) (plaintext aad : Bytes) :
    Result Bytes :=
  .ok (if isSeedForm plaintext aad then sealSeed key plaintext aad else header key aad ++ plaintext)

def decryptCommitting (key : Bytes32) (_nonce : FixedBytes 24) (ciphertext aad : Bytes) :
    Result Bytes :=
  if ciphertext.length = 80 then
    let plaintext := (ciphertext.drop 32).take 32
    if isSeedForm plaintext aad && ciphertext == sealSeed key plaintext aad then .ok plaintext
    else .error .aeadAuthenticationFailed
  else if (header key aad).isPrefixOf ciphertext then .ok (ciphertext.drop (header key aad).length)
  else .error .aeadAuthenticationFailed

end Trelis.Symbolic

namespace Trelis

open Symbolic in
/-- The symbolic primitives. -/
def symbolic : Primitives where
  PublicKey := Bytes32
  KeyPair := Bytes32
  Encapsulation := Bytes32 × Bytes32
  Signature := Symbolic.Signature
  IdentityPublicKey := Bytes32
  IdentityKeyPair := Bytes32
  Coins := Nat
  deriveKey := Symbolic.deriveKey
  generate coins := .ok (word coins)
  generateFromSeed seed := .ok seed
  publicKey kp := kp
  publicKeyToBytes pk := pk.val
  publicKeyFromBytes := Symbolic.publicKeyFromBytes
  encapsulate pk coins := .ok (word coins, (pk, word coins))
  decapsulate := Symbolic.decapsulate
  encapsulationToBytes c := c.1.val ++ c.2.val
  encapsulationFromBytes := Symbolic.encapsulationFromBytes
  encryptCommitting := Symbolic.encryptCommitting
  decryptCommitting := Symbolic.decryptCommitting
  identityPublicKey id := id
  identityToBytes id := id.val
  signWithContext id message context _ := .ok ⟨id, message, context⟩
  verifyWithContext := Symbolic.verifyWithContext

instance : DecidableEq symbolic.PublicKey := inferInstanceAs (DecidableEq Bytes32)

instance : DecidableEq symbolic.KeyPair := inferInstanceAs (DecidableEq Bytes32)

namespace Symbolic

/-! ## The laws -/

theorem publicKeyFromBytes_coe (kp : Bytes32) : publicKeyFromBytes kp.val = .ok kp := by
  rw [publicKeyFromBytes, FixedBytes.ofBytes?_coe]

theorem encapsulationFromBytes_append (c : Bytes32 × Bytes32) :
    encapsulationFromBytes (c.1.val ++ c.2.val) = .ok c := by
  simp only [encapsulationFromBytes, List.take_left' c.1.property, List.drop_left' c.1.property,
    FixedBytes.ofBytes?_coe]

theorem decapsulate_eq_ok {kp : Bytes32} {c : Bytes32 × Bytes32} {k : Bytes32} :
    decapsulate kp c = .ok k ↔ kp = c.1 ∧ c.2 = k := by
  unfold decapsulate
  split <;> simp [*]

theorem verifyWithContext_self (signer : Bytes32) (message context : Bytes) :
    verifyWithContext signer message context ⟨signer, message, context⟩ = .ok () := by
  simp [verifyWithContext]

theorem publicKeyCodec : symbolic.PublicKeyCodec 32 where
  length_toBytes pk := FixedBytes.length_coe pk
  fromBytes_toBytes kp := publicKeyFromBytes_coe kp

theorem encapsulationCodec : symbolic.EncapsulationCodec where
  fromBytes_toBytes := by
    intro pk coins k c _
    exact encapsulationFromBytes_append c

theorem idealKem : symbolic.IdealKem where
  decapsulate_match := by
    intro kp coins k c h
    cases h
    exact decapsulate_eq_ok.mpr ⟨rfl, rfl⟩
  decapsulate_other := by
    intro pk kp coins k c h hne hdec
    cases h
    exact hne (decapsulate_eq_ok.mp hdec).1

theorem injectiveSeeds : symbolic.InjectiveSeeds where
  seed_eq := by
    intro a b kp kp' ha hb h
    cases ha
    cases hb
    exact Subtype.ext h

theorem correctSignature : symbolic.CorrectSignature where
  verify_sign := by
    intro kp msg ctx coins sig h
    cases h
    exact verifyWithContext_self kp msg ctx

theorem isSeedForm_iff {plaintext aad : Bytes} :
    isSeedForm plaintext aad ↔
      plaintext.length = 32 ∧ (positionOf aad).length = 8 ∧ aad = seedAad (positionOf aad) := by
  simp [isSeedForm, and_assoc]

/-- The ciphertext of a seed names the key, the seed and the associated
data. -/
theorem sealSeed_inj {k k' : Bytes32} {pt pt' aad aad' : Bytes} (h : isSeedForm pt aad)
    (h' : isSeedForm pt' aad') (he : sealSeed k pt aad = sealSeed k' pt' aad') :
    k = k' ∧ pt = pt' ∧ aad = aad' := by
  rw [isSeedForm_iff] at h h'
  obtain ⟨hk, hrest⟩ := List.append_inj he (by simp)
  obtain ⟨hpt, hrest⟩ := List.append_inj hrest (by rw [h.1, h'.1])
  obtain ⟨hpos, _⟩ := List.append_inj hrest (by rw [h.2.1, h'.2.1])
  exact ⟨Subtype.ext hk, hpt, by rw [h.2.2, h'.2.2, hpos]⟩

theorem length_sealSeed {k : Bytes32} {pt aad : Bytes} (h : isSeedForm pt aad) :
    (sealSeed k pt aad).length = 80 := by
  rw [isSeedForm_iff] at h
  simp [sealSeed, h.1, h.2.1]

/-- A length in unary is read off the front of a byte string. -/
theorem unary_inj {m n : Nat} {r s : Bytes}
    (h : List.replicate m 1 ++ 0 :: r = List.replicate n 1 ++ 0 :: s) : m = n ∧ r = s := by
  induction m generalizing n with
  | zero =>
    cases n with
    | zero => simpa using h
    | succ n => simp [List.replicate_succ] at h
  | succ m ih =>
    cases n with
    | zero => simp [List.replicate_succ] at h
    | succ n =>
      simp only [List.replicate_succ, List.cons_append, List.cons.injEq, true_and] at h
      have hmn := ih h
      exact ⟨by rw [hmn.1], hmn.2⟩

theorem header_inj {k k' : Bytes32} {aad aad' r s : Bytes}
    (h : header k aad ++ r = header k' aad' ++ s) : k = k' ∧ aad = aad' ∧ r = s := by
  simp only [header, List.append_assoc, List.cons_append] at h
  obtain ⟨hk, hrest⟩ := List.append_inj h (by simp)
  obtain ⟨_, hrest⟩ := List.append_inj hrest rfl
  obtain ⟨hlen, hrest⟩ := unary_inj hrest
  obtain ⟨haad, hr⟩ := List.append_inj hrest hlen
  exact ⟨Subtype.ext hk, haad, hr⟩

theorem length_header (k : Bytes32) (aad : Bytes) :
    (header k aad).length = 114 + 2 * aad.length := by
  simp [header]
  omega

theorem idealAead : symbolic.IdealAead where
  decrypt_match := by
    intro k n pt aad ct h
    change encryptCommitting k n pt aad = .ok ct at h
    show decryptCommitting k n ct aad = .ok pt
    unfold encryptCommitting at h
    unfold decryptCommitting
    by_cases hform : isSeedForm pt aad
    · rw [if_pos hform, Except.ok.injEq] at h
      subst h
      have hpt : ((sealSeed k pt aad).drop 32).take 32 = pt := by
        rw [sealSeed, List.drop_left' k.property, List.take_left' (isSeedForm_iff.mp hform).1]
      simp [length_sealSeed hform, hpt, hform]
    · rw [if_neg hform, Except.ok.injEq] at h
      subst h
      have hlen : (header k aad ++ pt).length ≠ 80 := by
        rw [List.length_append, length_header]
        omega
      rw [if_neg hlen, if_pos (List.isPrefixOf_iff_prefix.mpr (List.prefix_append _ _)),
        List.drop_left]
  decrypt_other := by
    intro k n pt aad ct k' aad' h hne pt' hdec
    change encryptCommitting k n pt aad = .ok ct at h
    change decryptCommitting k' n ct aad' = .ok pt' at hdec
    unfold encryptCommitting at h
    unfold decryptCommitting at hdec
    apply hne
    by_cases hform : isSeedForm pt aad
    · rw [if_pos hform, Except.ok.injEq] at h
      subst h
      rw [if_pos (length_sealSeed hform)] at hdec
      simp only at hdec
      split at hdec
      · next hopen =>
        simp only [Bool.and_eq_true, beq_iff_eq] at hopen
        obtain ⟨hk, _, haad⟩ := sealSeed_inj hform hopen.1 hopen.2
        rw [hk, haad]
      · cases hdec
    · rw [if_neg hform, Except.ok.injEq] at h
      subst h
      have hlen : (header k aad ++ pt).length ≠ 80 := by
        rw [List.length_append, length_header]
        omega
      rw [if_neg hlen] at hdec
      split at hdec
      · next hprefix =>
        rcases List.isPrefixOf_iff_prefix.mp hprefix with ⟨rest, hrest⟩
        obtain ⟨hk, haad, _⟩ := header_inj hrest
        rw [hk, haad]
      · cases hdec

theorem sizedAead : symbolic.SizedAead where
  length_le := by
    intro k n ct aad pt h
    change decryptCommitting k n ct aad = .ok pt at h
    unfold decryptCommitting at h
    split at h
    · simp only at h
      split at h
      · cases h
        rw [List.length_take, List.length_drop]
        omega
      · cases h
    · split at h
      · cases h
        rw [List.length_drop]
        omega
      · cases h

/-! ## Sessions -/

open Cocoa

/-- The key pair number `n`. -/
def keyPair (n : Nat) : symbolic.KeyPair := word n

/-- Its public key. -/
def key (n : Nat) : symbolic.PublicKey := word n

/-- A node with the key number `n`. -/
def node (index : NodeIndex) (n : Nat) : TreeNode symbolic :=
  .newPopulated index (key n) none (zero32, zero32) zero32 ⟨zero32, [], []⟩ zero32 zero32 ⟨0, 0, 0⟩

/-- A blank node. -/
def blank (index : NodeIndex) (unmergedLeaves : List Nat) : TreeNode symbolic :=
  ⟨index, .blank unmergedLeaves⟩

/-- A tree of the given nodes. -/
def tree (depth memberCount : Nat) (nodes : List (TreeNode symbolic)) :
    PartialTreeView symbolic :=
  nodes.foldl .insert ((PartialTreeView.new symbolic 0 depth).setMemberCount memberCount)

/-- The member at a leaf of a tree, with the key pair number `n`, at epoch 0. -/
def member (leaf n : Nat) (tree : PartialTreeView symbolic) : CocoaSession symbolic where
  groupId := word 1
  ourUserId := word leaf
  ourLeafPosition := leaf
  ourKeypair := keyPair n
  tree := tree
  epoch := .initial (word 2) zero32
  transcriptHash := zero32
  members := {word leaf}

/-- Draws that are all different. -/
def draws (n : Nat) : Draws symbolic where
  leafSeed := .ok (word n)
  seedCoins level i := n + 16 * level + i + 1
  keypairCoins := n + 1000
  signCoins := n + 1001
  welcomeCoins := n + 1002
  welcomeNonce := .ok (.zero 24)
  welcomeSignCoins := n + 1003

/-- The draws of a new group. -/
def groupDraws : CreateGroupDraws symbolic where
  groupId := .ok (word 1)
  epochSecret := .ok (word 2)
  welcome i := ⟨3000 + i, .ok (.zero 24), 4000 + i⟩

/-- A group of three, created by `word 0` with the key pair number 10. -/
def threeMembers : Result (CocoaSession symbolic × List (Welcome symbolic)) :=
  createGroup (word 60) (keyPair 10) (word 0) [⟨key 11, key 21⟩, ⟨key 12, key 22⟩] groupDraws

theorem threeMembers_ok :
    ∃ welcomes, threeMembers = .ok (member 0 10 (tree 2 3 []), welcomes) := ⟨_, rfl⟩

/-- The member at leaf 3, with the key pair number 13, that `word 50` has welcomed
into a new group. -/
def joiner (depth memberCount : Nat) : Result (CocoaSession symbolic) := do
  let welcome ← createGroupWelcome (P := symbolic) (word 50) (word 1) (word 2) zero32 depth
    memberCount 3 ⟨key 13, key 23⟩ (groupDraws.welcome 2)
  processWelcome (word 3) (keyPair 13) welcome (word 50)

/-! ## Commits -/

/-- The user `word 9` added at a leaf, in the first epoch, by the member at
leaf 2 and without path updates. -/
def addWithoutPath (position : Nat) : AddCommit symbolic :=
  let roundHash := h3RoundHash symbolic (symbolic.deriveKey rootLabelContext zero32.val) [] [word 9]
  let commit : AddCommit symbolic :=
    { groupId := word 1, newMemberId := word 9, newLeafPosition := position
      committerLeafPosition := 2, epoch := 1, pathUpdates := []
      signature := (⟨word 50, [], []⟩ : Signature), roundHash
      confirmationTag :=
        computeConfirmationTag symbolic zero32 (h3TranscriptHash symbolic zero32 roundHash) 1 }
  { commit with
    signature := (⟨word 50, (commit.content (word 50)).toBytes, commitSignContext⟩ : Signature) }

/-- The seed number `n`, sealed to the key number `recipient`. -/
def sealedTo (n recipient : Nat) (index : NodeIndex) : List EncryptedSeed :=
  match encryptSeedToRecipient (P := symbolic) (word n) (key recipient) index (2000 : Nat) with
  | .ok encrypted => [RecipientSeed.toWire ⟨index, encrypted⟩]
  | .error _ => []

/-- An update of a single node by the member at leaf 1, made for a session by
someone who knows the key number `recipient`: the seed number `n`, and its key,
at an index of choice. -/
def oneNodeUpdate (s : CocoaSession symbolic) (index : NodeIndex) (n recipient : Nat) :
    UpdateCommit symbolic :=
  let roundHash := h3RoundHash symbolic (symbolic.deriveKey rootLabelContext (word n).val) [] []
  let commit : UpdateCommit symbolic :=
    { groupId := s.groupId, updaterLeafPosition := 1, epoch := s.epochNumber + 1
      pathUpdates := [⟨index, (word n).val, (zero32, zero32), sealedTo n recipient index⟩]
      signature := (⟨word 50, [], []⟩ : Signature), roundHash
      confirmationTag :=
        computeConfirmationTag symbolic (word n)
          (h3TranscriptHash symbolic s.transcriptHash roundHash) (s.epochNumber + 1) }
  { commit with
    signature := (⟨word 50, (commit.content (word 50)).toBytes, commitSignContext⟩ : Signature) }

/-- The user `word 9` removed from a leaf, by the same member and in the same
way. -/
def removeWithoutPath (position : Nat) : RemoveCommit symbolic :=
  let roundHash := h3RoundHash symbolic (symbolic.deriveKey rootLabelContext zero32.val) [word 9] []
  let commit : RemoveCommit symbolic :=
    { groupId := word 1, removedMemberId := word 9, removedLeafPosition := position
      committerLeafPosition := 2, epoch := 1, pathUpdates := []
      signature := (⟨word 50, [], []⟩ : Signature), roundHash
      confirmationTag :=
        computeConfirmationTag symbolic zero32 (h3TranscriptHash symbolic zero32 roundHash) 1 }
  { commit with
    signature := (⟨word 50, (commit.content (word 50)).toBytes, commitSignContext⟩ : Signature) }

/-- The user `word position` added at a leaf by the member at leaf 2, without
path updates, made for a session. -/
def addAt (position : Nat) (s : CocoaSession symbolic) : AddCommit symbolic :=
  let roundHash := h3RoundHash symbolic (symbolic.deriveKey rootLabelContext zero32.val) []
    [word position]
  let commit : AddCommit symbolic :=
    { groupId := s.groupId, newMemberId := word position, newLeafPosition := position
      committerLeafPosition := 2, epoch := s.epochNumber + 1, pathUpdates := []
      signature := (⟨word 50, [], []⟩ : Signature), roundHash
      confirmationTag :=
        computeConfirmationTag symbolic zero32
          (h3TranscriptHash symbolic s.transcriptHash roundHash) (s.epochNumber + 1) }
  { commit with
    signature := (⟨word 50, (commit.content (word 50)).toBytes, commitSignContext⟩ : Signature) }

/-- The user `word position` removed from a leaf, in the same way. -/
def removeAt (position : Nat) (s : CocoaSession symbolic) : RemoveCommit symbolic :=
  let roundHash := h3RoundHash symbolic (symbolic.deriveKey rootLabelContext zero32.val)
    [word position] []
  let commit : RemoveCommit symbolic :=
    { groupId := s.groupId, removedMemberId := word position, removedLeafPosition := position
      committerLeafPosition := 2, epoch := s.epochNumber + 1, pathUpdates := []
      signature := (⟨word 50, [], []⟩ : Signature), roundHash
      confirmationTag :=
        computeConfirmationTag symbolic zero32
          (h3TranscriptHash symbolic s.transcriptHash roundHash) (s.epochNumber + 1) }
  { commit with
    signature := (⟨word 50, (commit.content (word 50)).toBytes, commitSignContext⟩ : Signature) }

end Symbolic

end Trelis
