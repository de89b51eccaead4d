import Trelis.Lib.Outcome
import Trelis.Cocoa.KeySchedule

/-!
# Seeds

`operations/seed_chain.rs` and `operations/seed_encrypt.rs`: the chain of seeds
from a leaf to the root, and the encryption of one seed to one public key.

The encryption is a KEM encapsulation followed by the committing AEAD under the
encapsulated secret, with the position of the path node as associated data.
Three results say what an ideal KEM and AEAD make of it: the holder of the key
reads the seed (`decryptSeed_match`), nobody else reads anything
(`decryptSeed_other`), and nothing else is ever read (`decryptSeed_eq`).
-/

namespace Trelis.Cocoa

variable {P : Primitives}

/-- A seed of the chain. -/
abbrev Seed := Bytes32

/-! ## The seed chain -/

/-- The seeds of a path of `pathLength` nodes, from the leaf to the root. -/
def derivePathSeeds (P : Primitives) : Seed → Nat → List Seed
  | _, 0 => []
  | seed, n + 1 => seed :: derivePathSeeds P (deriveH1Seed P seed) n

/-- The key pair of a node. -/
def deriveNodeKeypair (seed : Seed) : Result P.KeyPair := P.generateFromSeed seed

@[simp] theorem derivePathSeeds_length (seed : Seed) (n : Nat) :
    (derivePathSeeds P seed n).length = n := by
  induction n generalizing seed with
  | zero => rfl
  | succ n ih => simp [derivePathSeeds, ih]

/-- The seed `k` levels up a chain. -/
theorem derivePathSeeds_getElem? {seed s : Seed} {n k : Nat}
    (h : (derivePathSeeds P seed n)[k]? = some s) : k < n ∧ s = (deriveH1Seed P)^[k] seed := by
  induction n generalizing seed k with
  | zero => cases h
  | succ n ih =>
    cases k with
    | zero =>
      cases h
      exact ⟨Nat.succ_pos n, rfl⟩
    | succ k =>
      have hrest := ih (by simpa [derivePathSeeds] using h)
      exact ⟨by omega, hrest.2⟩

/-- Dropping the lower levels of a chain leaves the chain of the seed above
them. -/
theorem derivePathSeeds_drop (seed : Seed) (n k : Nat) :
    (derivePathSeeds P seed n).drop k =
      derivePathSeeds P ((deriveH1Seed P)^[k] seed) (n - k) := by
  induction k generalizing seed n with
  | zero => rfl
  | succ k ih =>
    cases n with
    | zero => simp [derivePathSeeds]
    | succ n =>
      rw [derivePathSeeds, List.drop_succ_cons, ih, Function.iterate_succ_apply,
        Nat.add_sub_add_right]

/-! ## Encrypting a seed -/

/-- The seed, the authentication tag and the key commitment. -/
def encryptedSeedCiphertextSize : Nat := 32 + 16 + 32

/-- A seed on its way to one recipient. -/
structure EncryptedNodeSeed (P : Primitives) where
  encapsulation : P.Encapsulation
  ciphertext : FixedBytes encryptedSeedCiphertextSize

/-- The conversion of a slice into an array, with the error for a slice of the
wrong length. -/
def toArray (n : Nat) (b : Bytes) (e : CryptoError) : Result (FixedBytes n) :=
  match FixedBytes.ofBytes? n b with
  | some a => .ok a
  | none => .error e

@[simp] theorem toArray_eq_ok {n : Nat} {b : Bytes} {e : CryptoError} {a : FixedBytes n} :
    toArray n b e = .ok a ↔ b = a.val := by
  rw [← FixedBytes.ofBytes?_eq_some]
  unfold toArray
  cases FixedBytes.ofBytes? n b <;> simp

/-- The nonce of seed encryption; the key is used once. -/
def seedEncryptionNonce : FixedBytes 24 := .zero 24

def seedAadVersion : Nat := 1

/-- The associated data: version, depth and position of the path node, label. -/
def buildSeedAad (treePosition : NodeIndex) : Bytes :=
  leBytes 2 seedAadVersion ++ leBytes 4 treePosition.depth ++ leBytes 4 treePosition.position ++
    ascii "cocoa-seed-encrypt"

/-- Encrypts a seed to one public key. -/
def encryptSeedToRecipient (seed : Seed) (recipientPublicKey : P.PublicKey)
    (treePosition : NodeIndex) (coins : P.Coins) : Result (EncryptedNodeSeed P) := do
  let shared ← P.encapsulate recipientPublicKey coins
  let ct ← P.encryptCommitting shared.1 seedEncryptionNonce seed.val (buildSeedAad treePosition)
  let ciphertext ← toArray _ ct .aeadAuthenticationFailed
  pure ⟨shared.2, ciphertext⟩

/-- Decrypts a seed with our key pair. -/
def decryptSeed (encrypted : EncryptedNodeSeed P) (ourKeypair : P.KeyPair)
    (treePosition : NodeIndex) : Result Seed := do
  let shared ← P.decapsulate ourKeypair encrypted.encapsulation
  let plaintext ← P.decryptCommitting shared seedEncryptionNonce encrypted.ciphertext.val
    (buildSeedAad treePosition)
  toArray 32 plaintext .decryptionFailed

/-- The holder of the key reads the seed. -/
theorem decryptSeed_match (hkem : P.IdealKem) (haead : P.IdealAead) {seed : Seed}
    {kp : P.KeyPair} {i : NodeIndex} {coins : P.Coins} {e : EncryptedNodeSeed P}
    (h : encryptSeedToRecipient seed (P.publicKey kp) i coins = .ok e) :
    decryptSeed e kp i = .ok seed := by
  simp only [encryptSeedToRecipient, Except.bind_eq_ok, toArray_eq_ok, Except.pure_eq_ok] at h
  rcases h with ⟨shared, hencap, ct, hct, ciphertext, rfl, rfl⟩
  simp only [decryptSeed, Except.bind_eq_ok, toArray_eq_ok]
  exact ⟨shared.1, hkem.decapsulate_match hencap, seed.val, haead.decrypt_match hct, rfl⟩

/-- Whoever opens a ciphertext reads the seed that it was made of. -/
theorem decryptSeed_eq (haead : P.IdealAead) {seed s : Seed} {pk : P.PublicKey} {kp : P.KeyPair}
    {i j : NodeIndex} {coins : P.Coins} {e e' : EncryptedNodeSeed P}
    (h : encryptSeedToRecipient seed pk i coins = .ok e) (hct : e'.ciphertext = e.ciphertext)
    (hdec : decryptSeed e' kp j = .ok s) : s = seed := by
  simp only [encryptSeedToRecipient, Except.bind_eq_ok, toArray_eq_ok, Except.pure_eq_ok] at h
  rcases h with ⟨shared, _, ct, hct', ciphertext, rfl, rfl⟩
  simp only [decryptSeed, Except.bind_eq_ok, toArray_eq_ok, hct] at hdec
  rcases hdec with ⟨_, _, pt, hpt, rfl⟩
  exact Subtype.ext (haead.decrypt_eq hct' hpt)

/-- The holder of another key reads nothing. -/
theorem decryptSeed_other (hkem : P.IdealKem) (haead : P.IdealAead) {seed : Seed}
    {pk : P.PublicKey} {kp : P.KeyPair} {i j : NodeIndex} {coins : P.Coins}
    {e : EncryptedNodeSeed P} (h : encryptSeedToRecipient seed pk i coins = .ok e)
    (hne : P.publicKey kp ≠ pk) (s : Seed) : decryptSeed e kp j ≠ .ok s := by
  simp only [encryptSeedToRecipient, Except.bind_eq_ok, toArray_eq_ok, Except.pure_eq_ok] at h
  rcases h with ⟨shared, hencap, ct, hct, ciphertext, rfl, rfl⟩
  intro hdec
  simp only [decryptSeed, Except.bind_eq_ok] at hdec
  rcases hdec with ⟨k, hk, pt, hpt, _⟩
  apply haead.decrypt_other hct _ pt hpt
  intro heq
  rw [Prod.mk.injEq] at heq
  rw [heq.1] at hk
  exact hkem.decapsulate_other hencap hne hk

end Trelis.Cocoa
