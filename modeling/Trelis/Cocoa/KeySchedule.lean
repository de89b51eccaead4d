import Trelis.Cocoa.Node

/-!
# The key schedule

`key_schedule.rs` and `epoch.rs`: the domain-separated hashes, and the epoch
with the secrets derived from its epoch secret.

`EpochSecrets` carries the equations that say how its three derived secrets
come from the epoch secret.  Two values with the same epoch secret are
therefore equal (`EpochSecrets.ext_epochSecret`), and agreement of two members
on an epoch is agreement on the epoch secret.
-/

namespace Trelis.Cocoa

variable (P : Primitives)

/-! ## Contexts -/

def h1Context : String := "cocoa-sa-seed-derive-v1"
def h3Context : String := "cocoa-sa-tree-label-v1"
def h4Context : String := "cocoa-sa-parent-hash-v1"
def h5Context : String := "cocoa-sa-epoch-secret-v1"
def roundHashContext : String := "cocoa-sa-round-hash-v1"
def transcriptHashContext : String := "cocoa-sa-transcript-hash-v1"
def appSecretContext : String := "cocoa-sa-app-secret-v1"
def confKeyContext : String := "cocoa-sa-conf-key-v1"
def initSecretContext : String := "cocoa-sa-init-secret-v1"
def rootLabelContext : String := "cocoa-sa-root-label-v1"
def confirmationTagContext : String := "cocoa-sa-confirmation-tag-v1"
def userIdContext : String := "cocoa-sa-user-id-v1"

/-! ## The hashes -/

/-- H1: one step of the seed chain, from a node to its parent. -/
def deriveH1Seed (delta : Bytes32) : Bytes32 := P.deriveKey h1Context delta.val

/-- H3: the label of a tree node. -/
def h3TreeLabel (depth position : Nat) (publicKey : Bytes) : Bytes32 :=
  P.deriveKey h3Context (leBytes 4 depth ++ leBytes 4 position ++ publicKey)

/-- H3: the hash of a round, over the root label and the membership change. -/
def h3RoundHash (rootTreeLabel : Bytes32) (removedUsers addedUsers : List UserId) : Bytes32 :=
  P.deriveKey roundHashContext
    (rootTreeLabel.val ++ leBytes 4 removedUsers.length ++ removedUsers.flatMap (·.val) ++
      leBytes 4 addedUsers.length ++ addedUsers.flatMap (·.val))

/-- H3: the next transcript hash. -/
def h3TranscriptHash (prevTranscript roundHash : Bytes32) : Bytes32 :=
  P.deriveKey transcriptHashContext (prevTranscript.val ++ roundHash.val)

/-- H4: the component of the parent hash that binds the sibling. -/
def h4ParentHashH1 (childPk : P.PublicKey) (siblingLabel : Bytes32) : Bytes32 :=
  P.deriveKey h4Context
    (ascii "h1-sibling" ++ P.publicKeyToBytes childPk ++ siblingLabel.val)

/-- H4: the component of the parent hash that binds the predecessors and the
keys of the resolution. -/
def h4ParentHashH2 (childPk : P.PublicKey) (predecessorKeys : List P.PublicKey)
    (childH2 : Bytes32) (resolutionKeys : List P.PublicKey) : Bytes32 :=
  P.deriveKey h4Context
    (ascii "h2-predecessors" ++ P.publicKeyToBytes childPk ++
      predecessorKeys.flatMap P.publicKeyToBytes ++ childH2.val ++
      resolutionKeys.flatMap P.publicKeyToBytes)

/-- H5: the epoch secret. -/
def h5EpochSecret (initSecretPrev deltaRoot transcriptHash : Bytes32) : Bytes32 :=
  P.deriveKey h5Context (initSecretPrev.val ++ deltaRoot.val ++ transcriptHash.val)

def deriveAppSecret (epochSecret : Bytes32) : Bytes32 :=
  P.deriveKey appSecretContext epochSecret.val

def deriveConfKey (epochSecret : Bytes32) : Bytes32 :=
  P.deriveKey confKeyContext epochSecret.val

def deriveInitSecret (epochSecret : Bytes32) : Bytes32 :=
  P.deriveKey initSecretContext epochSecret.val

variable {P}

/-! ## Epochs -/

/-- The secrets of an epoch. -/
structure EpochSecrets (P : Primitives) where
  epochSecret : Bytes32
  appSecret : Bytes32
  confKey : Bytes32
  initSecret : Bytes32
  appSecret_eq : appSecret = deriveAppSecret P epochSecret
  confKey_eq : confKey = deriveConfKey P epochSecret
  initSecret_eq : initSecret = deriveInitSecret P epochSecret

/-- The secrets that an epoch secret gives. -/
def EpochSecrets.derive (epochSecret : Bytes32) : EpochSecrets P where
  epochSecret := epochSecret
  appSecret := deriveAppSecret P epochSecret
  confKey := deriveConfKey P epochSecret
  initSecret := deriveInitSecret P epochSecret
  appSecret_eq := rfl
  confKey_eq := rfl
  initSecret_eq := rfl

@[simp] theorem EpochSecrets.epochSecret_derive (secret : Bytes32) :
    (EpochSecrets.derive (P := P) secret).epochSecret = secret := rfl

/-- The epoch secret determines the rest. -/
theorem EpochSecrets.ext_epochSecret {a b : EpochSecrets P}
    (h : a.epochSecret = b.epochSecret) : a = b := by
  rcases a with ⟨ea, aa, ca, ia, haa, hca, hia⟩
  rcases b with ⟨eb, ab, cb, ib, hab, hcb, hib⟩
  simp only at h
  subst h haa hca hia hab hcb hib
  rfl

/-- One epoch of a group. -/
structure Epoch (P : Primitives) where
  number : Nat
  secrets : EpochSecrets P
  messageCounter : Nat
  transcriptHash : Bytes32

namespace Epoch

/-- Epoch 0. -/
def initial (epochSecret transcriptHash : Bytes32) : Epoch P where
  number := 0
  secrets := .derive epochSecret
  messageCounter := 0
  transcriptHash := transcriptHash

/-- The epoch after the one with the given init secret and number. -/
def advance (prevInitSecret deltaRoot transcriptHash : Bytes32) (prevEpochNumber : Nat) :
    Epoch P where
  number := prevEpochNumber + 1
  secrets := .derive (h5EpochSecret P prevInitSecret deltaRoot transcriptHash)
  messageCounter := 0
  transcriptHash := transcriptHash

/-- The init secret for the next epoch. -/
def initSecret (e : Epoch P) : Bytes32 := e.secrets.initSecret

end Epoch

end Trelis.Cocoa
