import Trelis.Primitives
import Trelis.Cocoa.Index

/-!
# Tree nodes

`NodeState` and `TreeNode` of `tree/node.rs`.
-/

namespace Trelis.Cocoa

/-- A group identifier. -/
abbrev GroupId := Bytes32

/-- A user identifier, the hash of an identity public key. -/
abbrev UserId := Bytes32

/-- Where an update came from. -/
structure UpdateOrigin where
  epoch : Nat
  sequence : Nat
  timestamp : Nat
deriving DecidableEq, Repr

/-- The data of a node with key material. -/
structure PopulatedNodeData (P : Primitives) where
  publicKey : P.PublicKey
  /-- The key of the node before its last update. -/
  predecessorKey : Option P.PublicKey
  parentHash : Bytes32 × Bytes32
  lastUpdaterId : UserId
  updateSignature : P.Signature
  transcriptHash : Bytes32
  confirmationTag : Bytes32
  origin : UpdateOrigin

/-- A node either has key material or is blank.  A blank node lists the leaf
positions that joined below it and have processed no update through it. -/
inductive NodeState (P : Primitives) where
  | populated (data : PopulatedNodeData P)
  | blank (unmergedLeaves : List Nat)

namespace NodeState

variable {P : Primitives}

/-- A new blank node. -/
def newBlank : NodeState P := .blank []

def isBlank : NodeState P → Bool
  | populated _ => false
  | blank _ => true

def isPopulated : NodeState P → Bool
  | populated _ => true
  | blank _ => false

/-- The public key of a populated node. -/
def publicKey : NodeState P → Option P.PublicKey
  | populated data => some data.publicKey
  | blank _ => none

/-- The parent hash of a populated node. -/
def parentHash : NodeState P → Option (Bytes32 × Bytes32)
  | populated data => some data.parentHash
  | blank _ => none

/-- The unmerged leaf positions of a blank node. -/
def unmergedLeaves : NodeState P → Option (List Nat)
  | populated _ => none
  | blank leaves => some leaves

/-- Adds an unmerged leaf position to a blank node, once. -/
def addUnmergedLeaf (leafPosition : Nat) : NodeState P → NodeState P
  | populated data => populated data
  | blank leaves => blank (if leafPosition ∈ leaves then leaves else leaves ++ [leafPosition])

/-- Removes an unmerged leaf position from a blank node. -/
def removeUnmergedLeaf (leafPosition : Nat) : NodeState P → NodeState P
  | populated data => populated data
  | blank leaves => blank (leaves.filter (· ≠ leafPosition))

@[simp] theorem isBlank_eq_not (st : NodeState P) : st.isBlank = !st.isPopulated := by
  cases st <;> rfl

@[simp] theorem publicKey_addUnmergedLeaf (l : Nat) (st : NodeState P) :
    (st.addUnmergedLeaf l).publicKey = st.publicKey := by
  cases st <;> rfl

@[simp] theorem publicKey_removeUnmergedLeaf (l : Nat) (st : NodeState P) :
    (st.removeUnmergedLeaf l).publicKey = st.publicKey := by
  cases st <;> rfl

@[simp] theorem parentHash_addUnmergedLeaf (l : Nat) (st : NodeState P) :
    (st.addUnmergedLeaf l).parentHash = st.parentHash := by
  cases st <;> rfl

@[simp] theorem parentHash_removeUnmergedLeaf (l : Nat) (st : NodeState P) :
    (st.removeUnmergedLeaf l).parentHash = st.parentHash := by
  cases st <;> rfl

@[simp] theorem isPopulated_addUnmergedLeaf (l : Nat) (st : NodeState P) :
    (st.addUnmergedLeaf l).isPopulated = st.isPopulated := by
  cases st <;> rfl

@[simp] theorem isPopulated_removeUnmergedLeaf (l : Nat) (st : NodeState P) :
    (st.removeUnmergedLeaf l).isPopulated = st.isPopulated := by
  cases st <;> rfl

/-- The populated nodes are the nodes with a key. -/
theorem isPopulated_iff_publicKey (st : NodeState P) :
    st.isPopulated ↔ ∃ pk, st.publicKey = some pk := by
  cases st <;> simp [isPopulated, publicKey]

end NodeState

/-- A node of the tree, with its index. -/
structure TreeNode (P : Primitives) where
  index : NodeIndex
  state : NodeState P

namespace TreeNode

variable {P : Primitives}

/-- A node with key material. -/
def newPopulated (index : NodeIndex) (publicKey : P.PublicKey)
    (predecessorKey : Option P.PublicKey) (parentHash : Bytes32 × Bytes32)
    (lastUpdaterId : UserId) (updateSignature : P.Signature)
    (transcriptHash confirmationTag : Bytes32) (origin : UpdateOrigin) : TreeNode P where
  index := index
  state := .populated
    { publicKey, predecessorKey, parentHash, lastUpdaterId, updateSignature,
      transcriptHash, confirmationTag, origin }

/-- A blank node. -/
def newBlank (index : NodeIndex) : TreeNode P := ⟨index, .newBlank⟩

end TreeNode

end Trelis.Cocoa
