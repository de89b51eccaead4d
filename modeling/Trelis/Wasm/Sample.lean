import Trelis.Symbolic
import Trelis.Wasm.Primitives

/-!
# Primitives with wire forms

`wireSample` is the symbolic instance with signatures and key pairs of the
sizes that the wire has.  A signature is the signer beside a digest of the
context and the message, and a key pair is padded with zeros.
-/

namespace Trelis.Wasm

open Symbolic

/-- An array filled up with zeros. -/
def padded {m : Nat} (n : Nat) (a : FixedBytes m) : FixedBytes (m + n) :=
  ⟨a.val ++ List.replicate n 0, by rw [List.length_append, a.property, List.length_replicate]⟩

/-- The array in front of the zeros. -/
def unpad (m n : Nat) (bytes : Bytes) : Result (FixedBytes m) :=
  match FixedBytes.ofBytes? m (bytes.take m) with
  | some a => if bytes = (padded n a).val then .ok a else .error .malformedMessage
  | none => .error .malformedMessage

theorem unpad_padded {m : Nat} (n : Nat) (a : FixedBytes m) :
    unpad m n (padded n a).val = .ok a := by
  have htake : (padded n a).val.take m = a.val := by
    rw [padded, List.take_left' a.property]
  rw [unpad, htake, FixedBytes.ofBytes?_coe]
  simp

theorem padded_unpad {m n : Nat} {bytes : Bytes} {a : FixedBytes m}
    (h : unpad m n bytes = .ok a) : (padded n a).val = bytes := by
  unfold unpad at h
  split at h
  · split at h
    · next heq =>
      rw [← Except.ok.inj h]
      exact heq.symm
    · cases h
  · cases h

/-- The signature of a message in a context. -/
def wireSign (signer : Bytes32) (message context : Bytes) : FixedBytes 3366 :=
  padded 3302 ⟨signer.val ++ (Symbolic.deriveKey "signature" (context ++ message)).val, by simp⟩

/-- The signature that is a byte string. -/
def readSignature (bytes : Bytes) : Result (FixedBytes 3366) :=
  match FixedBytes.ofBytes? 3366 bytes with
  | some sig => .ok sig
  | none => .error .invalidSignature

theorem readSignature_eq_ok {bytes : Bytes} {sig : FixedBytes 3366} :
    readSignature bytes = .ok sig ↔ bytes = sig.val := by
  rw [readSignature, ← FixedBytes.ofBytes?_eq_some]
  cases FixedBytes.ofBytes? 3366 bytes <;> simp

/-- A key pair behind a clamped secret of zeros. -/
def wireKeyPair (kp : Bytes32) : FixedBytes 1819 :=
  padded 1731 ⟨List.replicate 55 0 ++ 0x80 :: kp.val, by simp⟩

/-- The key pair that is a byte string, once this is clamped. -/
def readKeyPair (bytes : Bytes) : Result Bytes32 :=
  match FixedBytes.ofBytes? 32 (((clamp bytes).drop 56).take 32) with
  | some kp => if clamp bytes = (wireKeyPair kp).val then .ok kp else .error .malformedMessage
  | none => .error .malformedMessage

theorem readKeyPair_eq_ok {bytes : Bytes} {kp : Bytes32} (h : readKeyPair bytes = .ok kp) :
    (wireKeyPair kp).val = clamp bytes := by
  unfold readKeyPair at h
  split at h
  · split at h
    · next heq =>
      rw [← Except.ok.inj h]
      exact heq.symm
    · cases h
  · cases h

/-- A key pair that is written is clamped already. -/
theorem clamp_wireKeyPair (kp : Bytes32) : clamp (wireKeyPair kp).val = (wireKeyPair kp).val := rfl

theorem readKeyPair_wireKeyPair (kp : Bytes32) : readKeyPair (wireKeyPair kp).val = .ok kp := by
  have htake : ((wireKeyPair kp).val.drop 56).take 32 = kp.val :=
    List.take_left' kp.property
  rw [readKeyPair, clamp_wireKeyPair, htake, FixedBytes.ofBytes?_coe]
  simp

/-- The symbolic primitives with wire forms. -/
def wireSample : WirePrimitives :=
  { symbolic with
    Signature := FixedBytes 3366
    signWithContext := fun id message context _ => .ok (wireSign id message context)
    verifyWithContext := fun signer message context sig =>
      if sig = wireSign signer message context then .ok () else .error .signatureVerificationFailed
    signatureToBytes := fun sig => sig
    signatureFromBytes := readSignature
    keyPairToBytes := wireKeyPair
    keyPairFromBytes := readKeyPair }

theorem wireSample_signatureCodec : wireSample.SignatureCodec where
  fromBytes_toBytes _ := readSignature_eq_ok.mpr rfl
  toBytes_fromBytes h := (readSignature_eq_ok.mp h).symm

theorem wireSample_keyPairCodec : wireSample.KeyPairCodec where
  fromBytes_toBytes := readKeyPair_wireKeyPair
  toBytes_fromBytes h := readKeyPair_eq_ok h

/-! ## Sessions -/

open Cocoa

/-- A leaf with the key number `n`, below a root without a node. -/
def wireLeaf (position n : Nat) : TreeNode wireSample.toPrimitives :=
  .newPopulated ⟨1, position⟩ (word n) none (zero32, zero32) zero32 (FixedBytes.zero 3366) zero32
    zero32 ⟨0, 0, 0⟩

/-- A tree of two leaves with the key numbers 10 and 11. -/
def wireTree : PartialTreeView wireSample.toPrimitives :=
  (((PartialTreeView.new wireSample.toPrimitives 0 1).setMemberCount 2).insert
    (wireLeaf 0 10)).insert (wireLeaf 1 11)

/-- The member at a leaf, with the key pair number `n`. -/
def wireMember (leaf n : Nat) (tree : PartialTreeView wireSample.toPrimitives) :
    CocoaSession wireSample.toPrimitives where
  groupId := word 1
  ourUserId := word leaf
  ourLeafPosition := leaf
  ourKeypair := word n
  tree := tree
  epoch := .initial (word 2) zero32
  transcriptHash := zero32
  members := {word leaf}

/-- Draws that are all different. -/
def wireDraws (n : Nat) : Draws wireSample.toPrimitives where
  leafSeed := .ok (word n)
  seedCoins level i := (n + 16 * level + i + 1 : Nat)
  keypairCoins := (n + 1000 : Nat)
  signCoins := (n + 1001 : Nat)
  welcomeCoins := (n + 1002 : Nat)
  welcomeNonce := .ok (.zero 24)
  welcomeSignCoins := (n + 1003 : Nat)

end Trelis.Wasm
