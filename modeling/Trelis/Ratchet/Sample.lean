import Trelis.Ratchet.Message
import Trelis.Symbolic

/-!
# The symbolic ratchet

The symbolic primitives with the ratchet's own two, and a session between two
parties that were just set up.
-/

namespace Trelis.Ratchet

/-- The symbolic primitives of the ratchet. -/
def symbolicRatchet : RatchetPrimitives where
  toPrimitives := symbolic
  encrypt := Symbolic.encryptCommitting
  decrypt := Symbolic.decryptCommitting
  hash := Symbolic.deriveKey ""

theorem correctAead_symbolicRatchet : symbolicRatchet.CorrectAead where
  decrypt_match := Symbolic.idealAead.decrypt_match

/-- The initiator, with the key pair number 1, of a session with the owner of
the key pair number 2. -/
def sampleInitiator : KemRatchet symbolicRatchet :=
  { KemRatchet.initResponder (Symbolic.word 7) (Symbolic.word 1) (0 : Nat) with
    theirPublicKey := some (Symbolic.word 2)
    theirKeyId := some (deriveKeyId symbolicRatchet (Symbolic.word 2)) }

/-- The responder of the same session. -/
def sampleResponder : KemRatchet symbolicRatchet :=
  KemRatchet.initResponder (Symbolic.word 7) (Symbolic.word 2) (0 : Nat)

/-- The draws of a send that takes the key pair of a number. -/
def sampleDraws (n : Nat) : SendDraws symbolicRatchet where
  keypair := n
  encapsulation := n + 100
  nonce := .ok (FixedBytes.zero 16)

/-- The key pair of the responder. -/
def responderKeypair : symbolicRatchet.KeyPair := Symbolic.word 2

/-- The encapsulation of a send to the responder with the draws number 11. -/
def firstEncapsulation : symbolicRatchet.Encapsulation := (Symbolic.word 2, Symbolic.word 111)

instance : DecidableEq symbolicRatchet.KeyPair := inferInstanceAs (DecidableEq Bytes32)

instance : DecidableEq symbolicRatchet.Encapsulation :=
  inferInstanceAs (DecidableEq (Bytes32 × Bytes32))

end Trelis.Ratchet
