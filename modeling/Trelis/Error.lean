import Mathlib.Tactic.Common

/-!
# Errors

The error enumeration that every fallible function of the workspace returns.
-/

namespace Trelis

/-- `CryptoError`, with the fields of the variants that carry some. -/
inductive CryptoError where
  | invalidKeyLength (expected actual : Nat)
  | keyGenerationFailed
  | keyDerivationFailed
  | signatureVerificationFailed
  | invalidSignature
  | invalidContextLength (actual max : Nat)
  | decryptionFailed
  | aeadAuthenticationFailed
  | invalidNonceLength (expected actual : Nat)
  | encapsulationFailed
  | decapsulationFailed
  | invalidCiphertext
  | invalidCiphertextLength (expected actual : Nat)
  | unknownSenderKey
  | messageCounterTooOld
  | messageCounterTooFarAhead (maxSkip gap : Nat)
  | tooManySkippedKeys (limit : Nat)
  | skippedKeyExpired
  | duplicateMessage
  | epochTooOld (minimum received : Nat)
  | unknownRecipientKeyId
  | sessionExhausted (current threshold : Nat)
  | unsupportedProtocolVersion (received supported : Nat)
  | unsupportedCipherSuite (received supported : Nat)
  | malformedMessage
  | invalidHeader
  | unexpectedEndOfInput (expected available : Nat)
  | invalidBundleSignature
  | bundleExpired
  | bundleTimestampInFuture
  | wrongRecipient
  | contextMismatch
  | rngFailure
  | invalidNodeIndex
  | memberNotFound
  | groupFull
  | invalidTreeState
  | invalidGroupSize
  | groupIdMismatch
  | selfRemovalForbidden
  | invalidLeafPosition
  | duplicateMember
  | parentHashMismatch
  | roundHashMismatch
  | identityKeyMismatch
  | removedFromGroup
  | epochMismatch (expected received : Nat)
  | messageTooLarge
  | proofTooDeep
  | treeDepthExceeded
  | rateLimitExceeded
  | noActiveSession
  | sessionCompromised
  | noRecipientKey
  | messageOrderViolation (expected received : Nat)
  | invalidMagic
  | unsupportedStateVersion
  | nonceExpired
  | nonceReplayed
  | nonceMismatch
deriving DecidableEq, Repr

/-- The `Result` type of the workspace. -/
abbrev Result (α : Type) := Except CryptoError α

end Trelis
