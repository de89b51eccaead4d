import Trelis.Lib.FloatRounding
import Trelis.Lib.Slices
import Trelis.Primitives

/-!
# The boundary to JavaScript

What the codecs of the WASM crate use beside the protocol primitives: the wire
forms of signatures and key pairs, and the errors and numbers that JavaScript sees.
-/

namespace Trelis.Wasm

/-- A `JsValue` error: a text, or the debug form of an error. -/
inductive JsError where
  | text (message : String)
  | debug (error : CryptoError)
deriving DecidableEq

/-- `map_err(|e| JsValue::from_str(&format!("{:?}", e)))`. -/
def debugError {α : Type} (r : Result α) : Except JsError α :=
  r.mapError .debug

@[simp] theorem debugError_eq_ok {α : Type} {r : Result α} {a : α} :
    debugError r = .ok a ↔ r = .ok a := by
  cases r <;> simp [debugError, Except.mapError]

/-- How a call ends that does not return. -/
inductive CallFailure where
  | thrown (e : JsError)
  /-- A panic of the WASM code. -/
  | trap
deriving DecidableEq

/-- A `Result` in a call of JavaScript. -/
def orThrow {α : Type} (x : Result α) : Except CallFailure α :=
  x.mapError fun e => .thrown (.debug e)

@[simp] theorem orThrow_eq_ok {α : Type} {x : Result α} {a : α} :
    orThrow x = .ok a ↔ x = .ok a := by
  cases x <;> simp [orThrow, Except.mapError]

/-- A `JsValue` number that is whole: a double. -/
abbrev JsNumber := WholeFloat 53

theorem significant_double (n : Nat) : Significant 53 (roundSignificant 53 n) :=
  significant_roundSignificant (by decide) n

/-- `JsValue::from_f64(n as f64)`. -/
def asF64 (n : Nat) : JsNumber := ⟨roundSignificant 53 n, significant_double n⟩

/-- Up to `Number.MAX_SAFE_INTEGER`, and one further, a number is kept. -/
theorem asF64_value {n : Nat} (h : n ≤ 2 ^ 53) : (asF64 n).value = n :=
  roundSignificant_of_le (by decide) h

/-- No other number is nearer. -/
theorem asF64_nearest (n : Nat) (x : JsNumber) :
    Nat.dist (asF64 n).value n ≤ Nat.dist x.value n :=
  roundSignificant_nearest (by decide) x.significant n

/-- Of the numbers just beyond, the odd ones go to their even neighbours. -/
example : (asF64 (2 ^ 53 + 1)).value = 2 ^ 53 ∧ (asF64 (2 ^ 53 + 3)).value = 2 ^ 53 + 4 := by
  decide

/-- The primitives, with the wire forms of their values. -/
structure WirePrimitives extends Primitives where
  /-- `HybridSignature::to_bytes`. -/
  signatureToBytes : Signature → FixedBytes 3366
  /-- `HybridSignature::from_bytes`. -/
  signatureFromBytes : Bytes → Result Signature
  /-- `HybridKemKeypair::to_bytes`. -/
  keyPairToBytes : KeyPair → FixedBytes 1819
  /-- `HybridKemKeypair::from_bytes`. -/
  keyPairFromBytes : Bytes → Result KeyPair

/-- A signature has one encoding. -/
structure WirePrimitives.SignatureCodec (W : WirePrimitives) : Prop where
  fromBytes_toBytes : ∀ s, W.signatureFromBytes (W.signatureToBytes s).val = .ok s
  toBytes_fromBytes : ∀ {b s}, W.signatureFromBytes b = .ok s → (W.signatureToBytes s).val = b

/-- The clamping of an X448 secret, which is the front of a key pair. -/
def clamp (bytes : Bytes) : Bytes := (bytes.modify 0 (· &&& 0xFC)).modify 55 (· ||| 0x80)

/-- A key pair is read back from its encoding, and whatever is read has been
clamped. -/
structure WirePrimitives.KeyPairCodec (W : WirePrimitives) : Prop where
  fromBytes_toBytes : ∀ kp, W.keyPairFromBytes (W.keyPairToBytes kp).val = .ok kp
  toBytes_fromBytes : ∀ {b kp}, W.keyPairFromBytes b = .ok kp →
    (W.keyPairToBytes kp).val = clamp b

/-- A public key has one encoding. -/
structure WirePrimitives.PublicKeyWire (W : WirePrimitives) : Prop where
  length_toBytes : ∀ pk, (W.publicKeyToBytes pk).length = 1214
  fromBytes_toBytes : ∀ pk, W.publicKeyFromBytes (W.publicKeyToBytes pk) = .ok pk
  toBytes_fromBytes : ∀ {b pk}, W.publicKeyFromBytes b = .ok pk → W.publicKeyToBytes pk = b

end Trelis.Wasm
