import Mathlib.Tactic.NormNum.Prime
import Trelis.Hybrid.Sample
import Trelis.X3dh.Binding

/-!
# Primitives that satisfy the laws

`samplePrimitives` puts a signature scheme, a hash and a KEM with no security
around a given curve.

There are two curves.  `additiveCurve` is the integers modulo a small prime, in
which every law of X448 can be proved.  `rfc7748Curve` is X448 itself, for runs
on real points.
-/

namespace Trelis.X3dh

open Hybrid

/-! ## The integers modulo a prime -/

def additiveOrder : Nat := 65537

theorem additiveOrder_prime : additiveOrder.Prime := by
  show Nat.Prime 65537
  norm_num

theorem additiveOrder_pos : 0 < additiveOrder := additiveOrder_prime.pos

/-- The encoding of a residue. -/
def encodeResidue (n : Nat) : FixedBytes 56 := ⟨leBytes 56 (n % additiveOrder), leBytes_length _ _⟩

theorem encodeResidue_eq_iff {m n : Nat} :
    encodeResidue m = encodeResidue n ↔ m ≡ n [MOD additiveOrder] := by
  have hlt : ∀ k, k % additiveOrder < 256 ^ 56 := fun k =>
    (Nat.mod_lt k additiveOrder_pos).trans (by decide)
  constructor
  · intro h
    exact leBytes_inj (hlt m) (hlt n) (congrArg Subtype.val h)
  · intro h
    exact Subtype.ext (congrArg (leBytes 56) h)

theorem leValue_encodeResidue (n : Nat) :
    leValue (encodeResidue n).val = n % additiveOrder :=
  leValue_leBytes ((Nat.mod_lt n additiveOrder_pos).trans (by decide))

theorem encodeResidue_zero : encodeResidue 0 = FixedBytes.zero 56 := by decide

/-- Points are the integers modulo a prime. -/
def additiveCurve : MontgomeryCurve where
  generator := encodeResidue 1
  scalarMul k u := encodeResidue (leValue k.val * leValue u.val)
  isLowOrder u := leValue u.val % additiveOrder = 0

theorem additiveCurve_rfc7748 : additiveCurve.Rfc7748 where
  comm a b := by
    show encodeResidue (_ * leValue (encodeResidue _).val) =
      encodeResidue (_ * leValue (encodeResidue _).val)
    rw [leValue_encodeResidue, leValue_encodeResidue, encodeResidue_eq_iff]
    have hswap : leValue a.bytes.val * (leValue b.bytes.val * leValue additiveCurve.generator.val) =
        leValue b.bytes.val * (leValue a.bytes.val * leValue additiveCurve.generator.val) := by
      rw [Nat.mul_left_comm]
    exact ((Nat.mod_modEq _ _).mul_left _).trans
      (hswap ▸ ((Nat.mod_modEq _ _).symm.mul_left _))
  lowOrder a u hlow := by
    have hu : leValue u.val ≡ 0 [MOD additiveOrder] := of_decide_eq_true hlow
    rw [← encodeResidue_zero]
    exact encodeResidue_eq_iff.mpr (hu.mul_left _)
  indistinct {a u u'} h hne b := by
    have hmod := encodeResidue_eq_iff.mp h
    have hcoprime : Nat.gcd additiveOrder (leValue a.bytes.val) = 1 := by
      refine (additiveOrder_prime.coprime_iff_not_dvd).mpr fun hdvd => hne ?_
      rw [← encodeResidue_zero]
      exact encodeResidue_eq_iff.mpr
        ((Nat.modEq_zero_iff_dvd).mpr (hdvd.mul_right _))
    exact encodeResidue_eq_iff.mpr ((hmod.cancel_left_of_coprime hcoprime).mul_left _)

/-! ## X448 -/

/-- X448, with the points of low order by their canonical encodings. -/
def rfc7748Curve : MontgomeryCurve where
  generator := Rfc7748.encodeUCoordinate 5
  scalarMul := Rfc7748.x448
  isLowOrder u := u = Rfc7748.encodeUCoordinate 0 ∨ u = Rfc7748.encodeUCoordinate 1 ∨
    u = Rfc7748.encodeUCoordinate (Rfc7748.p - 1)

/-! ## The KEM and the hash -/

/-- A ciphertext is the `r_hash` in front of the public key that it is for. -/
def sampleCiphertext (pk : FixedBytes 1158) (rHash : Bytes32) : FixedBytes 1039 :=
  ⟨rHash.val ++ pk.val.take 1007, by simp⟩

/-- The `r_hash` in front of a ciphertext. -/
def frontHash (ct : FixedBytes 1039) : Bytes32 := ⟨ct.val.take 32, by simp⟩

/-- The decryption by the owner of a public key. -/
def sampleDecrypt (pk : FixedBytes 1158) (ct : FixedBytes 1039) : UInt8 × Bytes32 :=
  if ct = sampleCiphertext pk (frontHash ct) then (1, frontHash ct) else (0, zero32)

theorem frontHash_sampleCiphertext (pk : FixedBytes 1158) (rHash : Bytes32) :
    frontHash (sampleCiphertext pk rHash) = rHash :=
  Subtype.ext (List.take_left' rHash.property)

theorem sampleDecrypt_sampleCiphertext (pk : FixedBytes 1158) (rHash : Bytes32) :
    sampleDecrypt pk (sampleCiphertext pk rHash) = (1, rHash) := by
  rw [sampleDecrypt, frontHash_sampleCiphertext, if_pos rfl]

/-- A KEM whose keys are their own public keys. -/
def sampleKem : KemScheme where
  SecretKey := FixedBytes 1158
  Coins := Bytes32
  generate seed := .ok ⟨seed.val ++ List.replicate 1126 0, by
    rw [List.length_append, seed.property, List.length_replicate]⟩
  publicKey := id
  encrypt pk rHash := .ok (rHash, sampleCiphertext pk rHash)
  decrypt := sampleDecrypt
  sha512 b := ⟨leBytes 64 (leValue b), leBytes_length _ _⟩

theorem sampleKem_correct : sampleKem.Correct where
  decrypt_encrypt _ hencrypt := by
    obtain ⟨rfl, rfl⟩ := Prod.mk.inj (Except.ok.inj hencrypt)
    exact sampleDecrypt_sampleCiphertext _ _

/-- The last 32 bytes of a string. -/
def sampleHash (b : Bytes) : Bytes32 := ⟨(List.replicate 32 0 ++ b).drop b.length, by
  rw [List.length_drop, List.length_append, List.length_replicate]
  omega⟩

/-- The primitives of concrete runs. -/
def samplePrimitives (C : MontgomeryCurve) : HandshakePrimitives :=
  { sampleScheme with
    hash := sampleHash
    x448 := C
    sntrup := sampleKem }

theorem samplePrimitives_keys (C : MontgomeryCurve) :
    Function.Injective (samplePrimitives C).verifyingKeyToBytes := Function.injective_id

end Trelis.X3dh
