import Mathlib.Data.Fin.Basic
import Mathlib.GroupTheory.OrderOfElement

/-!
# The Schnorr identity

Scalars modulo `n` acting on the multiples of a group element `B` with
`n • B = 0`.  The group is any commutative one, and nothing is assumed about
the order of its other elements.

`respond_extract` is the completeness of the identification scheme: the
commitment `r • B` comes back from the response `r + c * s` and the public key
`s • B`.  `extract_inj` is the unique response: to one challenge, under one public
key, two responses with one commitment are the same scalar, where `n` is the order
of `B` (`nsmul_val_inj`).
-/

namespace Trelis.Schnorr

variable {G : Type} [AddCommGroup G] {n : Nat} {B : G}

/-- A multiple of `B` depends on the scalar modulo `n` only. -/
theorem mod_nsmul (h : n • B = 0) (k : Nat) : (k % n) • B = k • B := by
  have hsplit : (n * (k / n) + k % n) • B = k • B := by rw [Nat.div_add_mod]
  rw [← hsplit, add_nsmul, Nat.mul_comm, mul_nsmul', h, nsmul_zero, zero_add]

theorem add_nsmul_val (h : n • B = 0) (a b : Fin n) :
    (a + b).val • B = a.val • B + b.val • B := by
  rw [Fin.val_add, mod_nsmul h, add_nsmul]

theorem mul_nsmul_val (h : n • B = 0) (a b : Fin n) :
    (a * b).val • B = a.val • (b.val • B) := by
  rw [Fin.val_mul, mod_nsmul h, mul_nsmul']

/-- The response to the challenge `c`, less the challenge times the public key,
is the commitment. -/
theorem respond_extract (h : n • B = 0) (r c s : Fin n) :
    (r + c * s).val • B - c.val • (s.val • B) = r.val • B := by
  rw [add_nsmul_val h, mul_nsmul_val h, add_sub_cancel_right]

/-- Scalars below the order of an element are told apart by their multiples of it. -/
theorem nsmul_val_inj (h : addOrderOf B = n) {a b : Fin n} (heq : a.val • B = b.val • B) :
    a = b := by
  have hinj := nsmul_injOn_Iio_addOrderOf (x := B)
  rw [h] at hinj
  exact Fin.ext (hinj a.isLt b.isLt heq)

/-- The extractor tells responses apart. -/
theorem extract_inj (h : addOrderOf B = n) {r r' : Fin n} {X : G}
    (heq : r.val • B - X = r'.val • B - X) : r = r' :=
  nsmul_val_inj h (sub_left_injective heq)

end Trelis.Schnorr
