import Mathlib.Algebra.Group.Nat.Defs

/-!
# Parameter sets of ML-DSA

The three parameter sets of `mldsa_core/mod.rs`, with the constants that
`mldsa_core/param.rs` derives from them.
-/

namespace Trelis.MlDsa

/-- `Q`, the modulus `2 ^ 23 - 2 ^ 13 + 1`. -/
@[irreducible] def q : Nat := 8380417

theorem q_eq : q = 8380417 := by
  unfold q
  rfl

theorem q_pos : 0 < q := by
  rw [q_eq]
  decide

/-- `SpecD`. -/
def specD : Nat := 13

/-- `MlDsa44`, `MlDsa65` and `MlDsa87`. -/
inductive ParameterSet
  | mlDsa44
  | mlDsa65
  | mlDsa87
deriving DecidableEq, Repr

namespace ParameterSet

/-- `K`, the number of rows of the matrix. -/
def k : ParameterSet → Nat
  | mlDsa44 => 4
  | mlDsa65 => 6
  | mlDsa87 => 8

/-- `L`, the number of its columns. -/
def l : ParameterSet → Nat
  | mlDsa44 => 4
  | mlDsa65 => 5
  | mlDsa87 => 7

/-- `Eta`, the bound of the secret coefficients. -/
def eta : ParameterSet → Nat
  | mlDsa44 => 2
  | mlDsa65 => 4
  | mlDsa87 => 2

/-- `Gamma1`, the bound of the mask, as a power of two. -/
def gamma1Bits : ParameterSet → Nat
  | mlDsa44 => 17
  | mlDsa65 => 19
  | mlDsa87 => 19

/-- `Gamma1`. -/
def gamma1 (p : ParameterSet) : Nat := 2 ^ p.gamma1Bits

/-- `Gamma2`, the low-order rounding range. -/
def gamma2 : ParameterSet → Nat
  | mlDsa44 => (q - 1) / 88
  | mlDsa65 => (q - 1) / 32
  | mlDsa87 => (q - 1) / 32

/-- `TwoGamma2`. -/
def twoGamma2 (p : ParameterSet) : Nat := 2 * p.gamma2

/-- `W1Bits`. -/
def w1Bits : ParameterSet → Nat
  | mlDsa44 => 6
  | mlDsa65 => 4
  | mlDsa87 => 4

/-- `Lambda`, the length of `c_tilde` in bytes. -/
def lambda : ParameterSet → Nat
  | mlDsa44 => 32
  | mlDsa65 => 48
  | mlDsa87 => 64

/-- `Omega`, the largest number of hints. -/
def omega : ParameterSet → Nat
  | mlDsa44 => 80
  | mlDsa65 => 55
  | mlDsa87 => 75

/-- `TAU`, the number of nonzero coefficients of a challenge. -/
def tau : ParameterSet → Nat
  | mlDsa44 => 39
  | mlDsa65 => 49
  | mlDsa87 => 60

/-- `BETA`. -/
def beta (p : ParameterSet) : Nat := p.tau * p.eta

/-- `GAMMA1_MINUS_BETA`. -/
def gamma1MinusBeta (p : ParameterSet) : Nat := p.gamma1 - p.beta

/-- `GAMMA2_MINUS_BETA`. -/
def gamma2MinusBeta (p : ParameterSet) : Nat := p.gamma2 - p.beta

/-- The bits of a coefficient of `z`: `Length<Sum<Diff<Gamma1, U1>, Gamma1>>`. -/
def zBits (p : ParameterSet) : Nat := p.gamma1Bits + 1

/-- `ZSize`. -/
def zSize (p : ParameterSet) : Nat := 32 * p.zBits * p.l

/-- `HintSize`. -/
def hintSize (p : ParameterSet) : Nat := p.omega + p.k

/-- `SignatureSize`. -/
def signatureSize (p : ParameterSet) : Nat := p.lambda + p.zSize + p.hintSize

end ParameterSet

example : (ParameterSet.mlDsa44.signatureSize, ParameterSet.mlDsa65.signatureSize,
    ParameterSet.mlDsa87.signatureSize) = (2420, 3309, 4627) := by decide

end Trelis.MlDsa
