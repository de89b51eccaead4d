import Trelis.Lib.Bytes

/-!
# The function X448

X448 of RFC 7748, as the Montgomery ladder over the field of `2^448 - 2^224 - 1`
elements.  A u-coordinate is read modulo the field prime, so that a byte string
which is not reduced stands for the same point as its reduction.

`x448_congr` is that fact.  Nothing here is about any particular protocol.
-/

namespace Trelis.Rfc7748

/-- The field prime. -/
def p : Nat := 2 ^ 448 - 2 ^ 224 - 1

/-! ## The field -/

def add (a b : Nat) : Nat := (a + b) % p
def sub (a b : Nat) : Nat := (a + (p - b)) % p
def mul (a b : Nat) : Nat := (a * b) % p

/-- The power of `base` by the lowest `bits` bits of `e`, behind an
accumulator. -/
def powAux (base e : Nat) : Nat → Nat → Nat
  | 0, acc => acc
  | bits + 1, acc =>
    let acc := mul acc acc
    powAux base e bits (if e.testBit bits then mul acc base else acc)

/-- The inverse by Fermat, which is 0 at 0. -/
def inv (a : Nat) : Nat := powAux a (p - 2) 448 1

/-! ## The ladder -/

/-- The two points of the ladder, in projective coordinates. -/
structure Ladder where
  x2 : Nat
  z2 : Nat
  x3 : Nat
  z3 : Nat

/-- `cswap`. -/
def Ladder.cswap (swap : Bool) (s : Ladder) : Ladder :=
  if swap then ⟨s.x3, s.z3, s.x2, s.z2⟩ else s

/-- One doubling and one addition; `x1` is the coordinate of the base point. -/
def Ladder.step (x1 : Nat) (s : Ladder) : Ladder :=
  let a := add s.x2 s.z2
  let aa := mul a a
  let b := sub s.x2 s.z2
  let bb := mul b b
  let e := sub aa bb
  let c := add s.x3 s.z3
  let d := sub s.x3 s.z3
  let da := mul d a
  let cb := mul c b
  let sum := add da cb
  let diff := sub da cb
  { x3 := mul sum sum
    z3 := mul x1 (mul diff diff)
    x2 := mul aa bb
    z2 := mul e (add aa (mul 39081 e)) }

/-- The steps for the lowest `bits` bits of the scalar, highest first. -/
def Ladder.run (x1 k : Nat) : Nat → Ladder → Ladder
  | 0, s => s
  | bits + 1, s =>
    let swap := k.testBit bits
    Ladder.run x1 k bits (((s.cswap swap).step x1).cswap swap)

/-! ## The function -/

/-- The clamping of a scalar: the cofactor divides it, and its top bit is set. -/
def clamp (k : FixedBytes 56) : FixedBytes 56 :=
  ⟨(k.val.modify 0 (· &&& 0xFC)).modify 55 (· ||| 0x80), by simp⟩

/-- `decodeUCoordinate`, which accepts a value that is not reduced. -/
def decodeUCoordinate (u : FixedBytes 56) : Nat := leValue u.val % p

/-- `encodeUCoordinate`. -/
def encodeUCoordinate (u : Nat) : FixedBytes 56 := ⟨leBytes 56 u, leBytes_length _ _⟩

/-- `X448`. -/
def x448 (k u : FixedBytes 56) : FixedBytes 56 :=
  let x1 := decodeUCoordinate u
  let s := Ladder.run x1 (leValue (clamp k).val) 448 ⟨1, 0, x1, 1⟩
  encodeUCoordinate (mul s.x2 (inv s.z2))

/-- `X448` cannot tell two byte strings of one u-coordinate apart. -/
theorem x448_congr {u u' : FixedBytes 56} (h : decodeUCoordinate u = decodeUCoordinate u')
    (k : FixedBytes 56) : x448 k u = x448 k u' := by
  rw [x448, x448, h]

end Trelis.Rfc7748
