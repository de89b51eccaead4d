import Trelis.MlDsa.Encode
import Trelis.MlDsa.Hint

/-!
# Encoded signatures

`Signature` of `mldsa_core/mod.rs`, with `encode` and `decode`.

What `encode` writes, `decode` reads back (`decode_encode`).  The other direction
fails: `decode` accepts the position of a hint twice, and `encode` writes it once.
`signature_encoding_exact_iff` says that nothing else can happen.
-/

namespace Trelis.MlDsa

/-- `encode_z`. -/
def encodeZ (p : ParameterSet) (z : Vector p.l) : Option Bytes :=
  packVector (p.gamma1 - 1) p.gamma1 p.zBits z

/-- `decode_z`. -/
def decodeZ (p : ParameterSet) (bytes : Bytes) : Vector p.l := unpackVector p.gamma1 p.zBits bytes

theorem fullRange_z (p : ParameterSet) : FullRange (p.gamma1 - 1) p.gamma1 p.zBits := by
  cases p <;> exact ⟨by decide, by decide, by decide +kernel⟩

/-- `Signature`. -/
structure Signature (p : ParameterSet) where
  cTilde : FixedBytes p.lambda
  z : Vector p.l
  h : Hint p.k

namespace Signature

variable {p : ParameterSet}

/-- `encode`. -/
def encode (s : Signature p) : Option Bytes := do
  let z ← encodeZ p s.z
  let h ← s.h.bitPack p.omega
  pure (s.cTilde.val ++ z ++ h)

theorem lambda_le (enc : FixedBytes p.signatureSize) : 0 + p.lambda ≤ enc.val.length := by
  rw [FixedBytes.length_coe, ParameterSet.signatureSize]
  omega

/-- The bytes of `c_tilde` of `split_sig`. -/
def splitCTilde (enc : FixedBytes p.signatureSize) : FixedBytes p.lambda :=
  arrayAt p.lambda enc.val 0 (lambda_le enc)

/-- The bytes of `z`. -/
def splitZ (enc : FixedBytes p.signatureSize) : Bytes := sliceAt enc.val p.lambda p.zSize

/-- The bytes of the hint. -/
def splitHint (enc : FixedBytes p.signatureSize) : Bytes := enc.val.drop (p.lambda + p.zSize)

/-- `decode`. -/
def decode (p : ParameterSet) (enc : FixedBytes p.signatureSize) : Option (Signature p) := do
  let z := decodeZ p (splitZ enc)
  let h ← Hint.bitUnpack p.omega p.k (splitHint enc)
  if p.gamma1MinusBeta ≤ Vector.infinityNorm z then none
  else some ⟨splitCTilde enc, z, h⟩

section

variable {s : Signature p} {enc : FixedBytes p.signatureSize}

theorem length_splitZ (enc : FixedBytes p.signatureSize) : (splitZ enc).length = p.zSize := by
  apply length_sliceAt
  rw [FixedBytes.length_coe, ParameterSet.signatureSize]
  omega

theorem length_splitHint (enc : FixedBytes p.signatureSize) :
    (splitHint enc).length = p.omega + p.k := by
  rw [splitHint, List.length_drop, FixedBytes.length_coe, ParameterSet.signatureSize,
    ParameterSet.hintSize]
  omega

/-- A byte string is made of its three parts. -/
theorem split_append (enc : FixedBytes p.signatureSize) :
    (splitCTilde enc).val ++ splitZ enc ++ splitHint enc = enc.val := by
  rw [List.append_assoc, splitZ, splitHint, sliceAt_append_drop enc.val rfl, splitCTilde]
  exact (sliceAt_append_drop enc.val (Nat.zero_add p.lambda)).trans (List.drop_zero)

theorem split_of_append (enc : FixedBytes p.signatureSize) {c : FixedBytes p.lambda}
    {z h : Bytes} (hz : z.length = p.zSize) (henc : enc.val = c.val ++ z ++ h) :
    splitCTilde enc = c ∧ splitZ enc = z ∧ splitHint enc = h := by
  have hc := FixedBytes.length_coe c
  have hlen : (splitCTilde enc).val.length = c.val.length := by rw [FixedBytes.length_coe, hc]
  have heq := (split_append enc).trans henc
  have hparts := List.append_inj heq (by
    rw [List.length_append, List.length_append, hlen, length_splitZ, hz])
  have hfront := List.append_inj hparts.1 hlen
  exact ⟨Subtype.ext hfront.1, hfront.2, hparts.2⟩

/-- What `decode` reads. -/
theorem decode_eq_some :
    decode p enc = some s ↔
      s.cTilde = splitCTilde enc ∧ s.z = decodeZ p (splitZ enc) ∧
        Hint.bitUnpack p.omega p.k (splitHint enc) = some s.h ∧
        Vector.infinityNorm s.z < p.gamma1MinusBeta := by
  simp only [decode, bind, Option.bind_eq_some_iff]
  constructor
  · intro h
    rcases h with ⟨h, hhint, heq⟩
    split at heq
    · cases heq
    · rename_i hnorm
      rw [← Option.some.inj heq]
      exact ⟨rfl, rfl, hhint, Nat.not_le.mp hnorm⟩
  · intro h
    rcases h with ⟨hc, hz, hhint, hnorm⟩
    refine ⟨s.h, hhint, ?_⟩
    rw [← hz, ← hc, if_neg (Nat.not_le.mpr hnorm)]

theorem omega_lt (p : ParameterSet) : p.omega < 256 := by
  cases p <;> decide

/-- Every byte string is packed again as it was. -/
theorem encodeZ_decodeZ (enc : FixedBytes p.signatureSize) :
    encodeZ p (decodeZ p (splitZ enc)) = some (splitZ enc) :=
  packVector_unpackVector (fullRange_z p) (length_splitZ enc)

/-- A vector of small norm is packed. -/
theorem encodeZ_of_norm {z : Vector p.l} (hz : Vector.infinityNorm z < p.gamma1MinusBeta) :
    ∃ bytes, encodeZ p z = some bytes ∧ bytes.length = p.zSize ∧ decodeZ p bytes = z := by
  have hpos : 0 < p.gamma1MinusBeta := Nat.zero_lt_of_lt hz
  have hle : p.gamma1MinusBeta ≤ p.gamma1 := Nat.sub_le _ _
  have hfull := fullRange_z p
  have hrange : ∀ r, InRange (p.gamma1 - 1) p.gamma1 (z r) := by
    intro r
    apply inRange_of_norm_le hfull.fitsWidth (Nat.sub_le _ _)
    intro i
    have hlt := (Vector.infinityNorm_lt_iff hpos).mp hz r i
    omega
  have hpack : encodeZ p z = some ((List.finRange p.l).flatMap fun r =>
      byteEncode p.zBits fun i => Elem.new p.gamma1 - z r i) :=
    packVector_eq_some.mpr ⟨_, fun r => if_pos (hrange r), rfl⟩
  exact ⟨_, hpack, length_packVector hfull.fitsWidth.width_pos hpack,
    unpackVector_packVector hfull.fitsWidth hpack⟩

/-- A signature whose parts are within their bounds is encoded, and what is encoded is
decoded. -/
theorem decode_encode (hz : Vector.infinityNorm s.z < p.gamma1MinusBeta)
    (hh : s.h.hammingWeight ≤ p.omega) :
    ∃ enc : FixedBytes p.signatureSize, encode s = some enc.val ∧ decode p enc = some s := by
  obtain ⟨z, hpack, hzlen, hunpack⟩ := encodeZ_of_norm hz
  obtain ⟨y, hwrite, hylen, hread⟩ := Hint.bitUnpack_bitPack (omega_lt p) hh
  have hlen : (s.cTilde.val ++ z ++ y).length = p.signatureSize := by
    rw [List.length_append, List.length_append, FixedBytes.length_coe, hzlen, hylen]
    rfl
  have hsplit := split_of_append ⟨_, hlen⟩ hzlen rfl
  refine ⟨⟨_, hlen⟩, ?_, decode_eq_some.mpr ⟨hsplit.1.symm, ?_, ?_, hz⟩⟩
  · simp only [encode, hpack, hwrite, bind, Option.bind_some]
    rfl
  · rw [hsplit.2.1, hunpack]
  · rw [hsplit.2.2, hread]

/-- A signature that was decoded is encoded, as a byte string that is decoded to it. -/
theorem decode_encode_of_decode (hdec : decode p enc = some s) :
    ∃ enc' : FixedBytes p.signatureSize, encode s = some enc'.val ∧ decode p enc' = some s := by
  obtain ⟨_, _, hhint, hz⟩ := decode_eq_some.mp hdec
  exact decode_encode hz (Hint.hammingWeight_le_of_bitUnpack (length_splitHint enc) hhint)

/-- The positions of the hints of each polynomial strictly increase. -/
def StrictHints (enc : FixedBytes p.signatureSize) : Prop :=
  ∀ run ∈ Hint.runs p.omega (splitHint enc), run.Pairwise (· < ·)

/-- What is decoded is encoded as the same bytes exactly when no position is repeated. -/
theorem encode_decode_iff (hdec : decode p enc = some s) :
    encode s = some enc.val ↔ StrictHints enc := by
  obtain ⟨hc, hz, hhint, _⟩ := decode_eq_some.mp hdec
  rw [StrictHints, ← Hint.bitPack_bitUnpack_iff (omega_lt p) (length_splitHint enc) hhint]
  have hpack : encodeZ p s.z = some (splitZ enc) := hz ▸ encodeZ_decodeZ enc
  have hencode : encode s =
      (s.h.bitPack p.omega).map fun y => (splitCTilde enc).val ++ splitZ enc ++ y := by
    simp only [encode, hpack, hc, bind, Option.bind_some]
    cases s.h.bitPack p.omega <;> rfl
  have hwhole := split_append enc
  rw [hencode, Option.map_eq_some_iff]
  constructor
  · intro h
    rcases h with ⟨y, hy, heq⟩
    rw [← hwhole] at heq
    rw [hy, List.append_cancel_left heq]
  · intro h
    exact ⟨_, h, hwhole⟩

end

/-- For every byte string that is decoded: encoding returns its bytes exactly when the
positions of the hints of each polynomial strictly increase.  At most one such byte
string is decoded to a signature, and it is another one than any that has a position
twice. -/
theorem signature_encoding_exact_iff {s : Signature p} {enc : FixedBytes p.signatureSize}
    (hdec : decode p enc = some s) :
    (encode s = some enc.val ↔ StrictHints enc) ∧
      (StrictHints enc → ∀ enc', decode p enc' = some s → StrictHints enc' → enc' = enc) ∧
      (¬ StrictHints enc → ∃ enc', enc' ≠ enc ∧ decode p enc' = some s) := by
  refine ⟨encode_decode_iff hdec, ?_, ?_⟩
  · intro hstrict enc' hdec' hstrict'
    have hencode := (encode_decode_iff hdec).mpr hstrict
    have hencode' := (encode_decode_iff hdec').mpr hstrict'
    rw [hencode] at hencode'
    exact Subtype.ext (Option.some.inj hencode').symm
  · intro hrepeat
    obtain ⟨enc', hencode, hdec'⟩ := decode_encode_of_decode hdec
    refine ⟨enc', ?_, hdec'⟩
    rintro rfl
    exact hrepeat ((encode_decode_iff hdec).mp hencode)

/-- The byte string of a vector of zeros: each coefficient is `Gamma1`, in 20 bits. -/
def zeroZ : Bytes :=
  (List.range 5).flatMap fun _ => (List.range 128).flatMap fun _ => [0, 0, 8, 0, 128]

/-- The hint of the first polynomial has the position 5 twice. -/
def repeatedPosition : FixedBytes ParameterSet.mlDsa65.signatureSize :=
  ⟨List.replicate 48 0 ++ zeroZ ++ ([5, 5] ++ List.replicate 53 0 ++ List.replicate 6 2), by
    decide +kernel⟩

/-- A polynomial of zeros is unpacked from groups that hold `Gamma1` twice. -/
theorem unpack_zeros :
    unpack (2 ^ 19) 20 ((List.range 128).flatMap fun _ => [0, 0, 8, 0, 128]) = 0 := by
  funext i
  have hgroup : sliceAt ((List.range 128).flatMap fun _ => [0, 0, 8, 0, 128]) (5 * (i.val / 2)) 5 =
      [0, 0, 8, 0, 128] := by
    exact sliceAt_flatMap_range (fun c _ => rfl) (by omega)
  have hbit : i.val % 2 = 0 ∨ i.val % 2 = 1 := by omega
  have hword : unpackWord 20 (leValue [0, 0, 8, 0, 128]) (i.val % 2) = 2 ^ 19 := by
    rcases hbit with h | h <;> rw [h] <;> decide +kernel
  show Elem.new (2 ^ 19) - Elem.new (unpackWord 20 (leValue (sliceAt
    ((List.range 128).flatMap fun _ => [0, 0, 8, 0, 128]) (5 * (i.val / 2)) 5)) (i.val % 2)) = 0
  rw [hgroup, hword, sub_self]

theorem decodeZ_zeroZ : decodeZ .mlDsa65 zeroZ = fun _ _ => 0 := by
  funext r
  have hrow : sliceAt zeroZ (640 * r.val) 640 =
      (List.range 128).flatMap fun _ => [0, 0, 8, 0, 128] :=
    sliceAt_flatMap_range (fun c _ => length_flatMap_range fun c _ => rfl) r.isLt
  show unpack (2 ^ 19) 20 (sliceAt zeroZ (640 * r.val) 640) = 0
  rw [hrow, unpack_zeros]

theorem split_repeatedPosition :
    splitZ repeatedPosition = zeroZ ∧
      splitHint repeatedPosition = [5, 5] ++ List.replicate 53 0 ++ List.replicate 6 2 := by
  have hlen : zeroZ.length = ParameterSet.mlDsa65.zSize := by decide +kernel
  have hzero : (List.replicate 48 0 : Bytes) = (FixedBytes.zero 48).val := rfl
  exact (split_of_append repeatedPosition hlen (congrArg (· ++ zeroZ ++ _) hzero)).2

theorem decode_repeatedPosition : ∃ s, decode .mlDsa65 repeatedPosition = some s := by
  have hread : (Hint.bitUnpack 55 6 (splitHint repeatedPosition)).isSome := by
    rw [split_repeatedPosition.2]
    decide +kernel
  have hnorm : (0 : Elem).infinityNorm < ParameterSet.mlDsa65.gamma1MinusBeta := by decide +kernel
  obtain ⟨h, hh⟩ := Option.isSome_iff_exists.mp hread
  refine ⟨⟨splitCTilde repeatedPosition, decodeZ .mlDsa65 (splitZ repeatedPosition), h⟩,
    decode_eq_some.mpr ⟨rfl, rfl, hh, ?_⟩⟩
  rw [split_repeatedPosition.1, decodeZ_zeroZ, Vector.infinityNorm_lt_iff (Nat.zero_lt_of_lt hnorm)]
  exact fun _ _ => hnorm

theorem not_strictHints_repeatedPosition : ¬ StrictHints repeatedPosition := by
  intro hstrict
  have hrun : [5, 5] ∈ Hint.runs 55 (splitHint repeatedPosition) := by
    rw [split_repeatedPosition.2]
    decide +kernel
  exact absurd (hstrict [5, 5] hrun) (by decide)

/-- Decoding accepts a position twice, and encoding writes it once: two byte strings are
decoded to one signature. -/
theorem signature_encoding_not_canonical :
    ∃ s, decode .mlDsa65 repeatedPosition = some s ∧
      encode s ≠ some repeatedPosition.val ∧
      ∃ enc', enc' ≠ repeatedPosition ∧ decode .mlDsa65 enc' = some s := by
  obtain ⟨s, hdec⟩ := decode_repeatedPosition
  have hne : encode s ≠ some repeatedPosition.val := by
    intro hencode
    exact not_strictHints_repeatedPosition ((encode_decode_iff hdec).mp hencode)
  obtain ⟨enc', hencode, hdec'⟩ := decode_encode_of_decode hdec
  refine ⟨s, hdec, hne, enc', ?_, hdec'⟩
  intro heq
  exact hne (heq ▸ hencode)

/-- The first and the third part, of bytes whose hint has a repeated position. -/
theorem signature_encoding_exact_repeatedPosition :
    ∃ s, decode .mlDsa65 repeatedPosition = some s ∧
      (encode s = some repeatedPosition.val ↔ StrictHints repeatedPosition) ∧
      ∃ enc', enc' ≠ repeatedPosition ∧ decode .mlDsa65 enc' = some s := by
  obtain ⟨s, hdec⟩ := decode_repeatedPosition
  have hexact := signature_encoding_exact_iff hdec
  exact ⟨s, hdec, hexact.1, hexact.2.2 not_strictHints_repeatedPosition⟩

end Signature

end Trelis.MlDsa
