import Mathlib.Algebra.GroupWithZero.Nat
import Trelis.Lib.Bytes

/-!
# Codes by paired radix conversion

A list of numbers is encoded in stages.  A stage combines neighbours `r0` and
`r1` to `r0 + r1 * m`, writes the low bytes of that, and carries the rest to the
next stage, where the carries are the numbers to encode.  A number left over
goes on unchanged.  Decoding reads the bytes from the last one on, and undoes
the stages in the opposite order.

Whether such a code is a code depends on its moduli and on how many bytes each
pair writes.  `stagesFit` decides it from the bounds of the numbers, and
`decodeStages_encodeStages` is the round trip.

A byte string that is no encoding decodes as well: what comes out is within
`decodedBounds` (`decodeStages_lt`), which depend on the stages only.
-/

namespace Trelis

/-- How a pair is combined: the bytes that it writes, and the bound that a
decoder applies to the second number. -/
structure RadixPair where
  width : Nat
  clamp : Nat

/-- A stage. -/
structure RadixStage where
  modulus : Nat
  pairs : List RadixPair

/-! ## Encoding -/

/-- The bytes of a stage and the numbers of the next one.  A carry is kept in 16
bits. -/
def encodePairs (m : Nat) : List RadixPair → List Nat → Bytes × List Nat
  | pr :: prs, r0 :: r1 :: vals =>
    let r2 := r0 + r1 * m
    let rest := encodePairs m prs vals
    (leBytes pr.width r2 ++ rest.1, r2 / 256 ^ pr.width % 65536 :: rest.2)
  | _, vals => ([], vals)

/-- All stages, and the last number in two bytes. -/
def encodeStages : List RadixStage → List Nat → Bytes
  | [], vals => leBytes 2 (vals.headD 0)
  | st :: stages, vals =>
    let out := encodePairs st.modulus st.pairs vals
    out.1 ++ encodeStages stages out.2

/-! ## Decoding -/

/-- `w` bytes from the top of the stack, below `r`. -/
def readBack : Nat → Nat → Bytes → Nat × Bytes
  | 0, r, s => (r, s)
  | w + 1, r, b :: s => readBack w (r * 256 + b.toNat) s
  | _ + 1, r, [] => (r, [])

/-- The numbers of a stage from those of the next one.  The last pair comes
first. -/
def decodePairs (divmod : Nat → Nat → Nat × Nat) (m : Nat) :
    List RadixPair → List Nat → Bytes → List Nat × Bytes
  | pr :: prs, c :: cs, s =>
    let rest := decodePairs divmod m prs cs s
    let read := readBack pr.width c rest.2
    let parts := divmod read.1 m
    (parts.2 :: parts.1 % pr.clamp :: rest.1, read.2)
  | _, cs, s => (cs, s)

/-- All stages, from the last one. -/
def decodeStages (divmod : Nat → Nat → Nat × Nat) (clamp : Nat) :
    List RadixStage → Bytes → List Nat × Bytes
  | [], s =>
    let read := readBack 2 0 s
    ([read.1 % clamp], read.2)
  | st :: stages, s =>
    let rest := decodeStages divmod clamp stages s
    decodePairs divmod st.modulus st.pairs rest.1 rest.2

/-! ## Bounds -/

/-- The bounds of the carries, from the bounds of the numbers, if every pair can
be told apart again. -/
def boundPairs (m : Nat) : List RadixPair → List Nat → Option (List Nat)
  | pr :: prs, b0 :: b1 :: bounds =>
    let b := (b0 - 1 + (b1 - 1) * m) / 256 ^ pr.width + 1
    if b0 ≤ m ∧ b1 ≤ pr.clamp ∧ b0 + b1 * m ≤ 2 ^ 32 ∧ b ≤ 65536 then
      (boundPairs m prs bounds).map (b :: ·)
    else none
  | [], bounds => some bounds
  | _ :: _, _ => none

/-- The stages fit numbers with the given bounds. -/
def stagesFit (clamp : Nat) : List RadixStage → List Nat → Bool
  | [], [b] => b ≤ clamp ∧ b ≤ 65536
  | [], _ => false
  | st :: stages, bounds =>
    if st.modulus ≤ 1 ∨ 16384 ≤ st.modulus then false
    else
      ((boundPairs st.modulus st.pairs bounds).map (stagesFit clamp stages)).getD false

/-! ## The round trip -/

/-- One byte more is read last. -/
theorem readBack_succ (w r : Nat) (s : Bytes) :
    readBack (w + 1) r s = readBack 1 (readBack w r s).1 (readBack w r s).2 := by
  induction w generalizing r s with
  | zero => rfl
  | succ w ih =>
    cases s with
    | nil => rfl
    | cons b s =>
      rw [readBack, ih]
      rfl

/-- Reading a word back onto its carry. -/
theorem readBack_leBytes (w r : Nat) (s : Bytes) :
    readBack w (r / 256 ^ w) ((leBytes w r).reverse ++ s) = (r, s) := by
  induction w generalizing r s with
  | zero => simp [readBack, leBytes]
  | succ w ih =>
    have hdiv : r / 256 ^ (w + 1) = r / 256 / 256 ^ w := by
      rw [Nat.div_div_eq_div_mul, Nat.pow_succ']
    rw [leBytes, List.reverse_cons, List.append_assoc, hdiv, readBack_succ, ih,
      List.singleton_append, readBack, readBack, UInt8.toNat_ofNat']
    congr 1
    omega

variable {divmod : Nat → Nat → Nat × Nat} {m : Nat} {prs : List RadixPair}
variable {vals bounds next : List Nat}

/-- What a bound on the pair says of its carry. -/
theorem carry_lt {r0 r1 b0 b1 : Nat} (h0 : r0 < b0) (h1 : r1 < b1) (w : Nat) :
    (r0 + r1 * m) / 256 ^ w < (b0 - 1 + (b1 - 1) * m) / 256 ^ w + 1 := by
  apply Nat.lt_succ_of_le
  apply Nat.div_le_div_right
  exact Nat.add_le_add (by omega) (Nat.mul_le_mul_right m (by omega))

/-- A pair, combined, is split again. -/
theorem divmod_pair (hdivmod : ∀ x, x < 2 ^ 32 → divmod x m = (x / m, x % m)) {r0 r1 b0 b1 : Nat}
    (h0 : r0 < b0) (h1 : r1 < b1) (hb0 : b0 ≤ m) (hsmall : b0 + b1 * m ≤ 2 ^ 32) :
    divmod (r0 + r1 * m) m = (r1, r0) := by
  have hr0 : r0 < m := Nat.lt_of_lt_of_le h0 hb0
  have hmul : r1 * m ≤ b1 * m := Nat.mul_le_mul_right m (Nat.le_of_lt h1)
  rw [hdivmod _ (by omega), Nat.add_mul_div_right _ _ (by omega), Nat.div_eq_of_lt hr0,
    Nat.add_mul_mod_self_right, Nat.mod_eq_of_lt hr0, Nat.zero_add]

/-- What a pair of bounds that passes gives. -/
theorem boundPairs_cons {pr : RadixPair} {b0 b1 : Nat}
    (h : boundPairs m (pr :: prs) (b0 :: b1 :: bounds) = some next) :
    b0 ≤ m ∧ b1 ≤ pr.clamp ∧ b0 + b1 * m ≤ 2 ^ 32 ∧
      (b0 - 1 + (b1 - 1) * m) / 256 ^ pr.width + 1 ≤ 65536 ∧
      ∃ rest, boundPairs m prs bounds = some rest ∧
        next = ((b0 - 1 + (b1 - 1) * m) / 256 ^ pr.width + 1) :: rest := by
  rw [boundPairs] at h
  split at h
  · next hfit =>
    obtain ⟨rest, hrest, rfl⟩ := Option.map_eq_some_iff.mp h
    exact ⟨hfit.1, hfit.2.1, hfit.2.2.1, hfit.2.2.2, rest, hrest, rfl⟩
  · simp at h

/-- The carries of numbers within their bounds are within theirs. -/
theorem encodePairs_lt (hvals : List.Forall₂ (· < ·) vals bounds)
    (h : boundPairs m prs bounds = some next) :
    List.Forall₂ (· < ·) (encodePairs m prs vals).2 next := by
  induction prs generalizing vals bounds next with
  | nil =>
    have hnext : some bounds = some next := by
      rw [← h]
      cases bounds with
      | nil => rfl
      | cons => rfl
    cases hnext
    exact hvals
  | cons pr prs ih =>
    cases hvals with
    | nil => simp [boundPairs] at h
    | cons h0 hvals =>
      cases hvals with
      | nil => simp [boundPairs] at h
      | cons h1 hvals =>
        obtain ⟨_, _, _, hcarry, rest, hrest, rfl⟩ := boundPairs_cons h
        have hlt := carry_lt (m := m) h0 h1 pr.width
        rw [encodePairs]
        exact .cons (by rwa [Nat.mod_eq_of_lt (by omega)]) (ih hvals hrest)

/-- The round trip of a stage. -/
theorem decodePairs_encodePairs (hdivmod : ∀ x, x < 2 ^ 32 → divmod x m = (x / m, x % m))
    (hvals : List.Forall₂ (· < ·) vals bounds) (h : boundPairs m prs bounds = some next)
    (s : Bytes) :
    decodePairs divmod m prs (encodePairs m prs vals).2
      ((encodePairs m prs vals).1.reverse ++ s) = (vals, s) := by
  induction prs generalizing vals bounds next s with
  | nil => rfl
  | cons pr prs ih =>
    cases hvals with
    | nil => simp [boundPairs] at h
    | cons h0 hvals =>
      cases hvals with
      | nil => simp [boundPairs] at h
      | cons h1 hvals =>
        obtain ⟨hb0, hb1, hsmall, hcarry, rest, hrest, rfl⟩ := boundPairs_cons h
        have hlt := carry_lt (m := m) h0 h1 pr.width
        have hpair := divmod_pair hdivmod h0 h1 hb0 hsmall
        rw [encodePairs, decodePairs]
        dsimp only
        rw [List.reverse_append, List.append_assoc, ih hvals hrest, Nat.mod_eq_of_lt (by omega),
          readBack_leBytes, hpair, Nat.mod_eq_of_lt (by omega)]

/-- The round trip of the code. -/
theorem decodeStages_encodeStages
    (hdivmod : ∀ x m, x < 2 ^ 32 → 1 < m → m < 16384 → divmod x m = (x / m, x % m))
    {clamp : Nat} {stages : List RadixStage} (hvals : List.Forall₂ (· < ·) vals bounds)
    (h : stagesFit clamp stages bounds = true) (s : Bytes) :
    decodeStages divmod clamp stages ((encodeStages stages vals).reverse ++ s) = (vals, s) := by
  induction stages generalizing vals bounds s with
  | nil =>
    cases hvals with
    | nil => simp [stagesFit] at h
    | @cons r b _ _ h0 hvals =>
      cases hvals with
      | nil =>
        have hfit : b ≤ clamp ∧ b ≤ 65536 := by simpa [stagesFit] using h
        have hzero : (0 : Nat) = r / 256 ^ 2 := (Nat.div_eq_of_lt (by omega)).symm
        rw [encodeStages, List.headD_cons, decodeStages, hzero, readBack_leBytes,
          Nat.mod_eq_of_lt (by omega)]
      | cons => simp [stagesFit] at h
  | cons st stages ih =>
    rw [stagesFit] at h
    split at h
    · simp at h
    · next hm =>
      cases hnext : boundPairs st.modulus st.pairs bounds with
      | none => simp [hnext] at h
      | some next =>
        rw [hnext, Option.map_some, Option.getD_some] at h
        have hdivmod_st : ∀ x, x < 2 ^ 32 →
            divmod x st.modulus = (x / st.modulus, x % st.modulus) :=
          fun x hx => hdivmod x _ hx (by omega) (by omega)
        rw [encodeStages, decodeStages, List.reverse_append, List.append_assoc,
          ih (encodePairs_lt hvals hnext) h]
        exact decodePairs_encodePairs hdivmod_st hvals hnext s

/-! ## Length -/

/-- The bytes that the stages write. -/
def encodedLength (stages : List RadixStage) : Nat :=
  (stages.map fun st => (st.pairs.map (·.width)).sum).sum + 2

theorem length_encodePairs (hvals : List.Forall₂ (· < ·) vals bounds)
    (h : boundPairs m prs bounds = some next) :
    (encodePairs m prs vals).1.length = (prs.map (·.width)).sum := by
  induction prs generalizing vals bounds next with
  | nil => rfl
  | cons pr prs ih =>
    cases hvals with
    | nil => simp [boundPairs] at h
    | cons h0 hvals =>
      cases hvals with
      | nil => simp [boundPairs] at h
      | cons h1 hvals =>
        obtain ⟨_, _, _, _, rest, hrest, rfl⟩ := boundPairs_cons h
        rw [encodePairs, List.length_append, leBytes_length, ih hvals hrest, List.map_cons,
          List.sum_cons]

/-- All encodings have one length. -/
theorem length_encodeStages {clamp : Nat} {stages : List RadixStage}
    (hvals : List.Forall₂ (· < ·) vals bounds) (h : stagesFit clamp stages bounds = true) :
    (encodeStages stages vals).length = encodedLength stages := by
  induction stages generalizing vals bounds with
  | nil => exact leBytes_length 2 _
  | cons st stages ih =>
    rw [stagesFit] at h
    split at h
    · simp at h
    · cases hnext : boundPairs st.modulus st.pairs bounds with
      | none => simp [hnext] at h
      | some next =>
        rw [hnext, Option.map_some, Option.getD_some] at h
        rw [encodeStages, List.length_append, length_encodePairs hvals hnext,
          ih (encodePairs_lt hvals hnext) h, encodedLength, encodedLength, List.map_cons,
          List.sum_cons, Nat.add_assoc]

/-! ## Decoding any string -/

/-- The bounds that the decoder imposes on the numbers of a stage. -/
def decodedPairBounds (m : Nat) : List RadixPair → List Nat → List Nat
  | pr :: prs, _ :: bounds => m :: pr.clamp :: decodedPairBounds m prs bounds
  | _, bounds => bounds

/-- The bounds that the decoder imposes on the numbers. -/
def decodedBounds (clamp : Nat) : List RadixStage → List Nat
  | [] => [clamp]
  | st :: stages => decodedPairBounds st.modulus st.pairs (decodedBounds clamp stages)

/-- A pair reads at most two bytes below a number of 16 bits. -/
def RadixPair.Reads (pr : RadixPair) : Prop := pr.width ≤ 2 ∧ 0 < pr.clamp ∧ pr.clamp ≤ 65536

/-- The divisions of a stage are exact. -/
def RadixStage.Reads (st : RadixStage) : Prop :=
  1 < st.modulus ∧ st.modulus < 16384 ∧ ∀ pr ∈ st.pairs, pr.Reads

instance (pr : RadixPair) : Decidable pr.Reads := inferInstanceAs (Decidable (_ ∧ _))

instance (st : RadixStage) : Decidable st.Reads := inferInstanceAs (Decidable (_ ∧ _))

/-- Numbers below bounds that are at most `k` are below `k`. -/
theorem lt_of_forall₂_lt {k : Nat} (hvals : List.Forall₂ (· < ·) vals bounds)
    (hbounds : ∀ b ∈ bounds, b ≤ k) : ∀ v ∈ vals, v < k := by
  induction hvals with
  | nil => simp
  | cons h0 _ ih =>
    obtain ⟨hb, hbounds⟩ := List.forall_mem_cons.mp hbounds
    exact List.forall_mem_cons.mpr ⟨Nat.lt_of_lt_of_le h0 hb, ih hbounds⟩

theorem readBack_lt (w r : Nat) (s : Bytes) : (readBack w r s).1 < (r + 1) * 256 ^ w := by
  induction w generalizing r s with
  | zero => simp [readBack]
  | succ w ih =>
    cases s with
    | nil =>
      show r < _
      have hpos : 0 < 256 ^ (w + 1) := Nat.pow_pos (by decide)
      calc r < r + 1 := Nat.lt_succ_self r
        _ ≤ (r + 1) * 256 ^ (w + 1) := Nat.le_mul_of_pos_right _ hpos
    | cons b s =>
      have hb := b.toNat_lt
      calc (readBack w (r * 256 + b.toNat) s).1
        _ < (r * 256 + b.toNat + 1) * 256 ^ w := ih _ _
        _ ≤ (r + 1) * 256 * 256 ^ w := Nat.mul_le_mul_right _ (by omega)
        _ = (r + 1) * 256 ^ (w + 1) := by rw [Nat.pow_succ', Nat.mul_assoc]

/-- What is read for a pair is a word of 32 bits. -/
theorem readBack_lt_word {pr : RadixPair} (hpr : pr.Reads) {r : Nat} (hr : r < 65536) (s : Bytes) :
    (readBack pr.width r s).1 < 2 ^ 32 := by
  calc (readBack pr.width r s).1
    _ < (r + 1) * 256 ^ pr.width := readBack_lt _ _ _
    _ ≤ 65536 * 256 ^ pr.width := Nat.mul_le_mul_right _ hr
    _ ≤ 65536 * 256 ^ 2 := Nat.mul_le_mul_left _ (Nat.pow_le_pow_right (by decide) hpr.1)

/-- The numbers of a stage, from those of the next one. -/
theorem decodePairs_lt (hdivmod : ∀ x, x < 2 ^ 32 → divmod x m = (x / m, x % m)) (hm : 0 < m)
    (hprs : ∀ pr ∈ prs, pr.Reads) (hbounds : ∀ b ∈ bounds, b ≤ 65536)
    (hvals : List.Forall₂ (· < ·) vals bounds) (s : Bytes) :
    List.Forall₂ (· < ·) (decodePairs divmod m prs vals s).1 (decodedPairBounds m prs bounds) := by
  induction prs generalizing vals bounds s with
  | nil => exact hvals
  | cons pr prs ih =>
    cases hvals with
    | nil => exact .nil
    | cons h0 hvals =>
      obtain ⟨hpr, hprs⟩ := List.forall_mem_cons.mp hprs
      obtain ⟨hb, hbounds⟩ := List.forall_mem_cons.mp hbounds
      have hrest := ih hprs hbounds hvals s
      rw [decodePairs, decodedPairBounds]
      dsimp only
      rw [hdivmod _ (readBack_lt_word hpr (by omega) _)]
      exact .cons (Nat.mod_lt _ hm) (.cons (Nat.mod_lt _ hpr.2.1) hrest)

theorem decodedPairBounds_le (hm : m ≤ 65536) (hprs : ∀ pr ∈ prs, pr.Reads)
    (hbounds : ∀ b ∈ bounds, b ≤ 65536) : ∀ b ∈ decodedPairBounds m prs bounds, b ≤ 65536 := by
  induction prs generalizing bounds with
  | nil => exact hbounds
  | cons pr prs ih =>
    cases bounds with
    | nil => exact hbounds
    | cons b0 bounds =>
      obtain ⟨hpr, hprs⟩ := List.forall_mem_cons.mp hprs
      rw [decodedPairBounds]
      exact List.forall_mem_cons.mpr ⟨hm, List.forall_mem_cons.mpr
        ⟨hpr.2.2, ih hprs (List.forall_mem_cons.mp hbounds).2⟩⟩

theorem decodedBounds_le {clamp : Nat} (hclamp : clamp ≤ 65536) {stages : List RadixStage}
    (hstages : ∀ st ∈ stages, st.Reads) : ∀ b ∈ decodedBounds clamp stages, b ≤ 65536 := by
  induction stages with
  | nil =>
    intro b hb
    rw [decodedBounds, List.mem_singleton] at hb
    omega
  | cons st stages ih =>
    obtain ⟨hst, hstages⟩ := List.forall_mem_cons.mp hstages
    exact decodedPairBounds_le (by have := hst.2.1; omega) hst.2.2 (ih hstages)

/-- Any string decodes to numbers within the bounds. -/
theorem decodeStages_lt
    (hdivmod : ∀ x m, x < 2 ^ 32 → 1 < m → m < 16384 → divmod x m = (x / m, x % m))
    {clamp : Nat} (hpos : 0 < clamp) (hclamp : clamp ≤ 65536) {stages : List RadixStage}
    (hstages : ∀ st ∈ stages, st.Reads) (s : Bytes) :
    List.Forall₂ (· < ·) (decodeStages divmod clamp stages s).1 (decodedBounds clamp stages) := by
  induction stages with
  | nil => exact .cons (Nat.mod_lt _ hpos) .nil
  | cons st stages ih =>
    obtain ⟨hst, hstages⟩ := List.forall_mem_cons.mp hstages
    have hm := hst.1
    exact decodePairs_lt (fun x hx => hdivmod x _ hx hst.1 hst.2.1) (by omega) hst.2.2
      (decodedBounds_le hclamp hstages) (ih hstages) _

end Trelis
