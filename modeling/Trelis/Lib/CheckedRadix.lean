import Trelis.Lib.Panic
import Trelis.Lib.RadixCode

/-!
# Radix codes in machine words

The coder of `RadixCode` as a program runs it: sums and products of 32 bits that
are checked for overflow, a position in the input that must not pass its start,
and arrays that must not end early.

`decodeStagesChecked_eq` says that none of this happens to a decoder whose string
is long enough, whatever its bytes are, and `encodeStagesChecked_eq` that it does
not happen to an encoder whose numbers fit.
-/

namespace Trelis

/-! ## Decoding -/

/-- `w` bytes from the top of the stack, below `r`.  The shift of a word drops the
bits that leave it. -/
def readBackChecked : Nat → Nat → Bytes → Option (Nat × Bytes)
  | 0, r, s => some (r, s)
  | w + 1, r, b :: s => readBackChecked w (r * 256 % 2 ^ 32 + b.toNat) s
  | _ + 1, _, [] => none

/-- The numbers of a stage. -/
def decodePairsChecked (divmod : Nat → Nat → Option (Nat × Nat)) (m : Nat) :
    List RadixPair → List Nat → Bytes → Option (List Nat × Bytes)
  | [], cs, s => some (cs, s)
  | pr :: prs, c :: cs, s => do
    let rest ← decodePairsChecked divmod m prs cs s
    let read ← readBackChecked pr.width c rest.2
    let parts ← divmod read.1 m
    pure (parts.2 :: parts.1 % pr.clamp :: rest.1, read.2)
  | _ :: _, [], _ => none

/-- All stages, from the last one. -/
def decodeStagesChecked (divmod : Nat → Nat → Option (Nat × Nat)) (clamp : Nat) :
    List RadixStage → Bytes → Option (List Nat × Bytes)
  | [], s => do
    let read ← readBackChecked 2 0 s
    pure ([read.1 % clamp], read.2)
  | st :: stages, s => do
    let rest ← decodeStagesChecked divmod clamp stages s
    decodePairsChecked divmod st.modulus st.pairs rest.1 rest.2

/-- Every stage finds a number for each of its pairs. -/
def stagesSupplied (clamp : Nat) : List RadixStage → Bool
  | [] => true
  | st :: stages =>
    st.pairs.length ≤ (decodedBounds clamp stages).length && stagesSupplied clamp stages

/-- The bytes that a stage reads. -/
def pairsWidth (prs : List RadixPair) : Nat := (prs.map (·.width)).sum

theorem readBackChecked_eq {w r : Nat} {s : Bytes} (hr : (r + 1) * 256 ^ w ≤ 2 ^ 32)
    (hs : w ≤ s.length) : readBackChecked w r s = some (readBack w r s) := by
  induction w generalizing r s with
  | zero => rfl
  | succ w ih =>
    cases s with
    | nil => simp at hs
    | cons b s =>
      have hb := b.toNat_lt
      rw [List.length_cons] at hs
      rw [Nat.pow_succ', ← Nat.mul_assoc] at hr
      have hpow : 1 ≤ 256 ^ w := Nat.pow_pos (by decide)
      have hword : (r + 1) * 256 * 1 ≤ (r + 1) * 256 * 256 ^ w := Nat.mul_le_mul_left _ hpow
      have hnext : (r * 256 + b.toNat + 1) * 256 ^ w ≤ (r + 1) * 256 * 256 ^ w :=
        Nat.mul_le_mul_right _ (by omega)
      rw [readBackChecked, readBack, Nat.mod_eq_of_lt (by omega)]
      exact ih (by omega) (by omega)

theorem readBack_snd (w r : Nat) (s : Bytes) : (readBack w r s).2 = s.drop w := by
  induction w generalizing r s with
  | zero => rfl
  | succ w ih =>
    cases s with
    | nil => rfl
    | cons b s => exact ih _ s

/-- What a pair reads fits a word. -/
theorem RadixPair.Reads.word_le {pr : RadixPair} (hpr : pr.Reads) {c : Nat} (hc : c < 65536) :
    (c + 1) * 256 ^ pr.width ≤ 2 ^ 32 :=
  calc (c + 1) * 256 ^ pr.width ≤ 65536 * 256 ^ pr.width := Nat.mul_le_mul_right _ hc
    _ ≤ 65536 * 256 ^ 2 := Nat.mul_le_mul_left _ (Nat.pow_le_pow_right (by decide) hpr.1)

section

variable {divmod : Nat → Nat → Nat × Nat} {divmodChecked : Nat → Nat → Option (Nat × Nat)} {m : Nat}

theorem decodePairs_snd (divmod : Nat → Nat → Nat × Nat) (m : Nat) {prs : List RadixPair}
    {vals : List Nat} (h : prs.length ≤ vals.length) (s : Bytes) :
    (decodePairs divmod m prs vals s).2 = s.drop (pairsWidth prs) := by
  induction prs generalizing vals with
  | nil => rfl
  | cons pr prs ih =>
    cases vals with
    | nil => simp at h
    | cons c cs =>
      rw [List.length_cons, List.length_cons] at h
      rw [decodePairs]
      dsimp only
      rw [readBack_snd, ih (by omega), List.drop_drop, pairsWidth, pairsWidth, List.map_cons,
        List.sum_cons, Nat.add_comm]

theorem decodePairsChecked_eq
    (hdivmod : ∀ x, x < 2 ^ 32 → divmodChecked x m = some (divmod x m)) {prs : List RadixPair}
    (hprs : ∀ pr ∈ prs, pr.Reads) {vals : List Nat} (hvals : ∀ v ∈ vals, v < 65536)
    (hsupplied : prs.length ≤ vals.length) {s : Bytes} (hs : pairsWidth prs ≤ s.length) :
    decodePairsChecked divmodChecked m prs vals s = some (decodePairs divmod m prs vals s) := by
  induction prs generalizing vals with
  | nil => cases vals <;> rfl
  | cons pr prs ih =>
    cases vals with
    | nil => simp at hsupplied
    | cons c cs =>
      rw [pairsWidth, List.map_cons, List.sum_cons, ← pairsWidth] at hs
      rw [List.length_cons, List.length_cons] at hsupplied
      obtain ⟨hpr, hprs⟩ := List.forall_mem_cons.mp hprs
      obtain ⟨hc, hcs⟩ := List.forall_mem_cons.mp hvals
      have hrest := decodePairs_snd divmod m (show prs.length ≤ cs.length by omega) s
      have hread : readBackChecked pr.width c (decodePairs divmod m prs cs s).2 =
          some (readBack pr.width c (decodePairs divmod m prs cs s).2) :=
        readBackChecked_eq (hpr.word_le hc) (by rw [hrest, List.length_drop]; omega)
      rw [decodePairsChecked, decodePairs, ih hprs hcs (by omega) (by omega)]
      simp only [bind, Option.bind_some, hread, hdivmod _ (readBack_lt_word hpr hc _), pure]

/-- The bytes that the stages read, without the last two. -/
def stagesWidth (stages : List RadixStage) : Nat := (stages.map fun st => pairsWidth st.pairs).sum

/-- A decoder of a string that is long enough does not panic. -/
theorem decodeStagesChecked_eq
    (hdivmod : ∀ x m, x < 2 ^ 32 → 1 < m → m < 16384 → divmod x m = (x / m, x % m))
    (hchecked : ∀ x m, x < 2 ^ 32 → 1 < m → m < 16384 → divmodChecked x m = some (divmod x m))
    {clamp : Nat} (hpos : 0 < clamp) (hclamp : clamp ≤ 65536) {stages : List RadixStage}
    (hstages : ∀ st ∈ stages, st.Reads) (hsupplied : stagesSupplied clamp stages = true)
    {s : Bytes} (hs : stagesWidth stages + 2 ≤ s.length) :
    decodeStagesChecked divmodChecked clamp stages s = some (decodeStages divmod clamp stages s) ∧
      (decodeStages divmod clamp stages s).2 = s.drop (stagesWidth stages + 2) := by
  induction stages with
  | nil =>
    rw [decodeStagesChecked, readBackChecked_eq (by decide) (by omega)]
    exact ⟨rfl, readBack_snd 2 0 s⟩
  | cons st stages ih =>
    rw [stagesSupplied, Bool.and_eq_true, decide_eq_true_eq] at hsupplied
    rw [stagesWidth, List.map_cons, List.sum_cons, ← stagesWidth] at hs ⊢
    obtain ⟨hst, hrest⟩ := List.forall_mem_cons.mp hstages
    obtain ⟨hchecked_rest, hdrop⟩ := ih hrest hsupplied.2 (by omega)
    have hlt := decodeStages_lt hdivmod hpos hclamp hrest s
    have hvals := lt_of_forall₂_lt hlt (decodedBounds_le hclamp hrest)
    have hcount : st.pairs.length ≤ (decodeStages divmod clamp stages s).1.length :=
      Nat.le_trans hsupplied.1 (Nat.le_of_eq hlt.length_eq.symm)
    rw [decodeStagesChecked, decodeStages, hchecked_rest]
    constructor
    · refine decodePairsChecked_eq (fun x hx => hchecked x _ hx hst.1 hst.2.1) hst.2.2 hvals
        hcount ?_
      rw [hdrop, List.length_drop]
      omega
    · rw [decodePairs_snd divmod _ hcount, hdrop, List.drop_drop]
      congr 1
      omega

end

/-! ## Encoding -/

/-- The bytes of a stage and the numbers of the next one. -/
def encodePairsChecked (m : Nat) : List RadixPair → List Nat → Option (Bytes × List Nat)
  | [], vals => some ([], vals)
  | pr :: prs, r0 :: r1 :: vals => do
    let high ← mulWord 32 r1 m
    let r2 ← addWord 32 r0 high
    let rest ← encodePairsChecked m prs vals
    pure (leBytes pr.width r2 ++ rest.1, r2 / 256 ^ pr.width % 65536 :: rest.2)
  | _ :: _, _ => none

/-- All stages, and the last number in two bytes. -/
def encodeStagesChecked : List RadixStage → List Nat → Option Bytes
  | [], r :: _ => some (leBytes 2 r)
  | [], [] => none
  | st :: stages, vals => do
    let out ← encodePairsChecked st.modulus st.pairs vals
    let rest ← encodeStagesChecked stages out.2
    pure (out.1 ++ rest)

theorem encodePairsChecked_eq {m : Nat} {prs : List RadixPair} {vals bounds next : List Nat}
    (hvals : List.Forall₂ (· < ·) vals bounds) (h : boundPairs m prs bounds = some next) :
    encodePairsChecked m prs vals = some (encodePairs m prs vals) := by
  induction prs generalizing vals bounds next with
  | nil => rfl
  | cons pr prs ih =>
    cases hvals with
    | nil => simp [boundPairs] at h
    | @cons r0 b0 _ _ h0 hvals =>
      cases hvals with
      | nil => simp [boundPairs] at h
      | @cons r1 b1 _ _ h1 hvals =>
        obtain ⟨_, _, hsmall, _, rest, hrest, rfl⟩ := boundPairs_cons h
        have hmul : r1 * m ≤ b1 * m := Nat.mul_le_mul_right m (Nat.le_of_lt h1)
        rw [encodePairsChecked, encodePairs, mulWord, if_pos (by omega)]
        simp only [bind, Option.bind_some, addWord_of_lt (show r0 + r1 * m < 2 ^ 32 by omega),
          ih hvals hrest, pure]

/-- An encoder of numbers that fit does not panic. -/
theorem encodeStagesChecked_eq {clamp : Nat} {stages : List RadixStage} {vals bounds : List Nat}
    (hvals : List.Forall₂ (· < ·) vals bounds) (h : stagesFit clamp stages bounds = true) :
    encodeStagesChecked stages vals = some (encodeStages stages vals) := by
  induction stages generalizing vals bounds with
  | nil =>
    cases hvals with
    | nil => simp [stagesFit] at h
    | cons => rfl
  | cons st stages ih =>
    rw [stagesFit] at h
    split at h
    · simp at h
    · cases hnext : boundPairs st.modulus st.pairs bounds with
      | none => simp [hnext] at h
      | some next =>
        rw [hnext, Option.map_some, Option.getD_some] at h
        rw [encodeStagesChecked, encodeStages, encodePairsChecked_eq hvals hnext]
        simp only [bind, Option.bind_some, ih (encodePairs_lt hvals hnext) h, pure]

end Trelis
