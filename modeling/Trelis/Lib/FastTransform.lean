import Mathlib.Algebra.BigOperators.Intervals
import Mathlib.Algebra.Polynomial.Eval.Degree
import Mathlib.Data.Nat.Factorization.Basic
import Trelis.Lib.Butterfly

/-!
# The iterative Cooley-Tukey transform

The discrete Fourier transform of `2^l` values by bit reversal and `l` layers of
butterflies, over a commutative ring with an element `ω` whose power `2^(l-1)` is
`-1`.

* `permute_eq` says what the in-place loop of swaps does, for any involution, and
  `bitReverse` is the one that is used.
* `layers_eq` is the invariant of the layers: each block holds the transform of the
  entries whose index ends in the bits of the block.
* `ditTransform_eq` is the transform, and `dft_dft` its inversion up to the factor
  `2^l`.  On the coefficients of a polynomial it is evaluation (`dft_coeff`).
-/

namespace Trelis.Butterfly

open Finset

/-! ## Bit reversal -/

/-- The lowest `l` bits of a number in the opposite order. -/
def bitReverse : Nat → Nat → Nat
  | 0, _ => 0
  | l + 1, x => x % 2 * 2 ^ l + bitReverse l (x / 2)

theorem bitReverse_succ (l x : Nat) :
    bitReverse (l + 1) x = x % 2 * 2 ^ l + bitReverse l (x / 2) := rfl

theorem bitReverse_lt (l x : Nat) : bitReverse l x < 2 ^ l := by
  induction l generalizing x with
  | zero => simp [bitReverse]
  | succ l ih =>
    have hbit : x % 2 * 2 ^ l ≤ 1 * 2 ^ l := Nat.mul_le_mul_right _ (by omega)
    have hrest := ih (x / 2)
    rw [bitReverse, pow_succ]
    omega

theorem bitReverse_two_mul (l x : Nat) : bitReverse (l + 1) (2 * x) = bitReverse l x := by
  rw [bitReverse, Nat.mul_mod_right, Nat.mul_div_cancel_left _ two_pos, zero_mul, zero_add]

theorem bitReverse_two_mul_add_one (l x : Nat) :
    bitReverse (l + 1) (2 * x + 1) = 2 ^ l + bitReverse l x := by
  rw [bitReverse, show (2 * x + 1) % 2 = 1 by omega, show (2 * x + 1) / 2 = x by omega, one_mul]

/-- The highest bit becomes the lowest one. -/
theorem bitReverse_add {l x : Nat} (hx : x < 2 ^ l) (b : Nat) (hb : b < 2) :
    bitReverse (l + 1) (b * 2 ^ l + x) = 2 * bitReverse l x + b := by
  induction l generalizing x with
  | zero =>
    obtain rfl : x = 0 := by simpa using hx
    obtain rfl | rfl : b = 0 ∨ b = 1 := by omega
    · rfl
    · rfl
  | succ l ih =>
    have hsplit : b * 2 ^ (l + 1) + x = 2 * (b * 2 ^ l + x / 2) + x % 2 := by
      have hassoc : b * 2 ^ (l + 1) = 2 * (b * 2 ^ l) := by
        rw [pow_succ']
        ring
      omega
    have hhalf : x / 2 < 2 ^ l := by
      rw [pow_succ'] at hx
      omega
    have hmod : (b * 2 ^ (l + 1) + x) % 2 = x % 2 := by omega
    have hdiv : (b * 2 ^ (l + 1) + x) / 2 = b * 2 ^ l + x / 2 := by omega
    rw [bitReverse_succ (l + 1), hmod, hdiv, ih hhalf, bitReverse_succ l x, pow_succ']
    ring

theorem bitReverse_bitReverse {l x : Nat} (hx : x < 2 ^ l) : bitReverse l (bitReverse l x) = x := by
  induction l generalizing x with
  | zero =>
    obtain rfl : x = 0 := by simpa using hx
    rfl
  | succ l ih =>
    have hhalf : x / 2 < 2 ^ l := by
      rw [pow_succ'] at hx
      omega
    rw [bitReverse_succ l x, bitReverse_add (bitReverse_lt _ _) _ (Nat.mod_lt x two_pos), ih hhalf]
    omega

/-- The reversal of a longer word, moved down. -/
theorem bitReverse_div {l x : Nat} (hx : x < 2 ^ l) (d : Nat) :
    bitReverse (l + d) x / 2 ^ d = bitReverse l x := by
  induction l generalizing x with
  | zero =>
    rw [bitReverse, Nat.zero_add]
    exact Nat.div_eq_of_lt (bitReverse_lt d x)
  | succ l ih =>
    have hhalf : x / 2 < 2 ^ l := by
      rw [pow_succ'] at hx
      omega
    rw [show l + 1 + d = l + d + 1 by omega, bitReverse_succ, bitReverse_succ, pow_add, ← mul_assoc,
      Nat.mul_comm _ (2 ^ d), Nat.mul_add_div (Nat.two_pow_pos d), ih hhalf]

/-! ## The loop of swaps -/

section Permute

variable {R : Type}

/-- `a.swap(i, j)`. -/
def swap (i j : Nat) (w : Nat → R) : Nat → R :=
  Function.update (Function.update w i (w j)) j (w i)

/-- The loop that swaps each pair once. -/
def permute (σ : Nat → Nat) (n : Nat) (w : Nat → R) : Nat → R :=
  (List.range n).foldl (fun w i => if i < σ i then swap i (σ i) w else w) w

theorem permute_succ (σ : Nat → Nat) (n : Nat) (w : Nat → R) :
    permute σ (n + 1) w =
      if n < σ n then swap n (σ n) (permute σ n w) else permute σ n w := by
  rw [permute, List.range_succ, List.foldl_append]
  rfl

/-- After `c` rounds, the pairs that start below `c` have been swapped. -/
theorem permute_of_lt {σ : Nat → Nat} {n : Nat} (hlt : ∀ i < n, σ i < n)
    (hinv : ∀ i < n, σ (σ i) = i) (w : Nat → R) {c : Nat} (hc : c ≤ n) (i : Nat) (hi : i < n) :
    permute σ c w i = if i < c ∨ σ i < c then w (σ i) else w i := by
  induction c generalizing i with
  | zero => simp [permute]
  | succ c ih =>
    have hcn : c < n := by omega
    rw [permute_succ]
    by_cases hswap : c < σ c
    · -- Neither entry of the pair has been touched.
      have hfirst := ih (by omega) c hcn
      have hsecond := ih (by omega) (σ c) (hlt c hcn)
      rw [if_neg (by omega)] at hfirst
      rw [hinv c hcn, if_neg (by omega)] at hsecond
      rw [if_pos hswap, swap, hfirst, hsecond]
      by_cases hi' : i = σ c
      · rw [hi', Function.update_self, hinv c hcn, if_pos (by omega)]
      · rw [Function.update_of_ne hi']
        by_cases hic : i = c
        · rw [hic, Function.update_self, if_pos (by omega)]
        · have hσ : σ i ≠ c := fun h => hi' (by rw [← h, hinv i hi])
          rw [Function.update_of_ne hic, ih (by omega) i hi]
          exact if_congr (by omega) rfl rfl
    · rw [if_neg hswap, ih (by omega) i hi]
      by_cases hic : i = c
      · subst hic
        by_cases hfix : σ i = i
        · rw [hfix, if_neg (by omega), if_pos (by omega)]
        · rw [if_pos (by omega), if_pos (by omega)]
      · by_cases hσ : σ i = c
        · have hback : σ c = i := by rw [← hσ, hinv i hi]
          rw [if_pos (by omega), if_pos (by omega)]
        · exact if_congr (by omega) rfl rfl

/-- The loop permutes by the involution. -/
theorem permute_eq {σ : Nat → Nat} {n : Nat} (hlt : ∀ i < n, σ i < n)
    (hinv : ∀ i < n, σ (σ i) = i) (w : Nat → R) (i : Nat) (hi : i < n) :
    permute σ n w i = w (σ i) := by
  rw [permute_of_lt hlt hinv w (Nat.le_refl n) i hi, if_pos (Or.inl hi)]

theorem permute_congr {σ σ' : Nat → Nat} {n : Nat} (h : ∀ i < n, σ i = σ' i) (w : Nat → R) :
    permute σ n w = permute σ' n w := by
  induction n with
  | zero => rfl
  | succ n ih => rw [permute_succ, permute_succ, h n (Nat.lt_succ_self n),
      ih fun i hi => h i (by omega)]

/-- The blocks of a layer whose butterflies depend on the place in the block. -/
def uniformLayer (n : Nat) (op : Nat → R → R → R × R) (len : Nat) (w : Nat → R) : Nat → R :=
  (List.range (n / (2 * len))).foldl (fun w b => block op len (2 * len * b) w) w

theorem uniformLayer_eq {n len : Nat} (op : Nat → R → R → R × R) (hlen : 0 < len)
    (hn : 2 * len ∣ n) (w : Nat → R) (i : Nat) (hi : i < n) :
    uniformLayer n op len w i = pairs (fun _ => op) len w i := by
  have hcount : ∀ count i, (List.range count).foldl (fun w b => block op len (2 * len * b) w) w i =
      if i < 2 * len * count then pairs (fun _ => op) len w i else w i := by
    intro count
    induction count with
    | zero => exact fun i => (if_neg (by omega)).symm
    | succ count ih =>
      intro i
      have hnext : 2 * len * (count + 1) = 2 * len * count + 2 * len := Nat.mul_succ _ _
      rw [List.range_succ, List.foldl_append, List.foldl_cons, List.foldl_nil]
      rw [block_eq_pairs (fun _ => op) (w := w) hlen count
        (fun j hj => (ih j).trans (if_neg (by omega))) i, ih]
      by_cases hin : 2 * len * count ≤ i ∧ i < 2 * len * count + 2 * len
      · rw [if_pos hin, if_pos (by omega)]
      · rw [if_neg hin]
        exact if_congr (by omega) rfl rfl
  rw [uniformLayer, hcount, Nat.mul_div_cancel' hn, if_pos hi]

end Permute

/-! ## The transform -/

variable {R : Type} [CommRing R]

/-- The discrete Fourier transform. -/
def dft (ω : R) (n : Nat) (w : Nat → R) (k : Nat) : R := ∑ t ∈ range n, w t * ω ^ (t * k)

theorem dft_congr {ω : R} {n : Nat} {w w' : Nat → R} (h : ∀ t < n, w t = w' t) (k : Nat) :
    dft ω n w k = dft ω n w' k := by
  apply sum_congr rfl
  intro t ht
  rw [h t (mem_range.mp ht)]

/-- The layers up to the one of width `2^(s-1)`. -/
def ditLayers (roots : Nat → R) (l : Nat) (s : Nat) (w : Nat → R) : Nat → R :=
  (List.range s).foldl
    (fun w s => uniformLayer (2 ^ l) (fun j => forward (roots s ^ j)) (2 ^ s) w) w

/-- The transform in place. -/
def ditTransform (roots : Nat → R) (l : Nat) (w : Nat → R) : Nat → R :=
  ditLayers roots l l (permute (bitReverse l) (2 ^ l) w)

/-- Roots of unity for the layers: each is a square root of the one before, from `-1`
on. -/
structure LayerRoots (roots : Nat → R) (l : Nat) : Prop where
  first : 0 < l → roots 0 = -1
  square : ∀ s, s + 1 < l → roots (s + 1) ^ 2 = roots s

/-- The root for the blocks of `2^s` entries. -/
def blockRoot (roots : Nat → R) : Nat → R
  | 0 => 1
  | s + 1 => roots s

section Layers

variable {roots : Nat → R} {l : Nat}

theorem LayerRoots.half_pow (h : LayerRoots roots l) {s : Nat} (hs : s < l) :
    roots s ^ 2 ^ s = -1 := by
  induction s with
  | zero => rw [pow_zero, pow_one, h.first hs]
  | succ s ih => rw [pow_succ', pow_mul, h.square s hs, ih (by omega)]

theorem LayerRoots.blockRoot_sq (h : LayerRoots roots l) {s : Nat} (hs : s < l) :
    roots s ^ 2 = blockRoot roots s := by
  cases s with
  | zero => rw [h.first hs, blockRoot, neg_one_sq]
  | succ s => exact h.square s hs

/-- After `s` layers, each block holds the transform of the entries whose index ends
in its bits. -/
theorem layers_eq (h : LayerRoots roots l) (w : Nat → R) {s d : Nat} (hl : s + d = l) {B k : Nat}
    (hB : B < 2 ^ d) (hk : k < 2 ^ s) :
    ditLayers roots l s (permute (bitReverse l) (2 ^ l) w) (B * 2 ^ s + k) =
      ∑ t ∈ range (2 ^ s), w (bitReverse d B + t * 2 ^ d) * blockRoot roots s ^ (t * k) := by
  induction s generalizing d B k with
  | zero =>
    obtain rfl : k = 0 := by simpa using hk
    obtain rfl : d = l := by omega
    show permute (bitReverse d) (2 ^ d) w (B * 2 ^ 0 + 0) = _
    rw [pow_zero, mul_one, add_zero, permute_eq (fun i _ => bitReverse_lt d i)
      (fun i hi => bitReverse_bitReverse hi) w B hB, sum_range_one, zero_mul, add_zero, zero_mul,
      pow_zero, mul_one]
  | succ s ih =>
    have hs : s < l := by omega
    have hhalf := h.half_pow hs
    have hpow : 2 ^ l = 2 * 2 ^ s * 2 ^ d := by rw [← hl, pow_add, pow_succ']
    have hi : B * (2 * 2 ^ s) + k < 2 ^ l := by
      have hle : (B + 1) * (2 * 2 ^ s) ≤ 2 ^ d * (2 * 2 ^ s) := Nat.mul_le_mul_right _ hB
      rw [hpow, Nat.mul_comm _ (2 ^ d)]
      rw [Nat.add_mul, one_mul] at hle
      rw [pow_succ'] at hk
      omega
    have hdm := div_mod_of_lt (b := B) (show k < 2 * 2 ^ s by rwa [pow_succ'] at hk)
    rw [Nat.mul_comm _ B] at hdm
    have hprev : ∀ b < 2, ∀ j < 2 ^ s,
        ditLayers roots l s (permute (bitReverse l) (2 ^ l) w) ((2 * B + b) * 2 ^ s + j) =
          ∑ t ∈ range (2 ^ s), w (bitReverse (d + 1) (2 * B + b) + t * (2 * 2 ^ d)) *
            (roots s ^ 2) ^ (t * j) := fun b hb j hj => by
      rw [ih (show s + (d + 1) = l by omega) (by rw [pow_succ']; omega) hj, h.blockRoot_sq hs,
        pow_succ']
    have heven := hprev 0 (by omega)
    have hodd := hprev 1 (by omega)
    rw [add_zero, bitReverse_two_mul] at heven
    rw [bitReverse_two_mul_add_one] at hodd
    rw [pow_succ', blockRoot, dft_halves, ditLayers, List.range_succ, List.foldl_append]
    show uniformLayer (2 ^ l) _ (2 ^ s) (ditLayers roots l s _) _ = _
    rw [uniformLayer_eq _ (Nat.two_pow_pos s) (Dvd.intro _ hpow.symm) _ _ hi, pairs, hdm.2]
    by_cases hlow : k < 2 ^ s
    · rw [if_pos hlow, show B * (2 * 2 ^ s) + k = 2 * B * 2 ^ s + k by ring, heven k hlow,
        show 2 * B * 2 ^ s + k + 2 ^ s = (2 * B + 1) * 2 ^ s + k by ring, hodd k hlow]
      rfl
    · obtain ⟨j, rfl⟩ : ∃ j, k = 2 ^ s + j := ⟨k - 2 ^ s, by omega⟩
      have hj : j < 2 ^ s := by
        rw [pow_succ'] at hk
        omega
      have hone : (roots s ^ 2) ^ 2 ^ s = 1 := by
        rw [← pow_mul, Nat.mul_comm, pow_mul, hhalf, neg_one_sq]
      have hperiod : ∀ t, (roots s ^ 2) ^ (t * (2 ^ s + j)) = (roots s ^ 2) ^ (t * j) := fun t => by
        rw [mul_add, pow_add, Nat.mul_comm t (2 ^ s), pow_mul, hone, one_pow, one_mul]
      rw [if_neg hlow, Nat.add_sub_cancel_left,
        show B * (2 * 2 ^ s) + (2 ^ s + j) - 2 ^ s = 2 * B * 2 ^ s + j by
          rw [show B * (2 * 2 ^ s) + (2 ^ s + j) = 2 * B * 2 ^ s + j + 2 ^ s by ring,
            Nat.add_sub_cancel],
        show B * (2 * 2 ^ s) + (2 ^ s + j) = (2 * B + 1) * 2 ^ s + j by ring, heven j hj,
        hodd j hj]
      simp only [hperiod, forward]
      rw [pow_add, hhalf]
      ring

/-- The network computes the transform. -/
theorem ditTransform_eq (h : LayerRoots roots l) (w : Nat → R) {k : Nat} (hk : k < 2 ^ l) :
    ditTransform roots l w k = dft (blockRoot roots l) (2 ^ l) w k := by
  have hlayers := layers_eq h w (show l + 0 = l from rfl) (show 0 < 2 ^ 0 by decide) hk
  rw [Nat.zero_mul, Nat.zero_add] at hlayers
  rw [ditTransform, hlayers, dft]
  apply sum_congr rfl
  intro t _
  rw [bitReverse, Nat.zero_add, pow_zero, mul_one]

end Layers

/-! ## Inversion -/

/-- Powers of an element of which a power with exponent `2^e` is `-1`. -/
theorem sum_pow_eq_zero {x : R} {e l : Nat} (he : e < l) (hx : x ^ 2 ^ e = -1) :
    ∑ k ∈ range (2 ^ l), x ^ k = 0 := by
  induction l with
  | zero => omega
  | succ l ih =>
    have hsplit : ∑ k ∈ range (2 ^ (l + 1)), x ^ k =
        (∑ k ∈ range (2 ^ l), x ^ k) * (1 + x ^ 2 ^ l) := by
      rw [pow_succ, mul_two, sum_range_add, mul_add, mul_one, sum_mul]
      congr 1
      apply sum_congr rfl
      intro k _
      rw [pow_add, mul_comm]
    rw [hsplit]
    by_cases hel : e = l
    · rw [← hel, hx, add_neg_cancel, mul_zero]
    · rw [ih (by omega), zero_mul]

/-- A power of a root of unity of order `2^l` that is not its zeroth. -/
theorem sum_pow_pow_eq_zero {x : R} {l d : Nat} (hx : x ^ 2 ^ (l - 1) = -1) (hd : 0 < d)
    (hdl : d < 2 ^ l) : ∑ k ∈ range (2 ^ l), (x ^ d) ^ k = 0 := by
  obtain ⟨v, m, hodd, rfl⟩ := Nat.exists_eq_two_pow_mul_odd hd.ne'
  have hm : 1 ≤ m := hodd.pos
  have hv : v < l := by
    apply (Nat.pow_lt_pow_iff_right (a := 2) (by decide)).mp
    exact (Nat.le_mul_of_pos_right _ hm).trans_lt hdl
  apply sum_pow_eq_zero (e := l - 1 - v) (by omega)
  rw [← pow_mul, show 2 ^ v * m * 2 ^ (l - 1 - v) = 2 ^ (v + (l - 1 - v)) * m by rw [pow_add]; ring,
    show v + (l - 1 - v) = l - 1 by omega, pow_mul, hx, hodd.neg_one_pow]

/-- Two transforms, with roots that are inverse to each other. -/
theorem dft_dft {x y : R} {l : Nat} (hxy : x * y = 1) (hx : x ^ 2 ^ (l - 1) = -1) (w : Nat → R)
    {s : Nat} (hs : s < 2 ^ l) : dft y (2 ^ l) (dft x (2 ^ l) w) s = 2 ^ l * w s := by
  have hy : y ^ 2 ^ (l - 1) = -1 := by
    have hpow : (x * y) ^ 2 ^ (l - 1) = 1 := by rw [hxy, one_pow]
    rw [mul_pow, hx, neg_one_mul] at hpow
    rw [← hpow, neg_neg]
  have hcancel : ∀ n, x ^ n * y ^ n = 1 := fun n => by rw [← mul_pow, hxy, one_pow]
  have hinner : ∀ t < 2 ^ l, ∑ k ∈ range (2 ^ l), (x ^ t * y ^ s) ^ k =
      if t = s then 2 ^ l else 0 := by
    intro t ht
    by_cases hts : t = s
    · subst hts
      simp [hcancel]
    · rw [if_neg hts]
      by_cases hlt : s < t
      · have hbase : x ^ t * y ^ s = x ^ (t - s) := by
          rw [← Nat.sub_add_cancel hlt.le, pow_add, mul_assoc, hcancel, mul_one,
            Nat.add_sub_cancel]
        rw [hbase]
        exact sum_pow_pow_eq_zero hx (by omega) (by omega)
      · have hbase : x ^ t * y ^ s = y ^ (s - t) := by
          rw [← Nat.sub_add_cancel (Nat.le_of_not_lt hlt), pow_add, mul_left_comm, hcancel,
            mul_one, Nat.add_sub_cancel]
        rw [hbase]
        exact sum_pow_pow_eq_zero hy (by omega) (by omega)
  calc dft y (2 ^ l) (dft x (2 ^ l) w) s
      = ∑ k ∈ range (2 ^ l), ∑ t ∈ range (2 ^ l), w t * (x ^ t * y ^ s) ^ k := by
        apply sum_congr rfl
        intro k _
        rw [dft, sum_mul]
        apply sum_congr rfl
        intro t _
        rw [mul_pow, ← pow_mul, ← pow_mul, Nat.mul_comm s k, mul_assoc]
    _ = ∑ t ∈ range (2 ^ l), w t * ∑ k ∈ range (2 ^ l), (x ^ t * y ^ s) ^ k := by
        rw [sum_comm]
        simp only [mul_sum]
    _ = ∑ t ∈ range (2 ^ l), w t * (if t = s then 2 ^ l else 0) := by
        apply sum_congr rfl
        intro t ht
        rw [hinner t (mem_range.mp ht)]
    _ = 2 ^ l * w s := by
        simp only [mul_ite, mul_zero, sum_ite_eq', mem_range, if_pos hs, mul_comm]

/-- The transform of a polynomial's coefficients. -/
theorem dft_coeff (ω : R) {n : Nat} {f : Polynomial R} (hf : f.natDegree < n) (k : Nat) :
    dft ω n f.coeff k = f.eval (ω ^ k) := by
  rw [dft, Polynomial.eval_eq_sum_range' hf]
  apply sum_congr rfl
  intro t _
  rw [← pow_mul, Nat.mul_comm]

end Trelis.Butterfly
