import Mathlib.Algebra.BigOperators.Ring.Finset
import Mathlib.Logic.Function.Iterate
import Mathlib.Tactic.LinearCombination
import Mathlib.Tactic.Ring

/-!
# Networks of butterflies

The in-place loops of a number-theoretic transform over a commutative ring, for
arrays of `n` values.  A layer of width `len` combines each entry of the first half
of a block of `2 * len` entries with the one `len` further on.  The factor depends on the
block, where a counter selects it, or on the place in the block.

* `layer_eq` is the closed form of the loops of a layer: `pairs`.
* `forward` and `backward` are the two butterflies.  With inverse factors each undoes
  the other, up to a factor of two, so that two networks that are mirror images undo
  each other, up to a power of two (`backwardNet_forwardNet`,
  `forwardNet_backwardNet`).
* A layer of forward butterflies reduces the polynomial of a block modulo both
  factors of `X ^ (2 * len) - z ^ 2`.  A network of them evaluates the polynomial of
  the array (`forwardNet_eq_eval`), and where the points are roots of
  `X ^ n + 1`, a negacyclic shift becomes a product (`eval_shift`).

The array is a function on all numbers, and the statements are about its first `n`
entries.
-/

namespace Trelis.Butterfly

variable {R : Type}

/-! ## The loops -/

/-- One butterfly, on the entries `j` and `j + len`. -/
def step (op : R → R → R × R) (len : Nat) (w : Nat → R) (j : Nat) : Nat → R :=
  let t := op (w j) (w (j + len))
  Function.update (Function.update w (j + len) t.2) j t.1

/-- The butterflies of a block. -/
def block (op : Nat → R → R → R × R) (len start : Nat) (w : Nat → R) : Nat → R :=
  (List.range len).foldl (fun w j => step (op j) len w (start + j)) w

/-- The block number `b` of a layer, which first advances the counter. -/
def layerStep (op : Nat → R → R → R × R) (next : Nat → Nat) (len : Nat) (s : (Nat → R) × Nat)
    (b : Nat) : (Nat → R) × Nat :=
  (block (fun _ => op (next s.2)) len (2 * len * b) s.1, next s.2)

/-- The blocks of a layer. -/
def layer (n : Nat) (op : Nat → R → R → R × R) (next : Nat → Nat) (s : (Nat → R) × Nat)
    (len : Nat) : (Nat → R) × Nat :=
  (List.range (n / (2 * len))).foldl (layerStep op next len) s

/-- What a layer computes, with a butterfly for each block and each place in it. -/
def pairs (op : Nat → Nat → R → R → R × R) (len : Nat) (w : Nat → R) : Nat → R := fun i =>
  if i % (2 * len) < len then (op (i / (2 * len)) (i % (2 * len)) (w i) (w (i + len))).1
  else (op (i / (2 * len)) (i % (2 * len) - len) (w (i - len)) (w i)).2

section Loops

variable {len start : Nat} {w w' : Nat → R}

theorem block_eq (op : Nat → R → R → R × R) (hlen : 0 < len) (start : Nat) (w : Nat → R)
    (i : Nat) :
    block op len start w i =
      if start ≤ i ∧ i < start + len then (op (i - start) (w i) (w (i + len))).1
      else if start + len ≤ i ∧ i < start + 2 * len then
        (op (i - start - len) (w (i - len)) (w i)).2
      else w i := by
  have hcount : ∀ c ≤ len, ∀ i,
      (List.range c).foldl (fun w j => step (op j) len w (start + j)) w i =
        if start ≤ i ∧ i < start + c then (op (i - start) (w i) (w (i + len))).1
        else if start + len ≤ i ∧ i < start + len + c then
          (op (i - start - len) (w (i - len)) (w i)).2
        else w i := by
    intro c
    induction c with
    | zero =>
      intro _ i
      rw [if_neg (by omega), if_neg (by omega)]
      rfl
    | succ c ih =>
      intro hc i
      -- Neither entry of this butterfly has been touched.
      have hfirst := ih (by omega) (start + c)
      have hsecond := ih (by omega) (start + c + len)
      rw [if_neg (by omega), if_neg (by omega)] at hfirst hsecond
      rw [List.range_succ, List.foldl_append, List.foldl_cons, List.foldl_nil]
      show Function.update (Function.update _ _ _) _ _ i = _
      rw [hfirst, hsecond]
      by_cases hi : i = start + c
      · rw [hi, Function.update_self, if_pos (by omega), Nat.add_sub_cancel_left]
      · by_cases hi' : i = start + c + len
        · rw [Function.update_of_ne hi, hi', Function.update_self, if_neg (by omega),
            if_pos (by omega), Nat.add_sub_cancel, show start + c + len - start - len = c by omega]
        · rw [Function.update_of_ne hi, Function.update_of_ne hi', ih (by omega) i]
          exact if_congr (by omega) rfl (if_congr (by omega) rfl rfl)
  rw [block, hcount len (Nat.le_refl len) i]
  exact if_congr Iff.rfl rfl (if_congr (by omega) rfl rfl)

/-- A block of a layer, and the entries outside of it. -/
theorem block_eq_pairs (op : Nat → Nat → R → R → R × R) (hlen : 0 < len) (b : Nat) {s : Nat → R}
    (hkeep : ∀ j, 2 * len * b ≤ j → s j = w j) (i : Nat) :
    block (op b) len (2 * len * b) s i =
      if 2 * len * b ≤ i ∧ i < 2 * len * b + 2 * len then pairs op len w i else s i := by
  rw [block_eq _ hlen]
  by_cases hin : 2 * len * b ≤ i ∧ i < 2 * len * b + 2 * len
  · have hquot : i / (2 * len) = b := by
      rw [Nat.div_eq_iff (by omega), Nat.mul_comm b]
      omega
    have hrem : i % (2 * len) = i - 2 * len * b := by
      have hsplit := Nat.div_add_mod i (2 * len)
      rw [hquot] at hsplit
      omega
    rw [if_pos hin, pairs, hquot, hrem]
    by_cases hhalf : i < 2 * len * b + len
    · rw [if_pos (by omega), if_pos (by omega), hkeep i (by omega), hkeep (i + len) (by omega)]
    · rw [if_neg (by omega), if_pos (by omega), if_neg (by omega), hkeep i (by omega),
        hkeep (i - len) (by omega)]
  · rw [if_neg hin, if_neg (by omega), if_neg (by omega)]

/-- The closed form of the blocks, and the counter behind them. -/
theorem blocks_eq (op : Nat → R → R → R × R) (next : Nat → Nat) (hlen : 0 < len) (w : Nat → R)
    (m count : Nat) :
    (∀ i, ((List.range count).foldl (layerStep op next len) (w, m)).1 i =
      if i < 2 * len * count then pairs (fun b _ => op (next^[b + 1] m)) len w i else w i) ∧
    ((List.range count).foldl (layerStep op next len) (w, m)).2 = next^[count] m := by
  induction count with
  | zero => exact ⟨fun i => (if_neg (by omega)).symm, rfl⟩
  | succ count ih =>
    obtain ⟨hw, hm⟩ := ih
    rw [List.range_succ, List.foldl_append, List.foldl_cons, List.foldl_nil]
    generalize (List.range count).foldl (layerStep op next len) (w, m) = s at hw hm
    have hnext : next s.2 = next^[count + 1] m := by rw [hm, Function.iterate_succ_apply']
    refine ⟨?_, hnext⟩
    intro i
    have hdiv : 2 * len * (count + 1) = 2 * len * count + 2 * len := Nat.mul_succ _ _
    -- Entries of the new block have kept their values.
    have hkeep : ∀ j, 2 * len * count ≤ j → s.1 j = w j := fun j hj => by
      rw [hw, if_neg (by omega)]
    show block (fun _ => op (next s.2)) len (2 * len * count) s.1 i = _
    rw [hnext, block_eq_pairs (fun b _ => op (next^[b + 1] m)) hlen count hkeep, hw]
    by_cases hin : 2 * len * count ≤ i ∧ i < 2 * len * count + 2 * len
    · rw [if_pos hin, if_pos (by omega)]
    · rw [if_neg hin]
      exact if_congr (by omega) rfl rfl

end Loops

/-! ## Layers -/

section Layers

variable {op op' : Nat → Nat → R → R → R × R} {next : Nat → Nat} {n len i : Nat} {w w' : Nat → R}

theorem div_mod_of_lt {b r : Nat} (hr : r < len) :
    (len * b + r) / len = b ∧ (len * b + r) % len = r := by
  refine ⟨?_, ?_⟩
  · rw [Nat.mul_add_div (by omega), Nat.div_eq_of_lt hr, Nat.add_zero]
  · rw [Nat.mul_add_mod, Nat.mod_eq_of_lt hr]

/-- A layer on the first half of a block. -/
theorem pairs_first (op : Nat → Nat → R → R → R × R) (w : Nat → R) (b : Nat) {j : Nat}
    (hj : j < len) :
    pairs op len w (2 * len * b + j) =
      (op b j (w (2 * len * b + j)) (w (2 * len * b + (len + j)))).1 := by
  have hdm := div_mod_of_lt (b := b) (show j < 2 * len by omega)
  rw [pairs, hdm.1, hdm.2, if_pos hj, Nat.add_assoc, Nat.add_comm j]

/-- A layer on the second half of a block. -/
theorem pairs_second (op : Nat → Nat → R → R → R × R) (w : Nat → R) (b : Nat) {j : Nat}
    (hj : j < len) :
    pairs op len w (2 * len * b + (len + j)) =
      (op b j (w (2 * len * b + j)) (w (2 * len * b + (len + j)))).2 := by
  have hdm := div_mod_of_lt (b := b) (show len + j < 2 * len by omega)
  rw [pairs, hdm.1, hdm.2, if_neg (by omega), Nat.add_sub_cancel_left,
    show 2 * len * b + (len + j) - len = 2 * len * b + j by omega]

theorem add_lt_of_half (hn : 2 * len ∣ n) (hi : i < n) (hhalf : i % (2 * len) < len) :
    i + len < n := by
  obtain ⟨count, rfl⟩ := hn
  have hlt : i / (2 * len) < count := Nat.div_lt_of_lt_mul hi
  have hle : 2 * len * (i / (2 * len) + 1) ≤ 2 * len * count := Nat.mul_le_mul_left _ hlt
  have hsplit := Nat.div_add_mod i (2 * len)
  rw [Nat.mul_succ] at hle
  omega

theorem div_lt_div (hn : 2 * len ∣ n) (hi : i < n) : i / (2 * len) < n / (2 * len) := by
  obtain ⟨count, rfl⟩ := hn
  have hpos : 0 < 2 * len := Nat.pos_of_mul_pos_right (Nat.zero_lt_of_lt hi)
  rw [Nat.mul_div_cancel_left _ hpos]
  exact Nat.div_lt_of_lt_mul hi

/-- The first `n` entries of a layer depend on the first `n` entries. -/
theorem pairs_congr (hn : 2 * len ∣ n) (hop : ∀ b < n / (2 * len), op b = op' b)
    (hw : ∀ i < n, w i = w' i) (i : Nat) (hi : i < n) :
    pairs op len w i = pairs op' len w' i := by
  rw [pairs, pairs, hop _ (div_lt_div hn hi), hw i hi]
  by_cases hhalf : i % (2 * len) < len
  · rw [if_pos hhalf, if_pos hhalf, hw _ (add_lt_of_half hn hi hhalf)]
  · rw [if_neg hhalf, if_neg hhalf, hw (i - len) (by omega)]

theorem layer_eq (op : Nat → R → R → R × R) (next : Nat → Nat) (hlen : 0 < len) (hn : 2 * len ∣ n)
    (s : (Nat → R) × Nat) :
    (∀ i < n, (layer n op next s len).1 i = pairs (fun b _ => op (next^[b + 1] s.2)) len s.1 i) ∧
      (layer n op next s len).2 = next^[n / (2 * len)] s.2 := by
  obtain ⟨hfirst, hsecond⟩ := blocks_eq op next hlen s.1 s.2 (n / (2 * len))
  refine ⟨?_, hsecond⟩
  intro i hi
  rw [Nat.mul_div_cancel' hn] at hfirst
  exact (hfirst i).trans (if_pos hi)

end Layers

/-! ## The two butterflies -/

variable [CommRing R]

/-- The butterfly of a transform. -/
def forward (z a b : R) : R × R := (a + z * b, a - z * b)

/-- The butterfly of an inverse transform. -/
def backward (z a b : R) : R × R := (a + b, z * (a - b))

theorem backward_forward {z z' : R} (h : z' * z = 1) (a b : R) :
    backward z' (forward z a b).1 (forward z a b).2 = (2 * a, 2 * b) := by
  have hb : z' * (2 * (z * b)) = 2 * b := by linear_combination 2 * b * h
  simp only [backward, forward, Prod.mk.injEq]
  refine ⟨by ring, ?_⟩
  rw [← hb]
  ring

theorem forward_backward {z z' : R} (h : z' * z = 1) (a b : R) :
    forward z (backward z' a b).1 (backward z' a b).2 = (2 * a, 2 * b) := by
  have hz : z * (z' * (a - b)) = a - b := by linear_combination (a - b) * h
  simp only [backward, forward, Prod.mk.injEq, hz]
  exact ⟨by ring, by ring⟩

theorem forward_smul (c z a b : R) :
    forward z (c * a) (c * b) = (c * (forward z a b).1, c * (forward z a b).2) := by
  simp only [forward, Prod.mk.injEq]
  exact ⟨by ring, by ring⟩

theorem backward_smul (c z a b : R) :
    backward z (c * a) (c * b) = (c * (backward z a b).1, c * (backward z a b).2) := by
  simp only [backward, Prod.mk.injEq]
  exact ⟨by ring, by ring⟩

section Pairs

variable {op op' : Nat → Nat → R → R → R × R} {n len : Nat} {w : Nat → R}

theorem pairs_smul
    (hop : ∀ b j c x y, op b j (c * x) (c * y) = (c * (op b j x y).1, c * (op b j x y).2))
    (c : R) (w : Nat → R) (i : Nat) : pairs op len (fun i => c * w i) i = c * pairs op len w i := by
  rw [pairs, pairs]
  split <;> rw [hop]

/-- A layer whose butterflies undo those of another layer undoes it. -/
theorem pairs_pairs (hlen : 0 < len) (hn : 2 * len ∣ n)
    (hop : ∀ b < n / (2 * len), ∀ j x y,
      op' b j (op b j x y).1 (op b j x y).2 = (2 * x, 2 * y))
    (i : Nat) (hi : i < n) : pairs op' len (pairs op len w) i = 2 * w i := by
  have hb := div_lt_div hn hi
  have hsplit := Nat.div_add_mod i (2 * len)
  have hmod : i % (2 * len) < 2 * len := Nat.mod_lt _ (by omega)
  by_cases hhalf : i % (2 * len) < len
  · have hsum : i + len = 2 * len * (i / (2 * len)) + (i % (2 * len) + len) := by omega
    have hlt : i % (2 * len) + len < 2 * len := by omega
    have hquot : (i + len) / (2 * len) = i / (2 * len) := hsum ▸ (div_mod_of_lt hlt).1
    have hrem : (i + len) % (2 * len) = i % (2 * len) + len := hsum ▸ (div_mod_of_lt hlt).2
    rw [pairs, if_pos hhalf, pairs, if_pos hhalf, pairs, hrem, if_neg (by omega), hquot,
      Nat.add_sub_cancel, Nat.add_sub_cancel, hop _ hb]
  · have hdiff : i - len = 2 * len * (i / (2 * len)) + (i % (2 * len) - len) := by omega
    have hlt : i % (2 * len) - len < 2 * len := by omega
    have hquot : (i - len) / (2 * len) = i / (2 * len) := hdiff ▸ (div_mod_of_lt hlt).1
    have hrem : (i - len) % (2 * len) = i % (2 * len) - len := hdiff ▸ (div_mod_of_lt hlt).2
    rw [pairs, if_neg hhalf, pairs, hrem, if_pos (by omega), hquot, pairs, if_neg hhalf,
      Nat.sub_add_cancel (by omega), hop _ hb]

end Pairs

/-! ## Networks -/

/-- The first `s` layers of a transform of `2^l` values, with the counter that selects
the factors from the table. -/
def forwardLayers (zeta : Nat → R) (l s : Nat) (w : Nat → R) : (Nat → R) × Nat :=
  (List.range s).foldl
    (fun st r => layer (2 ^ l) (fun m => forward (zeta m)) (· + 1) st (2 ^ (l - 1 - r))) (w, 0)

/-- The first `s` layers of an inverse transform. -/
def backwardLayers (zeta : Nat → R) (l s : Nat) (w : Nat → R) : (Nat → R) × Nat :=
  (List.range s).foldl
    (fun st r => layer (2 ^ l) (fun m => backward (zeta m)) (· - 1) st (2 ^ r)) (w, 2 ^ l)

/-- The network of a transform. -/
def forwardNet (zeta : Nat → R) (l : Nat) (w : Nat → R) : Nat → R := (forwardLayers zeta l l w).1

/-- The network of an inverse transform. -/
def backwardNet (zeta : Nat → R) (l : Nat) (w : Nat → R) : Nat → R := (backwardLayers zeta l l w).1

section Networks

variable {zeta zeta' : Nat → R} {l s : Nat} {w : Nat → R}

theorem iterate_succ_add (c m : Nat) : (· + 1)^[c] m = m + c := by
  induction c with
  | zero => rfl
  | succ c ih =>
    rw [Function.iterate_succ_apply', ih]
    rfl

theorem iterate_pred_sub (c m : Nat) : (· - 1)^[c] m = m - c := by
  induction c with
  | zero => rfl
  | succ c ih =>
    rw [Function.iterate_succ_apply', ih]
    rfl

/-- The width of a layer divides the array into `2^s` blocks. -/
theorem width_eq (hs : s < l) : 2 ^ l = 2 * 2 ^ (l - 1 - s) * 2 ^ s := by
  rw [← pow_succ', ← pow_add, show l - 1 - s + 1 + s = l by omega]

theorem forwardLayers_succ (zeta : Nat → R) (w : Nat → R) (s : Nat) :
    forwardLayers zeta l (s + 1) w = layer (2 ^ l) (fun m => forward (zeta m)) (· + 1)
      (forwardLayers zeta l s w) (2 ^ (l - 1 - s)) := by
  rw [forwardLayers, List.range_succ, List.foldl_append]
  rfl

theorem backwardLayers_succ (zeta : Nat → R) (w : Nat → R) (s : Nat) :
    backwardLayers zeta l (s + 1) w = layer (2 ^ l) (fun m => backward (zeta m)) (· - 1)
      (backwardLayers zeta l s w) (2 ^ s) := by
  rw [backwardLayers, List.range_succ, List.foldl_append]
  rfl

/-- The counter has run through the factors of the earlier layers. -/
theorem forwardLayers_snd (zeta : Nat → R) (w : Nat → R) (hs : s ≤ l) :
    (forwardLayers zeta l s w).2 = 2 ^ s - 1 := by
  induction s with
  | zero => rfl
  | succ s ih =>
    have hwidth := width_eq (show s < l by omega)
    have hone := Nat.one_le_two_pow (n := s)
    rw [forwardLayers_succ, (layer_eq _ _ (Nat.two_pow_pos _) (Dvd.intro _ hwidth.symm) _).2,
      ih (by omega), iterate_succ_add, hwidth,
      Nat.mul_div_cancel_left _ (by have := Nat.two_pow_pos (l - 1 - s); omega), pow_succ]
    omega

theorem backwardLayers_snd (zeta : Nat → R) (w : Nat → R) (hs : s ≤ l) :
    (backwardLayers zeta l s w).2 = 2 ^ (l - s) := by
  induction s with
  | zero => rfl
  | succ s ih =>
    have hwidth : 2 ^ l = 2 * 2 ^ s * 2 ^ (l - 1 - s) := by
      rw [← pow_succ', ← pow_add, show s + 1 + (l - 1 - s) = l by omega]
    have hhalf : 2 ^ (l - s) = 2 * 2 ^ (l - (s + 1)) := by
      rw [← pow_succ', show l - (s + 1) + 1 = l - s by omega]
    rw [backwardLayers_succ, (layer_eq _ _ (Nat.two_pow_pos _) (Dvd.intro _ hwidth.symm) _).2,
      ih (by omega), iterate_pred_sub, hwidth,
      Nat.mul_div_cancel_left _ (by have := Nat.two_pow_pos s; omega), hhalf,
      show l - (s + 1) = l - 1 - s by omega]
    omega

/-- A layer of the transform, on the blocks that the layers before it have left. -/
theorem forwardLayers_fst (zeta : Nat → R) (w : Nat → R) (hs : s < l) (i : Nat) (hi : i < 2 ^ l) :
    (forwardLayers zeta l (s + 1) w).1 i =
      pairs (fun b _ => forward (zeta (2 ^ s + b))) (2 ^ (l - 1 - s)) (forwardLayers zeta l s w).1
        i := by
  have hwidth := width_eq hs
  have hone := Nat.one_le_two_pow (n := s)
  rw [forwardLayers_succ, (layer_eq _ _ (Nat.two_pow_pos _) (Dvd.intro _ hwidth.symm) _).1 i hi,
    forwardLayers_snd zeta w hs.le]
  have hindex : ∀ b, (· + 1)^[b + 1] (2 ^ s - 1) = 2 ^ s + b := fun b => by
    rw [iterate_succ_add]
    omega
  simp only [hindex]

/-- The layer of the inverse transform with the blocks of that one. -/
theorem backwardLayers_fst (zeta : Nat → R) (w : Nat → R) (hs : s < l) (i : Nat) (hi : i < 2 ^ l) :
    (backwardLayers zeta l (l - s) w).1 i =
      pairs (fun b _ => backward (zeta (2 ^ (s + 1) - 1 - b))) (2 ^ (l - 1 - s))
        (backwardLayers zeta l (l - (s + 1)) w).1 i := by
  have hwidth := width_eq hs
  rw [show l - s = l - (s + 1) + 1 by omega, backwardLayers_succ,
    show l - (s + 1) = l - 1 - s by omega,
    (layer_eq _ _ (Nat.two_pow_pos _) (Dvd.intro _ hwidth.symm) _).1 i hi,
    backwardLayers_snd zeta w (by omega), show l - (l - 1 - s) = s + 1 by omega]
  have hindex : ∀ b, (· - 1)^[b + 1] (2 ^ (s + 1)) = 2 ^ (s + 1) - 1 - b := fun b => by
    rw [iterate_pred_sub]
    omega
  simp only [hindex]

/-- The first `2^l` entries of an inverse transform depend on the first `2^l` entries. -/
theorem backwardNet_congr (zeta : Nat → R) {w w' : Nat → R} (hw : ∀ i < 2 ^ l, w i = w' i) (i : Nat)
    (hi : i < 2 ^ l) : backwardNet zeta l w i = backwardNet zeta l w' i := by
  have hlayers : ∀ s ≤ l, ∀ i < 2 ^ l,
      (backwardLayers zeta l s w).1 i = (backwardLayers zeta l s w').1 i := by
    intro s
    induction s with
    | zero => exact fun _ => hw
    | succ s ih =>
      intro hs i hi
      have hwidth : 2 ^ l = 2 * 2 ^ s * 2 ^ (l - 1 - s) := by
        rw [← pow_succ', ← pow_add, show s + 1 + (l - 1 - s) = l by omega]
      have hdvd := Dvd.intro _ hwidth.symm
      rw [backwardLayers_succ, backwardLayers_succ,
        (layer_eq _ _ (Nat.two_pow_pos s) hdvd _).1 i hi,
        (layer_eq _ _ (Nat.two_pow_pos s) hdvd _).1 i hi, backwardLayers_snd zeta w (by omega),
        backwardLayers_snd zeta w' (by omega)]
      exact pairs_congr hdvd (fun _ _ => rfl) (ih (by omega)) i hi
  exact hlayers l (Nat.le_refl l) i hi

/-- Factors of two tables that are mirror images of each other are inverse. -/
def MirrorInverse (zeta zeta' : Nat → R) (l : Nat) : Prop :=
  ∀ s < l, ∀ b < 2 ^ s, zeta' (2 ^ (s + 1) - 1 - b) * zeta (2 ^ s + b) = 1

theorem width_div (hs : s < l) : 2 ^ l / (2 * 2 ^ (l - 1 - s)) = 2 ^ s := by
  have hpos := Nat.two_pow_pos (l - 1 - s)
  rw [width_eq hs, Nat.mul_div_cancel_left _ (by omega)]

/-- The inverse transform undoes the transform, layer by layer. -/
theorem backwardNet_forwardNet (h : MirrorInverse zeta zeta' l) (w : Nat → R) (i : Nat)
    (hi : i < 2 ^ l) : backwardNet zeta' l (forwardNet zeta l w) i = 2 ^ l * w i := by
  have hlayers : ∀ s ≤ l, ∀ i < 2 ^ l,
      (backwardLayers zeta' l (l - s) (forwardNet zeta l w)).1 i =
        2 ^ (l - s) * (forwardLayers zeta l s w).1 i := by
    intro s hs
    -- From the last layer of the transform down.
    induction hd : l - s generalizing s with
    | zero =>
      obtain rfl : s = l := by omega
      intro i _
      rw [pow_zero, one_mul]
      rfl
    | succ d ih =>
      intro i hi
      have hsl : s < l := by omega
      have hwidth := width_eq hsl
      have hd' : l - (s + 1) = d := by omega
      have hprev := ih (s + 1) hsl hd'
      rw [← hd'] at hprev
      rw [← hd, backwardLayers_fst zeta' _ hsl i hi,
        pairs_congr (Dvd.intro _ hwidth.symm) (fun _ _ => rfl) hprev i hi,
        pairs_smul (fun b j c x y => backward_smul c _ x y),
        pairs_congr (Dvd.intro _ hwidth.symm) (fun _ _ => rfl)
          (fun i hi => forwardLayers_fst zeta w hsl i hi) i hi,
        pairs_pairs (Nat.two_pow_pos _) (Dvd.intro _ hwidth.symm)
          (fun b hb j x y => backward_forward (h s hsl b (by rwa [width_div hsl] at hb)) x y) i hi,
        hd, ← hd', pow_succ]
      ring
  have hall := hlayers 0 (Nat.zero_le l) i hi
  rwa [Nat.sub_zero] at hall

/-- The transform undoes the inverse transform. -/
theorem forwardNet_backwardNet (h : MirrorInverse zeta zeta' l) (w : Nat → R) (i : Nat)
    (hi : i < 2 ^ l) : forwardNet zeta l (backwardNet zeta' l w) i = 2 ^ l * w i := by
  have hlayers : ∀ s ≤ l, ∀ i < 2 ^ l, (forwardLayers zeta l s (backwardNet zeta' l w)).1 i =
      2 ^ s * (backwardLayers zeta' l (l - s) w).1 i := by
    intro s
    induction s with
    | zero =>
      intro _ i _
      rw [pow_zero, one_mul]
      rfl
    | succ s ih =>
      intro hs i hi
      have hwidth := width_eq (show s < l by omega)
      rw [forwardLayers_fst zeta _ hs i hi,
        pairs_congr (Dvd.intro _ hwidth.symm) (fun _ _ => rfl) (ih (by omega)) i hi,
        pairs_smul (fun b j c x y => forward_smul c _ x y),
        pairs_congr (Dvd.intro _ hwidth.symm) (fun _ _ => rfl)
          (fun i hi => backwardLayers_fst zeta' w hs i hi) i hi,
        pairs_pairs (Nat.two_pow_pos _) (Dvd.intro _ hwidth.symm)
          (fun b hb j x y => forward_backward (h s hs b (by rwa [width_div hs] at hb)) x y) i hi,
        pow_succ]
      ring
  have hall := hlayers l (Nat.le_refl l) i hi
  rwa [Nat.sub_self] at hall

end Networks

/-! ## Evaluation -/

section Evaluation

open Finset

theorem sum_range_two_mul (f : Nat → R) (n : Nat) :
    ∑ t ∈ range (2 * n), f t = ∑ t ∈ range n, (f (2 * t) + f (2 * t + 1)) := by
  induction n with
  | zero => rfl
  | succ n ih =>
    rw [show 2 * (n + 1) = 2 * n + 1 + 1 by omega, sum_range_succ, sum_range_succ, ih,
      sum_range_succ, add_assoc]

/-- The transform of interleaved entries, from those of its two halves. -/
theorem dft_halves (ω : R) (w : Nat → R) (n x d k : Nat) :
    ∑ t ∈ range (2 * n), w (x + t * d) * ω ^ (t * k) =
      (∑ t ∈ range n, w (x + t * (2 * d)) * (ω ^ 2) ^ (t * k)) +
        ω ^ k * ∑ t ∈ range n, w (d + x + t * (2 * d)) * (ω ^ 2) ^ (t * k) := by
  rw [sum_range_two_mul, mul_sum, ← sum_add_distrib]
  apply sum_congr rfl
  intro t _
  rw [show x + 2 * t * d = x + t * (2 * d) by ring,
    show x + (2 * t + 1) * d = d + x + t * (2 * d) by ring, ← pow_mul,
    show 2 * t * k = 2 * (t * k) by ring, show (2 * t + 1) * k = k + 2 * (t * k) by ring, pow_add]
  ring

/-- The points behind the blocks of a transform, from one point for the whole array: the
two halves of a block belong to the two square roots of its point. -/
def leafRoot (root : R) (zeta : Nat → R) : Nat → Nat → R
  | 0, _ => root
  | s + 1, b => if b % 2 = 0 then zeta (2 ^ s + b / 2) else -zeta (2 ^ s + b / 2)

/-- Each factor of the table is a square root of the point of its block. -/
def SquareRoots (root : R) (zeta : Nat → R) (l : Nat) : Prop :=
  ∀ s < l, ∀ b < 2 ^ s, zeta (2 ^ s + b) ^ 2 = leafRoot root zeta s b

variable {root : R} {zeta : Nat → R} {l s : Nat}

theorem SquareRoots.leafRoot_sq (h : SquareRoots root zeta l) (hs : s < l) {b : Nat}
    (hb : b < 2 ^ (s + 1)) : leafRoot root zeta (s + 1) b ^ 2 = leafRoot root zeta s (b / 2) := by
  have hhalf : b / 2 < 2 ^ s := by
    rw [pow_succ'] at hb
    omega
  rw [← h s hs _ hhalf, leafRoot]
  split
  · rfl
  · exact neg_sq _

/-- The points are roots of the one for the whole array. -/
theorem SquareRoots.leafRoot_pow (h : SquareRoots root zeta l) (hs : s ≤ l) {b : Nat}
    (hb : b < 2 ^ s) : leafRoot root zeta s b ^ 2 ^ s = root := by
  induction s generalizing b with
  | zero => rw [pow_zero, pow_one, leafRoot]
  | succ s ih =>
    rw [pow_succ', pow_mul, h.leafRoot_sq hs hb]
    refine ih (by omega) ?_
    rw [pow_succ'] at hb
    omega

/-- After `s` layers, each block holds the polynomial of the array modulo
`X ^ 2^(l-s)` less the point of the block. -/
theorem forwardLayers_eq_eval (h : SquareRoots root zeta l) (w : Nat → R) (hs : s ≤ l) {b j : Nat}
    (hb : b < 2 ^ s) (hj : j < 2 ^ (l - s)) :
    (forwardLayers zeta l s w).1 (2 ^ (l - s) * b + j) =
      ∑ t ∈ range (2 ^ s), w (j + t * 2 ^ (l - s)) * leafRoot root zeta s b ^ t := by
  induction s generalizing b j with
  | zero =>
    obtain rfl : b = 0 := by simpa using hb
    rw [pow_zero, sum_range_one, Nat.mul_zero, Nat.zero_add, Nat.zero_mul, Nat.add_zero, pow_zero,
      mul_one]
    rfl
  | succ s ih =>
    have hhalf : b / 2 < 2 ^ s := by
      rw [pow_succ'] at hb
      omega
    have hwidth : 2 ^ (l - s) = 2 * 2 ^ (l - (s + 1)) := by
      rw [← pow_succ', show l - (s + 1) + 1 = l - s by omega]
    have hlt : 2 ^ (l - (s + 1)) * b + j < 2 ^ l := by
      have hle : 2 ^ (l - (s + 1)) * (b + 1) ≤ 2 ^ (l - (s + 1)) * 2 ^ (s + 1) :=
        Nat.mul_le_mul_left _ hb
      rw [← pow_add, Nat.sub_add_cancel hs, Nat.mul_succ] at hle
      omega
    have hfirst := ih (by omega) hhalf (j := j) (by omega)
    have hsecond := ih (by omega) hhalf (j := 2 ^ (l - (s + 1)) + j) (by omega)
    rw [forwardLayers_fst zeta w hs _ hlt, show l - 1 - s = l - (s + 1) by omega]
    rw [hwidth] at hfirst hsecond
    generalize 2 ^ (l - (s + 1)) = len at *
    have hroot : leafRoot root zeta s (b / 2) = zeta (2 ^ s + b / 2) ^ 2 := (h s hs _ hhalf).symm
    rw [hroot] at hfirst hsecond
    have hsum := fun z : R => dft_halves z w (2 ^ s) j len 1
    simp only [mul_one, pow_one] at hsum
    rw [pow_succ', leafRoot, hsum]
    -- An even block is the first half of a block of the layer before, an odd one the second.
    by_cases heven : b % 2 = 0
    · have hsplit : len * b + j = 2 * len * (b / 2) + j := by
        rw [Nat.mul_comm 2, Nat.mul_assoc, show 2 * (b / 2) = b by omega]
      rw [if_pos heven, hsplit, pairs_first _ _ _ hj, hfirst, hsecond]
      rfl
    · have hsplit : len * b + j = 2 * len * (b / 2) + (len + j) := by
        rw [← Nat.add_assoc, Nat.mul_comm 2, Nat.mul_assoc, ← Nat.mul_succ,
          show (2 * (b / 2)).succ = b by omega]
      rw [if_neg heven, hsplit, pairs_second _ _ _ hj, hfirst, hsecond, neg_sq, neg_mul,
        ← sub_eq_add_neg]
      rfl

/-- The transform evaluates the polynomial of the array at the points of its entries. -/
theorem forwardNet_eq_eval (h : SquareRoots root zeta l) (w : Nat → R) {i : Nat} (hi : i < 2 ^ l) :
    forwardNet zeta l w i = ∑ t ∈ range (2 ^ l), w t * leafRoot root zeta l i ^ t := by
  have hall := forwardLayers_eq_eval h w (Nat.le_refl l) hi (j := 0) (by simp)
  simp only [Nat.sub_self, pow_zero, one_mul, mul_one, add_zero, zero_add] at hall
  exact hall

/-- At a root of `X ^ (n + 1) + 1`, moving the entries up by one place, the last one to the
front with the other sign, multiplies by the root. -/
theorem eval_shift {n : Nat} {x : R} (hx : x ^ (n + 1) = -1) {w w' : Nat → R}
    (hfirst : w' 0 = -w n) (hrest : ∀ t < n, w' (t + 1) = w t) :
    ∑ t ∈ range (n + 1), w' t * x ^ t = x * ∑ t ∈ range (n + 1), w t * x ^ t := by
  have hterm : ∀ t ∈ range n, w' (t + 1) * x ^ (t + 1) = x * (w t * x ^ t) := by
    intro t ht
    rw [hrest t (mem_range.mp ht), pow_succ]
    ring
  rw [sum_range_succ', sum_congr rfl hterm, ← mul_sum, hfirst, sum_range_succ _ n]
  linear_combination -w n * hx

end Evaluation

end Trelis.Butterfly
