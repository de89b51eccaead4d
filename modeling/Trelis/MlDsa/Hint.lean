import Trelis.Lib.Bytes
import Trelis.Lib.Panic
import Trelis.Lib.Runs
import Trelis.MlDsa.Poly

/-!
# Hints

`Hint` of `mldsa_core/hint.rs`, and its encoding in `Omega + K` bytes: the positions
of the set bits of each polynomial, one polynomial after another, then zeros, and
then where the positions of each polynomial stop.

`bitPack_eq` says in closed form what `bit_pack` writes, and `bitUnpack_eq_some` what
`bit_unpack` accepts and what it reads.  Reading back what was written returns the
hint (`bitUnpack_bitPack`).  Writing what was read returns the bytes exactly when
the positions of each polynomial strictly increase (`bitPack_bitUnpack_iff`);
`monotonic` accepts equal ones.
-/

namespace Trelis.MlDsa

/-- `Hint`: one bit for every coefficient of a vector. -/
abbrev Hint (k : Nat) := Fin k → Fin 256 → Bool

namespace Hint

variable {k : Nat}

/-- `Hint::new`. -/
def new (twoGamma2 : Nat) (z r : Vector k) : Hint k := fun i j => (z i j).makeHint twoGamma2 (r i j)

/-- `hamming_weight`. -/
def hammingWeight (h : Hint k) : Nat :=
  ((List.finRange k).map fun i => ((List.finRange 256).filter (h i)).length).sum

/-- `use_hint`. -/
def useHint (twoGamma2 : Nat) (h : Hint k) (r : Vector k) : Vector k :=
  fun i j => Elem.useHint twoGamma2 (h i j) (r i j)

/-- `y[n] = x`. -/
def store (y : Bytes) (n : Nat) (x : UInt8) : Option Bytes :=
  if n < y.length then some (y.set n x) else none

/-- The inner loop of `bit_pack`, with `y` and `index`. -/
def packRow (row : Fin 256 → Bool) (s : Bytes × Nat) : Option (Bytes × Nat) :=
  (List.finRange 256).foldlM (fun s j =>
    if row j then (store s.1 s.2 (UInt8.ofNat j.val)).map fun y => (y, s.2 + 1) else some s) s

/-- The body of the outer loop. -/
def packStep (omega : Nat) (h : Hint k) (s : Bytes × Nat) (i : Fin k) : Option (Bytes × Nat) := do
  let s ← packRow (h i) s
  let y ← store s.1 (omega + i.val) (UInt8.ofNat s.2)
  pure (y, s.2)

/-- `bit_pack`. -/
def bitPack (omega : Nat) (h : Hint k) : Option Bytes :=
  ((List.finRange k).foldlM (packStep omega h) (List.replicate (omega + k) 0, 0)).map Prod.fst

/-- `monotonic`. -/
def monotonic (a : List Nat) : Bool :=
  a.zipIdx.all fun e => e.2 == 0 || decide (a.getD (e.2 - 1) 0 ≤ e.1)

/-- `h.0[i][j] = true`. -/
def mark (h : Hint k) (i j : Nat) : Hint k := fun r c => h r c || (r.val == i && c.val == j)

/-- The indices of `split_hint`. -/
def indices (omega : Nat) (y : Bytes) : List Nat := (y.take omega).map UInt8.toNat

/-- The cuts of `split_hint`. -/
def cuts (omega : Nat) (y : Bytes) : List Nat := (y.drop omega).map UInt8.toNat

/-- The loop of `bit_unpack` over the cuts, with `h` and `start`.  The slices are within
the array: the cuts increase, and none is larger than the number of indices. -/
def unpackRuns (indices : List Nat) (cuts : List (Nat × Nat)) (s : Hint k × Nat) :
    Option (Hint k × Nat) :=
  cuts.foldlM (fun s cut =>
    let run := (indices.take cut.1).drop s.2
    if monotonic run then some (run.foldl (fun h j => mark h cut.2 j) s.1, cut.1) else none) s

/-- `bit_unpack`. -/
def bitUnpack (omega k : Nat) (y : Bytes) : Option (Hint k) :=
  let maxCut := (cuts omega y).max?.getD 0
  if !monotonic (cuts omega y) ∨ (indices omega y).length < maxCut ∨
      0 < ((indices omega y).drop maxCut).max?.getD 0 then none
  else (unpackRuns (indices omega y) (cuts omega y).zipIdx (fun _ _ => false, 0)).map Prod.fst

/-! ## What is written -/

/-- The positions of the set bits of a polynomial. -/
def positions (row : Fin 256 → Bool) : List Nat := ((List.finRange 256).filter row).map Fin.val

/-- The positions of all of them. -/
def rows (h : Hint k) : List (List Nat) := (List.finRange k).map fun i => positions (h i)

/-- The bytes for the positions of `k` polynomials: the positions, zeros up to `omega`
of them, and where each polynomial stops. -/
def layout (omega : Nat) (rows : List (List Nat)) : Bytes :=
  (rows.flatten ++ List.replicate (omega - rows.flatten.length) 0 ++ cutsOf 0 rows).map UInt8.ofNat

theorem positions_strict (row : Fin 256 → Bool) : (positions row).Pairwise (· < ·) := by
  rw [positions, List.pairwise_map]
  exact (List.pairwise_lt_finRange 256).filter _

theorem mem_positions {row : Fin 256 → Bool} {c : Fin 256} : c.val ∈ positions row ↔ row c := by
  simp only [positions, List.mem_map, List.mem_filter, List.mem_finRange, true_and]
  constructor
  · intro h
    rcases h with ⟨c', hc', heq⟩
    rw [← Fin.ext heq]
    exact hc'
  · intro h
    exact ⟨c, h, rfl⟩

theorem lt_of_mem_positions {row : Fin 256 → Bool} {c : Nat} (h : c ∈ positions row) : c < 256 := by
  obtain ⟨j, _, rfl⟩ := List.mem_map.mp h
  exact j.isLt

theorem length_flatten_rows (h : Hint k) : (rows h).flatten.length = hammingWeight h := by
  rw [List.length_flatten, rows, List.map_map, hammingWeight]
  congr 1
  apply List.map_congr_left
  intro i _
  exact List.length_map _

theorem length_rows (h : Hint k) : (rows h).length = k := by
  rw [rows, List.length_map, List.length_finRange]

/-- A store at the end of what was written. -/
theorem store_append (A C : Bytes) (x : UInt8) (n : Nat) :
    store (A ++ (List.replicate (n + 1) 0 ++ C)) A.length x =
      some (A ++ [x] ++ (List.replicate n 0 ++ C)) := by
  rw [store, if_pos (by simp), List.set_append_right _ _ (Nat.le_refl _), Nat.sub_self,
    List.replicate_succ, List.cons_append, List.set_cons_zero, List.append_assoc,
    List.singleton_append]

/-- The inner loop appends the positions of its row. -/
theorem packRow_eq {row : Fin 256 → Bool} (A C : Bytes) {n : Nat}
    (hn : (positions row).length ≤ n) :
    packRow row (A ++ (List.replicate n 0 ++ C), A.length) =
      some (A ++ (positions row).map UInt8.ofNat ++
          (List.replicate (n - (positions row).length) 0 ++ C),
        A.length + (positions row).length) := by
  have hloop : ∀ (js : List (Fin 256)) (A : Bytes) (n : Nat), (js.filter row).length ≤ n →
      js.foldlM (fun s j =>
          if row j then (store s.1 s.2 (UInt8.ofNat j.val)).map fun y => (y, s.2 + 1) else some s)
          (A ++ (List.replicate n 0 ++ C), A.length) =
        some (A ++ ((js.filter row).map Fin.val).map UInt8.ofNat ++
            (List.replicate (n - (js.filter row).length) 0 ++ C),
          A.length + (js.filter row).length) := by
    intro js
    induction js with
    | nil => simp
    | cons j js ih =>
      intro A n hn
      rw [List.foldlM_cons]
      by_cases hj : row j
      · rw [List.filter_cons_of_pos hj, List.length_cons] at hn ⊢
        obtain ⟨m, rfl⟩ : ∃ m, n = m + 1 := ⟨n - 1, by omega⟩
        have hlen : A.length + 1 = (A ++ [UInt8.ofNat j.val]).length := by simp
        simp only [if_pos hj, store_append, Option.map_some, Option.bind_eq_bind, Option.bind_some]
        rw [hlen, ih _ m (by omega)]
        simp [Nat.add_assoc, Nat.add_comm 1]
      · rw [List.filter_cons_of_neg hj] at hn ⊢
        simp only [if_neg hj, Option.bind_eq_bind, Option.bind_some]
        exact ih A n hn
  have hlen : (positions row).length = ((List.finRange 256).filter row).length :=
    List.length_map _
  rw [packRow, hlen]
  exact hloop _ A n (hlen ▸ hn)

/-- A step appends the positions of its polynomial, and writes where they stop. -/
theorem packStep_eq {omega n m : Nat} {h : Hint k} {i : Fin k} (A C : Bytes)
    (hi : i.val = C.length) (homega : A.length + n = omega) (hn : (positions (h i)).length ≤ n) :
    packStep omega h (A ++ (List.replicate n 0 ++ (C ++ List.replicate (m + 1) 0)), A.length) i =
      some (A ++ (positions (h i)).map UInt8.ofNat ++
          (List.replicate (n - (positions (h i)).length) 0 ++
            (C ++ [UInt8.ofNat (A.length + (positions (h i)).length)] ++ List.replicate m 0)),
        A.length + (positions (h i)).length) := by
  have hlast := store_append (A ++ (positions (h i)).map UInt8.ofNat ++
    (List.replicate (n - (positions (h i)).length) 0 ++ C)) []
    (UInt8.ofNat (A.length + (positions (h i)).length)) m
  have hat : (A ++ (positions (h i)).map UInt8.ofNat ++
      (List.replicate (n - (positions (h i)).length) 0 ++ C)).length = omega + i.val := by
    rw [hi, List.length_append, List.length_append, List.length_append, List.length_map,
      List.length_replicate]
    omega
  rw [hat] at hlast
  simp only [packStep, packRow_eq A _ hn, bind, pure, Option.bind_some]
  simp only [List.append_nil, List.append_assoc] at hlast ⊢
  rw [hlast, Option.bind_some]

/-- The loop appends the positions of its polynomials, and writes where they stop. -/
theorem packSteps_eq {omega n : Nat} {h : Hint k} {is : List (Fin k)} (A C : Bytes)
    (his : is.map Fin.val = List.range' C.length is.length) (homega : A.length + n = omega)
    (hn : (is.map fun i => positions (h i)).flatten.length ≤ n) :
    is.foldlM (packStep omega h)
        (A ++ (List.replicate n 0 ++ (C ++ List.replicate is.length 0)), A.length) =
      some (A ++ (is.map fun i => positions (h i)).flatten.map UInt8.ofNat ++
          (List.replicate (n - (is.map fun i => positions (h i)).flatten.length) 0 ++
            (C ++ (cutsOf A.length (is.map fun i => positions (h i))).map UInt8.ofNat)),
        A.length + (is.map fun i => positions (h i)).flatten.length) := by
  induction is generalizing A C n with
  | nil => simp [cutsOf]
  | cons i is ih =>
    rw [List.map_cons, List.flatten_cons, List.length_append] at hn
    rw [List.map_cons, List.length_cons, List.range'_succ, List.cons.injEq] at his
    have hlen : A.length + (positions (h i)).length =
        (A ++ (positions (h i)).map UInt8.ofNat).length := by
      rw [List.length_append, List.length_map]
    have hcut : (C ++ [UInt8.ofNat (A.length + (positions (h i)).length)]).length =
        C.length + 1 := List.length_append
    rw [List.foldlM_cons, List.length_cons, packStep_eq A C his.1 homega (by omega)]
    simp only [bind, Option.bind_some]
    rw [hlen, ih _ _ (by rw [his.2, ← hlen, hcut]) (by rw [← hlen]; omega) (by omega)]
    simp only [List.map_cons, List.flatten_cons, List.map_append, List.length_append, cutsOf,
      List.length_map, List.append_assoc, List.singleton_append, Nat.add_assoc, Nat.sub_sub]

/-- What `bit_pack` writes. -/
theorem bitPack_eq {omega : Nat} {h : Hint k} (hw : hammingWeight h ≤ omega) :
    bitPack omega h = some (layout omega (rows h)) := by
  have hrange : (List.finRange k).map Fin.val = List.range' 0 (List.finRange k).length := by
    rw [List.map_coe_finRange_eq_range, List.length_finRange, List.range_eq_range']
  have hempty : ([] : Bytes).length + omega = omega := Nat.zero_add omega
  have hall := packSteps_eq [] [] hrange hempty ((length_flatten_rows h).trans_le hw)
  rw [List.length_finRange, List.nil_append, List.nil_append,
    List.replicate_append_replicate] at hall
  rw [bitPack]
  show Option.map Prod.fst (List.foldlM (packStep omega h) (_, ([] : Bytes).length) _) = _
  rw [hall]
  simp [layout, rows]

/-! ## What is read -/

theorem monotonic_iff {a : List Nat} : monotonic a ↔ a.Pairwise (· ≤ ·) := by
  rw [← List.isChain_iff_pairwise, List.isChain_iff_getElem, monotonic, List.all_eq_true]
  simp only [Bool.or_eq_true, decide_eq_true_eq, beq_iff_eq, List.getD_eq_getElem?_getD]
  constructor
  · intro h i hi
    have hmem : (a[i + 1], i + 1) ∈ a.zipIdx :=
      List.mk_mem_zipIdx_iff_getElem?.mpr (List.getElem?_eq_getElem hi)
    have hle := h _ hmem
    rw [Nat.add_sub_cancel, List.getElem?_eq_getElem (by omega)] at hle
    exact hle.resolve_left (Nat.succ_ne_zero i)
  · intro h e he
    have hget : a[e.2]? = some e.1 := List.mem_zipIdx_iff_getElem?.mp he
    obtain ⟨hlt, hval⟩ := List.getElem?_eq_some_iff.mp hget
    by_cases h0 : e.2 = 0
    · exact .inl h0
    · have hle := h (e.2 - 1) (by omega)
      refine .inr ?_
      rw [List.getElem?_eq_getElem (by omega), Option.getD_some, ← hval]
      simpa only [Nat.sub_add_cancel (Nat.pos_of_ne_zero h0)] using hle

/-- The positions that the bytes hold for each polynomial. -/
def runs (omega : Nat) (y : Bytes) : List (List Nat) :=
  runsOf (indices omega y) 0 (cuts omega y)

/-- The hint with the given positions. -/
def ofRows (k : Nat) (rows : List (List Nat)) : Hint k :=
  fun r c => (rows.getD r.val []).contains c.val

/-- What `bit_unpack` checks. -/
structure Accepted (omega : Nat) (y : Bytes) : Prop where
  cuts_within : CutsWithin omega 0 (cuts omega y)
  padding : ∀ x ∈ (indices omega y).drop ((cuts omega y).getLastD 0), x = 0
  sorted : ∀ run ∈ runs omega y, run.Pairwise (· ≤ ·)

theorem foldl_mark (run : List Nat) (i : Nat) (h : Hint k) (r : Fin k) (c : Fin 256) :
    run.foldl (fun h j => mark h i j) h r c = (h r c || (r.val == i && run.contains c.val)) := by
  induction run generalizing h with
  | nil => simp
  | cons j run ih =>
    rw [List.foldl_cons, ih, mark, List.contains_cons]
    cases h r c <;> cases r.val == i <;> simp

/-- The hint `h`, with the positions of the rows from number `i` on marked. -/
def markRows (i : Nat) (rows : List (List Nat)) (h : Hint k) : Hint k := fun r c =>
  h r c || (decide (i ≤ r.val) && (rows.getD (r.val - i) []).contains c.val)

theorem markRows_cons (i : Nat) (row : List Nat) (rows : List (List Nat)) (h : Hint k) :
    markRows i (row :: rows) h = markRows (i + 1) rows (row.foldl (fun h j => mark h i j) h) := by
  funext r c
  rw [markRows, markRows, foldl_mark]
  by_cases hlt : r.val < i
  · rw [decide_eq_false (by omega), decide_eq_false (by omega), beq_eq_false_iff_ne.mpr (by omega)]
    simp
  · by_cases heq : r.val = i
    · rw [heq, decide_eq_true (Nat.le_refl i), decide_eq_false (by omega), beq_self_eq_true,
        Nat.sub_self]
      simp
    · have hsub : r.val - i = r.val - (i + 1) + 1 := by omega
      rw [decide_eq_true (by omega), decide_eq_true (by omega),
        beq_eq_false_iff_ne.mpr heq, hsub, List.getD_cons_succ]
      simp

/-- The loop checks that each run increases, and marks its positions. -/
theorem unpackRuns_eq (xs stops : List Nat) (i start : Nat) (h : Hint k) :
    unpackRuns xs (stops.zipIdx i) (h, start) =
      if (runsOf xs start stops).all monotonic then
        some (markRows i (runsOf xs start stops) h, stops.getLastD start)
      else none := by
  induction stops generalizing i start h with
  | nil =>
    have hmark : markRows i [] h = h := by
      funext r c
      simp [markRows]
    rw [runsOf, hmark]
    rfl
  | cons stop stops ih =>
    rw [List.zipIdx_cons, unpackRuns, List.foldlM_cons, runsOf, List.all_cons, markRows_cons,
      List.getLastD_cons]
    by_cases hrun : monotonic ((xs.take stop).drop start)
    · simp only [hrun, if_true, Bool.true_and, bind, Option.bind_some]
      exact ih (i + 1) stop _
    · simp [hrun]

theorem markRows_zero (rows : List (List Nat)) :
    markRows 0 rows (fun _ _ => false : Hint k) = ofRows k rows := by
  funext r c
  simp [markRows, ofRows]

theorem max?_getD_le_iff {l : List Nat} {n : Nat} : l.max?.getD 0 ≤ n ↔ ∀ x ∈ l, x ≤ n := by
  cases hl : l.max? with
  | none => simp [List.max?_eq_none_iff.mp hl]
  | some a => exact List.max?_le_iff hl

/-- The checks of `bit_unpack` before its loop. -/
theorem checks_iff {omega : Nat} {xs : List Nat} (stops : List Nat) (hxs : xs.length = omega) :
    ¬ (!monotonic stops ∨ xs.length < stops.max?.getD 0 ∨
        0 < (xs.drop (stops.max?.getD 0)).max?.getD 0) ↔
      CutsWithin omega 0 stops ∧ ∀ x ∈ xs.drop (stops.getLastD 0), x = 0 := by
  have hzero : ∀ stop ∈ stops, 0 ≤ stop := fun stop _ => Nat.zero_le stop
  rw [not_or, not_or, Bool.not_eq_true', Bool.not_eq_false, monotonic_iff, Nat.not_lt, Nat.not_lt,
    hxs, max?_getD_le_iff, max?_getD_le_iff]
  simp only [Nat.le_zero]
  constructor
  · intro h
    rcases h with ⟨hsorted, hbound, hpad⟩
    have hcons : (0 :: stops).Pairwise (· ≤ ·) := List.pairwise_cons.mpr ⟨hzero, hsorted⟩
    have hlast := max?_getD_eq_getLastD hcons
    rw [Nat.zero_max] at hlast
    rw [← hlast]
    refine ⟨⟨hcons, ?_⟩, hpad⟩
    intro stop hstop
    rcases List.mem_cons.mp hstop with rfl | hmem
    · exact Nat.zero_le _
    · exact hbound stop hmem
  · intro h
    rcases h with ⟨⟨hcons, hbound⟩, hpad⟩
    have hlast := max?_getD_eq_getLastD hcons
    rw [Nat.zero_max] at hlast
    rw [hlast]
    exact ⟨hcons.tail, fun stop hstop => hbound stop (List.mem_cons_of_mem _ hstop), hpad⟩

theorem length_indices {omega : Nat} {y : Bytes} (hlen : y.length = omega + k) :
    (indices omega y).length = omega := by
  rw [indices, List.length_map, List.length_take]
  omega

/-- What `bit_unpack` accepts, and what it reads. -/
theorem bitUnpack_eq_some {omega : Nat} {y : Bytes} {h : Hint k} (hlen : y.length = omega + k) :
    bitUnpack omega k y = some h ↔ Accepted omega y ∧ h = ofRows k (runs omega y) := by
  have hchecks := checks_iff (cuts omega y) (length_indices hlen)
  have hruns : (runsOf (indices omega y) 0 (cuts omega y)).all monotonic ↔
      ∀ run ∈ runs omega y, run.Pairwise (· ≤ ·) := by
    simp only [List.all_eq_true, monotonic_iff, runs]
  rw [bitUnpack, unpackRuns_eq, markRows_zero]
  constructor
  · intro heq
    split at heq
    · cases heq
    · rename_i hpass
      obtain ⟨hwithin, hpad⟩ := hchecks.mp hpass
      split at heq
      · rename_i hall
        exact ⟨⟨hwithin, hpad, hruns.mp hall⟩, (Option.some.inj heq).symm⟩
      · cases heq
  · intro haccepted
    rcases haccepted with ⟨⟨hwithin, hpad, hall⟩, rfl⟩
    rw [if_neg (hchecks.mpr ⟨hwithin, hpad⟩), if_pos (hruns.mpr hall)]
    rfl

/-! ## Round trips -/

/-- The positions of a row that is given by its positions. -/
theorem positions_contains {run : List Nat} (hlt : ∀ j ∈ run, j < 256) :
    positions (fun c => run.contains c.val) = run ↔ run.Pairwise (· < ·) := by
  constructor
  · intro h
    rw [← h]
    exact positions_strict _
  · intro h
    have hmem : ∀ j, j ∈ positions (fun c => run.contains c.val) ↔ j ∈ run := by
      intro j
      by_cases hj : j < 256
      · exact (mem_positions (c := ⟨j, hj⟩)).trans List.contains_iff_mem
      · exact iff_of_false (fun hpos => hj (lt_of_mem_positions hpos)) (fun hrun => hj (hlt j hrun))
    have hperm : (positions fun c => run.contains c.val).Perm run :=
      (List.perm_ext_iff_of_nodup ((positions_strict _).imp Nat.ne_of_lt)
        (h.imp Nat.ne_of_lt)).mpr hmem
    exact hperm.eq_of_pairwise (fun a b _ _ hab hba => absurd hab (Nat.lt_asymm hba))
      (positions_strict _) h

theorem length_positions_contains (run : List Nat) :
    (positions fun c => run.contains c.val).length ≤ run.length := by
  have hsub : (positions fun c => run.contains c.val) ⊆ run := by
    intro j hj
    exact List.contains_iff_mem.mp ((mem_positions (c := ⟨j, lt_of_mem_positions hj⟩)).mp hj)
  exact (List.subperm_of_subset ((positions_strict _).imp Nat.ne_of_lt) hsub).length_le

/-- The rows of a hint that is given by its rows. -/
theorem rows_ofRows {R : List (List Nat)} (hlen : R.length = k) :
    rows (ofRows k R) = R.map fun run => positions fun c => run.contains c.val := by
  apply List.ext_getElem
  · rw [length_rows, List.length_map, hlen]
  · intro n hn hn'
    rw [List.length_map] at hn'
    have hrow : ofRows k R ⟨n, hlen ▸ hn'⟩ = fun c => (R[n]).contains c.val := by
      funext c
      simp only [ofRows, List.getD_eq_getElem?_getD, List.getElem?_eq_getElem hn', Option.getD_some]
    simp only [rows, List.getElem_map, List.getElem_finRange]
    exact congrArg positions hrow

theorem ofRows_rows (h : Hint k) : ofRows k (rows h) = h := by
  funext r c
  have hget : (rows h)[r.val]? = some (positions (h r)) := by simp [rows]
  rw [ofRows, List.getD_eq_getElem?_getD, hget, Option.getD_some, Bool.eq_iff_iff,
    List.contains_iff_mem, mem_positions]

section Layout

variable {omega : Nat} {R : List (List Nat)} {y : Bytes}

/-- Rows that fit into `omega` bytes of indices, and whose cuts fit into bytes. -/
structure Fits (omega k : Nat) (R : List (List Nat)) : Prop where
  count : R.length = k
  le : R.flatten.length ≤ omega
  lt : ∀ j ∈ R.flatten, j < 256

theorem map_toNat_ofNat {xs : List Nat} (h : ∀ x ∈ xs, x < 256) :
    (xs.map UInt8.ofNat).map UInt8.toNat = xs := by
  rw [List.map_map]
  exact (List.map_congr_left fun x hx => UInt8.toNat_ofNat_of_lt' (h x hx)).trans (List.map_id _)

theorem map_ofNat_toNat (bytes : Bytes) : (bytes.map UInt8.toNat).map UInt8.ofNat = bytes := by
  rw [List.map_map]
  exact (List.map_congr_left fun b _ => UInt8.ofNat_toNat).trans (List.map_id _)

theorem Fits.length_entries (h : Fits omega k R) :
    (R.flatten ++ List.replicate (omega - R.flatten.length) 0).length = omega := by
  have hle := h.le
  rw [List.length_append, List.length_replicate]
  omega

theorem length_layout (h : Fits omega k R) : (layout omega R).length = omega + k := by
  rw [layout, List.length_map, List.length_append, h.length_entries, length_cutsOf, h.count]

theorem indices_layout (h : Fits omega k R) :
    indices omega (layout omega R) = R.flatten ++ List.replicate (omega - R.flatten.length) 0 := by
  have hlt : ∀ x ∈ R.flatten ++ List.replicate (omega - R.flatten.length) 0, x < 256 := by
    intro x hx
    rcases List.mem_append.mp hx with hmem | hmem
    · exact h.lt x hmem
    · rw [List.eq_of_mem_replicate hmem]
      decide
  rw [indices, layout, List.map_append, List.take_left' (by rw [List.length_map, h.length_entries]),
    map_toNat_ofNat hlt]

theorem cuts_layout (homega : omega < 256) (h : Fits omega k R) :
    cuts omega (layout omega R) = cutsOf 0 R := by
  have hwithin : CutsWithin omega 0 (cutsOf 0 R) :=
    cutsWithin_cutsOf ((Nat.zero_add _).trans_le h.le)
  have hlt : ∀ x ∈ cutsOf 0 R, x < 256 := by
    intro x hx
    exact (hwithin.2 x (List.mem_cons_of_mem _ hx)).trans_lt homega
  rw [cuts, layout, List.map_append, List.drop_left' (by rw [List.length_map, h.length_entries]),
    map_toNat_ofNat hlt]

/-- The rows that were written are read. -/
theorem runs_layout (homega : omega < 256) (h : Fits omega k R) :
    runs omega (layout omega R) = R := by
  rw [runs, indices_layout h, cuts_layout homega h]
  exact runsOf_cutsOf [] R _

theorem accepted_layout (homega : omega < 256) (h : Fits omega k R)
    (hsorted : ∀ run ∈ R, run.Pairwise (· ≤ ·)) : Accepted omega (layout omega R) := by
  refine ⟨?_, ?_, ?_⟩
  · rw [cuts_layout homega h]
    exact cutsWithin_cutsOf ((Nat.zero_add _).trans_le h.le)
  · rw [indices_layout h, cuts_layout homega h, getLastD_cutsOf, Nat.zero_add, List.drop_left]
    exact fun x hx => List.eq_of_mem_replicate hx
  · rw [runs_layout homega h]
    exact hsorted

theorem Accepted.within (hlen : y.length = omega + k) (h : Accepted omega y) :
    CutsWithin (indices omega y).length 0 (cuts omega y) := by
  rw [length_indices hlen]
  exact h.cuts_within

theorem Accepted.flatten_runs (hlen : y.length = omega + k) (h : Accepted omega y) :
    (runs omega y).flatten = (indices omega y).take ((cuts omega y).getLastD 0) := by
  rw [runs, flatten_runsOf (h.within hlen), List.drop_zero]

theorem Accepted.fits (hlen : y.length = omega + k) (h : Accepted omega y) :
    Fits omega k (runs omega y) := by
  refine ⟨?_, ?_, ?_⟩
  · rw [runs, length_runsOf, cuts, List.length_map, List.length_drop]
    omega
  · rw [h.flatten_runs hlen, List.length_take, length_indices hlen]
    exact Nat.min_le_right _ _
  · intro j hj
    rw [h.flatten_runs hlen] at hj
    obtain ⟨b, _, rfl⟩ := List.mem_map.mp (List.mem_of_mem_take hj)
    exact b.toNat_lt

/-- The bytes that were accepted are those of the rows that were read. -/
theorem Accepted.layout_runs (hlen : y.length = omega + k) (h : Accepted omega y) :
    layout omega (runs omega y) = y := by
  have hpad : List.replicate (omega - (runs omega y).flatten.length) 0 =
      (indices omega y).drop ((cuts omega y).getLastD 0) := by
    refine (List.eq_replicate_iff.mpr ⟨?_, h.padding⟩).symm
    have hle := (h.within hlen).le_getLastD.2
    rw [h.flatten_runs hlen, List.length_drop, List.length_take, length_indices hlen] at *
    omega
  rw [layout, hpad, h.flatten_runs hlen, List.take_append_drop, runs,
    cutsOf_runsOf (h.within hlen), indices, cuts, ← List.map_append, List.take_append_drop,
    map_ofNat_toNat]

/-- A hint with at most `omega` bits fits. -/
theorem fits_rows {h : Hint k} (hw : hammingWeight h ≤ omega) : Fits omega k (rows h) := by
  refine ⟨length_rows h, (length_flatten_rows h).trans_le hw, ?_⟩
  intro j hj
  obtain ⟨row, hrow, hmem⟩ := List.mem_flatten.mp hj
  obtain ⟨i, _, rfl⟩ := List.mem_map.mp hrow
  exact lt_of_mem_positions hmem

/-- The bits of a hint that was read are at most as many as the positions. -/
theorem hammingWeight_ofRows (h : Fits omega k R) : hammingWeight (ofRows k R) ≤ omega := by
  rw [← length_flatten_rows, rows_ofRows h.count, List.length_flatten, List.map_map]
  refine Nat.le_trans (List.sum_le_sum fun run _ => length_positions_contains run) ?_
  rw [← List.length_flatten]
  exact h.le

theorem hammingWeight_le_of_bitUnpack {h : Hint k} (hlen : y.length = omega + k)
    (hread : bitUnpack omega k y = some h) : hammingWeight h ≤ omega := by
  obtain ⟨haccepted, rfl⟩ := (bitUnpack_eq_some hlen).mp hread
  exact hammingWeight_ofRows (haccepted.fits hlen)

/-- What was written is read again. -/
theorem bitUnpack_bitPack {h : Hint k} (homega : omega < 256) (hw : hammingWeight h ≤ omega) :
    ∃ y, bitPack omega h = some y ∧ y.length = omega + k ∧ bitUnpack omega k y = some h := by
  have hfits := fits_rows hw
  have hlen := length_layout hfits
  refine ⟨layout omega (rows h), bitPack_eq hw, hlen, (bitUnpack_eq_some hlen).mpr ⟨?_, ?_⟩⟩
  · apply accepted_layout homega hfits
    intro run hrun
    obtain ⟨i, _, rfl⟩ := List.mem_map.mp hrun
    exact (positions_strict _).imp Nat.le_of_lt
  · rw [runs_layout homega hfits, ofRows_rows]

/-- What was read is written again exactly when the positions of each polynomial
strictly increase. -/
theorem bitPack_bitUnpack_iff {h : Hint k} (homega : omega < 256) (hlen : y.length = omega + k)
    (hread : bitUnpack omega k y = some h) :
    bitPack omega h = some y ↔ ∀ run ∈ runs omega y, run.Pairwise (· < ·) := by
  obtain ⟨haccepted, rfl⟩ := (bitUnpack_eq_some hlen).mp hread
  have hfits := haccepted.fits hlen
  have hrows := rows_ofRows hfits.count
  have hw := hammingWeight_ofRows hfits
  have hlt : ∀ run ∈ runs omega y, ∀ j ∈ run, j < 256 := by
    intro run hrun j hj
    exact hfits.lt j (List.mem_flatten.mpr ⟨run, hrun, hj⟩)
  rw [bitPack_eq hw, Option.some.injEq]
  constructor
  · intro heq run hrun
    have hsame : rows (ofRows k (runs omega y)) = runs omega y := by
      conv_lhs => rw [← runs_layout homega (fits_rows hw), heq]
    rw [hrows] at hsame
    exact (positions_contains (hlt run hrun)).mp
      (List.map_inj_left.mp (hsame.trans (List.map_id _).symm) run hrun)
  · intro hstrict
    have hsame : rows (ofRows k (runs omega y)) = runs omega y := by
      rw [hrows, List.map_congr_left fun run hrun =>
        (positions_contains (hlt run hrun)).mpr (hstrict run hrun), List.map_id']
    rw [hsame, haccepted.layout_runs hlen]

end Layout

end Hint

end Trelis.MlDsa
