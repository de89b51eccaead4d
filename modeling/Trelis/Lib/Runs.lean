import Mathlib.Data.List.Sort

/-!
# Runs of a list

A list that is cut into consecutive runs, as an array of entries beside an array of
the positions where each run stops.

`runsOf` reads the runs off the entries, and `cutsOf` is where given runs stop.  The
two are inverse to each other: the runs of a concatenation are its parts
(`runsOf_cutsOf`), and positions in order are where the runs between them stop
(`cutsOf_runsOf`).
-/

namespace Trelis

variable {α : Type}

/-- The runs of `xs` from `start` that stop at the given positions. -/
def runsOf (xs : List α) : Nat → List Nat → List (List α)
  | _, [] => []
  | start, stop :: stops => (xs.take stop).drop start :: runsOf xs stop stops

/-- The positions where runs from `start` stop. -/
def cutsOf : Nat → List (List α) → List Nat
  | _, [] => []
  | start, run :: rest => (start + run.length) :: cutsOf (start + run.length) rest

/-- The positions are in order, from `start` to the end of `xs` at most. -/
def CutsWithin (n start : Nat) (stops : List Nat) : Prop :=
  (start :: stops).Pairwise (· ≤ ·) ∧ ∀ stop ∈ start :: stops, stop ≤ n

section

variable {xs pre post : List α} {rows : List (List α)} {start stop n : Nat} {stops : List Nat}

theorem CutsWithin.tail (h : CutsWithin n start (stop :: stops)) : CutsWithin n stop stops :=
  ⟨h.1.tail, fun s hs => h.2 s (List.mem_cons_of_mem _ hs)⟩

theorem CutsWithin.le (h : CutsWithin n start (stop :: stops)) : start ≤ stop ∧ stop ≤ n :=
  ⟨List.rel_of_pairwise_cons h.1 List.mem_cons_self,
    h.2 stop (List.mem_cons_of_mem _ List.mem_cons_self)⟩

theorem CutsWithin.le_getLastD (h : CutsWithin n start stops) :
    start ≤ stops.getLastD start ∧ stops.getLastD start ≤ n := by
  cases stops with
  | nil => exact ⟨Nat.le_refl _, h.2 start List.mem_cons_self⟩
  | cons stop stops =>
    have hmem : (stop :: stops).getLastD start ∈ stop :: stops := by
      rw [List.getLastD_cons, List.getLastD_eq_getLast?]
      cases hlast : stops.getLast? with
      | none => simp
      | some s => simpa using .inr (List.mem_of_getLast? hlast)
    exact ⟨List.rel_of_pairwise_cons h.1 hmem, h.2 _ (List.mem_cons_of_mem _ hmem)⟩

@[simp] theorem length_runsOf (xs : List α) (start : Nat) (stops : List Nat) :
    (runsOf xs start stops).length = stops.length := by
  induction stops generalizing start with
  | nil => rfl
  | cons stop stops ih => rw [runsOf, List.length_cons, ih, List.length_cons]

@[simp] theorem length_cutsOf (start : Nat) (rows : List (List α)) :
    (cutsOf start rows).length = rows.length := by
  induction rows generalizing start with
  | nil => rfl
  | cons row rows ih => rw [cutsOf, List.length_cons, ih, List.length_cons]

/-- The runs of a concatenation are its parts. -/
theorem runsOf_cutsOf (pre : List α) (rows : List (List α)) (post : List α) :
    runsOf (pre ++ (rows.flatten ++ post)) pre.length (cutsOf pre.length rows) = rows := by
  induction rows generalizing pre with
  | nil => rfl
  | cons row rows ih =>
    have hsplit : pre ++ ((row :: rows).flatten ++ post) =
        (pre ++ row) ++ (rows.flatten ++ post) := by
      rw [List.flatten_cons, List.append_assoc, List.append_assoc]
    have hlen : pre.length + row.length = (pre ++ row).length := List.length_append.symm
    rw [cutsOf, runsOf, hsplit, hlen, List.take_left, List.drop_left, ih]

/-- The positions between which the runs were read are where they stop. -/
theorem cutsOf_runsOf (h : CutsWithin xs.length start stops) :
    cutsOf start (runsOf xs start stops) = stops := by
  induction stops generalizing start with
  | nil => rfl
  | cons stop stops ih =>
    have hle := h.le
    have hlen : start + ((xs.take stop).drop start).length = stop := by
      rw [List.length_drop, List.length_take]
      omega
    rw [runsOf, cutsOf, hlen, ih h.tail]

/-- The runs make up the entries from the first position to the last. -/
theorem flatten_runsOf (h : CutsWithin xs.length start stops) :
    (runsOf xs start stops).flatten = (xs.take (stops.getLastD start)).drop start := by
  induction stops generalizing start with
  | nil =>
    rw [runsOf, List.flatten_nil, List.getLastD_nil, List.drop_eq_nil_of_le]
    exact List.length_take_le _ _
  | cons stop stops ih =>
    have hle := h.le
    have hlast := h.tail.le_getLastD
    rw [runsOf, List.flatten_cons, ih h.tail, List.getLastD_cons]
    generalize stops.getLastD stop = last at hlast
    have htake : xs.take stop = (xs.take last).take stop := by
      rw [List.take_take, Nat.min_eq_left hlast.1]
    have hdrop : (xs.take last).drop stop =
        ((xs.take last).drop start).drop (stop - start) := by
      rw [List.drop_drop]
      congr 1
      omega
    rw [htake, List.drop_take, hdrop, List.take_append_drop]

theorem getLastD_cutsOf (start : Nat) (rows : List (List α)) :
    (cutsOf start rows).getLastD start = start + rows.flatten.length := by
  induction rows generalizing start with
  | nil => rfl
  | cons row rows ih =>
    rw [cutsOf, List.getLastD_cons, ih, List.flatten_cons, List.length_append]
    omega

theorem cutsWithin_cutsOf (h : start + rows.flatten.length ≤ n) :
    CutsWithin n start (cutsOf start rows) := by
  induction rows generalizing start with
  | nil => exact ⟨List.pairwise_singleton _ _, by simpa [cutsOf] using h⟩
  | cons row rows ih =>
    rw [List.flatten_cons, List.length_append] at h
    have hrest : start + row.length + rows.flatten.length ≤ n := by omega
    obtain ⟨hsorted, hbound⟩ := ih hrest
    have hfirst : ∀ stop ∈ cutsOf start (row :: rows), start ≤ stop := by
      intro stop hstop
      rw [cutsOf] at hstop
      rcases List.mem_cons.mp hstop with rfl | hmem
      · omega
      · have hle := List.rel_of_pairwise_cons hsorted hmem
        omega
    refine ⟨List.pairwise_cons.mpr ⟨hfirst, hsorted⟩, ?_⟩
    intro stop hstop
    rcases List.mem_cons.mp hstop with rfl | hmem
    · omega
    · exact hbound stop hmem

/-- Positions in order end with their maximum. -/
theorem max?_getD_eq_getLastD (h : (start :: stops).Pairwise (· ≤ ·)) :
    max start (stops.max?.getD start) = stops.getLastD start := by
  induction stops generalizing start with
  | nil => exact Nat.max_self start
  | cons stop stops ih =>
    have hle : start ≤ stop := List.rel_of_pairwise_cons h List.mem_cons_self
    have hmax : (stop :: stops).max? = some (max stop (stops.max?.getD stop)) := by
      rw [List.max?_cons]
      cases stops.max? <;> simp
    rw [hmax, Option.getD_some, ih h.tail, List.getLastD_cons]
    have hlast : stop ≤ stops.getLastD stop := by
      rw [← ih h.tail]
      exact Nat.le_max_left _ _
    exact Nat.max_eq_right (hle.trans hlast)

end

end Trelis
