import Mathlib.Data.List.Perm.Basic
import Mathlib.Order.Lattice

/-!
# Binary search in a sorted list

`binary_search_by_key` of Rust's slices, and insertion at the position that it
reports.

The loop narrows a window of `size` elements from `base` on until one is left.
Its invariant is that everything behind the window is above the wanted key, and
that the first element of the window is not, unless it is the first of all
(`searchLoop_spec`).  With duplicates it is not said which one is found, and the
lemmas do not say it either.
-/

namespace Trelis

variable {α β : Type} [LinearOrder β] (key : α → β) (b : β)

/-- The loop `while size > 1`. -/
def searchLoop (l : List α) (size base : Nat) (hpos : 0 < size) (h : base + size ≤ l.length) :
    Fin l.length :=
  if hsize : 1 < size then
    if b < key (l.get ⟨base + size / 2, by omega⟩) then
      searchLoop l (size - size / 2) base (by omega) (by omega)
    else searchLoop l (size - size / 2) (base + size / 2) (by omega) (by omega)
  else ⟨base, by omega⟩
termination_by size

/-- `binary_search_by_key`: the index of a match, or of the place for one. -/
def binarySearchByKey (l : List α) : Except Nat Nat :=
  if h : 0 < l.length then
    let i := searchLoop key b l l.length 0 h (by omega)
    if key (l.get i) = b then .ok i.val
    else if key (l.get i) < b then .error (i.val + 1)
    else .error i.val
  else .error 0

/-- The keys do not decrease. -/
def SortedBy (l : List α) : Prop := l.Pairwise fun x y => key x ≤ key y

/-- Everything in front of a position is at most the wanted key, and everything
behind it at least. -/
def Splits (l : List α) (p : Nat) : Prop :=
  p ≤ l.length ∧ (∀ x ∈ l.take p, key x ≤ b) ∧ ∀ x ∈ l.drop p, b ≤ key x

variable {key b} {l : List α}

theorem SortedBy.get_le (hl : SortedBy key l) {i j : Fin l.length} (h : i.val ≤ j.val) :
    key (l.get i) ≤ key (l.get j) := by
  by_cases hij : i.val = j.val
  · rw [Fin.ext hij]
  · exact List.pairwise_iff_getElem.mp hl i.val j.val i.isLt j.isLt (by omega)

/-- Where the loop stops. -/
theorem searchLoop_spec (hl : SortedBy key l) {size base : Nat} (hpos : 0 < size)
    (h : base + size ≤ l.length)
    (hfirst : base = 0 ∨ ∀ j : Fin l.length, j.val = base → key (l.get j) ≤ b)
    (habove : ∀ j : Fin l.length, base + size ≤ j.val → b < key (l.get j)) :
    ((searchLoop key b l size base hpos h).val = 0 ∨
      key (l.get (searchLoop key b l size base hpos h)) ≤ b) ∧
    ∀ j, searchLoop key b l size base hpos h < j → b < key (l.get j) := by
  fun_induction searchLoop key b l size base hpos h with
  | case1 size base hpos h hsize hmid ih =>
    refine ih hfirst ?_
    intro j hj
    exact lt_of_lt_of_le hmid (hl.get_le (show base + size / 2 ≤ j.val by omega))
  | case2 size base hpos h hsize hmid ih =>
    refine ih (.inr ?_) ?_
    · intro j hj
      have hsame : j = ⟨base + size / 2, by omega⟩ := Fin.ext hj
      rw [hsame]
      exact not_lt.mp hmid
    · intro j hj
      exact habove j (by omega)
  | case3 size base hpos h hsize =>
    have hone : size = 1 := by omega
    constructor
    · obtain hzero | hle := hfirst
      · exact .inl hzero
      · exact .inr (hle _ rfl)
    · intro j hj
      have hlt : base < j.val := hj
      exact habove j (by omega)

/-- What is found has the wanted key. -/
theorem key_of_binarySearchByKey {i : Nat} (h : binarySearchByKey key b l = .ok i) :
    ∃ hi : i < l.length, key (l.get ⟨i, hi⟩) = b := by
  unfold binarySearchByKey at h
  split at h
  · next hpos =>
    by_cases hkey : key (l.get (searchLoop key b l l.length 0 hpos (by omega))) = b
    · rw [if_pos hkey] at h
      obtain rfl := Except.ok.inj h
      exact ⟨Fin.isLt _, hkey⟩
    · rw [if_neg hkey] at h
      split at h <;> cases h
  · cases h

theorem splits_of_get {i : Nat} (hi : i ≤ l.length)
    (hbelow : ∀ j : Fin l.length, j.val < i → key (l.get j) ≤ b)
    (habove : ∀ j : Fin l.length, i ≤ j.val → b ≤ key (l.get j)) : Splits key b l i := by
  refine ⟨hi, ?_, ?_⟩
  · intro x hx
    obtain ⟨j, hj, rfl⟩ := List.mem_take_iff_getElem.mp hx
    exact hbelow ⟨j, by omega⟩ (show j < i by omega)
  · intro x hx
    obtain ⟨j, hj, rfl⟩ := List.mem_drop_iff_getElem.mp hx
    exact habove ⟨i + j, by omega⟩ (Nat.le_add_right i j)

/-- A position between what is below the key and what is above it. -/
theorem misses_of_get {i : Nat} (hi : i ≤ l.length)
    (hbelow : ∀ j : Fin l.length, j.val < i → key (l.get j) < b)
    (habove : ∀ j : Fin l.length, i ≤ j.val → b < key (l.get j)) :
    Splits key b l i ∧ ∀ x ∈ l, key x ≠ b := by
  refine ⟨splits_of_get hi (fun j hj => (hbelow j hj).le) fun j hj => (habove j hj).le, ?_⟩
  intro x hx
  obtain ⟨j, rfl⟩ := List.mem_iff_get.mp hx
  by_cases hj : j.val < i
  · exact (hbelow j hj).ne
  · exact (habove j (by omega)).ne'

/-- Either outcome is a position that splits the list, and a failed search says that no
element has the key. -/
theorem binarySearchByKey_spec (hl : SortedBy key l) :
    (∀ i, binarySearchByKey key b l = .ok i → Splits key b l i) ∧
    ∀ i, binarySearchByKey key b l = .error i → Splits key b l i ∧ ∀ x ∈ l, key x ≠ b := by
  unfold binarySearchByKey
  by_cases hpos : 0 < l.length
  · rw [dif_pos hpos]
    obtain ⟨hfirst, habove⟩ := searchLoop_spec (b := b) hl hpos (Nat.le_of_eq (Nat.zero_add _))
      (.inl rfl) fun j hj => absurd j.isLt (by omega)
    generalize searchLoop key b l l.length 0 hpos _ = i at hfirst habove
    have hlower (j : Fin l.length) (hj : j.val ≤ i.val) : key (l.get j) ≤ key (l.get i) :=
      hl.get_le hj
    have hupper (j : Fin l.length) (hj : i.val ≤ j.val) : key (l.get i) ≤ key (l.get j) :=
      hl.get_le hj
    have hi := i.isLt
    by_cases hkey : key (l.get i) = b
    · rw [if_pos hkey]
      constructor
      · intro p h
        obtain rfl := Except.ok.inj h
        exact splits_of_get (Nat.le_of_lt hi) (fun j hj => hkey ▸ hlower j (Nat.le_of_lt hj))
          fun j hj => hkey ▸ hupper j hj
      · intro p h
        cases h
    · rw [if_neg hkey]
      by_cases hlt : key (l.get i) < b
      · rw [if_pos hlt]
        constructor
        · intro p h
          cases h
        · intro p h
          obtain rfl := Except.error.inj h
          exact misses_of_get hi
            (fun j hj => (hlower j (Nat.le_of_lt_succ hj)).trans_lt hlt)
            fun j hj => habove j (Fin.lt_def.mpr hj)
      · rw [if_neg hlt]
        have hgt : b < key (l.get i) := lt_of_le_of_ne (not_lt.mp hlt) (Ne.symm hkey)
        have hzero : i.val = 0 := by
          obtain hzero | hle := hfirst
          · exact hzero
          · exact absurd hle (not_le.mpr hgt)
        constructor
        · intro p h
          cases h
        · intro p h
          obtain rfl := Except.error.inj h
          exact misses_of_get (Nat.le_of_lt hi) (fun j hj => absurd hj (by omega))
            fun j hj => hgt.trans_le (hupper j hj)
  · rw [dif_neg hpos]
    have hnil : l = [] := List.eq_nil_of_length_eq_zero (by omega)
    subst hnil
    constructor
    · intro i h
      cases h
    · intro i h
      obtain rfl := Except.error.inj h
      exact misses_of_get (Nat.le_refl 0) (fun j => absurd j.isLt (by simp))
        fun j => absurd j.isLt (by simp)

/-! ## Insertion -/

variable (key) in
/-- Insertion where the search ends: `unwrap_or_else(|p| p)` and `Vec::insert`. -/
def insertByKey (l : List α) (a : α) : List α :=
  match binarySearchByKey key (key a) l with
  | .ok p => l.insertIdx p a
  | .error p => l.insertIdx p a

theorem insertIdx_eq_append {a : α} {i : Nat} (hi : i ≤ l.length) :
    l.insertIdx i a = l.take i ++ a :: l.drop i := by
  induction i generalizing l with
  | zero => simp
  | succ i ih =>
    cases l with
    | nil => exact absurd hi (by simp)
    | cons x xs =>
      rw [List.insertIdx_succ_cons, ih (Nat.le_of_succ_le_succ hi)]
      simp

theorem insertByKey_eq (hl : SortedBy key l) (a : α) :
    ∃ p, Splits key (key a) l p ∧ insertByKey key l a = l.take p ++ a :: l.drop p := by
  obtain ⟨hfound, hmissed⟩ := binarySearchByKey_spec (b := key a) hl
  unfold insertByKey
  cases hsearch : binarySearchByKey key (key a) l with
  | ok p =>
    have hsplit := hfound p hsearch
    exact ⟨p, hsplit, insertIdx_eq_append hsplit.1⟩
  | error p =>
    have hsplit := (hmissed p hsearch).1
    exact ⟨p, hsplit, insertIdx_eq_append hsplit.1⟩

/-- Insertion keeps the order. -/
theorem SortedBy.insertByKey (hl : SortedBy key l) (a : α) :
    SortedBy key (insertByKey key l a) := by
  obtain ⟨p, ⟨_, hbelow, habove⟩, heq⟩ := insertByKey_eq hl a
  have hparts := List.pairwise_append.mp (show SortedBy key (l.take p ++ l.drop p) by
    rwa [List.take_append_drop])
  rw [heq]
  refine List.pairwise_append.mpr ⟨hparts.1, List.pairwise_cons.mpr ⟨habove, hparts.2.1⟩, ?_⟩
  intro x hx y hy
  obtain hhead | htail := List.mem_cons.mp hy
  · rw [hhead]
    exact hbelow x hx
  · exact hparts.2.2 x hx y htail

/-- It adds the element, and nothing else. -/
theorem insertByKey_perm (hl : SortedBy key l) (a : α) : (insertByKey key l a).Perm (a :: l) := by
  obtain ⟨p, _, heq⟩ := insertByKey_eq hl a
  rw [heq]
  refine List.perm_middle.trans ?_
  rw [List.take_append_drop]

end Trelis
