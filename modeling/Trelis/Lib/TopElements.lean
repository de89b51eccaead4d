import Mathlib.Data.Finset.Card
import Mathlib.Data.Finset.Dedup
import Mathlib.Data.Finset.Max
import Mathlib.Data.List.Sort
import Trelis.Lib.BinarySearch

/-!
# The highest elements of a set

`topElements key n s` is what a store of `n` places keeps of a set `s`: the
elements with fewer than `n` others above them.  Keeping only these after each of
several unions loses nothing (`topElements_union`), because whatever was dropped
stays below `n` elements that were kept.

A list with increasing keys is determined by its elements, and its last `n` are
the highest ones.
-/

namespace Trelis

variable {α β : Type} [LinearOrder β] {key : α → β} {n : Nat} {s t : Finset α} {a : α}

/-- The elements of `s` that are above `a`. -/
def higherIn (key : α → β) (s : Finset α) (a : α) : Finset α := s.filter fun d => key a < key d

/-- The `n` highest elements. -/
def topElements (key : α → β) (n : Nat) (s : Finset α) : Finset α :=
  s.filter fun a => (higherIn key s a).card < n

theorem mem_higherIn {d : α} : d ∈ higherIn key s a ↔ d ∈ s ∧ key a < key d := Finset.mem_filter

theorem mem_topElements : a ∈ topElements key n s ↔ a ∈ s ∧ (higherIn key s a).card < n :=
  Finset.mem_filter

theorem topElements_subset : topElements key n s ⊆ s := Finset.filter_subset _ _

theorem higherIn_subset (h : s ⊆ t) : higherIn key s a ⊆ higherIn key t a :=
  Finset.filter_subset_filter _ h

variable [DecidableEq α]

/-- A dropped element is below `n` elements that are kept. -/
theorem le_card_higherIn (ha : a ∈ s) (hdropped : a ∉ topElements key n s) :
    n ≤ (higherIn key (topElements key n s) a).card := by
  -- The highest of the dropped elements has only kept elements above it.
  obtain ⟨d, hd, hmax⟩ := Finset.exists_max_image (s \ topElements key n s) key
    ⟨a, Finset.mem_sdiff.mpr ⟨ha, hdropped⟩⟩
  obtain ⟨hds, hdrop⟩ := Finset.mem_sdiff.mp hd
  have hmany : n ≤ (higherIn key s d).card := by
    by_contra hfew
    exact hdrop (mem_topElements.mpr ⟨hds, not_le.mp hfew⟩)
  refine hmany.trans (Finset.card_le_card ?_)
  intro x hx
  obtain ⟨hxs, hxd⟩ := mem_higherIn.mp hx
  have hxtop : x ∈ topElements key n s := by
    by_contra hx
    exact absurd (hmax x (Finset.mem_sdiff.mpr ⟨hxs, hx⟩)) (not_le.mpr hxd)
  exact mem_higherIn.mpr
    ⟨hxtop, (hmax a (Finset.mem_sdiff.mpr ⟨ha, hdropped⟩)).trans_lt hxd⟩

/-- Dropping early changes nothing. -/
theorem topElements_union :
    topElements key n (topElements key n s ∪ t) = topElements key n (s ∪ t) := by
  have hsub : topElements key n s ∪ t ⊆ s ∪ t :=
    Finset.union_subset_union topElements_subset (Finset.Subset.refl t)
  ext a
  rw [mem_topElements, mem_topElements]
  constructor
  · intro hboth
    rcases hboth with ⟨ha, hfew⟩
    refine ⟨hsub ha, ?_⟩
    by_contra hmany
    -- Then one of the elements above `a` was dropped, below `n` others that are kept.
    have hmissing : ∃ d ∈ higherIn key (s ∪ t) a, d ∉ topElements key n s ∪ t := by
      by_contra hall
      simp only [not_exists, not_and, not_not] at hall
      have hle : (higherIn key (s ∪ t) a).card ≤ (higherIn key (topElements key n s ∪ t) a).card :=
        Finset.card_le_card fun d hd => mem_higherIn.mpr ⟨hall d hd, (mem_higherIn.mp hd).2⟩
      omega
    obtain ⟨d, hd, hdropped⟩ := hmissing
    obtain ⟨hdst, hda⟩ := mem_higherIn.mp hd
    rw [Finset.mem_union, not_or] at hdropped
    have hds : d ∈ s := (Finset.mem_union.mp hdst).resolve_right hdropped.2
    have hkept := le_card_higherIn hds hdropped.1
    have hle : (higherIn key (topElements key n s) d).card
        ≤ (higherIn key (topElements key n s ∪ t) a).card := by
      refine Finset.card_le_card ?_
      intro x hx
      obtain ⟨hxs, hxd⟩ := mem_higherIn.mp hx
      exact mem_higherIn.mpr ⟨Finset.mem_union_left _ hxs, hda.trans hxd⟩
    omega
  · intro hboth
    rcases hboth with ⟨ha, hfew⟩
    have hle : (higherIn key (topElements key n s ∪ t) a).card ≤ (higherIn key (s ∪ t) a).card :=
      Finset.card_le_card (higherIn_subset hsub)
    refine ⟨?_, by omega⟩
    obtain has | hat := Finset.mem_union.mp ha
    · have hles : (higherIn key s a).card ≤ (higherIn key (s ∪ t) a).card :=
        Finset.card_le_card (higherIn_subset Finset.subset_union_left)
      exact Finset.mem_union_left _ (mem_topElements.mpr ⟨has, by omega⟩)
    · exact Finset.mem_union_right _ hat

/-! ## Lists -/

/-- The keys increase. -/
def StrictlySortedBy (key : α → β) (l : List α) : Prop := l.Pairwise fun x y => key x < key y

variable {l l' : List α}

omit [DecidableEq α] in
theorem StrictlySortedBy.nodup (hl : StrictlySortedBy key l) : l.Nodup := by
  refine List.Pairwise.imp ?_ hl
  intro x y hlt hsame
  rw [hsame] at hlt
  exact lt_irrefl _ hlt

/-- A list with increasing keys is determined by its elements. -/
theorem StrictlySortedBy.eq_of_toFinset (hl : StrictlySortedBy key l)
    (hl' : StrictlySortedBy key l') (h : l.toFinset = l'.toFinset) : l = l' := by
  have hperm : l.Perm l' := List.perm_of_nodup_nodup_toFinset_eq hl.nodup hl'.nodup h
  exact List.Perm.eq_of_pairwise
    (fun x y _ _ hxy hyx => absurd (lt_trans hxy hyx) (lt_irrefl _)) hl hl' hperm

omit [DecidableEq α] in
theorem StrictlySortedBy.sortedBy (hl : StrictlySortedBy key l) : SortedBy key l :=
  hl.imp le_of_lt

omit [DecidableEq α] in
/-- Insertion of a new key. -/
theorem StrictlySortedBy.insertByKey (hl : StrictlySortedBy key l)
    (hnew : ∀ x ∈ l, key x ≠ key a) : StrictlySortedBy key (insertByKey key l a) := by
  obtain ⟨p, ⟨_, hbelow, habove⟩, heq⟩ := insertByKey_eq hl.sortedBy a
  have hparts := List.pairwise_append.mp (show StrictlySortedBy key (l.take p ++ l.drop p) by
    rwa [List.take_append_drop])
  rw [heq]
  refine List.pairwise_append.mpr ⟨hparts.1, List.pairwise_cons.mpr ⟨?_, hparts.2.1⟩, ?_⟩
  · intro x hx
    exact lt_of_le_of_ne (habove x hx) (hnew x (List.mem_of_mem_drop hx)).symm
  · intro x hx y hy
    obtain hhead | htail := List.mem_cons.mp hy
    · rw [hhead]
      exact lt_of_le_of_ne (hbelow x hx) (hnew x (List.mem_of_mem_take hx))
    · exact hparts.2.2 x hx y htail

/-- The last `n` elements are the highest. -/
theorem StrictlySortedBy.toFinset_drop (hl : StrictlySortedBy key l) (n : Nat) :
    (l.drop (l.length - n)).toFinset = topElements key n l.toFinset := by
  have hparts := List.pairwise_append.mp (show StrictlySortedBy key
      (l.take (l.length - n) ++ l.drop (l.length - n)) by rwa [List.take_append_drop])
  obtain ⟨_, hdrop, hcross⟩ := hparts
  have hlength : (l.drop (l.length - n)).length = min l.length n := by
    rw [List.length_drop]
    omega
  have hnodup : (l.drop (l.length - n)).Nodup := StrictlySortedBy.nodup hdrop
  have hcard : (l.drop (l.length - n)).toFinset.card = min l.length n := by
    rw [List.toFinset_card_of_nodup hnodup, hlength]
  have hsplit (x : α) : x ∈ l ↔ x ∈ l.take (l.length - n) ∨ x ∈ l.drop (l.length - n) := by
    rw [← List.mem_append, List.take_append_drop]
  ext a
  rw [mem_topElements, List.mem_toFinset, List.mem_toFinset]
  constructor
  · intro ha
    refine ⟨List.mem_of_mem_drop ha, ?_⟩
    -- Only the other kept elements can be above a kept one.
    have hsub : higherIn key l.toFinset a ⊆ (l.drop (l.length - n)).toFinset.erase a := by
      intro x hx
      obtain ⟨hxl, hax⟩ := mem_higherIn.mp hx
      have hne : x ≠ a := by
        intro hsame
        rw [hsame] at hax
        exact lt_irrefl _ hax
      refine Finset.mem_erase.mpr ⟨hne, ?_⟩
      obtain htake | hkept := (hsplit x).mp (List.mem_toFinset.mp hxl)
      · exact absurd hax (not_lt.mpr (hcross x htake a ha).le)
      · exact List.mem_toFinset.mpr hkept
    have hle := Finset.card_le_card hsub
    rw [Finset.card_erase_of_mem (List.mem_toFinset.mpr ha), hcard] at hle
    have hpos : 0 < (l.drop (l.length - n)).length := List.length_pos_of_mem ha
    omega
  · intro hboth
    rcases hboth with ⟨hal, hfew⟩
    obtain htake | hkept := (hsplit a).mp hal
    · have hsub : (l.drop (l.length - n)).toFinset ⊆ higherIn key l.toFinset a := by
        intro x hx
        have hx := List.mem_toFinset.mp hx
        exact mem_higherIn.mpr
          ⟨List.mem_toFinset.mpr (List.mem_of_mem_drop hx), hcross a htake x hx⟩
      have hle := Finset.card_le_card hsub
      have hpos : 0 < (l.take (l.length - n)).length := List.length_pos_of_mem htake
      rw [List.length_take] at hpos
      rw [hcard] at hle
      omega
    · exact hkept

end Trelis
