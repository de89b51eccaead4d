import Mathlib.Data.List.DropRight

/-!
# Bounded histories

A window holds the last entries of a history, the oldest first, and drops the
oldest of them when it is full.  What is pushed into a window of `n > 0` entries
leaves the last `n` entries of the longer history (`pushBounded_rtake`).

Entries that carry distinct keys are found by their keys and by no others
(`find?_key_eq_some`).
-/

namespace Trelis

variable {α : Type*}

theorem length_rtake_le (n : Nat) (history : List α) : (history.rtake n).length ≤ n := by
  rw [List.rtake, List.length_drop]
  omega

/-- The new entry comes last, and takes the place of the oldest of `n` entries. -/
def pushBounded (n : Nat) (window : List α) (entry : α) : List α :=
  (if n ≤ window.length then window.tail else window) ++ [entry]

theorem pushBounded_rtake {n : Nat} (hn : 0 < n) (history : List α) (entry : α) :
    pushBounded n (history.rtake n) entry = (history ++ [entry]).rtake n := by
  obtain ⟨m, rfl⟩ : ∃ m, n = m + 1 := ⟨n - 1, by omega⟩
  rw [List.rtake_concat_succ]
  unfold pushBounded
  congr 1
  have hlength : (history.rtake (m + 1)).length = history.length - (history.length - (m + 1)) :=
    List.length_drop
  by_cases hfull : m + 1 ≤ history.length
  · rw [if_pos (by omega)]
    show (history.drop (history.length - (m + 1))).tail = history.drop (history.length - m)
    rw [List.tail_drop]
    congr 1
    omega
  · rw [if_neg (by omega)]
    show history.drop (history.length - (m + 1)) = history.drop (history.length - m)
    congr 1
    omega

section Key

variable {κ : Type*} [DecidableEq κ] {key : α → κ} {l : List α}

/-- Where no two entries share a key, the entry of a key is the one that is found. -/
theorem find?_key_eq_some (hdistinct : (l.map key).Nodup) {k : κ} {a : α} :
    l.find? (fun entry => key entry = k) = some a ↔ a ∈ l ∧ key a = k := by
  induction l with
  | nil => simp
  | cons b rest ih =>
    rw [List.map_cons, List.nodup_cons] at hdistinct
    obtain ⟨hfresh, hdistinct⟩ := hdistinct
    by_cases hb : key b = k
    · rw [List.find?_cons_of_pos (by simpa using hb), Option.some.injEq]
      constructor
      · intro hab
        exact ⟨List.mem_cons.mpr (.inl hab.symm), hab ▸ hb⟩
      · intro hboth
        rcases hboth with ⟨hmem, ha⟩
        obtain hab | hrest := List.mem_cons.mp hmem
        · exact hab.symm
        · exact absurd (List.mem_map.mpr ⟨a, hrest, ha.trans hb.symm⟩) hfresh
    · rw [List.find?_cons_of_neg (by simpa using hb), ih hdistinct]
      constructor
      · intro hboth
        rcases hboth with ⟨hmem, ha⟩
        exact ⟨List.mem_cons_of_mem b hmem, ha⟩
      · intro hboth
        rcases hboth with ⟨hmem, ha⟩
        obtain hab | hrest := List.mem_cons.mp hmem
        · exact absurd (hab ▸ ha) hb
        · exact ⟨hrest, ha⟩

end Key

end Trelis
