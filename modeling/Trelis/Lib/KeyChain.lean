import Mathlib.Data.List.Induction
import Mathlib.Data.Set.Function
import Mathlib.Tactic.Common

/-!
# Chains of keys

A key that is replaced, again and again, by a hash of itself and of something
new: `chainKey f root xs` is what the steps `xs` make of `root`.

No hash is injective, so nothing is assumed of `f` as a function.  A theorem
names the inputs `D` at which anyone evaluates it, and asks that no two of them
collide (`InjectiveOn`) and that none gives the first key (`Avoids`).  Then a key
stands for all the steps that have led to it (`InjectiveOn.steps_eq`), and it can
be computed only from an earlier key of the chain and every step since
(`InjectiveOn.learns_iff`).
-/

namespace Trelis

variable {κ ι : Type} {f : κ → ι → κ} {root root' : κ} {xs ys : List ι} {x : ι}

/-- The key behind the given steps. -/
def chainKey (f : κ → ι → κ) (root : κ) (xs : List ι) : κ := xs.foldl f root

@[simp] theorem chainKey_nil : chainKey f root [] = root := rfl

@[simp] theorem chainKey_append_singleton :
    chainKey f root (xs ++ [x]) = f (chainKey f root xs) x :=
  List.foldl_append

theorem chainKey_append : chainKey f root (xs ++ ys) = chainKey f (chainKey f root xs) ys :=
  List.foldl_append

/-- The inputs of the steps. -/
def chainInputs (f : κ → ι → κ) (root : κ) (xs : List ι) : Set (κ × ι) :=
  {p | ∃ ys, ys ++ [p.2] <+: xs ∧ p.1 = chainKey f root ys}

theorem mem_chainInputs_last : (chainKey f root xs, x) ∈ chainInputs f root (xs ++ [x]) :=
  ⟨xs, List.prefix_refl _, rfl⟩

theorem chainInputs_mono (h : xs <+: ys) : chainInputs f root xs ⊆ chainInputs f root ys := by
  rintro p ⟨zs, hzs, hp⟩
  exact ⟨zs, hzs.trans h, hp⟩

theorem chainInputs_append_left : chainInputs f root xs ⊆ chainInputs f root (xs ++ ys) :=
  chainInputs_mono (List.prefix_append xs ys)

/-- Of the inputs in `D` no two collide. -/
def InjectiveOn (f : κ → ι → κ) (D : Set (κ × ι)) : Prop := D.InjOn fun p => f p.1 p.2

/-- None of the inputs in `D` gives the key. -/
def Avoids (f : κ → ι → κ) (D : Set (κ × ι)) (root : κ) : Prop := ∀ p ∈ D, f p.1 p.2 ≠ root

/-! ## What a key stands for -/

namespace InjectiveOn

variable {D : Set (κ × ι)}

theorem pair_eq (h : InjectiveOn f D) {k k' : κ} {x x' : ι} (hk : (k, x) ∈ D) (hk' : (k', x') ∈ D)
    (heq : f k x = f k' x') : k = k' ∧ x = x' :=
  Prod.mk.inj (h hk hk' heq)

/-- Two chains of one length that end in the same key are the same. -/
theorem steps_eq_of_length (h : InjectiveOn f D) (hlen : xs.length = ys.length)
    (hxs : chainInputs f root xs ⊆ D) (hys : chainInputs f root' ys ⊆ D)
    (heq : chainKey f root xs = chainKey f root' ys) : root = root' ∧ xs = ys := by
  induction xs using List.reverseRecOn generalizing ys with
  | nil =>
    obtain rfl := List.length_eq_zero_iff.mp hlen.symm
    exact ⟨heq, rfl⟩
  | append_singleton xs x ih =>
    obtain ⟨ys, y, rfl⟩ : ∃ ys' y, ys = ys' ++ [y] := by
      have hne : ys ≠ [] := by
        rintro rfl
        simp at hlen
      exact ⟨ys.dropLast, ys.getLast hne, (List.dropLast_concat_getLast hne).symm⟩
    rw [chainKey_append_singleton, chainKey_append_singleton] at heq
    obtain ⟨hkey, rfl⟩ := h.pair_eq (hxs mem_chainInputs_last) (hys mem_chainInputs_last) heq
    have hlen' : xs.length = ys.length := by simpa using hlen
    obtain ⟨hroot, rfl⟩ := ih hlen' (chainInputs_append_left.trans hxs)
      (chainInputs_append_left.trans hys) hkey
    exact ⟨hroot, rfl⟩

/-- Two chains from a key that no step gives, and that end in the same key, are
the same. -/
theorem steps_eq (h : InjectiveOn f D) (hroot : Avoids f D root)
    (hxs : chainInputs f root xs ⊆ D) (hys : chainInputs f root ys ⊆ D)
    (heq : chainKey f root xs = chainKey f root ys) : xs = ys := by
  induction xs using List.reverseRecOn generalizing ys with
  | nil =>
    cases ys using List.reverseRecOn with
    | nil => rfl
    | append_singleton ys y =>
      rw [chainKey_append_singleton] at heq
      exact absurd heq.symm (hroot _ (hys mem_chainInputs_last))
  | append_singleton xs x ih =>
    cases ys using List.reverseRecOn with
    | nil =>
      rw [chainKey_append_singleton] at heq
      exact absurd heq (hroot _ (hxs mem_chainInputs_last))
    | append_singleton ys y =>
      rw [chainKey_append_singleton, chainKey_append_singleton] at heq
      obtain ⟨hkey, rfl⟩ := h.pair_eq (hxs mem_chainInputs_last) (hys mem_chainInputs_last) heq
      rw [ih (chainInputs_append_left.trans hxs) (chainInputs_append_left.trans hys) hkey]

end InjectiveOn

/-! ## Who can compute a key -/

/-- The keys that can be computed from the keys and the steps at hand, where `f`
is evaluated at inputs in `D` only. -/
inductive Learns (f : κ → ι → κ) (D : Set (κ × ι)) (keys : Set κ) (steps : Set ι) : κ → Prop
  | held {k : κ} (h : k ∈ keys) : Learns f D keys steps k
  | step {k : κ} {x : ι} (h : Learns f D keys steps k) (hx : x ∈ steps) (hD : (k, x) ∈ D) :
      Learns f D keys steps (f k x)

section Learns

variable {D : Set (κ × ι)} {keys : Set κ} {steps : Set ι}

theorem Learns.along (h : Learns f D keys steps (chainKey f root xs)) (hys : ∀ y ∈ ys, y ∈ steps)
    (hD : chainInputs f root (xs ++ ys) ⊆ D) :
    Learns f D keys steps (chainKey f root (xs ++ ys)) := by
  induction ys using List.reverseRecOn with
  | nil => rwa [List.append_nil]
  | append_singleton ys y ih =>
    rw [List.forall_mem_append, List.forall_mem_singleton] at hys
    rw [← List.append_assoc] at hD ⊢
    rw [chainKey_append_singleton]
    exact (ih hys.1 (chainInputs_append_left.trans hD)).step hys.2 (hD mem_chainInputs_last)

/-- A key of the chain is computed from an earlier one, and every step
since. -/
theorem InjectiveOn.learns_iff (h : InjectiveOn f D) (hroot : Avoids f D root)
    (hchain : chainInputs f root xs ⊆ D) :
    Learns f D keys steps (chainKey f root xs) ↔
      ∃ before after, before ++ after = xs ∧ chainKey f root before ∈ keys ∧
        ∀ x ∈ after, x ∈ steps := by
  constructor
  · intro hlearns
    induction xs using List.reverseRecOn with
    | nil =>
      generalize hk : chainKey f root [] = k at hlearns
      cases hlearns with
      | held hkeys => exact ⟨[], [], rfl, hk ▸ hkeys, by simp⟩
      | step _ _ hD => exact (hroot _ hD hk.symm).elim
    | append_singleton xs x ih =>
      generalize hk : chainKey f root (xs ++ [x]) = k at hlearns
      cases hlearns with
      | held hkeys => exact ⟨xs ++ [x], [], by simp, hk ▸ hkeys, by simp⟩
      | step hk' hx hD =>
        rw [chainKey_append_singleton] at hk
        -- the last step was computed from its own input
        obtain ⟨rfl, rfl⟩ := h.pair_eq (hchain mem_chainInputs_last) hD hk
        obtain ⟨before, after, rfl, hbefore, hafter⟩ :=
          ih (chainInputs_append_left.trans hchain) hk'
        refine ⟨before, after ++ [x], (List.append_assoc ..).symm, hbefore, ?_⟩
        simp only [List.forall_mem_append, List.forall_mem_singleton]
        exact ⟨hafter, hx⟩
  · rintro ⟨before, after, rfl, hbefore, hafter⟩
    exact Learns.along (.held hbefore) hafter hchain

end Learns

end Trelis
