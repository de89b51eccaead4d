import Mathlib.Algebra.Group.Nat.Defs
import Trelis.Lib.Outcome

/-!
# Computations that may panic

Arithmetic with overflow checks, slicing and assertions return or panic.  Such
an operation is an `Option` here, with `none` for the panic, and `MachineM ε` is
the monad of fallible functions that use them.

A machine computation is compared with one on unbounded numbers.  `Refines x r`
says that `x` returns what `r` returns, unless it panics; it is closed under
sequencing (`Refines.bind`), so that it can be shown step by step and without
knowing when the steps panic.  `Panics` says when, and the lemmas about it are
tagged for `simp`.
-/

namespace Trelis

variable {ε α β σ : Type}

/-! ## Operations -/

/-- Addition of words of `w` bits. -/
def addWord (w a b : Nat) : Option Nat := if a + b < 2 ^ w then some (a + b) else none

/-- Subtraction of words. -/
def subWord (a b : Nat) : Option Nat := if b ≤ a then some (a - b) else none

/-- Multiplication of words of `w` bits. -/
def mulWord (w a b : Nat) : Option Nat := if a * b < 2 ^ w then some (a * b) else none

/-- The shift of a word of `w` bits to the left.  Bits may fall off, but the
distance has to be less than `w`. -/
def shlWord (w a k : Nat) : Option Nat := if k < w then some (a <<< k % 2 ^ w) else none

/-- The shift to the right, by a distance that has to be less than `w` too. -/
def shrWord (w a k : Nat) : Option Nat := if k < w then some (a >>> k) else none

/-- `bytes[start..stop]`. -/
def slice (bytes : List α) (start stop : Nat) : Option (List α) :=
  if start ≤ stop ∧ stop ≤ bytes.length then some ((bytes.take stop).drop start) else none

/-- `assert!`. -/
def assertion (p : Prop) [Decidable p] : Option Unit := if p then some () else none

/-- `checked_add`, with the error of the `ok_or` behind it. -/
def checkedAdd (w a b : Nat) (e : ε) : Except ε Nat :=
  if a + b < 2 ^ w then .ok (a + b) else .error e

/-- `checked_mul`, with the error of the `ok_or` behind it. -/
def checkedMul (w a b : Nat) (e : ε) : Except ε Nat :=
  if a * b < 2 ^ w then .ok (a * b) else .error e

/-- A traversal that no step panics in, and its results. -/
theorem mapM_eq_some {f : α → Option β} {xs : List α} {ys : List β} :
    xs.mapM f = some ys ↔ xs.map f = ys.map some := by
  induction xs generalizing ys with
  | nil => cases ys <;> simp
  | cons x xs ih =>
    rw [List.mapM_cons, List.map_cons]
    simp only [bind, pure, Option.bind_eq_some_iff, Option.some.injEq, ih]
    cases ys with
    | nil => simp
    | cons y ys => simp [List.map_cons, List.cons.injEq]

/-- A traversal that no step panics in. -/
theorem mapM_eq_some_map {f : α → Option β} {g : α → β} {xs : List α}
    (h : ∀ x ∈ xs, f x = some (g x)) : xs.mapM f = some (xs.map g) := by
  rw [mapM_eq_some, List.map_map]
  exact List.map_congr_left h

/-- A step that does not panic.  (Simplifying such steps away leaves the kernel to
compare a whole computation with its rest.) -/
theorem bind_eq_of_some {o : Option α} {a : α} {f : α → Option β} {r : Option β}
    (h : o = some a) (hf : f a = r) : (o >>= f) = r := by
  rw [h]
  exact hf

theorem addWord_eq_some {w a b c : Nat} : addWord w a b = some c ↔ a + b < 2 ^ w ∧ c = a + b := by
  unfold addWord
  split <;> simp [*, eq_comm]

theorem addWord_eq_none {w a b : Nat} : addWord w a b = none ↔ 2 ^ w ≤ a + b := by
  unfold addWord
  split <;> simp <;> omega

theorem addWord_of_lt {w a b : Nat} (h : a + b < 2 ^ w) : addWord w a b = some (a + b) := if_pos h

theorem mulWord_of_lt {w a b : Nat} (h : a * b < 2 ^ w) : mulWord w a b = some (a * b) := if_pos h

theorem mulWord_eq_some {w a b c : Nat} : mulWord w a b = some c ↔ a * b < 2 ^ w ∧ c = a * b := by
  unfold mulWord
  split <;> simp [*, eq_comm]

theorem checkedAdd_eq_ok {w a b c : Nat} {e : ε} :
    checkedAdd w a b e = .ok c ↔ a + b < 2 ^ w ∧ c = a + b := by
  unfold checkedAdd
  split <;> simp [*, eq_comm]

/-- A slice within bounds. -/
theorem slice_of_le {bytes : List α} {start stop : Nat} (h : start ≤ stop)
    (hlen : stop ≤ bytes.length) :
    slice bytes start stop = some ((bytes.drop start).take (stop - start)) := by
  rw [slice, if_pos ⟨h, hlen⟩, List.drop_take]

/-! ## Loops -/

/-- A loop returns what the loop over unbounded numbers returns, when each of its
rounds does. -/
theorem foldlM_refines {f : σ → β → Option σ} {g : σ → β → σ}
    (h : ∀ s x s', f s x = some s' → s' = g s x) {xs : List β} {s s' : σ}
    (hrun : xs.foldlM f s = some s') : s' = xs.foldl g s := by
  induction xs generalizing s with
  | nil => simpa [eq_comm] using hrun
  | cons x xs ih =>
    rw [List.foldlM_cons, Option.bind_eq_bind, Option.bind_eq_some_iff] at hrun
    rcases hrun with ⟨t, ht, hrest⟩
    rw [List.foldl_cons, ← h s x t ht]
    exact ih hrest

/-- A loop whose rounds return, as long as a relation to another loop holds that they
keep. -/
theorem foldlM_range_simulates {τ : Type} {R : Nat → σ → τ → Prop} {f : σ → Nat → Option σ}
    {g : τ → Nat → τ} {n : Nat}
    (h : ∀ j s t, j < n → R j s t → ∃ s', f s j = some s' ∧ R (j + 1) s' (g t j)) {s : σ} {t : τ}
    (hst : R 0 s t) :
    ∃ s', (List.range n).foldlM f s = some s' ∧ R n s' ((List.range n).foldl g t) := by
  induction n with
  | zero => exact ⟨s, rfl, hst⟩
  | succ n ih =>
    obtain ⟨s₁, hrun, hrel⟩ := ih fun j s t hj => h j s t (by omega)
    obtain ⟨s₂, hstep, hrel'⟩ := h n s₁ _ (Nat.lt_succ_self n) hrel
    refine ⟨s₂, ?_, ?_⟩
    · rw [List.range_succ, List.foldlM_append, hrun]
      show List.foldlM f s₁ [n] = some s₂
      rw [List.foldlM_cons, hstep]
      rfl
    · rw [List.range_succ, List.foldl_append]
      exact hrel'

/-- A loop whose rounds panic at the bad elements panics when it meets one. -/
theorem foldlM_eq {f : σ → β → Option σ} {g : σ → β → σ} {bad : β → Prop} [DecidablePred bad]
    {xs : List β} (h : ∀ x ∈ xs, ∀ s, f s x = if bad x then none else some (g s x)) (s : σ) :
    xs.foldlM f s = if ∃ x ∈ xs, bad x then none else some (xs.foldl g s) := by
  induction xs generalizing s with
  | nil => simp
  | cons x xs ih =>
    rw [List.foldlM_cons, h x (by simp)]
    by_cases hx : bad x
    · simp [hx]
    · simp only [hx, if_false, Option.bind_eq_bind, Option.bind_some, List.foldl_cons,
        ih (fun y hy => h y (List.mem_cons_of_mem _ hy)), List.mem_cons, exists_eq_or_imp, false_or]

/-! ## Fallible computations -/

/-- A fallible computation that may panic: `none` is the panic. -/
abbrev MachineM (ε : Type) := ExceptT ε Option

namespace MachineM

/-- A fallible computation that does not panic. -/
def returns (r : Except ε α) : MachineM ε α := ExceptT.mk (some r)

/-- An operation that may panic. -/
def arith (o : Option α) : MachineM ε α := ExceptT.mk (o.map .ok)

/-- The computation panics. -/
def Panics (x : MachineM ε α) : Prop := x.run = none

instance (x : MachineM ε α) : Decidable x.Panics := by unfold Panics; infer_instance

/-- Unless it panics, the computation returns what `r` does. -/
def Refines (x : MachineM ε α) (r : Except ε α) : Prop := ∀ y, x.run = some y → y = r

section

variable {x : MachineM ε α} {f : α → MachineM ε β} {r : Except ε α} {o : Option α}

theorem eq_returns (hx : x.Refines r) (h : ¬ x.Panics) : x = returns r := by
  rcases Option.ne_none_iff_exists'.mp h with ⟨y, hy⟩
  exact hy.trans (congrArg some (hx y hy))

@[simp] theorem arith_some (a : α) : (arith (some a) : MachineM ε α) = returns (.ok a) := rfl

@[simp] theorem returns_ok_bind (a : α) : (returns (.ok a) >>= f) = f a := rfl

@[simp] theorem returns_error_bind (e : ε) : (returns (.error e) >>= f) = returns (.error e) := rfl

theorem returns_inj {r' : Except ε α} : returns r = returns r' ↔ r = r' := by
  constructor
  · intro h
    exact Option.some.inj (congrArg ExceptT.run h)
  · intro h
    rw [h]

theorem returns_bind_eq_ok {b : β} :
    (returns r >>= f) = returns (.ok b) ↔ ∃ a, r = .ok a ∧ f a = returns (.ok b) := by
  cases r with
  | error e => simp [returns_inj]
  | ok a => simp

/-- A sequence does not panic where its steps do not. -/
theorem returns_bind_eq {g : α → Except ε β} (h : ∀ a, r = .ok a → f a = returns (g a)) :
    (returns r >>= f) = returns (r >>= g) := by
  cases r with
  | error e => rfl
  | ok a => exact h a rfl

/-- The end of a field, checked against the length of what holds it. -/
theorem checkedAdd_reject {len a b : Nat} {e : ε} {f : Nat → MachineM ε β} (hlen : len < 2 ^ 64) :
    (returns (checkedAdd 64 a b e) >>= fun stop => returns (rejectIf (len < stop) e) >>= fun _ =>
      f stop) = (returns (rejectIf (len < a + b) e) >>= fun _ => f (a + b)) := by
  unfold checkedAdd
  split
  · rfl
  · have hlt : len < a + b := by omega
    simp [rejectIf, hlt]

/-- The same, for two fields one after the other. -/
theorem checkedAdd_checkedAdd_reject {len a b c : Nat} {e : ε} {f : Nat → Nat → MachineM ε β}
    (hlen : len < 2 ^ 64) :
    (returns (checkedAdd 64 a b e) >>= fun mid => returns (checkedAdd 64 mid c e) >>= fun stop =>
      returns (rejectIf (len < stop) e) >>= fun _ => f mid stop) =
      (returns (rejectIf (len < a + b + c) e) >>= fun _ => f (a + b) (a + b + c)) := by
  unfold checkedAdd
  split
  · exact checkedAdd_reject hlen
  · have hlt : len < a + b + c := by omega
    simp [rejectIf, hlt]

theorem run_bind_eq (x : MachineM ε α) (f : α → MachineM ε β) :
    (x >>= f).run = x.run.bind fun
      | .ok a => (f a).run
      | .error e => some (.error e) := by
  show (ExceptT.bind x f).run = _
  simp only [ExceptT.bind, ExceptT.run, ExceptT.mk, Option.bind_eq_bind]
  congr 1

@[simp] theorem panics_returns : (returns r).Panics ↔ False := by
  simp [Panics, returns]

@[simp] theorem panics_pure {a : α} : (pure a : MachineM ε α).Panics ↔ False := by
  simp [Panics, pure, ExceptT.pure]

@[simp] theorem panics_arith : (arith o : MachineM ε α).Panics ↔ o = none := by
  simp [Panics, arith]

theorem panics_bind : (x >>= f).Panics ↔ x.Panics ∨ ∃ a, x.run = some (.ok a) ∧ (f a).Panics := by
  unfold Panics
  rw [run_bind_eq]
  rcases h : x.run with _ | _ | a <;> simp

theorem panics_bind_pure {b : β} : (x >>= fun _ => (pure b : MachineM ε β)).Panics ↔ x.Panics := by
  rw [panics_bind]
  simp

@[simp] theorem panics_returns_bind : (returns r >>= f).Panics ↔ ∃ a, r = .ok a ∧ (f a).Panics := by
  rw [panics_bind, panics_returns, false_or]
  simp [returns]

theorem panics_arith_bind :
    (arith o >>= f).Panics ↔ o = none ∨ ∃ a, o = some a ∧ (f a).Panics := by
  rw [panics_bind, panics_arith]
  simp [arith]

/-- A loop without a state panics in one of its rounds. -/
theorem not_panics_forM {f : β → MachineM ε PUnit} {xs : List β} (h : ∀ x ∈ xs, ¬ (f x).Panics) :
    ¬ (xs.forM f).Panics := by
  induction xs with
  | nil => exact panics_pure.mp
  | cons x xs ih =>
    show ¬ (f x >>= fun _ => xs.forM f).Panics
    rw [panics_bind]
    rintro (hx | ⟨_, _, hxs⟩)
    · exact h x (by simp) hx
    · exact ih (fun y hy => h y (List.mem_cons_of_mem _ hy)) hxs

theorem refines_returns : (returns r).Refines r := by
  intro y hy
  cases hy
  rfl

theorem refines_pure (a : α) : (pure a : MachineM ε α).Refines (pure a) := refines_returns

/-- A sequence refines a sequence, step by step. -/
theorem Refines.bind {g : α → Except ε β} (hx : x.Refines r)
    (hf : ∀ a, r = .ok a → (f a).Refines (g a)) : (x >>= f).Refines (r >>= g) := by
  intro y hy
  rw [run_bind_eq, Option.bind_eq_some_iff] at hy
  rcases hy with ⟨z, hz, hy⟩
  have hzr := hx z hz
  cases z with
  | ok a =>
    subst hzr
    exact hf a rfl y hy
  | error e =>
    subst hzr
    cases hy
    rfl

/-- A loop without a state refines the loop over unbounded numbers, round by
round. -/
theorem refines_forM {f : β → MachineM ε PUnit} {g : β → Except ε PUnit}
    (h : ∀ x, (f x).Refines (g x)) (xs : List β) : (xs.forM f).Refines (xs.forM g) := by
  induction xs with
  | nil => exact refines_pure _
  | cons x xs ih => exact (h x).bind fun _ _ => ih

/-- An operation refines its result. -/
theorem Refines.arith {g : Except ε β} (h : ∀ a, o = some a → (f a).Refines g) :
    (MachineM.arith o >>= f).Refines g := by
  intro y hy
  rw [run_bind_eq, Option.bind_eq_some_iff] at hy
  rcases hy with ⟨z, hz, hy⟩
  cases ho : o with
  | none => simp [MachineM.arith, ho] at hz
  | some a =>
    subst ho
    cases hz
    exact h a rfl y hy

theorem refines_arith {a' : α} (h : ∀ a, o = some a → a = a') :
    (MachineM.arith o : MachineM ε α).Refines (pure a') := by
  intro y hy
  rcases Option.map_eq_some_iff.mp hy with ⟨a, ho, rfl⟩
  rw [h a ho]
  rfl

/-- A `checked_add` refines the early return that it stands for. -/
theorem Refines.checkedAdd {w a b : Nat} {e : ε} {f : Nat → MachineM ε β} {g : Except ε β}
    (h : (f (a + b)).Refines g) :
    (returns (Trelis.checkedAdd w a b e) >>= f).Refines
      (rejectIf (a + b ≥ 2 ^ w) e >>= fun _ => g) := by
  unfold Trelis.checkedAdd rejectIf
  by_cases hlt : a + b < 2 ^ w
  · rw [if_pos hlt, if_neg (Nat.not_le.mpr hlt)]
    exact h
  · rw [if_neg hlt, if_pos (Nat.not_lt.mp hlt)]
    exact refines_returns

end

end MachineM

end Trelis
