import Mathlib.Data.Option.Basic
import Mathlib.Data.PFun
import Mathlib.Tactic.Common

/-!
# Calls that may panic or not return

A loop that runs until it has drawn enough may run forever.  Such a computation is an
`Option` here, with no result where it does not end: `whileLoop` repeats a round until
one is the last.  A `Call ε` may also panic, with a panic of the type `ε`.

`arrayFromFn` fills an array from a function that has no result everywhere.
-/

namespace Trelis

variable {ε σ α β : Type}

section WhileLoop

open Classical in
/-- The result of a loop, if it ends.  A round has a result (`inl`) or goes on with
another state (`inr`). -/
noncomputable def whileLoop (round : σ → α ⊕ σ) (s : σ) : Option α :=
  ((round : σ →. α ⊕ σ).fix s).toOption

variable {round : σ → α ⊕ σ} {s t : σ} {a : α}

theorem whileLoop_eq_some : whileLoop round s = some a ↔ a ∈ (round : σ →. α ⊕ σ).fix s := by
  classical
  exact Part.toOption_eq_some_iff

theorem whileLoop_of_inl (h : round s = .inl a) : whileLoop round s = some a := by
  rw [whileLoop_eq_some]
  apply PFun.fix_stop
  rw [PFun.coe_val, h]
  exact Part.mem_some _

theorem whileLoop_of_inr (h : round s = .inr t) : whileLoop round s = whileLoop round t := by
  ext a
  have hnext : Sum.inr t ∈ (round : σ →. α ⊕ σ) s := by
    rw [PFun.coe_val, h]
    exact Part.mem_some _
  rw [whileLoop_eq_some, whileLoop_eq_some, PFun.fix_fwd_eq hnext]

/-- What the last round gives from the invariant holds of the result. -/
theorem whileLoop_rule (I : σ → Prop) (P : α → Prop)
    (hgo : ∀ s t, I s → round s = .inr t → I t) (hlast : ∀ s a, I s → round s = .inl a → P a)
    (hs : I s) (h : whileLoop round s = some a) : P a := by
  have hmem := whileLoop_eq_some.mp h
  revert hs
  refine PFun.fixInduction' hmem ?_ ?_
  · intro s hround hs
    exact hlast s a hs (Part.mem_some_iff.mp hround).symm
  · intro s t _ hround ih hs
    exact ih (hgo s t hs (Part.mem_some_iff.mp hround).symm)

end WhileLoop

/-- A computation that returns, panics, or goes on forever. -/
abbrev Call (ε α : Type) := ExceptT ε Option α

namespace Call

/-- The call returns. -/
def Returns (x : Call ε α) (a : α) : Prop := x.run = some (.ok a)

/-- The call panics with `e`. -/
def PanicsWith (x : Call ε α) (e : ε) : Prop := x.run = some (.error e)

/-- A computation that does not panic. -/
def ofLoop (x : Option α) : Call ε α := ExceptT.mk (x.map .ok)

/-- A computation that has no result where it panics. -/
def expect (e : ε) (x : Option α) : Call ε α :=
  ExceptT.mk (some (match x with
    | some a => .ok a
    | none => .error e))

theorem returns_pure {a b : α} : (pure a : Call ε α).Returns b ↔ a = b := by
  show some (Except.ok a) = some (Except.ok b) ↔ _
  simp

theorem returns_bind {x : Call ε α} {f : α → Call ε β} {b : β} :
    (x >>= f).Returns b ↔ ∃ a, x.Returns a ∧ (f a).Returns b := by
  show x.run.bind (ExceptT.bindCont f) = _ ↔ ∃ a, x.run = _ ∧ _
  cases hx : x.run with
  | none => simp
  | some r =>
    cases r with
    | error e =>
      show some (Except.error e) = some (.ok b) ↔ _
      simp
    | ok a =>
      show (f a).run = _ ↔ _
      simp [Returns]

theorem panicsWith_expect_none (e : ε) : (expect e none : Call ε α).PanicsWith e := rfl

/-- A panic ends what follows. -/
theorem PanicsWith.bind {x : Call ε α} {e : ε} (h : x.PanicsWith e) (f : α → Call ε β) :
    (x >>= f).PanicsWith e := by
  show x.run.bind (ExceptT.bindCont f) = _
  rw [h]
  rfl

theorem Returns.bind_panicsWith {x : Call ε α} {f : α → Call ε β} {a : α} {e : ε}
    (h : x.Returns a) (hf : (f a).PanicsWith e) : (x >>= f).PanicsWith e := by
  show x.run.bind (ExceptT.bindCont f) = _
  rw [h]
  exact hf

theorem returns_ofLoop {x : Option α} {a : α} : (ofLoop x : Call ε α).Returns a ↔ x = some a := by
  show x.map Except.ok = some (.ok a) ↔ _
  simp

theorem returns_expect {x : Option α} {a : α} {e : ε} :
    (expect e x).Returns a ↔ x = some a := by
  cases x with
  | none =>
    show some (Except.error e) = some (.ok a) ↔ _
    simp
  | some b =>
    show some (Except.ok b) = some (.ok a) ↔ _
    simp

end Call

section ArrayFromFn

variable {n : Nat} {f : Fin n → Option α} {g : Fin n → α}

/-- `Array::from_fn`, with no result where some entry has none. -/
def arrayFromFn (f : Fin n → Option α) : Option (Fin n → α) :=
  if h : ∀ i, (f i).isSome then some fun i => (f i).get (h i) else none

theorem arrayFromFn_eq_some : arrayFromFn f = some g ↔ ∀ i, f i = some (g i) := by
  unfold arrayFromFn
  constructor
  · intro h i
    split at h
    · rename_i hsome
      rw [← Option.some.inj h, Option.some_get]
    · cases h
  · intro h
    have hsome : ∀ i, (f i).isSome := fun i => by rw [h i]; rfl
    rw [dif_pos hsome, Option.some.injEq]
    funext i
    exact Option.some.inj ((Option.some_get (hsome i)).trans (h i))

theorem exists_arrayFromFn (h : ∀ i, ∃ a, f i = some a) : ∃ g, arrayFromFn f = some g := by
  choose g hg using h
  exact ⟨g, arrayFromFn_eq_some.mpr hg⟩

end ArrayFromFn

end Trelis
