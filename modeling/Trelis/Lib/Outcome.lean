import Mathlib.Data.List.Forall2

/-!
# Fallible computations

The two shapes of a fallible Rust function, and the inversion lemmas that take
a successful run apart.

* `Except ε α` is a function that returns `Result<α, ε>` and changes nothing.
  `rejectIf` is the early return `if bad { return Err(e) }`.
* `EStateM ε σ α` is a function that also mutates a value of type `σ` through
  `&mut`.  Its result carries the final state in the failing case too, so a
  model in it says what a rejected call leaves behind.  `EStateM.lift` embeds
  the computations of the first kind.

Each inversion lemma is an `iff`, and is tagged for `simp`, so that rewriting
with it turns a whole `do` block into the conjunction of what its steps did.
`errorOf` says how a run fails, in the same way, and `FailsClean` that its failure
leaves no trace.  `okAnd`, `failsWith` and
`failsAnd` are the tests that a concrete run evaluates.
-/

namespace Trelis

variable {ε σ α β : Type}

/-! ## Computations without state -/

/-- The early return `if bad { return Err(e) }`. -/
def rejectIf (bad : Prop) [Decidable bad] (e : ε) : Except ε Unit :=
  if bad then .error e else .ok ()

@[simp] theorem rejectIf_eq_ok {bad : Prop} [Decidable bad] {e : ε} {u : Unit} :
    rejectIf bad e = .ok u ↔ ¬ bad := by
  unfold rejectIf
  split <;> simp [*]

theorem rejectIf_congr {p q : Prop} [Decidable p] [Decidable q] {e : ε} (h : p ↔ q) :
    rejectIf p e = rejectIf q e := by
  unfold rejectIf
  exact if_congr h rfl rfl

/-- A sequence succeeds exactly when both of its steps do. -/
@[simp] theorem Except.bind_eq_ok {x : Except ε α} {f : α → Except ε β} {b : β} :
    (x >>= f) = .ok b ↔ ∃ a, x = .ok a ∧ f a = .ok b := by
  cases x with
  | error e => simp [bind, Except.bind]
  | ok a => simp [bind, Except.bind]

/-- A check in front of a computation. -/
theorem Except.check_bind_eq_ok {x : Except ε Unit} {f : Unit → Except ε β} {b : β} :
    (x >>= f) = .ok b ↔ x = .ok () ∧ f () = .ok b := by
  rw [Except.bind_eq_ok]
  constructor
  · intro hboth
    rcases hboth with ⟨_, hx, hf⟩
    exact ⟨hx, hf⟩
  · intro hboth
    rcases hboth with ⟨hx, hf⟩
    exact ⟨(), hx, hf⟩

@[simp] theorem Except.pure_eq_ok {a b : α} : (pure a : Except ε α) = .ok b ↔ a = b := by
  simp [pure, Except.pure]

theorem Except.map_eq_ok {x : Except ε α} {f : α → β} {b : β} :
    f <$> x = .ok b ↔ ∃ a, x = .ok a ∧ f a = b := by
  cases x with
  | error e => simp [Functor.map, Except.map]
  | ok a => simp [Functor.map, Except.map]

@[simp] theorem Except.mapError_eq_ok {ε' : Type} {x : Except ε α} {f : ε → ε'} {a : α} :
    x.mapError f = .ok a ↔ x = .ok a := by
  cases x <;> simp [Except.mapError]

@[simp] theorem Except.throw_eq_ok {e : ε} {b : α} :
    (throw e : Except ε α) = .ok b ↔ False := by
  simp [throw, throwThe, MonadExceptOf.throw]

/-- A loop that maps a fallible function over a list succeeds exactly when each
call does, and then returns the results in order. -/
theorem Except.mapM_eq_ok {f : α → Except ε β} {xs : List α} {ys : List β} :
    xs.mapM f = .ok ys ↔ List.Forall₂ (fun x y => f x = .ok y) xs ys := by
  induction xs generalizing ys with
  | nil => cases ys <;> simp [pure, Except.pure]
  | cons x xs ih =>
    simp only [List.mapM_cons, Except.bind_eq_ok, Except.pure_eq_ok]
    constructor
    · rintro ⟨y, hy, ys', hys, rfl⟩
      exact .cons hy (ih.mp hys)
    · rintro (_ | ⟨hy, hys⟩)
      exact ⟨_, hy, _, ih.mpr hys, rfl⟩

/-! ## Computations that mutate a state -/

/-- A computation without state, run where there is one. -/
def EStateM.lift (x : Except ε α) : EStateM ε σ α := fun s =>
  match x with
  | .ok a => .ok a s
  | .error e => .error e s

@[simp] theorem EStateM.lift_eq_ok {x : Except ε α} {s s' : σ} {a : α} :
    (EStateM.lift x : EStateM ε σ α) s = .ok a s' ↔ x = .ok a ∧ s' = s := by
  unfold EStateM.lift
  cases x <;> simp [eq_comm]

@[simp] theorem EStateM.bind_eq_ok {x : EStateM ε σ α} {f : α → EStateM ε σ β} {s s' : σ} {b : β} :
    (x >>= f) s = .ok b s' ↔ ∃ a s₁, x s = .ok a s₁ ∧ f a s₁ = .ok b s' := by
  simp only [bind, EStateM.bind]
  cases x s <;> simp

/-- A sequence fails in its first step, or in its second one from where the first
one ended. -/
theorem EStateM.bind_eq_error {x : EStateM ε σ α} {f : α → EStateM ε σ β} {s s' : σ} {e : ε} :
    (x >>= f) s = .error e s' ↔
      x s = .error e s' ∨ ∃ a s₁, x s = .ok a s₁ ∧ f a s₁ = .error e s' := by
  simp only [bind, EStateM.bind]
  cases x s <;> simp

theorem EStateM.map_eq_ok {x : EStateM ε σ α} {f : α → β} {s s' : σ} {b : β} :
    (f <$> x) s = .ok b s' ↔ ∃ a, x s = .ok a s' ∧ f a = b := by
  simp only [Functor.map, EStateM.map]
  cases x s <;> simp [and_comm]

theorem EStateM.map_eq_error {x : EStateM ε σ α} {f : α → β} {s s' : σ} {e : ε} :
    (f <$> x) s = .error e s' ↔ x s = .error e s' := by
  simp only [Functor.map, EStateM.map]
  cases x s <;> simp

@[simp] theorem EStateM.lift_eq_error {x : Except ε α} {s s' : σ} {e : ε} :
    (EStateM.lift x : EStateM ε σ α) s = .error e s' ↔ x = .error e ∧ s' = s := by
  unfold EStateM.lift
  cases x <;> simp [eq_comm]

@[simp] theorem EStateM.pure_eq_ok {s s' : σ} {a b : α} :
    (pure a : EStateM ε σ α) s = .ok b s' ↔ a = b ∧ s' = s := by
  simp [pure, EStateM.pure, eq_comm]

@[simp] theorem EStateM.get_eq_ok {s s' a : σ} :
    (get : EStateM ε σ σ) s = .ok a s' ↔ a = s ∧ s' = s := by
  show EStateM.Result.ok s s = .ok a s' ↔ _
  simp [eq_comm]

@[simp] theorem EStateM.set_eq_ok {s s' t : σ} {u : PUnit} :
    (set t : EStateM ε σ PUnit) s = .ok u s' ↔ s' = t := by
  show EStateM.Result.ok PUnit.unit t = .ok u s' ↔ _
  simp [eq_comm]

@[simp] theorem EStateM.modify_eq_ok {g : σ → σ} {s s' : σ} {u : PUnit} :
    (modify g : EStateM ε σ PUnit) s = .ok u s' ↔ s' = g s := by
  show EStateM.Result.ok PUnit.unit (g s) = .ok u s' ↔ _
  simp [eq_comm]

theorem EStateM.get_bind_apply (f : σ → EStateM ε σ β) (s : σ) : (get >>= f) s = f s s := rfl

theorem EStateM.set_bind_apply (t : σ) (f : PUnit → EStateM ε σ β) (s : σ) :
    (set t >>= f) s = f ⟨⟩ t := rfl

theorem EStateM.modify_bind_apply (g : σ → σ) (f : PUnit → EStateM ε σ β) (s : σ) :
    (modify g >>= f) s = f ⟨⟩ (g s) := rfl

theorem EStateM.lift_bind (x : Except ε α) (f : α → Except ε β) :
    (EStateM.lift (x >>= f) : EStateM ε σ β) = EStateM.lift x >>= fun a => EStateM.lift (f a) := by
  funext s
  cases x <;> rfl

theorem EStateM.lift_pure (a : α) : (EStateM.lift (pure a) : EStateM ε σ α) = pure a := rfl

/-- How a run ends that reads, and writes once: with the new state, or with an
error and the old one. -/
def validated (s : σ) : Except ε σ → EStateM.Result ε σ Unit
  | .ok s' => .ok () s'
  | .error e => .error e s

theorem EStateM.lift_bind_set (x : Except ε α) (f : α → σ) (s : σ) :
    (EStateM.lift x >>= fun a => (set (f a) : EStateM ε σ PUnit)) s =
      validated s (x >>= fun a => pure (f a)) := by
  cases x <;> rfl

/-! ## Failing runs -/

/-- The error of a failed run, and the state that it leaves behind. -/
def errorOf : EStateM.Result ε σ α → Option (ε × σ)
  | .ok _ _ => none
  | .error e s => some (e, s)

theorem errorOf_eq_some {r : EStateM.Result ε σ α} {e : ε} {s : σ} :
    errorOf r = some (e, s) ↔ r = .error e s := by
  cases r <;> simp [errorOf]

section ErrorOf

variable (s t : σ) (x : Except ε α) (a : α)

theorem errorOf_lift :
    errorOf ((EStateM.lift x : EStateM ε σ α) s) =
      match x with
      | .ok _ => none
      | .error e => some (e, s) := by
  cases x <;> rfl

theorem errorOf_lift_bind (f : α → EStateM ε σ β) :
    errorOf ((EStateM.lift x >>= f) s) =
      match x with
      | .ok a => errorOf (f a s)
      | .error e => some (e, s) := by
  cases x <;> rfl

theorem errorOf_get_bind (f : σ → EStateM ε σ β) :
    errorOf ((get >>= f) s) = errorOf (f s s) := rfl

theorem errorOf_set_bind (f : PUnit → EStateM ε σ β) :
    errorOf ((set t >>= f) s) = errorOf (f ⟨⟩ t) := rfl

theorem errorOf_set : errorOf ((set t : EStateM ε σ PUnit) s) = none := rfl

theorem errorOf_modify_bind (g : σ → σ) (f : PUnit → EStateM ε σ β) :
    errorOf ((modify g >>= f) s) = errorOf (f ⟨⟩ (g s)) := rfl

theorem errorOf_pure : errorOf ((pure a : EStateM ε σ α) s) = none := rfl

end ErrorOf

/-- A run from `s` that fails with an error of the kind `E` leaves `s` behind. -/
def FailsClean (E : ε → Prop) (x : EStateM ε σ α) (s : σ) : Prop :=
  ∀ e s', E e → x s = .error e s' → s' = s

namespace FailsClean

variable {E : ε → Prop} {s : σ} {f : α → EStateM ε σ β}

/-- A step that only fails or returns. -/
theorem lift_bind {x : Except ε α} (h : ∀ a, FailsClean E (f a) s) :
    FailsClean E (EStateM.lift x >>= f) s := by
  intro e s' he hrun
  cases x with
  | error e' => exact (EStateM.Result.error.inj hrun).2.symm
  | ok a => exact h a e s' he hrun

theorem get_bind {f : σ → EStateM ε σ β} (h : FailsClean E (f s) s) :
    FailsClean E (get >>= f) s := h

/-- The write behind which nothing fails. -/
theorem set_bind_pure {t : σ} {b : β} :
    FailsClean E (set t >>= fun _ => (pure b : EStateM ε σ β)) s := by
  intro e s' _ hrun
  cases hrun

end FailsClean

/-! ## Testing an outcome -/

/-- The run succeeds, and `p` holds of its result and its final state. -/
def okAnd (r : EStateM.Result ε σ α) (p : α → σ → Bool) : Bool :=
  match r with
  | .ok a s => p a s
  | .error _ _ => false

/-- The run fails with the error `e`. -/
def failsWith [DecidableEq ε] (r : EStateM.Result ε σ α) (e : ε) : Bool :=
  match r with
  | .ok _ _ => false
  | .error e' _ => e' = e

/-- The run fails, and `p` holds of its error and the state it leaves behind. -/
def failsAnd (r : EStateM.Result ε σ α) (p : ε → σ → Bool) : Bool :=
  match r with
  | .ok _ _ => false
  | .error e s => p e s

/-- The value is a success, and `p` holds of it. -/
def okWith (x : Except ε α) (p : α → Bool) : Bool :=
  match x with
  | .ok a => p a
  | .error _ => false

theorem okWith_eq_true {x : Except ε α} {p : α → Bool} :
    okWith x p = true ↔ ∃ a, x = .ok a ∧ p a = true := by
  cases x <;> simp [okWith]

theorem okAnd_eq_true {r : EStateM.Result ε σ α} {p : α → σ → Bool} :
    okAnd r p = true ↔ ∃ a s, r = .ok a s ∧ p a s = true := by
  cases r <;> simp [okAnd]

theorem failsWith_eq_true [DecidableEq ε] {r : EStateM.Result ε σ α} {e : ε} :
    failsWith r e = true ↔ ∃ s, r = .error e s := by
  cases r <;> simp [failsWith]

theorem failsAnd_eq_true {r : EStateM.Result ε σ α} {p : ε → σ → Bool} :
    failsAnd r p = true ↔ ∃ e s, r = .error e s ∧ p e s = true := by
  cases r <;> simp [failsAnd]

end Trelis
