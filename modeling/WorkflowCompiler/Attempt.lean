/-!
# Computations that may fail and leave a state behind

`Attempt σ ε α` is a computation that reads and changes a state of type `σ` and ends with a
result of type `α` or an error of type `ε`. What it did to the state before an error stays
done: a failed attempt still returns the state it reached. Its laws are definitional, one
equation per operation (`bind_apply`, `mapError_apply`, `ensuring_apply`, …), and everything
that is proved about a composed attempt goes through them.
-/

namespace WorkflowCompiler

/-- A computation on a state that ends with a result or an error, and a state either way. -/
def Attempt (σ ε α : Type) : Type := σ → Except ε α × σ

namespace Attempt

variable {σ ε ε' α β : Type}

/-- Ends with a result and leaves the state as it is. -/
protected def pure (a : α) : Attempt σ ε α := fun s => (.ok a, s)

/-- Runs the first computation and, if it has a result, the second one from the state that
the first one left. -/
protected def bind (x : Attempt σ ε α) (f : α → Attempt σ ε β) : Attempt σ ε β := fun s =>
  match x s with
  | (.ok a, s') => f a s'
  | (.error e, s') => (.error e, s')

instance : Monad (Attempt σ ε) where
  pure := Attempt.pure
  bind := Attempt.bind

/-- Ends with an error. -/
def fail (e : ε) : Attempt σ ε α := fun s => (.error e, s)

/-- Ends with a value computed from the state. -/
def ask (f : σ → α) : Attempt σ ε α := fun s => (.ok (f s), s)

/-- Changes the state. -/
def change (f : σ → σ) : Attempt σ ε Unit := fun s => (.ok (), f s)

/-- Ends as a result or an error that is at hand. -/
def ofExcept (r : Except ε α) : Attempt σ ε α := fun s => (r, s)

/-- The same computation with its error put into other words. -/
def mapError (f : ε → ε') (x : Attempt σ ε α) : Attempt σ ε' α := fun s =>
  match x s with
  | (.ok a, s') => (.ok a, s')
  | (.error e, s') => (.error (f e), s')

/-- The computation, followed by a change of the state whether it failed or not. -/
def ensuring (x : Attempt σ ε α) (f : σ → σ) : Attempt σ ε α := fun s =>
  let (r, s') := x s
  (r, f s')

/-- Runs a computation for each member of a list, in order, and stops at the first error. -/
def each (f : α → Attempt σ ε β) : List α → Attempt σ ε (List β)
  | [] => pure []
  | a :: rest => do
    let b ← f a
    let bs ← each f rest
    pure (b :: bs)

/-- Runs a computation on a value that may be missing. -/
def optional (f : α → Attempt σ ε β) : Option α → Attempt σ ε (Option β)
  | none => pure none
  | some a => do
    let b ← f a
    pure (some b)

/-! ## What each operation does to a state -/

@[simp] theorem pure_apply (a : α) (s : σ) : (pure a : Attempt σ ε α) s = (.ok a, s) := rfl

theorem bind_apply (x : Attempt σ ε α) (f : α → Attempt σ ε β) (s : σ) :
    (x >>= f) s =
      match x s with
      | (.ok a, s') => f a s'
      | (.error e, s') => (.error e, s') := rfl

/-- A computation with a result goes on from the state it left. -/
theorem bind_apply_of_ok {x : Attempt σ ε α} {a : α} {s s' : σ} (h : x s = (.ok a, s'))
    (f : α → Attempt σ ε β) : (x >>= f) s = f a s' := by
  rw [bind_apply, h]

/-- A failed computation is not gone on with. -/
theorem bind_apply_of_error {x : Attempt σ ε α} {e : ε} {s s' : σ} (h : x s = (.error e, s'))
    (f : α → Attempt σ ε β) : (x >>= f) s = (.error e, s') := by
  rw [bind_apply, h]

/-- A sequence has a result only if both its parts have one. -/
theorem bind_eq_ok {x : Attempt σ ε α} {f : α → Attempt σ ε β} {b : β} {s s'' : σ}
    (h : (x >>= f) s = (.ok b, s'')) : ∃ a s', x s = (.ok a, s') ∧ f a s' = (.ok b, s'') := by
  rw [bind_apply] at h
  rcases hx : x s with ⟨r, s'⟩
  rw [hx] at h
  cases r with
  | error e => cases h
  | ok a => exact ⟨a, s', rfl, h⟩

/-- A sequence fails because its first part fails, or its second one after it. -/
theorem bind_eq_error {x : Attempt σ ε α} {f : α → Attempt σ ε β} {e : ε} {s s'' : σ}
    (h : (x >>= f) s = (.error e, s'')) :
    x s = (.error e, s'') ∨ ∃ a s', x s = (.ok a, s') ∧ f a s' = (.error e, s'') := by
  rw [bind_apply] at h
  rcases hx : x s with ⟨r, s'⟩
  rw [hx] at h
  cases r with
  | error e' => exact .inl (by cases h; rfl)
  | ok a => exact .inr ⟨a, s', rfl, h⟩

@[simp] theorem fail_apply (e : ε) (s : σ) : (fail e : Attempt σ ε α) s = (.error e, s) := rfl

@[simp] theorem ask_apply (f : σ → α) (s : σ) : (ask f : Attempt σ ε α) s = (.ok (f s), s) := rfl

@[simp] theorem change_apply (f : σ → σ) (s : σ) :
    (change f : Attempt σ ε Unit) s = (.ok (), f s) := rfl

@[simp] theorem ofExcept_apply (r : Except ε α) (s : σ) : ofExcept r s = (r, s) := rfl

theorem mapError_apply (f : ε → ε') (x : Attempt σ ε α) (s : σ) :
    mapError f x s = ((x s).1.mapError f, (x s).2) := by
  rw [mapError]
  rcases x s with ⟨_ | _, s'⟩ <;> rfl

theorem ensuring_apply (x : Attempt σ ε α) (f : σ → σ) (s : σ) :
    ensuring x f s = ((x s).1, f (x s).2) := rfl

/-! ## The laws of sequencing -/

theorem bind_assoc {γ : Type} (x : Attempt σ ε α) (f : α → Attempt σ ε β)
    (g : β → Attempt σ ε γ) : (x >>= f) >>= g = x >>= fun a => f a >>= g := by
  funext s
  simp only [bind_apply]
  rcases x s with ⟨_ | _, s'⟩ <;> rfl

theorem pure_bind (a : α) (f : α → Attempt σ ε β) : (pure a >>= f) = f a := rfl

@[simp] theorem each_nil (f : α → Attempt σ ε β) : each f [] = pure [] := rfl

theorem each_cons (f : α → Attempt σ ε β) (a : α) (rest : List α) :
    each f (a :: rest) = f a >>= fun b => each f rest >>= fun bs => pure (b :: bs) := rfl

end Attempt

end WorkflowCompiler
