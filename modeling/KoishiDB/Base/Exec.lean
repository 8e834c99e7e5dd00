import Mathlib.Tactic.Common

/-!
# Computations that can go wrong

A C++ function is modelled as a Lean function into `Exec α`: it returns a value, or it stops with
a `Fault`.  A fault is an `assert` that fails, a read or a write outside the object it belongs to,
a signed overflow, a division by zero, a null pointer that is followed, a loop that outlives its
bound, or a wait that nothing can end.  A theorem that concludes `f x = .ok y` therefore says that
none of these happens.

`Exec.bind_eq_ok` takes a sequence of steps apart; the proofs use it instead of unfolding `do`
blocks branch by branch.
-/

namespace KoishiDB

/-- The ways in which a modelled computation stops without a result. -/
inductive Fault where
  /-- An `assert` failed; the text is the asserted expression. -/
  | assertion (expr : String)
  /-- Memory outside the object was read or written. -/
  | outOfBounds
  /-- A signed integer operation overflowed. -/
  | overflow
  /-- A number was divided by zero, or its remainder by zero was taken. -/
  | divisionByZero
  /-- A null (or deleted) pointer was followed. -/
  | nullptr
  /-- A loop did not end within its bound. -/
  | diverges
  /-- The thread waits and nothing can wake it. -/
  | blocked
deriving Repr, DecidableEq

/-- A computation that returns an `α` or stops with a fault. -/
abbrev Exec := Except Fault

namespace Exec

variable {α β : Type}

/-- `assert(c)`, with the text of the asserted expression. -/
def require (c : Prop) [Decidable c] (expr : String) : Exec Unit :=
  if c then .ok () else .error (.assertion expr)

-- Proved by `id rfl` so that `simp` rewrites with these three instead of leaving the kernel to
-- compare whole computations by unfolding them.

@[simp] theorem ok_bind (a : α) (f : α → Exec β) : (Except.ok a >>= f) = f a := id rfl

@[simp] theorem error_bind (e : Fault) (f : α → Exec β) :
    ((Except.error e : Exec α) >>= f) = .error e := id rfl

@[simp] theorem pure_eq (a : α) : (pure a : Exec α) = .ok a := id rfl

theorem bind_eq_ok {x : Exec α} {f : α → Exec β} {b : β} :
    (x >>= f) = .ok b ↔ ∃ a, x = .ok a ∧ f a = .ok b := by
  cases x <;> simp

theorem bind_eq_error {x : Exec α} {f : α → Exec β} {e : Fault} :
    (x >>= f) = .error e ↔ x = .error e ∨ ∃ a, x = .ok a ∧ f a = .error e := by
  cases x <;> simp

/-- A result that is known only through `f`. -/
theorem exists_of_map {x : Exec α} {f : α → β} {b : β} (h : x.map f = .ok b) :
    ∃ a, x = .ok a ∧ f a = b := by
  cases x with
  | error e => cases h
  | ok a => exact ⟨a, rfl, Except.ok.inj h⟩

@[simp] theorem require_eq_ok {c : Prop} [Decidable c] {expr : String} {u : Unit} :
    require c expr = .ok u ↔ c := by
  unfold require
  split <;> simp_all

theorem require_of {c : Prop} [Decidable c] {expr : String} (h : c) : require c expr = .ok () :=
  require_eq_ok.2 h

end Exec

end KoishiDB
