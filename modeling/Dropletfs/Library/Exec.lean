import Mathlib.Order.Basic

/-!
# Ways a call can end

A call returns, or waits for something that no other call will bring about, or leaves the
part of the language whose behaviour is defined. Calls are chained: what follows runs only
after a return.
-/

/-- The ways a call can end. -/
inductive Exec (α : Type) where
  | done (result : α)
  | blocked
  | undefined
  deriving DecidableEq, Repr

namespace Exec

variable {α β : Type}

/-- Go on with the result of a call that returns. -/
def bind (call : Exec α) (next : α → Exec β) : Exec β :=
  match call with
  | done a => next a
  | blocked => blocked
  | undefined => undefined

instance : Monad Exec where
  pure := done
  bind := bind

/-- Returning a value is ending with it. -/
theorem pure_eq_done (a : α) : (pure a : Exec α) = done a := rfl

/-- What follows a return gets its result. -/
@[simp] theorem done_bind (a : α) (next : α → Exec β) : (done a >>= next) = next a := rfl

/-- Nothing follows a wait. -/
@[simp] theorem blocked_bind (next : α → Exec β) : ((blocked : Exec α) >>= next) = blocked := rfl

/-- Nothing follows undefined behaviour. -/
@[simp] theorem undefined_bind (next : α → Exec β) : ((undefined : Exec α) >>= next) = undefined := rfl

/-- A chain returns exactly when both of its calls do. -/
theorem bind_eq_done {call : Exec α} {next : α → Exec β} {b : β} :
    (call >>= next) = done b ↔ ∃ a, call = done a ∧ next a = done b := by
  cases call <;> simp

end Exec
