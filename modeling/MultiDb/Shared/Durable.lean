import Mathlib.Data.List.Basic

/-!
# Calls on a store with atomic transactions

A call begins transactions on the committed state and hands states to the engine to commit.  It
may be cut after any number of its commits.
-/

namespace MultiDb.Shared

/-- From the committed state, the states that a call hands to the engine to commit, in order, and
its result. -/
def Durable (σ ε α : Type) : Type :=
  σ → List σ × Except ε α

namespace Durable

variable {σ ε α β : Type}

/-- The committed state after some commits. -/
def after (s : σ) (commits : List σ) : σ :=
  commits.getLast?.getD s

/-- A computation beside the store. -/
def lift (result : Except ε α) : Durable σ ε α :=
  fun _ => ([], result)

/-- A transaction begins with the committed state. -/
def beginWrite (reply : Except ε Unit) : Durable σ ε σ :=
  fun s => ([], reply.map fun _ => s)

/-- The end of a transaction, with the reply of the engine. -/
def commit (reply : Except ε Unit) (s : σ) : Durable σ ε Unit :=
  fun _ => ([s], reply)

/-- A call, and what handles its result. -/
def andThen (call : Durable σ ε α) (next : Except ε α → Durable σ ε β) : Durable σ ε β :=
  fun s =>
    let (commits, result) := call s
    let (rest, result) := next result (after s commits)
    (commits ++ rest, result)

instance durableMonad : Monad (Durable σ ε) where
  pure value := lift (.ok value)
  bind call next := call.andThen fun
    | .ok value => next value
    | .error error => lift (.error error)

/-- A call of one transaction, from what it stages. -/
def transaction (reply : Except ε Unit) : Except ε (α × σ) → List σ × Except ε α
  | .ok (value, s) => ([s], reply.map fun _ => value)
  | .error error => ([], .error error)

variable {s t : σ} {f : α → Durable σ ε β} {reply : Except ε Unit}

theorem beginWrite_bind {g : σ → Durable σ ε β} : (beginWrite (.ok ()) >>= g) s = g s s := rfl

/-- What stands before a transaction belongs to what it stages. -/
theorem lift_bind_eq_transaction {result : Except ε α} {staged : α → Except ε (β × σ)}
    (h : ∀ value, f value s = transaction reply (staged value)) :
    (lift result >>= f) s = transaction reply (result >>= staged) := by
  cases result with
  | error error => rfl
  | ok value => exact h value

/-- A commit that ends a call is a transaction of its own. -/
theorem commit_bind_pure {value : α} :
    (commit reply t >>= fun _ => pure value) s = transaction reply (.ok (value, t)) := by
  cases reply <;> rfl

end Durable

end MultiDb.Shared
