import Mathlib.Data.List.Basic

/-!
# Computations on a state that may fail

A computation that fails keeps the changes it has made to its state.
-/

namespace MultiDb.Shared

/-- A computation on a state, which it keeps when it fails. -/
abbrev Stateful (ε σ α : Type) := ExceptT ε (StateM σ) α

namespace Stateful

variable {ε σ α β : Type}

def exec (x : Stateful ε σ α) (s : σ) : Except ε α × σ :=
  x.run.run s

/-- Goes on with the result of a run, unless it has failed. -/
def andThen (run : Except ε α × σ) (next : α → σ → Except ε β × σ) : Except ε β × σ :=
  match run with
  | (.ok a, s) => next a s
  | (.error e, s) => (.error e, s)

@[simp]
theorem andThen_ok (a : α) (s : σ) (next : α → σ → Except ε β × σ) :
    andThen (.ok a, s) next = next a s := rfl

@[simp]
theorem andThen_error (e : ε) (s : σ) (next : α → σ → Except ε β × σ) :
    andThen (.error e, s) next = (.error e, s) := rfl

theorem exec_bind (x : Stateful ε σ α) (f : α → Stateful ε σ β) (s : σ) :
    (x >>= f).exec s = andThen (x.exec s) fun a => (f a).exec := by
  rw [exec, ExceptT.run_bind, StateT.run_bind, exec]
  rcases x.run.run s with ⟨_ | _, _⟩ <;> rfl

@[simp]
theorem exec_pure (a : α) (s : σ) : (pure a : Stateful ε σ α).exec s = (.ok a, s) := rfl

@[simp]
theorem exec_get (s : σ) : (get : Stateful ε σ σ).exec s = (.ok s, s) := rfl

@[simp]
theorem exec_set (t s : σ) : (set t : Stateful ε σ PUnit).exec s = (.ok (), t) := rfl

@[simp]
theorem exec_modify (f : σ → σ) (s : σ) :
    (modify f : Stateful ε σ PUnit).exec s = (.ok (), f s) := rfl

@[simp]
theorem exec_throw (e : ε) (s : σ) : (throw e : Stateful ε σ α).exec s = (.error e, s) := rfl

@[simp]
theorem exec_lift (x : Except ε α) (s : σ) : (liftM x : Stateful ε σ α).exec s = (x, s) := by
  cases x <;> rfl

@[simp]
theorem exec_forM_nil (f : α → Stateful ε σ PUnit) (s : σ) :
    ([].forM f).exec s = (.ok (), s) := rfl

theorem exec_forM_cons (f : α → Stateful ε σ PUnit) (a : α) (as : List α) (s : σ) :
    ((a :: as).forM f).exec s = andThen ((f a).exec s) fun _ => (as.forM f).exec := by
  have hcons : (a :: as).forM f = f a >>= fun _ => as.forM f := by rw [List.forM.eq_def]
  rw [hcons, exec_bind]

end Stateful

end MultiDb.Shared
