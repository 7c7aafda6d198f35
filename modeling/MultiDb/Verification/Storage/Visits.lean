import MultiDb.Model.Temporal
import MultiDb.Shared.Refusal

/-!
# Guarded visits

A visit runs its visitor over the rows that a plain read returns.  It may stop early only
because the visitor or the budget stops it.
-/

namespace MultiDb

open Shared
variable {error : StorageError} {table : String}

/-- A visit as a computation on the variables of its visitor. -/
def Visit.exec {σ α : Type} (visit : Visit σ α) (state : σ) : Result (α × σ) :=
  match visit.run.run state with
  | (.ok a, out) => .ok (a, out)
  | (.error e, _) => .error e

namespace Visit

variable {σ α β : Type} {state : σ}

theorem collect_eq_exec (visit : Visit σ α) (state : σ) :
    visit.collect state = visit.exec state >>= fun answer => pure answer.2 := by
  rw [collect, exec]
  rcases visit.run.run state with ⟨_ | _, _⟩ <;> rfl

theorem exec_bind (visit : Visit σ α) (next : α → Visit σ β) (state : σ) :
    (visit >>= next).exec state = visit.exec state >>= fun answer => (next answer.1).exec
    answer.2 := by
  rw [exec, exec, ExceptT.run_bind, StateT.run_bind]
  rcases visit.run.run state with ⟨_ | _, _⟩ <;> rfl

@[simp]
theorem exec_pure (a : α) (state : σ) : (pure a : Visit σ α).exec state = .ok (a, state) := rfl

@[simp]
theorem exec_lift (result : Result α) (state : σ) :
    (liftM result : Visit σ α).exec state = result >>= fun a => pure (a, state) := by
  cases result <;> rfl

@[simp]
theorem exec_get (state : σ) : (get : Visit σ σ).exec state = .ok (state, state) := rfl

@[simp]
theorem exec_set (new state : σ) : (set new : Visit σ PUnit).exec state = .ok ((), new) := rfl

@[simp]
theorem exec_throw (e : StorageError) (state : σ) :
    (throw e : Visit σ α).exec state = .error e := rfl

end Visit

/-- Some read can fail the budget with this error. -/
def ReadBudget.Rejects (budget : ReadBudget) (error : StorageError) : Prop :=
  budget.check = .error error ∨ ∃ bytes, budget.reserve bytes = .error error

section Budget

variable {σ β : Type} {budget : ReadBudget} {s : Store} {state : σ}
variable {Inv : List (Bytes × Bytes) → σ → Prop}

theorem ReadBudget.rejects_check (h : budget.check = .error error) :
    budget.Rejects error :=
  .inl h

theorem ReadBudget.rejects_reserve {bytes : ℕ}
    (h : budget.reserve bytes = .error error) : budget.Rejects error :=
  .inr ⟨bytes, h⟩

theorem follows_budget {α ε' : Type} {rel : β → α × σ → Prop} {call : Result Unit}
    {next : Unit → Visit σ α} {y : Except ε' β}
    (hcall : ∀ error, call = .error error → budget.Rejects error)
    (h : Follows budget.Rejects rel ((next ()).exec state) y) :
    Follows budget.Rejects rel ((liftM call >>= next : Visit σ α).exec state) y := by
  rw [Visit.exec_bind, Visit.exec_lift, bind_assoc]
  exact .check hcall h

variable {visitor : Bytes → Bytes → Visit σ Bool}

/-- Visiting entries under a budget follows the fold over them. -/
theorem follows_visitEntries {done entries : List (Bytes × Bytes)}
    (hvisit : ∀ done, ∀ entry ∈ entries, ∀ state, Inv done state →
      Follows budget.Rejects (fun (_ : Unit) answer => answer.1 = true ∧
        Inv (done ++ [entry]) answer.2)
        ((visitor entry.1 entry.2).exec state) (.ok () : Result Unit))
    (hinv : Inv done state) :
    Follows budget.Rejects (fun (_ : Unit) answer => Inv (done ++ entries) answer.2)
      ((visitEntries budget visitor entries).exec state) (.ok () : Result Unit) := by
  induction entries generalizing done state with
  | nil =>
    rw [List.append_nil, visitEntries, Visit.exec_lift]
    exact .check (fun _ => budget.rejects_check) (.ok hinv)
  | cons entry entries ih =>
    have hrest := fun done entry' hmem => hvisit done entry' (List.mem_cons_of_mem entry hmem)
    rw [visitEntries]
    refine follows_budget (fun _ => budget.rejects_check)
      (follows_budget (fun _ => budget.rejects_reserve) ?_)
    rw [Visit.exec_bind]
    change Follows _ _ _ ((.ok () : Result Unit) >>= fun _ => .ok ())
    refine .bind (hvisit done entry List.mem_cons_self state hinv) ?_
    rintro - ⟨_, state'⟩ ⟨rfl, hinv'⟩
    rw [List.append_cons]
    exact ih hrest hinv'

theorem follows_visitRange
    {start stop : Bytes}
    (hvisit : ∀ done, ∀ entry ∈ range s table start stop, ∀ state, Inv done state →
      Follows budget.Rejects (fun (_ : Unit) answer => answer.1 = true ∧
        Inv (done ++ [entry]) answer.2)
        ((visitor entry.1 entry.2).exec state) (.ok () : Result Unit)) (hinv : Inv [] state) :
    Follows budget.Rejects (fun (_ : Unit) state' => Inv (range s table start stop) state')
      (Visit.collect (visitRange budget s table start stop visitor) state)
        (.ok () : Result Unit) := by
  rw [Visit.collect_eq_exec]
  refine Follows.map_left ?_ fun _ answer hinv => hinv
  rw [visitRange]
  refine follows_budget (fun _ => budget.rejects_check) ?_
  rw [Visit.exec_bind]
  change Follows _ _ _ ((.ok () : Result Unit) >>= fun _ => .ok ())
  refine .bind (follows_visitEntries hvisit hinv) ?_
  rintro - ⟨_, state'⟩ hinv'
  rw [Visit.exec_lift]
  exact .check (fun _ => budget.rejects_check) (.ok hinv')

theorem follows_visitGet {ε' : Type} {visitor : Option Bytes → Visit σ Bool}
    {key : Bytes} {rel : β → σ → Prop} {y : Except ε' β}
    (hvisit : Follows budget.Rejects (fun b answer => rel b answer.2)
      ((visitor (s.get table key)).exec state) y) :
    Follows budget.Rejects rel (Visit.collect (visitGet budget s table key visitor) state) y := by
  rw [Visit.collect_eq_exec]
  refine Follows.map_left (show Follows budget.Rejects (fun b answer => rel b answer.2) _ y from ?_)
    fun _ answer hrel => hrel
  rw [visitGet]
  refine follows_budget (fun _ => budget.rejects_check)
    (follows_budget (fun _ => budget.rejects_check) (follows_budget ?_ ?_))
  · intro error herror
    cases hget : s.get table key with
    | none => simp [hget] at herror
    | some value =>
      rw [hget] at herror
      exact budget.rejects_reserve herror
  · rw [Visit.exec_bind, ← bind_pure y]
    refine .bind hvisit fun b answer hrel => ?_
    rw [Visit.exec_bind, Visit.exec_lift, bind_assoc]
    exact .check (fun _ => budget.rejects_check) (.ok hrel)

end Budget

end MultiDb
