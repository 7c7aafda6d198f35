import Mathlib.Data.Finset.Card

/-!
# Worklists

A set grown by a stack of elements whose successors have not been looked at yet.
-/

namespace MultiDb.Shared

variable {α : Type} [DecidableEq α]

/-- Inserts an element, and pushes it when it is new. -/
def pushNew (state : List α × List α) (x : α) : List α × List α :=
  if x ∈ state.2 then state else (x :: state.1, x :: state.2)

/-- Pops elements and inserts their successors, for at most `fuel` elements. -/
def worklist (next : α → List α) : ℕ → List α → List α → List α
  | 0, _, seen => seen
  | _ + 1, [], seen => seen
  | fuel + 1, x :: stack, seen =>
    let state := (next x).foldl pushNew (stack, seen)
    worklist next fuel state.1 state.2

/-- What inserting some elements does to the stack and to the set. -/
structure Pushes (xs : List α) (before after : List α × List α) : Prop where
  mem_seen : ∀ x, x ∈ after.2 ↔ x ∈ before.2 ∨ x ∈ xs
  mem_stack : ∀ x, x ∈ after.1 ↔ x ∈ before.1 ∨ x ∈ xs ∧ x ∉ before.2
  card : ∀ domain : Finset α, (∀ x ∈ xs, x ∈ domain) →
    after.1.length + (domain \ after.2.toFinset).card =
      before.1.length + (domain \ before.2.toFinset).card

theorem pushes_foldl (xs : List α) (state : List α × List α) :
    Pushes xs state (xs.foldl pushNew state) := by
  induction xs generalizing state with
  | nil => exact ⟨by simp, by simp, fun _ _ => rfl⟩
  | cons x xs ih =>
    obtain ⟨hseen, hstack, hcard⟩ := ih (pushNew state x)
    rw [List.foldl_cons]
    by_cases hx : x ∈ state.2
    · rw [pushNew, if_pos hx] at hseen hstack hcard ⊢
      refine ⟨by grind, by grind, fun domain hxs => ?_⟩
      exact hcard domain fun y hy => hxs y (List.mem_cons_of_mem x hy)
    · rw [pushNew, if_neg hx] at hseen hstack hcard ⊢
      refine ⟨by grind, by grind, fun domain hxs => ?_⟩
      have hnew : x ∈ domain \ state.2.toFinset := by simp [hx, hxs x List.mem_cons_self]
      have hpos := Finset.card_pos.mpr ⟨x, hnew⟩
      rw [hcard domain fun y hy => hxs y (List.mem_cons_of_mem x hy), List.toFinset_cons,
        Finset.sdiff_insert, Finset.card_erase_of_mem hnew, List.length_cons]
      omega

variable {stack seen : List α}

/-- Every item the search adds is a successor of one it has found. -/
theorem worklist_grows (next : α → List α) (fuel : ℕ) (hstack : ∀ x ∈ stack, x ∈ seen) :
    (∀ x ∈ seen, x ∈ worklist next fuel stack seen) ∧
    ∀ y ∈ worklist next fuel stack seen, y ∈ seen ∨
      ∃ x ∈ worklist next fuel stack seen, y ∈ next x := by
  induction fuel generalizing stack seen with
  | zero => exact ⟨fun x hx => hx, fun y hy => .inl hy⟩
  | succ fuel ih =>
    cases stack with
    | nil => exact ⟨fun x hx => hx, fun y hy => .inl hy⟩
    | cons x stack =>
      rw [worklist]
      have hpushes := pushes_foldl (next x) (stack, seen)
      generalize (next x).foldl pushNew (stack, seen) = state at hpushes
      have hmem := hpushes.mem_seen
      have hstack' : ∀ y ∈ state.1, y ∈ state.2 := by
        intro y hy
        have hpushed := (hpushes.mem_stack y).mp hy
        grind
      obtain ⟨hkept, hgrown⟩ := ih hstack'
      have hx : x ∈ worklist next fuel state.1 state.2 :=
        hkept x ((hmem x).mpr (.inl (hstack x List.mem_cons_self)))
      refine ⟨fun y hy => hkept y ((hmem y).mpr (.inl hy)), fun y hy => ?_⟩
      rcases hgrown y hy with hy | hy
      · rcases (hmem y).mp hy with hy | hy
        · exact .inl hy
        · exact .inr ⟨x, hx, hy⟩
      · exact .inr hy

/-- With enough fuel, the set has all successors of its elements in the end, except for elements
that were never on the stack. -/
theorem worklist_closed {next : α → List α} {domain : Finset α} {p : α → Prop}
    (hdomain : ∀ x, ∀ y ∈ next x, y ∈ domain)
    (fuel : ℕ) (hclosed : ∀ x ∈ seen, p x → x ∉ stack → ∀ y ∈ next x, y ∈ seen)
    (hfuel : stack.length + (domain \ seen.toFinset).card ≤ fuel) :
    ∀ x ∈ worklist next fuel stack seen, p x → ∀ y ∈ next x,
      y ∈ worklist next fuel stack seen := by
  induction fuel generalizing stack seen with
  | zero =>
    obtain rfl : stack = [] := List.length_eq_zero_iff.mp (by omega)
    exact fun x hx hp => hclosed x hx hp List.not_mem_nil
  | succ fuel ih =>
    cases stack with
    | nil => exact fun x hx hp => hclosed x hx hp List.not_mem_nil
    | cons x stack =>
      rw [worklist]
      have hpushes := pushes_foldl (next x) (stack, seen)
      generalize (next x).foldl pushNew (stack, seen) = state at hpushes
      have hcard := hpushes.card domain (hdomain x)
      simp only [List.length_cons] at hfuel hcard
      refine ih (fun y hy hp hnot z hz => ?_) (by omega)
      have hmem := hpushes.mem_seen
      have hpushed := hpushes.mem_stack y
      by_cases hyx : y = x
      · exact (hmem z).mpr (.inr (hyx ▸ hz))
      · grind

end MultiDb.Shared
