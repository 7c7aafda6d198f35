import Mathlib.Data.List.Basic
import Mathlib.Order.Basic

/-!
# Merging sorted lists by their heads

The least of the heads is taken and its list advances, until every list is empty.
-/

namespace MultiDb.Shared

variable {α : Type} (le : α → α → Bool)
variable {heads : List (Option α)} {lists : List (List α)} {out : List α}

/-- The first least of the heads that are present, with its position. -/
def leastHead : List (Option α) → Option (ℕ × α)
  | [] => none
  | none :: heads => (leastHead heads).map fun found => (found.1 + 1, found.2)
  | some a :: heads =>
    match leastHead heads with
    | none => some (0, a)
    | some (i, b) => if le a b then some (0, a) else some (i + 1, b)

variable {le}

theorem leastHead_eq_none_iff :
    leastHead le heads = none ↔ ∀ head ∈ heads, head = none := by
  induction heads with
  | nil => simp [leastHead]
  | cons head heads ih =>
    cases head with
    | none => simp [leastHead, ih]
    | some a =>
      simp only [leastHead]
      split
      · simp
      · split <;> simp

/-- The head it picks is least among all heads. -/
theorem leastHead_spec (htotal : ∀ a b, le a b = false → le b a = true)
    (htrans : ∀ a b c, le a b = true → le b c = true → le a c = true)
    {i : ℕ} {a : α} (h : leastHead le heads = some (i, a)) :
    heads[i]? = some (some a) ∧ ∀ b, some b ∈ heads → le a b = true := by
  have hrefl : ∀ a, le a a = true := fun a => by
    cases hle : le a a with
    | false => rw [← hle, htotal a a hle]
    | true => rfl
  induction heads generalizing i a with
  | nil => simp [leastHead] at h
  | cons head heads ih =>
    cases head with
    | none =>
      obtain ⟨found, hfound, heq⟩ := Option.map_eq_some_iff.mp h
      cases heq
      obtain ⟨hget, hleast⟩ := ih hfound
      exact ⟨by simpa using hget, fun b hb => hleast b (by simpa using hb)⟩
    | some first =>
      simp only [leastHead] at h
      cases hrest : leastHead le heads with
      | none =>
        simp only [hrest, Option.some.injEq, Prod.mk.injEq] at h
        obtain ⟨rfl, rfl⟩ := h
        refine ⟨rfl, fun b hb => ?_⟩
        rcases List.mem_cons.mp hb with hb | hb
        · rw [Option.some.inj hb]
          exact hrefl first
        · exact absurd (leastHead_eq_none_iff.mp hrest _ hb) (by simp)
      | some found =>
        obtain ⟨hget, hleast⟩ := ih hrest
        simp only [hrest] at h
        by_cases hle : le first found.2
        · simp only [hle, if_true, Option.some.injEq, Prod.mk.injEq] at h
          obtain ⟨rfl, rfl⟩ := h
          refine ⟨rfl, fun b hb => ?_⟩
          rcases List.mem_cons.mp hb with hb | hb
          · rw [Option.some.inj hb]
            exact hrefl first
          · exact htrans _ _ _ hle (hleast b hb)
        · simp only [hle, Bool.false_eq_true, if_false, Option.some.injEq, Prod.mk.injEq] at h
          obtain ⟨rfl, rfl⟩ := h
          refine ⟨by simpa using hget, fun b hb => ?_⟩
          rcases List.mem_cons.mp hb with hb | hb
          · rw [Option.some.inj hb]
            exact htotal _ _ (by simpa using hle)
          · exact hleast b hb

variable (le)

/-- The list is a merge of the others: it always takes a least head. -/
inductive Merges : List (List α) → List α → Prop
  | done {lists : List (List α)} (h : ∀ l ∈ lists, l = []) : Merges lists []
  | step {lists : List (List α)} {i : ℕ} {a : α} {as out : List α}
      (hget : lists[i]? = some (a :: as))
      (hleast : ∀ l ∈ lists, ∀ b, l.head? = some b → le a b = true)
      (hrest : Merges (lists.set i as) out) : Merges lists (a :: out)

variable {le}

theorem flatten_perm_of_getElem? {i : ℕ} {a : α} {as : List α}
    (h : lists[i]? = some (a :: as)) : lists.flatten.Perm (a :: (lists.set i as).flatten) := by
  induction lists generalizing i with
  | nil => simp at h
  | cons l lists ih =>
    cases i with
    | zero =>
      obtain rfl : l = a :: as := by simpa using h
      simp
    | succ i =>
      have hrest := (ih (by simpa using h)).append_left l
      simp only [List.flatten_cons, List.set_cons_succ]
      exact hrest.trans List.perm_middle

theorem Merges.perm (h : Merges le lists out) :
    out.Perm lists.flatten := by
  induction h with
  | done hempty =>
    rw [List.flatten_eq_nil_iff.mpr hempty]
  | step hget hleast hrest ih => exact (ih.cons _).trans (flatten_perm_of_getElem? hget).symm

/-- A merge of sorted lists is sorted. -/
theorem Merges.pairwise (htrans : ∀ a b c, le a b = true → le b c = true → le a c = true) (h : Merges le lists out)
    (hsorted : ∀ l ∈ lists, l.Pairwise fun a b => le a b = true) :
    out.Pairwise fun a b => le a b = true := by
  induction h with
  | done hempty => exact .nil
  | @step lists i a as out hget hleast hrest ih =>
    have hlist := hsorted _ (List.mem_of_getElem? hget)
    have hnext : ∀ l ∈ lists.set i as, l.Pairwise fun a b => le a b = true := by
      intro l hl
      rcases List.mem_or_eq_of_mem_set hl with hl | rfl
      · exact hsorted l hl
      · exact hlist.tail
    refine .cons (fun b hb => ?_) (ih hnext)
    obtain ⟨l, hl, hb⟩ := List.mem_flatten.mp (hrest.perm.mem_iff.mp hb)
    rcases List.mem_or_eq_of_mem_set hl with hl | rfl
    · -- `b` lies behind the head of a list, which is not below `a`
      cases l with
      | nil => simp at hb
      | cons first rest =>
        have hfirst := hleast _ hl first rfl
        rcases List.mem_cons.mp hb with rfl | hb
        · exact hfirst
        · exact htrans _ _ _ hfirst (List.rel_of_pairwise_cons (hsorted _ hl) hb)
    · exact List.rel_of_pairwise_cons hlist hb

end MultiDb.Shared
