import MultiDb.Shared.Tables
import Mathlib.Data.List.Perm.Basic
import Mathlib.Algebra.BigOperators.Group.List.Basic

/-!
# Totals

The weights of stores and of lists of parties, and what one step changes.
-/

namespace MultiDb.Shared

theorem sum_map_set {α : Type} (f : α → ℕ) {l : List α} {i : ℕ} {a : α} (h : l[i]? = some a)
    (b : α) : ((l.set i b).map f).sum + f a = (l.map f).sum + f b := by
  induction l generalizing i with
  | nil => simp at h
  | cons x xs ih =>
    cases i with
    | zero =>
      obtain rfl : x = a := by simpa using h
      simp only [List.set_cons_zero, List.map_cons, List.sum_cons]
      omega
    | succ i =>
      have := ih (i := i) (by simpa using h)
      simp only [List.set_cons_succ, List.map_cons, List.sum_cons]
      omega

namespace Tables

variable {τ κ ν : Type} [Ord τ] [Ord κ] [Std.TransOrd τ] [Std.TransOrd κ]

/-- The sum of a weight over all rows. -/
def total (weight : τ → κ → ν → ℕ) (s : Tables τ κ ν) : ℕ :=
  (s.entries.map fun e => weight e.1.1 e.1.2 e.2).sum

variable [Std.LawfulEqOrd τ] [Std.LawfulEqOrd κ]

@[simp] theorem total_empty (weight : τ → κ → ν → ℕ) : total weight (empty : Tables τ κ ν) = 0 := by
  rw [total, List.isEmpty_iff.mp (entries_isEmpty_iff.mpr get_empty)]
  rfl

theorem entries_nodup (s : Tables τ κ ν) : s.entries.Nodup := by
  refine s.entries_sorted.imp ?_
  rintro a b hlt rfl
  simp [pairCmp, compareLex, compareOn] at hlt

/-- Rows outside `p` weigh nothing, so stores that agree on `p` weigh the same. -/
theorem total_congr {weight : τ → κ → ν → ℕ} {p : τ → Bool}
    (hweight : ∀ t k v, p t = false → weight t k v = 0) {s s' : Tables τ κ ν}
    (h : ∀ t k, p t = true → s.get t k = s'.get t k) : total weight s = total weight s' := by
  have hfilter : ∀ r : Tables τ κ ν, total weight r =
      ((r.entries.filter fun e => p e.1.1).map fun e => weight e.1.1 e.1.2 e.2).sum := by
    intro r
    rw [total]
    induction r.entries with
    | nil => rfl
    | cons e es ih =>
      cases hp : p e.1.1 with
      | true => simp [hp, ih]
      | false => simp [hp, ih, hweight _ _ _ hp]
  rw [hfilter, hfilter]
  refine List.Perm.sum_eq (List.Perm.map _ ?_)
  refine (List.perm_ext_iff_of_nodup (s.entries_nodup.filter _) (s'.entries_nodup.filter _)).mpr ?_
  rintro ⟨⟨t, k⟩, v⟩
  rw [List.mem_filter, List.mem_filter, mem_entries, mem_entries]
  exact and_congr_left fun hp => by rw [h t k hp]

variable [DecidableEq τ] [DecidableEq κ]

/-- A put adds its own weight to that of the other rows. -/
theorem total_put (weight : τ → κ → ν → ℕ) (s : Tables τ κ ν) (t : τ) (k : κ) (v : ν) :
    total weight (s.put t k v) = weight t k v + total weight (s.delete t k) := by
  have hperm : (s.put t k v).entries.Perm (((t, k), v) :: (s.delete t k).entries) := by
    refine (List.perm_ext_iff_of_nodup (entries_nodup _) ?_).mpr ?_
    · refine List.nodup_cons.mpr ⟨?_, entries_nodup _⟩
      rw [mem_entries, get_delete, if_pos ⟨rfl, rfl⟩]
      simp
    · rintro ⟨⟨t', k'⟩, v'⟩
      rw [List.mem_cons, mem_entries, mem_entries, get_put, get_delete]
      by_cases hrow : t = t' ∧ k = k'
      · obtain ⟨rfl, rfl⟩ := hrow
        simp [eq_comm]
      · have hne : ¬ (((t', k'), v') = ((t, k), v)) := by
          intro heq
          simp only [Prod.mk.injEq] at heq
          exact hrow ⟨heq.1.1.symm, heq.1.2.symm⟩
        rw [if_neg hrow, if_neg hrow]
        simp [hne]
  rw [total, (hperm.map _).sum_eq]
  rfl

theorem total_delete (weight : τ → κ → ν → ℕ) {s : Tables τ κ ν} {t : τ} {k : κ} {v : ν}
    (h : s.get t k = some v) : total weight (s.delete t k) + weight t k v = total weight s := by
  have hback : (s.put t k v) = s := by
    refine ext_get fun t' k' => ?_
    rw [get_put]
    split
    · rename_i hrow
      rw [← hrow.1, ← hrow.2, h]
    · rfl
  rw [← congrArg (total weight) hback, total_put, Nat.add_comm]

theorem total_delete_le (weight : τ → κ → ν → ℕ) (s : Tables τ κ ν) (t : τ) (k : κ) :
    total weight (s.delete t k) ≤ total weight s := by
  cases h : s.get t k with
  | some v =>
    have := total_delete weight h
    omega
  | none =>
    have hsame : s.delete t k = s := by
      refine ext_get fun t' k' => ?_
      rw [get_delete]
      split
      · rename_i hrow
        rw [← hrow.1, ← hrow.2, h]
      · rfl
    rw [hsame]

end Tables

end MultiDb.Shared
