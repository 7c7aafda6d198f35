import Mathlib.Order.Bounds.Basic
import Mathlib.Order.Interval.Set.Basic

/-!
# The greatest element of a set, if there is one

A search for the greatest element may look at the upper part of the set first and go on
below it when that part is empty.
-/

namespace MultiDb.Shared

variable {α β : Type} [LinearOrder α]
variable {x y : Option α} {S : Set α}

/-- The greatest element of `S`, or nothing when `S` is empty. -/
def GreatestIn (S : Set α) : Option α → Prop
  | some a => IsGreatest S a
  | none => S = ∅

theorem GreatestIn.unique (hx : GreatestIn S x)
    (hy : GreatestIn S y) : x = y := by
  cases x with
  | none =>
    cases y with
    | none => rfl
    | some b => exact absurd hy.1 (Set.eq_empty_iff_forall_notMem.mp hx b)
  | some a =>
    cases y with
    | none => exact absurd hx.1 (Set.eq_empty_iff_forall_notMem.mp hy a)
    | some b => rw [IsGreatest.unique hx hy]

/-- The least element of `S`, or nothing when `S` is empty. -/
def LeastIn (S : Set α) : Option α → Prop
  | some a => IsLeast S a
  | none => S = ∅

theorem LeastIn.unique (hx : LeastIn S x) (hy : LeastIn S y) : x = y :=
  GreatestIn.unique (α := αᵒᵈ) hx hy

theorem GreatestIn.of_upper {bound a : α}
    (h : GreatestIn (S ∩ Set.Ici bound) (some a)) : GreatestIn S (some a) := by
  obtain ⟨⟨hmem, hbound⟩, hgreatest⟩ := h
  refine ⟨hmem, fun b hb => ?_⟩
  by_cases hle : bound ≤ b
  · exact hgreatest ⟨hb, hle⟩
  · exact (not_le.mp hle).le.trans hbound

theorem GreatestIn.of_lower {bound : α}
    (hupper : S ∩ Set.Ici bound = ∅) (h : GreatestIn (S ∩ Set.Iio bound) x) : GreatestIn S x := by
  have heq : S ∩ Set.Iio bound = S := by
    refine Set.inter_eq_left.mpr fun b hb => ?_
    by_contra hge
    exact Set.eq_empty_iff_forall_notMem.mp hupper b ⟨hb, not_lt.mp hge⟩
  rwa [heq] at h

theorem greatestIn_find? (key : β → α) {l : List β} (hl : l.Pairwise fun a b => key b < key a)
    (p : β → Bool) : GreatestIn {a | ∃ b ∈ l, p b = true ∧ key b = a} ((l.find? p).map key) := by
  induction l with
  | nil => exact Set.eq_empty_iff_forall_notMem.mpr (by simp)
  | cons b l ih =>
    rw [List.pairwise_cons] at hl
    by_cases hp : p b = true
    · rw [List.find?_cons_of_pos hp]
      refine ⟨⟨b, List.mem_cons_self, hp, rfl⟩, ?_⟩
      rintro _ ⟨b', hmem, -, rfl⟩
      rcases List.mem_cons.mp hmem with rfl | hmem
      · exact le_rfl
      · exact (hl.1 b' hmem).le
    · rw [List.find?_cons_of_neg hp]
      convert ih hl.2 using 1
      ext a
      simp only [List.mem_cons, Set.mem_ofPred_eq, exists_eq_or_imp, hp, Bool.false_eq_true,
        false_and, false_or]

end MultiDb.Shared
