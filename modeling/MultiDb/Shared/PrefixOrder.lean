import MultiDb.Shared.Bytes

/-!
# Fronts of byte strings and the order

Byte strings with a common front lie next to each other.
-/

namespace MultiDb.Shared

/-- Between two extensions of a byte string there are only extensions of it. -/
theorem prefix_of_between {p x y key : Bytes} (hstart : (compare (p ++ x) key).isLE = true)
    (hstop : compare key (p ++ y) = .lt) : p <+: key := by
  induction p generalizing key with
  | nil => exact List.nil_prefix
  | cons b p ih =>
    cases key with
    | nil => simp at hstart
    | cons c key =>
      rw [List.cons_append, List.compare_cons_cons] at hstart hstop
      have hbc : b = c := by
        apply Std.LawfulEqOrd.eq_of_compare
        cases hcmp : compare b c with
        | lt =>
          rw [Std.OrientedCmp.gt_of_lt hcmp] at hstop
          contradiction
        | eq => rfl
        | gt =>
          rw [hcmp] at hstart
          contradiction
      subst hbc
      rw [Std.LawfulEqOrd.compare_eq_iff_eq.mpr rfl, Ordering.eq_then] at hstart hstop
      exact List.cons_prefix_cons.mpr ⟨rfl, ih hstart hstop⟩

theorem compare_self_append (a x : Bytes) : (compare a (a ++ x)).isLE = true := by
  have h := compare_append_left a [] x
  rw [List.append_nil] at h
  rw [h]
  cases x <;> rfl

/-- Strings of which neither is a front of the other compare as they do alone. -/
theorem compare_append_of_not_prefix {a b : Bytes} (hab : ¬ a <+: b) (hba : ¬ b <+: a)
    (x y : Bytes) : compare (a ++ x) (b ++ y) = compare a b := by
  induction a generalizing b with
  | nil => exact absurd List.nil_prefix hab
  | cons c a ih =>
    cases b with
    | nil => exact absurd List.nil_prefix hba
    | cons d b =>
      rw [List.cons_append, List.cons_append, List.compare_cons_cons, List.compare_cons_cons]
      cases hcmp : compare c d with
      | lt => rfl
      | gt => rfl
      | eq =>
        obtain rfl := Std.LawfulEqOrd.eq_of_compare hcmp
        rw [ih (fun h => hab (List.cons_prefix_cons.mpr ⟨rfl, h⟩))
          fun h => hba (List.cons_prefix_cons.mpr ⟨rfl, h⟩)]

theorem prefix_of_replicate_le {n : ℕ} {key : Bytes}
    (h : (compare (List.replicate n 0xFF) key).isLE = true) : List.replicate n 0xFF <+: key := by
  induction n generalizing key with
  | zero => exact List.nil_prefix
  | succ n ih =>
    cases key with
    | nil => simp [List.replicate_succ] at h
    | cons b key =>
      rw [List.replicate_succ, List.compare_cons_cons] at h
      have hb : (0xFF : UInt8) = b := by
        apply Std.LawfulEqOrd.eq_of_compare
        cases hcmp : compare (0xFF : UInt8) b with
        | lt =>
          have hlt := UInt8.lt_iff_toNat_lt.mp (Std.compare_eq_lt.mp hcmp)
          have := b.toNat_lt
          simp at hlt
          omega
        | eq => rfl
        | gt =>
          rw [hcmp] at h
          contradiction
      subst hb
      rw [Std.LawfulEqOrd.compare_eq_iff_eq.mpr rfl, Ordering.eq_then] at h
      rw [List.replicate_succ]
      exact List.cons_prefix_cons.mpr ⟨rfl, ih h⟩

/-- The least string above `k` is `k` with a zero byte. -/
theorem isLE_compare_append_zero (k x : Bytes) :
    (compare (k ++ [0]) x).isLE = (compare k x).isLT := by
  induction k generalizing x with
  | nil =>
    cases x with
    | nil => rfl
    | cons b bs =>
      have hzero : (compare 0 b).isLE = true := by
        rw [Std.isLE_compare]
        exact UInt8.zero_le
      rw [List.nil_append, List.compare_cons_cons]
      change _ = true
      cases hcmp : compare 0 b with
      | lt => rfl
      | eq => cases bs <;> rfl
      | gt =>
        rw [hcmp] at hzero
        contradiction
  | cons a k ih =>
    cases x with
    | nil => rfl
    | cons b bs =>
      rw [List.cons_append, List.compare_cons_cons, List.compare_cons_cons]
      cases compare a b with
      | lt => rfl
      | eq => exact ih bs
      | gt => rfl
end MultiDb.Shared
