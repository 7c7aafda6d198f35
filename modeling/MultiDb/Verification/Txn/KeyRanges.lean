import Mathlib.Data.List.TakeWhile
import MultiDb.Model.Locks
import MultiDb.Shared.PrefixOrder

/-!
# Ranges of keys with a common front

`rangeEnd` of a byte string bounds exactly the extensions of the string, also when
its last bytes are the greatest ones.
-/

namespace MultiDb

open Shared

/-- The successor raises the last byte that can be raised. -/
theorem successor_eq_some {p q : Bytes} (h : successor p = some q) :
    ∃ front last n, p = front ++ last :: List.replicate n 0xFF ∧ q = front ++ [last + 1] ∧
      compare last (last + 1) = .lt := by
  rw [successor] at h
  split at h
  · contradiction
  · rename_i last rest hdrop
    cases h
    have hne : last ≠ 0xFF := by
      have := List.head?_dropWhile_not (fun b : UInt8 => b = 0xFF) p.reverse
      simpa [hdrop] using this
    have htake : p.reverse.takeWhile (fun b => b = 0xFF) =
        List.replicate (p.reverse.takeWhile fun b => b = 0xFF).length 0xFF :=
      List.eq_replicate_of_mem fun b hb => by simpa using List.mem_takeWhile_imp hb
    have hp : p = rest.reverse ++ last :: (p.reverse.takeWhile fun b => b = 0xFF).reverse := by
      have := List.takeWhile_append_dropWhile (p := fun b : UInt8 => b = 0xFF) (l := p.reverse)
      rw [hdrop] at this
      simpa using (congrArg List.reverse this).symm
    refine ⟨rest.reverse, last, (p.reverse.takeWhile fun b => b = 0xFF).length, ?_, by simp, ?_⟩
    · rw [htake, List.reverse_replicate] at hp
      exact hp
    · rw [Std.compare_eq_lt, UInt8.lt_iff_toNat_lt]
      have hlast := last.toNat_lt
      have : last.toNat ≠ 255 := fun heq => hne (UInt8.toNat_inj.mp heq)
      rw [UInt8.toNat_add]
      simp
      omega

theorem successor_eq_none {p : Bytes} (h : successor p = none) :
    p = List.replicate p.length 0xFF := by
  rw [successor] at h
  split at h
  · rename_i hdrop
    refine List.eq_replicate_of_mem fun b hb => ?_
    simpa using List.dropWhile_eq_nil_iff.mp hdrop b (List.mem_reverse.mpr hb)
  · contradiction

theorem compare_append_successor {p q : Bytes} (h : successor p = some q) (x : Bytes) :
    compare (p ++ x) q = .lt := by
  obtain ⟨front, last, n, rfl, rfl, hlt⟩ := successor_eq_some h
  rw [List.append_assoc, compare_append_left, List.cons_append, List.compare_cons_cons, hlt,
    Ordering.lt_then]

theorem keyInRange_rangeEnd {p start x : Bytes} (hstart : (compare start (p ++ x)).isLE = true) :
    keyInRange start (rangeEnd p) (p ++ x) = true := by
  rw [keyInRange, hstart, Bool.true_and, rangeEnd]
  cases hsucc : successor p with
  | none => rfl
  | some q => simp [compare_append_successor hsucc x]

theorem prefix_of_lt_successor {p q key : Bytes} (h : successor p = some q)
    (hstart : (compare p key).isLE = true) (hstop : compare key q = .lt) : p <+: key := by
  obtain ⟨front, last, n, rfl, rfl, hlt⟩ := successor_eq_some h
  obtain ⟨rest, rfl⟩ := prefix_of_between hstart hstop
  rw [compare_append_left] at hstart hstop
  refine (List.prefix_append_right_inj front).mpr ?_
  cases rest with
  | nil => simp at hstart
  | cons b rest =>
    rw [List.compare_cons_cons] at hstart hstop
    have hb : last = b := by
      apply Std.LawfulEqOrd.eq_of_compare
      cases hcmp : compare last b with
      | eq => rfl
      | gt =>
        rw [hcmp] at hstart
        contradiction
      | lt =>
        -- a byte above `last` is at least `last + 1`
        have hle : (compare (last + 1) b).isLE = true := by
          rw [Std.isLE_compare, UInt8.le_iff_toNat_le]
          have h1 := UInt8.lt_iff_toNat_lt.mp (Std.compare_eq_lt.mp hcmp)
          have h2 := UInt8.lt_iff_toNat_lt.mp (Std.compare_eq_lt.mp hlt)
          rw [UInt8.toNat_add] at h2 ⊢
          simp at h2 ⊢
          omega
        cases hbl : compare b (last + 1) with
        | lt =>
          rw [Std.OrientedCmp.gt_of_lt hbl] at hle
          contradiction
        | eq =>
          rw [hbl, Ordering.eq_then] at hstop
          cases rest <;> simp at hstop
        | gt =>
          rw [hbl] at hstop
          contradiction
    subst hb
    rw [Std.LawfulEqOrd.compare_eq_iff_eq.mpr rfl, Ordering.eq_then] at hstart
    exact List.cons_prefix_cons.mpr ⟨rfl, prefix_of_replicate_le hstart⟩

/-- A range from a byte string to its end holds exactly the extensions of the string. -/
theorem keyInRange_rangeEnd_iff {p key : Bytes} :
    keyInRange p (rangeEnd p) key = true ↔ p <+: key := by
  constructor
  · intro h
    rw [keyInRange, Bool.and_eq_true, Bool.or_eq_true] at h
    obtain ⟨hstart, hstop⟩ := h
    cases hsucc : successor p with
    | none =>
      rw [successor_eq_none hsucc] at hstart ⊢
      exact prefix_of_replicate_le hstart
    | some q =>
      have hne : q.isEmpty = false := by
        obtain ⟨front, last, n, -, rfl, -⟩ := successor_eq_some hsucc
        simp
      rw [rangeEnd, hsucc, Option.getD_some, hne] at hstop
      refine prefix_of_lt_successor hsucc hstart ?_
      simpa [Ordering.isLT_iff_eq_lt] using hstop
  · rintro ⟨rest, rfl⟩
    exact keyInRange_rangeEnd (compare_self_append p rest)

end MultiDb
