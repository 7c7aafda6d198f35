import Mathlib.Data.List.Sort
import Mathlib.Tactic.Ring
import Mathlib.Tactic.Linarith

/-!
# Byte strings and fixed-width big-endian integers

Byte strings are lists of bytes, compared lexicographically.  A fixed-width encoding keeps
the order of the numbers.
-/

namespace MultiDb.Shared

abbrev Bytes := List UInt8

/-- The `w` low bytes of `n`, most significant byte first. -/
def beBytes : ℕ → ℕ → Bytes
  | 0, _ => []
  | w + 1, n => UInt8.ofNat (n / 256 ^ w) :: beBytes w n

/-- The number that a byte string denotes, most significant byte first. -/
def beNat : Bytes → ℕ
  | [] => 0
  | b :: bs => b.toNat * 256 ^ bs.length + beNat bs

@[simp] theorem length_beBytes (w n : ℕ) : (beBytes w n).length = w := by
  induction w with
  | zero => rfl
  | succ w ih => simp [beBytes, ih]

theorem beNat_lt (bs : Bytes) : beNat bs < 256 ^ bs.length := by
  induction bs with
  | nil => simp [beNat]
  | cons b bs ih =>
    have hb : b.toNat < 256 := b.toNat_lt
    calc beNat (b :: bs)
        = b.toNat * 256 ^ bs.length + beNat bs := rfl
      _ < b.toNat * 256 ^ bs.length + 256 ^ bs.length := by omega
      _ = (b.toNat + 1) * 256 ^ bs.length := by ring
      _ ≤ 256 * 256 ^ bs.length := Nat.mul_le_mul_right _ hb
      _ = 256 ^ (b :: bs).length := by simp [pow_succ, mul_comm]

theorem beNat_beBytes_mod (w n : ℕ) : beNat (beBytes w n) = n % 256 ^ w := by
  induction w with
  | zero => simp [beBytes, beNat, Nat.mod_one]
  | succ w ih =>
    have hbyte : (UInt8.ofNat (n / 256 ^ w)).toNat = n / 256 ^ w % 256 := by simp
    rw [beBytes, beNat, length_beBytes, ih, hbyte, pow_succ, Nat.mod_mul]
    ring

theorem beNat_beBytes {w n : ℕ} (h : n < 256 ^ w) : beNat (beBytes w n) = n := by
  rw [beNat_beBytes_mod, Nat.mod_eq_of_lt h]

private theorem compare_digit {q q' r r' m : ℕ} (hr : r < m) (hr' : r' < m) :
    compare (q * m + r) (q' * m + r') = (compare q q').then (compare r r') := by
  rcases lt_trichotomy q q' with h | rfl | h
  · have hstep : (q + 1) * m ≤ q' * m := Nat.mul_le_mul_right m h
    have hlt : q * m + r < q' * m + r' := by linarith
    rw [Nat.compare_eq_lt.mpr hlt, Nat.compare_eq_lt.mpr h, Ordering.lt_then]
  · rw [Nat.compare_eq_eq.mpr rfl, Ordering.eq_then]
    rcases lt_trichotomy r r' with h | rfl | h
    · rw [Nat.compare_eq_lt.mpr h, Nat.compare_eq_lt.mpr (by omega)]
    · rw [Nat.compare_eq_eq.mpr rfl, Nat.compare_eq_eq.mpr rfl]
    · rw [Nat.compare_eq_gt.mpr h, Nat.compare_eq_gt.mpr (by omega)]
  · have hstep : (q' + 1) * m ≤ q * m := Nat.mul_le_mul_right m h
    have hlt : q' * m + r' < q * m + r := by linarith
    rw [Nat.compare_eq_gt.mpr hlt, Nat.compare_eq_gt.mpr h, Ordering.gt_then]

/-- On byte strings of one length the lexicographic order is the numeric one. -/
theorem compare_eq_compare_beNat {as bs : Bytes} (h : as.length = bs.length) :
    compare as bs = compare (beNat as) (beNat bs) := by
  induction as generalizing bs with
  | nil =>
    obtain rfl : bs = [] := List.length_eq_zero_iff.mp h.symm
    rfl
  | cons a as ih =>
    cases bs with
    | nil => simp at h
    | cons b bs =>
      have hlen : as.length = bs.length := by simpa using h
      have has := beNat_lt as
      rw [List.compare_cons_cons, ih hlen, UInt8.compare_eq_toNat_compare_toNat, beNat, beNat,
        hlen, compare_digit (hlen ▸ has) (beNat_lt bs)]

theorem beNat_injOn_length {as bs : Bytes} (hlen : as.length = bs.length)
    (h : beNat as = beNat bs) : as = bs := by
  have hcmp := compare_eq_compare_beNat hlen
  rw [h, Nat.compare_eq_eq.mpr rfl] at hcmp
  exact Std.LawfulEqOrd.eq_of_compare hcmp

theorem beBytes_beNat (bs : Bytes) : beBytes bs.length (beNat bs) = bs :=
  beNat_injOn_length (by simp) (beNat_beBytes (beNat_lt bs))

instance instLinearOrderUInt64 : LinearOrder UInt64 where
  le_refl := UInt64.le_refl
  le_trans _ _ _ := UInt64.le_trans
  lt_iff_le_not_ge a b := by grind
  le_antisymm _ _ := UInt64.le_antisymm
  le_total := UInt64.le_total
  toDecidableLE := inferInstance
  toDecidableEq := inferInstance
  toDecidableLT := inferInstance

/-- `u64::to_be_bytes`. -/
def be64 (n : UInt64) : Bytes :=
  beBytes 8 n.toNat

/-- `u64::from_be_bytes`, defined on strings of exactly eight bytes. -/
def ofBe64? (bs : Bytes) : Option UInt64 :=
  if bs.length = 8 then some (UInt64.ofNat (beNat bs)) else none

@[simp] theorem length_be64 (n : UInt64) : (be64 n).length = 8 :=
  length_beBytes 8 n.toNat

theorem beNat_be64 (n : UInt64) : beNat (be64 n) = n.toNat :=
  beNat_beBytes (by have := n.toNat_lt; norm_num; omega)

@[simp] theorem ofBe64?_be64 (n : UInt64) : ofBe64? (be64 n) = some n := by
  simp [ofBe64?, beNat_be64]

theorem ofBe64?_eq_some_iff {bs : Bytes} {n : UInt64} : ofBe64? bs = some n ↔ bs = be64 n := by
  constructor
  · intro h
    obtain ⟨hlen, hn⟩ : bs.length = 8 ∧ UInt64.ofNat (beNat bs) = n := by
      simpa [ofBe64?] using h
    have hlt : beNat bs < 2 ^ 64 := by
      have := beNat_lt bs
      rw [hlen] at this
      norm_num at this ⊢
      omega
    have hto : n.toNat = beNat bs := by
      rw [← hn, UInt64.toNat_ofNat', Nat.mod_eq_of_lt hlt]
    rw [be64, hto, ← hlen, beBytes_beNat]
  · rintro rfl
    exact ofBe64?_be64 n

theorem exists_be64_of_length {bs : Bytes} (h : bs.length = 8) : ∃ n, bs = be64 n :=
  ⟨_, ofBe64?_eq_some_iff.mp (if_pos h)⟩

@[simp] theorem be64_inj {m n : UInt64} : be64 m = be64 n ↔ m = n := by
  refine ⟨fun h => ?_, congrArg be64⟩
  have := ofBe64?_be64 m
  rw [h, ofBe64?_be64] at this
  exact (Option.some.inj this).symm

theorem compare_be64 (m n : UInt64) : compare (be64 m) (be64 n) = compare m n := by
  rw [compare_eq_compare_beNat (by simp), beNat_be64, beNat_be64,
    UInt64.compare_eq_toNat_compare_toNat]

theorem compare_append_left (p a b : Bytes) : compare (p ++ a) (p ++ b) = compare a b := by
  induction p with
  | nil => rfl
  | cons x p ih => rw [List.cons_append, List.cons_append, List.compare_cons_cons, ih,
      Std.LawfulEqOrd.compare_eq_iff_eq.mpr rfl, Ordering.eq_then]

theorem append_inj_of_length {p p' s s' : Bytes} (hlen : p.length = p'.length) :
    p ++ s = p' ++ s' ↔ p = p' ∧ s = s' :=
  ⟨fun h => List.append_inj h hlen, fun ⟨hp, hs⟩ => by rw [hp, hs]⟩

end MultiDb.Shared
