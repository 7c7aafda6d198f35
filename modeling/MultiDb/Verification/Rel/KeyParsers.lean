import MultiDb.Model.KeyParsers
import MultiDb.Verification.Txn.Equations

/-!
# Keys that begin with the length of a name

A parser stops on an overflow exactly when the length field, with its own width added, is no
`usize`.
-/

namespace MultiDb

open Shared

variable {utf8Error : Bytes → String} {width n a b : ℕ} {short truncated table : String}
  {bytes key rest : Bytes}

theorem usizeAdd_eq_some_iff : usizeAdd a b = some n ↔ a + b < 2 ^ 64 ∧ n = a + b := by
  rw [usizeAdd, Option.ite_none_right_eq_some, Option.some.injEq, eq_comm (a := n)]

theorem byteSlice_of_le (h : a ≤ b) (h' : b ≤ bytes.length) :
    byteSlice bytes a b = some ((bytes.take b).drop a) :=
  if_pos ⟨h, h'⟩

/-- The length field in the first `width` bytes leaves room for its own width. -/
def LengthFits (width : ℕ) (bytes : Bytes) : Prop :=
  width ≤ bytes.length → width + beNat (bytes.take width) < 2 ^ 64

/-- What a key parser answers when its length fits. -/
theorem decodeTableKey_of_fits (h : width ≤ bytes.length)
    (hfits : width + beNat (bytes.take width) < 2 ^ 64) :
    decodeTableKey utf8Error width short truncated bytes = some (
      if bytes.length < width + beNat (bytes.take width) then
        .error (.corruption truncated)
      else
        match utf8? ((bytes.drop width).take (beNat (bytes.take width))) with
        | none => .error (.corruption
            (utf8Error ((bytes.drop width).take (beNat (bytes.take width)))))
        | some table => .ok (table, bytes.drop (width + beNat (bytes.take width)))) := by
  rw [decodeTableKey, if_neg (not_lt.mpr h), byteSlice_of_le (Nat.zero_le _) h]
  simp only [Option.bind_eq_bind, Option.bind_some, List.drop_zero,
    usizeAdd_eq_some_iff.mpr ⟨hfits, rfl⟩]
  split
  · rfl
  · rename_i hlong
    rw [byteSlice_of_le (Nat.le_add_right _ _) (not_lt.mp hlong),
      byteSlice_of_le (not_lt.mp hlong) le_rfl, List.drop_take, Nat.add_sub_cancel_left,
      List.take_length]
    simp only [Option.bind_some]
    split <;> simp_all

theorem exists_decodeTableKey_iff :
    (∃ answer, decodeTableKey utf8Error width short truncated bytes = some answer) ↔
      LengthFits width bytes := by
  by_cases h : width ≤ bytes.length
  · rw [LengthFits, forall_prop_of_true h]
    by_cases hfits : width + beNat (bytes.take width) < 2 ^ 64
    · exact iff_of_true ⟨_, decodeTableKey_of_fits h hfits⟩ hfits
    · refine iff_of_false ?_ hfits
      have hover : usizeAdd width (beNat (bytes.take width)) = none := if_neg hfits
      simp [decodeTableKey, not_lt.mpr h, byteSlice_of_le (Nat.zero_le _) h, hover]
  · exact iff_of_true ⟨_, if_pos (not_le.mp h)⟩ fun h' => absurd h' h

theorem decodeTableKey_append (hn : n < 256 ^ width) (hlen : n = (strBytes table).length)
    (hfits : width + n < 2 ^ 64) :
    decodeTableKey utf8Error width short truncated (beBytes width n ++ strBytes table ++ key) =
      some (.ok (table, key)) := by
  have htake : (beBytes width n ++ strBytes table ++ key).take width = beBytes width n := by
    rw [List.append_assoc, List.take_left' (length_beBytes _ _)]
  have hdrop : (beBytes width n ++ strBytes table ++ key).drop width = strBytes table ++ key := by
    rw [List.append_assoc, List.drop_left' (length_beBytes _ _)]
  have hnat := beNat_beBytes hn
  rw [decodeTableKey_of_fits (by simp) (by rwa [htake, hnat]), htake, hnat, hdrop,
    List.take_left' hlen.symm, ← List.drop_drop, hdrop, List.drop_left' hlen.symm, utf8?,
    fromUTF8_strBytes, if_neg (by simp; omega)]

theorem length_of_decodeTableKey
    (h : decodeTableKey utf8Error width short truncated bytes = some (.ok (table, key))) :
    (strBytes table).length = beNat (bytes.take width) := by
  by_cases hwidth : width ≤ bytes.length
  · rw [decodeTableKey_of_fits hwidth (exists_decodeTableKey_iff.mp ⟨_, h⟩ hwidth),
      Option.some.injEq, guard_eq_ok_iff] at h
    obtain ⟨hlong, h⟩ := h
    split at h
    · contradiction
    · rename_i name hname
      cases h
      rw [strBytes_of_fromUTF8 hname, List.length_take, List.length_drop]
      omega
  · rw [decodeTableKey, if_pos (not_le.mp hwidth)] at h
    cases h

theorem lengthFits_four (bytes : Bytes) : LengthFits 4 bytes := by
  intro h
  have hlt := beNat_lt (bytes.take 4)
  rw [List.length_take, Nat.min_eq_left h] at hlt
  omega

/-- The parser with the arithmetic of `usize` is the one of the state machine. -/
theorem decodeMirrorKeyChecked_eq (C : CpCodecs) (bytes : Bytes) :
    decodeMirrorKeyChecked C.utf8Error bytes = some (decodeMirrorKey C bytes) := by
  by_cases h : 4 ≤ bytes.length
  · rw [decodeMirrorKeyChecked, decodeTableKey_of_fits h (lengthFits_four bytes h),
      decodeMirrorKey, if_neg (not_lt.mpr h)]
    simp only [utf8?]
    split
    · rfl
    · split <;> split <;> simp_all
  · rw [decodeMirrorKeyChecked, decodeTableKey, decodeMirrorKey, if_pos (not_le.mp h),
      if_pos (not_le.mp h)]

theorem exists_parseTableNameFromKey_iff :
    (∃ answer, parseTableNameFromKey key = some answer) ↔ LengthFits 8 key := by
  by_cases h : 8 ≤ key.length
  · rw [LengthFits, forall_prop_of_true h, parseTableNameFromKey, if_neg (not_lt.mpr h)]
    by_cases hfits : 8 + beNat (key.take 8) < 2 ^ 64
    · refine iff_of_true ?_ hfits
      simp [usizeAdd_eq_some_iff.mpr ⟨hfits, rfl⟩]
    · refine iff_of_false ?_ hfits
      have hover : usizeAdd 8 (beNat (key.take 8)) = none := if_neg hfits
      simp [hover]
  · exact iff_of_true ⟨none, if_pos (not_le.mp h)⟩ fun h' => absurd h' h

theorem length_tablePrefixBytes (table : String) (rest : Bytes) :
    beNat ((tablePrefixBytes table ++ rest).take 8) = min (strBytes table).length usizeMax := by
  rw [tablePrefixBytes, List.append_assoc, List.take_left' (length_be64 _), beNat_be64,
    UInt64.toNat_ofNat', Nat.mod_eq_of_lt]
  simp [usizeMax]

theorem parseTableNameFromKey_append_iff :
    parseTableNameFromKey (tablePrefixBytes table ++ rest) = some (some table) ↔
      LengthFits 8 (tablePrefixBytes table ++ rest) := by
  refine ⟨fun h => exists_parseTableNameFromKey_iff.mp ⟨_, h⟩, fun hfits => ?_⟩
  have hlong : 8 ≤ (tablePrefixBytes table ++ rest).length := by
    simp [tablePrefixBytes]
  have hsum := hfits hlong
  have hlen := length_tablePrefixBytes table rest
  have hshort : min (strBytes table).length usizeMax = (strBytes table).length := by
    rw [hlen] at hsum
    simp only [usizeMax] at hsum ⊢
    omega
  rw [parseTableNameFromKey, if_neg (not_lt.mpr hlong), usizeAdd_eq_some_iff.mpr ⟨hsum, rfl⟩, hlen,
    hshort]
  have hdrop : (tablePrefixBytes table ++ rest).drop 8 = strBytes table ++ rest := by
    rw [tablePrefixBytes, List.append_assoc, List.drop_left' (length_be64 _)]
  simp only [Option.bind_eq_bind, Option.bind_some]
  rw [byteSlice_of_le (by omega) (by simp [tablePrefixBytes]), List.drop_take,
    Nat.add_sub_cancel_left, hdrop, List.take_left, Option.bind_some, utf8?, fromUTF8_strBytes]
  rfl

/-- Each parser answers exactly when the length field leaves room for its own width, and takes a key
apart exactly when, beside that, the field holds the length. -/
theorem key_parsers_total_iff (utf8Error : Bytes → String) :
    (∀ bytes, (∃ answer, decodeVersionKey utf8Error bytes = some answer) ↔ LengthFits 8 bytes) ∧
    (∀ key, (∃ answer, parseTableNameFromKey key = some answer) ↔ LengthFits 8 key) ∧
    (∀ bytes, ∃ answer, decodeMirrorKeyChecked utf8Error bytes = some answer) ∧
    (∀ table key bytes, versionKey table key = .ok bytes →
      (decodeVersionKey utf8Error bytes = some (.ok (table, key)) ↔ LengthFits 8 bytes)) ∧
    (∀ table rest, parseTableNameFromKey (tablePrefixBytes table ++ rest) = some (some table) ↔
      LengthFits 8 (tablePrefixBytes table ++ rest)) ∧
    (∀ table key, decodeMirrorKeyChecked utf8Error (mirrorKey table key) =
      some (.ok (table, key)) ↔ (strBytes table).length < 2 ^ 32) := by
  refine ⟨fun bytes => exists_decodeTableKey_iff, fun key => exists_parseTableNameFromKey_iff,
    fun bytes => exists_decodeTableKey_iff.mpr (lengthFits_four bytes),
      fun table key bytes hkey => ?_,
    fun table rest => parseTableNameFromKey_append_iff, fun table key => ?_⟩
  · refine ⟨fun h => exists_decodeTableKey_iff.mp ⟨_, h⟩, fun hfits => ?_⟩
    obtain ⟨hlt, rfl⟩ := versionKey_eq_ok_iff.mp hkey
    rw [be64, UInt64.toNat_ofNat', Nat.mod_eq_of_lt hlt] at hfits ⊢
    have hlen : 8 ≤ (beBytes 8 (strBytes table).length ++ strBytes table ++ key).length := by
      simp
    have hsum := hfits hlen
    rw [List.append_assoc, List.take_left' (length_beBytes _ _),
      beNat_beBytes (by norm_num; omega)] at hsum
    exact decodeTableKey_append (by norm_num; omega) rfl hsum
  · refine ⟨fun h => ?_, fun h => ?_⟩
    · have hlt := beNat_lt ((mirrorKey table key).take 4)
      have hfour : ((mirrorKey table key).take 4).length = 4 := by simp [mirrorKey]
      rw [length_of_decodeTableKey h]
      simpa [hfour] using hlt
    · rw [mirrorKey, Nat.min_eq_left (by omega)]
      exact decodeTableKey_append (by norm_num; omega) rfl (by omega)

theorem key_parsers_total_iff_sample :
    versionKey "a" [7] = .ok [0, 0, 0, 0, 0, 0, 0, 1, 97, 7] ∧
    decodeVersionKey (fun _ => "") [0, 0, 0, 0, 0, 0, 0, 1, 97, 7] = some (.ok ("a", [7])) := by
  have hkey : versionKey "a" [7] = .ok [0, 0, 0, 0, 0, 0, 0, 1, 97, 7] := by decide +kernel
  refine ⟨hkey, ((key_parsers_total_iff _).2.2.2.1 _ _ _ hkey).mpr ?_⟩
  intro
  decide

/-- A length field with all bits set overflows. -/
theorem key_parsers_overflow :
    decodeVersionKey (fun _ => "") (List.replicate 8 255) = none ∧
    parseTableNameFromKey (List.replicate 8 255) = none := by decide +kernel

end MultiDb
