import MultiDb.Model.ValueMemory
import MultiDb.Verification.Documents.ValueCodec

/-!
# The memory bound of a stored value

The walk that bounds the memory of a value accepts every value that the decoder accepts.
-/

namespace MultiDb

open Shared

/-- The walk ends behind the value, or early when the limit is passed. -/
def WalksTo (stopAfter : ℕ) (rest : Bytes) (x : Result (ℕ × Bytes)) : Prop :=
  ∃ used rest', x = .ok (used, rest') ∧ (used ≤ stopAfter → rest' = rest)

section Walk

variable {C : RelCodecs} {limits : ValueCodecLimits} {stopAfter : ℕ}

theorem walksTo_ok (used : ℕ) (rest : Bytes) : WalksTo stopAfter rest (.ok (used, rest)) :=
  ⟨used, rest, rfl, fun _ => rfl⟩

theorem walksTo_chargeMany {α : Type} {read : Bytes → Result (α × Bytes)}
    {charge : ℕ × Bytes → Result (ℕ × Bytes)}
    (hcharge : ∀ used input rest item, read input = .ok (item, rest) →
      WalksTo stopAfter rest (charge (used, input)))
    {count : ℕ} {input rest : Bytes} {items : List α} (used : ℕ)
    (h : readMany read count input = .ok (items, rest)) :
    WalksTo stopAfter rest (chargeMany stopAfter charge count (used, input)) := by
  induction count generalizing input items used with
  | zero =>
    obtain ⟨-, rfl⟩ := Prod.mk.inj (Except.ok.inj h)
    exact walksTo_ok used input
  | succ count ih =>
    simp only [readMany, bind_eq_ok_iff, pure_eq_ok_iff, Prod.exists, Prod.mk.injEq] at h
    obtain ⟨item, input', hread, items', rest', hmany, -, rfl⟩ := h
    obtain ⟨used', input'', hwalk, hsame⟩ := hcharge used input input' item hread
    by_cases hover : used' > stopAfter
    · refine ⟨used', input'', ?_, fun hle => absurd hover (not_lt.mpr hle)⟩
      simp only [chargeMany, hwalk, bind, Except.bind, if_pos hover]
      rfl
    · obtain rfl := hsame (not_lt.mp hover)
      obtain ⟨used'', input''', hwalk', hsame'⟩ := ih used' hmany
      refine ⟨used'', input''', ?_, hsame'⟩
      simp only [chargeMany, hwalk, bind, Except.bind, if_neg hover, hwalk']

theorem readArray_add {n m : ℕ} {input a b mid rest : Bytes} (h : readArray n input = .ok (a, mid))
    (h' : readArray m mid = .ok (b, rest)) : readArray (n + m) input = .ok (a ++ b, rest) := by
  simp only [readArray, guard_eq_ok_iff, Except.ok.injEq, Prod.mk.injEq] at h h' ⊢
  obtain ⟨hlen, rfl, rfl⟩ := h
  obtain ⟨hlen', rfl, rfl⟩ := h'
  rw [List.length_drop] at hlen'
  refine ⟨by omega, ?_, List.drop_drop.symm⟩
  rw [List.take_add]

theorem readMany_finiteF32 {count : ℕ} {input rest : Bytes} {values : List UInt32}
    (h : readMany readFiniteF32 count input = .ok (values, rest)) :
    rest = input.drop (count * 4) := by
  induction count generalizing input values with
  | zero =>
    cases h
    rw [Nat.zero_mul, List.drop_zero]
  | succ count ih =>
    simp only [readMany, readFiniteF32, readArray, bind_eq_ok_iff, pure_eq_ok_iff, Prod.exists,
      Prod.mk.injEq, guard_eq_ok_iff, Except.ok.injEq] at h
    obtain ⟨_, _, ⟨_, _, ⟨-, -, rfl⟩, -, -, rfl⟩, _, _, hmany, -, rfl⟩ := h
    rw [ih hmany, List.drop_drop]
    congr 1
    omega

section Tags

variable {levels used : ℕ} {input rest : Bytes} {value : Value}

theorem readF64_array {f : F64} (h : readF64 input = .ok (f, rest)) :
    ∃ bytes, readArray 8 input = .ok (bytes, rest) := by
  simp only [readF64, bind_eq_ok_iff, pure_eq_ok_iff, Prod.exists, Prod.mk.injEq] at h
  obtain ⟨bytes, _, hread, _, -, -, rfl⟩ := h
  exact ⟨bytes, hread⟩

theorem readString_bytes {text : String} (h : readString C input = .ok (text, rest)) :
    ∃ bytes, readLenBytes input = .ok (bytes, rest) := by
  simp only [readString, bind_eq_ok_iff, Prod.exists] at h
  obtain ⟨bytes, rest', hread, h⟩ := h
  split at h
  · cases h
    exact ⟨bytes, hread⟩
  · contradiction

theorem walksTo_read {α : Type} {read : Result (α × Bytes)} {item : α} (charge : α → ℕ)
    (h : read = .ok (item, rest)) :
    WalksTo stopAfter rest (read >>= fun answer => pure (used + charge answer.1, answer.2)) := by
  rw [h]
  exact walksTo_ok _ _

variable (hwalk : ∀ (used : ℕ) (input rest : Bytes) (value : Value),
  decodeValuePayload C limits levels input = .ok (value, rest) →
    WalksTo stopAfter rest (binaryMemory limits stopAfter levels (used, input)))

include hwalk

theorem walksTo_array
    (h : decodeValuePayload C limits (levels + 1) (0x06 :: input) = .ok (value, rest)) :
    WalksTo stopAfter rest (do
      let (count, rest) ← readLen input
      if count > rest.length then
        .error (.corruption "array item count exceeds remaining bytes")
      else
        chargeMany stopAfter (binaryMemory limits stopAfter levels) count (used, rest)) := by
  rw [decodeValuePayload_array] at h
  simp only [bind_eq_ok_iff, pure_eq_ok_iff, Prod.exists, Prod.mk.injEq, guard_eq_ok_iff] at h
  obtain ⟨count, input', hlen, hcount, items, _, hmany, -, rfl⟩ := h
  simp only [hlen, bind, Except.bind, if_neg hcount]
  exact walksTo_chargeMany hwalk used hmany

theorem walksTo_object
    (h : decodeValuePayload C limits (levels + 1) (0x07 :: input) = .ok (value, rest)) :
    WalksTo stopAfter rest (do
      let (count, rest) ← readLen input
      if ¬ count * 9 < 2 ^ 64 ∨ count * 9 > rest.length then
        .error (.corruption "object item count exceeds remaining bytes")
      else
        chargeMany stopAfter (fun state => do
          let (name, rest) ← readLenBytes state.2
          let used := state.1 + (name.length + 256)
          if used > stopAfter then
            return (used, rest)
          else
            binaryMemory limits stopAfter levels (used, rest)) count
          (if count ≠ 0 then used + 1024 else used, rest)) := by
  rw [decodeValuePayload_object] at h
  simp only [bind_eq_ok_iff, pure_eq_ok_iff, Prod.exists, Prod.mk.injEq, guard_eq_ok_iff] at h
  obtain ⟨count, input', hlen, hfits, hcount, fields, _, hmany, -, rfl⟩ := h
  simp only [hlen, bind, Except.bind, if_neg (not_or.mpr ⟨hfits, hcount⟩)]
  refine walksTo_chargeMany (fun used input rest field hfield => ?_) _ hmany
  simp only [readField, bind_eq_ok_iff, pure_eq_ok_iff, Prod.exists, Prod.mk.injEq] at hfield
  obtain ⟨name, mid, hname, value, _, hvalue, -, rfl⟩ := hfield
  obtain ⟨bytes, hbytes⟩ := readString_bytes hname
  simp only [hbytes]
  split
  · rename_i hover
    exact ⟨_, mid, rfl, fun hle => absurd hover (not_lt.mpr hle)⟩
  · exact hwalk _ mid _ value hvalue

omit hwalk

theorem walksTo_vector
    (h : decodeValuePayload C limits (levels + 1) (0x08 :: input) = .ok (value, rest)) :
    WalksTo stopAfter rest (do
      let (count, rest) ← readLen input
      if ¬ count * 4 < 2 ^ 64 then
        .error (.corruption "vector length overflows")
      else if count * 4 > rest.length then
        .error (.corruption "truncated vector")
      else
        return (used + count * 4, rest.drop (count * 4))) := by
  rw [decodeValuePayload_vector] at h
  simp only [bind_eq_ok_iff, pure_eq_ok_iff, Prod.exists, Prod.mk.injEq, guard_eq_ok_iff] at h
  obtain ⟨count, input', hlen, hfits, hcount, values, _, hmany, -, rfl⟩ := h
  simp only [hlen, bind, Except.bind, if_neg hfits, if_neg hcount]
  rw [readMany_finiteF32 hmany]
  exact walksTo_ok _ _

end Tags

/-- The memory walk reads as far as the decoder. -/
theorem walksTo_binaryMemory {levels : ℕ} (used : ℕ) (input rest : Bytes) (value : Value)
    (h : decodeValuePayload C limits levels input = .ok (value, rest)) :
    WalksTo stopAfter rest (binaryMemory limits stopAfter levels (used, input)) := by
  induction levels generalizing input rest value used with
  | zero => contradiction
  | succ levels ih =>
    by_cases hover : used + valueBytes > stopAfter
    · refine ⟨used + valueBytes, input, ?_, fun hle => absurd hover (not_lt.mpr hle)⟩
      rw [binaryMemory, if_pos hover]
      rfl
    cases input with
    | nil => contradiction
    | cons tag input =>
      rw [binaryMemory, if_neg hover]
      by_cases h0 : tag = 0x00
      · subst h0
        cases h
        exact walksTo_ok _ _
      by_cases h1 : tag = 0x01
      · subst h1
        rw [decodeValuePayload_bool] at h
        simp only [bind_eq_ok_iff, Prod.exists] at h
        obtain ⟨byte, mid, hread, h⟩ := h
        obtain rfl : mid = rest := by
          split at h
          · exact (Prod.mk.inj (pure_eq_ok_iff.mp h)).2
          · split at h
            · exact (Prod.mk.inj (pure_eq_ok_iff.mp h)).2
            · contradiction
        exact walksTo_read (fun _ => 0) hread
      by_cases h2 : tag = 0x02
      · subst h2
        rw [decodeValuePayload_int] at h
        simp only [bind_eq_ok_iff, pure_eq_ok_iff, Prod.exists, Prod.mk.injEq] at h
        obtain ⟨_, _, hread, -, rfl⟩ := h
        exact walksTo_read (fun _ => 0) hread
      by_cases h3 : tag = 0x03
      · subst h3
        rw [decodeValuePayload_float] at h
        simp only [bind_eq_ok_iff, pure_eq_ok_iff, Prod.exists, Prod.mk.injEq] at h
        obtain ⟨_, _, hfloat, -, rfl⟩ := h
        obtain ⟨_, hread⟩ := readF64_array hfloat
        exact walksTo_read (fun _ => 0) hread
      by_cases h4 : tag = 0x04
      · subst h4
        rw [decodeValuePayload_str] at h
        simp only [bind_eq_ok_iff, pure_eq_ok_iff, Prod.exists, Prod.mk.injEq] at h
        obtain ⟨_, _, htext, -, rfl⟩ := h
        obtain ⟨_, hread⟩ := readString_bytes htext
        exact walksTo_read List.length hread
      by_cases h5 : tag = 0x05
      · subst h5
        rw [decodeValuePayload_bytes] at h
        simp only [bind_eq_ok_iff, pure_eq_ok_iff, Prod.exists, Prod.mk.injEq] at h
        obtain ⟨_, _, hread, -, rfl⟩ := h
        exact walksTo_read List.length hread
      by_cases h6 : tag = 0x06
      · subst h6
        exact walksTo_array ih h
      by_cases h7 : tag = 0x07
      · subst h7
        exact walksTo_object ih h
      by_cases h8 : tag = 0x08
      · subst h8
        exact walksTo_vector h
      by_cases h9 : tag = 0x09
      · subst h9
        rw [decodeValuePayload_geoPoint] at h
        simp only [bind_eq_ok_iff, pure_eq_ok_iff, Prod.exists, Prod.mk.injEq] at h
        obtain ⟨_, _, hlon, _, _, hlat, -, rfl⟩ := h
        obtain ⟨_, hlon⟩ := readF64_array hlon
        obtain ⟨_, hlat⟩ := readF64_array hlat
        exact walksTo_read (fun _ => 0) (readArray_add hlon hlat)
      · simp [decodeValuePayload, readU8, h0, h1, h2, h3, h4, h5, h6, h7, h8, h9, bind,
          Except.bind] at h

/-- A value that decodes has a memory bound. -/
theorem exists_valueDecodeMemoryBound (legacy : LegacyWalk C) {bytes : Bytes} {value : Value}
    (h : decodeValue C bytes = .ok value) (stopAfter : ℕ) :
    ∃ bound, valueDecodeMemoryBound legacy bytes stopAfter = .ok bound := by
  rw [decodeValue, decodeValueWithLimits] at h
  rw [valueDecodeMemoryBound]
  split at h
  · contradiction
  · rename_i hsize
    simp only [if_neg hsize]
    split at h
    · rename_i hmagic
      rw [if_pos hmagic]
      rw [decodeBinaryValue] at h
      cases hinput : bytes.drop valueMagic.length with
      | nil =>
        rw [hinput] at h
        contradiction
      | cons version input =>
        rw [hinput] at h
        dsimp only at h ⊢
        split at h
        · contradiction
        · rename_i hversion
          simp only [if_neg hversion]
          simp only [bind_eq_ok_iff, Prod.exists, guard_eq_ok_iff] at h
          obtain ⟨value', rest, hdecoded, hempty, -⟩ := h
          obtain ⟨used, rest', hwalk, hsame⟩ : WalksTo stopAfter rest (binaryMemory {} stopAfter
              (ValueCodecLimits.maxNestingDepth {} + 1) (0, input)) :=
            walksTo_binaryMemory 0 input rest value' hdecoded
          refine ⟨used, ?_⟩
          simp only [hwalk, bind, Except.bind]
          rw [if_neg]
          · rfl
          · rintro ⟨hover, hrest⟩
            rw [hsame (not_lt.mp hover)] at hrest
            exact hempty hrest
    · rename_i hmagic
      rw [if_neg hmagic]
      simp only [bind_eq_ok_iff, mapError_eq_ok_iff] at h
      obtain ⟨old, hold, hcanonical⟩ := h
      obtain ⟨used, hused⟩ := legacy.accepts stopAfter bytes value old hold hcanonical
      exact ⟨used, by rw [hused]; rfl⟩

end Walk

end MultiDb
