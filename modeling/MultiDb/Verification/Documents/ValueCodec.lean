import MultiDb.Verification.Documents.ValueDecoding

/-!
# The round trip of stored values

The decoder reads back what the encoder writes, up to the sign of zeros.  What it accepts
can be written again, in no more bytes.
-/

namespace MultiDb

open Shared

variable {name : String} {n : ℕ} {bytes : Bytes}

/-! ## Writing what was read -/

section Write

variable {C : RelCodecs} {limits : ValueCodecLimits}

/-- The value can be written again, and is read back as it is. -/
structure Rewritable (levels : ℕ) (value : Value) : Prop where
  storable : value.storable levels = true
  ordered : value.isOrdered = true
  canonical : value.canonical = value

theorem readArray_length {input raw rest : Bytes} (h : readArray n input = .ok (raw, rest)) :
    raw.length = n ∧ n + rest.length = input.length := by
  simp only [readArray, guard_eq_ok_iff, Except.ok.injEq, Prod.mk.injEq, Nat.not_lt] at h
  obtain ⟨hlen, rfl, rfl⟩ := h
  simp only [List.length_take, List.length_drop]
  omega

theorem readLen_length {input rest : Bytes} (h : readLen input = .ok (n, rest)) :
    8 + rest.length = input.length := by
  obtain ⟨⟨raw, rest'⟩, hraw, h⟩ := bind_eq_ok_iff.mp h
  cases h
  exact (readArray_length hraw).2

theorem readLenBytes_length {input bytes rest : Bytes}
    (h : readLenBytes input = .ok (bytes, rest)) :
    8 + bytes.length + rest.length = input.length := by
  obtain ⟨⟨n, rest'⟩, hn, h⟩ := bind_eq_ok_iff.mp h
  simp only [guard_eq_ok_iff, pure_eq_ok_iff, Prod.mk.injEq, Nat.not_lt] at h
  obtain ⟨hlen, rfl, rfl⟩ := h
  have := readLen_length hn
  simp only [List.length_take, List.length_drop]
  omega

theorem readString_length {input rest : Bytes} (h : readString C input = .ok (name, rest)) :
    8 + (strBytes name).length + rest.length = input.length := by
  obtain ⟨⟨bytes, rest'⟩, hbytes, h⟩ := bind_eq_ok_iff.mp h
  have hlen := readLenBytes_length hbytes
  cases hutf : String.fromUTF8? ⟨bytes.toArray⟩ with
  | none => simp [hutf] at h
  | some value =>
    simp only [hutf, pure_eq_ok_iff, Prod.mk.injEq] at h
    obtain ⟨rfl, rfl⟩ := h
    rw [strBytes_of_fromUTF8 hutf]
    exact hlen

theorem readF64_sound {input rest : Bytes} {f : F64} (h : readF64 input = .ok (f, rest)) :
    f.isFinite = true ∧ f.normalize = f ∧ 8 + rest.length = input.length := by
  obtain ⟨⟨raw, rest'⟩, hraw, -⟩ := bind_eq_ok_iff.mp h
  rw [readF64_eq hraw] at h
  obtain ⟨g, hg, heq⟩ := map_eq_ok_iff.mp h
  cases heq
  obtain ⟨hfinite, rfl⟩ := finiteF64_eq_ok_iff.mp hg
  exact ⟨(F64.isFinite_normalize _).trans hfinite, F64.normalize_normalize _,
    (readArray_length hraw).2⟩

theorem readFiniteF32_sound {input rest : Bytes} {value : UInt32}
    (h : readFiniteF32 input = .ok (value, rest)) :
    f32IsFinite value = true ∧ 4 + rest.length ≤ input.length := by
  obtain ⟨⟨raw, rest'⟩, hraw, -⟩ := bind_eq_ok_iff.mp h
  rw [readFiniteF32_eq hraw, guard_eq_ok_iff, Except.ok.injEq, Prod.mk.injEq] at h
  obtain ⟨hfinite, rfl, rfl⟩ := h
  exact ⟨by simpa using hfinite, (readArray_length hraw).2.le⟩

theorem readMany_sound {α : Type} {read : Bytes → Result (α × Bytes)} {P : α → Prop} {cost : α → ℕ}
    (hread : ∀ input item rest, read input = .ok (item, rest) →
      P item ∧ cost item + rest.length ≤ input.length)
    {count : ℕ} {input rest : Bytes} {items : List α}
    (h : readMany read count input = .ok (items, rest)) :
    (∀ item ∈ items, P item) ∧ (items.map cost).sum + rest.length ≤ input.length := by
  induction count generalizing input items with
  | zero =>
    cases h
    simp
  | succ count ih =>
    obtain ⟨⟨item, rest₁⟩, hitem, h⟩ := bind_eq_ok_iff.mp h
    obtain ⟨⟨items', rest₂⟩, hitems, h⟩ := bind_eq_ok_iff.mp h
    cases h
    obtain ⟨hP, hcost⟩ := hread _ _ _ hitem
    obtain ⟨hPs, hcosts⟩ := ih hitems
    simp only [List.mem_cons, forall_eq_or_imp, List.map_cons, List.sum_cons]
    exact ⟨⟨hP, hPs⟩, by omega⟩

/-! ### Payloads -/

theorem length_payloads (values : List Value) :
    (Value.payloads values).length = (values.map fun value => value.payload.length).sum := by
  induction values with
  | nil => rfl
  | cons value values ih => simp [Value.payloads, ih]

/-- What is read from `input` up to `rest` can be written again in no more bytes. -/
def ReadsRewritable (levels : ℕ) (input : Bytes) (value : Value) (rest : Bytes) : Prop :=
  Rewritable levels value ∧ value.payload.length + rest.length ≤ input.length

section Tags

variable {levels : ℕ} {tag : UInt8} {input rest : Bytes} {value : Value}

theorem sound_bool (h : decodeValuePayload C limits (levels + 1) (0x01 :: input) =
    .ok (value, rest)) : ReadsRewritable (levels + 1) (0x01 :: input) value rest := by
  cases input with
  | nil => cases h
  | cons byte input =>
    obtain ⟨b, rfl, rfl⟩ : ∃ b, value = .bool b ∧ input = rest := by
      change (if byte = 0 then _ else if byte = 1 then _ else _) = _ at h
      split_ifs at h
      all_goals cases h
      · exact ⟨false, rfl, rfl⟩
      · exact ⟨true, rfl, rfl⟩
    refine ⟨⟨rfl, rfl, rfl⟩, ?_⟩
    simp [Value.payload]
    omega

theorem sound_int (h : decodeValuePayload C limits (levels + 1) (0x02 :: input) =
    .ok (value, rest)) : ReadsRewritable (levels + 1) (0x02 :: input) value rest := by
  rw [decodeValuePayload_int] at h
  obtain ⟨⟨raw, tail⟩, hraw, h⟩ := bind_eq_ok_iff.mp h
  cases h
  have hlen := (readArray_length hraw).2
  refine ⟨⟨rfl, rfl, rfl⟩, ?_⟩
  simp [Value.payload]
  omega

theorem sound_float
    (h : decodeValuePayload C limits (levels + 1) (0x03 :: input) = .ok (value, rest)) :
    ReadsRewritable (levels + 1) (0x03 :: input) value rest := by
  rw [decodeValuePayload_float] at h
  obtain ⟨⟨f, tail⟩, hf, h⟩ := bind_eq_ok_iff.mp h
  cases h
  obtain ⟨hfinite, hcanonical, hlen⟩ := readF64_sound hf
  refine ⟨⟨hfinite, rfl, by rw [Value.canonical, hcanonical]⟩, ?_⟩
  simp [Value.payload]
  omega

theorem sound_str (h : decodeValuePayload C limits (levels + 1) (0x04 :: input) =
    .ok (value, rest)) : ReadsRewritable (levels + 1) (0x04 :: input) value rest := by
  rw [decodeValuePayload_str] at h
  obtain ⟨⟨s, tail⟩, hs, h⟩ := bind_eq_ok_iff.mp h
  cases h
  have hlen := readString_length hs
  refine ⟨⟨rfl, rfl, rfl⟩, ?_⟩
  simp [Value.payload]
  omega

theorem sound_bytes
    (h : decodeValuePayload C limits (levels + 1) (0x05 :: input) = .ok (value, rest)) :
    ReadsRewritable (levels + 1) (0x05 :: input) value rest := by
  rw [decodeValuePayload_bytes] at h
  obtain ⟨⟨bytes, tail⟩, hbytes, h⟩ := bind_eq_ok_iff.mp h
  cases h
  have hlen := readLenBytes_length hbytes
  refine ⟨⟨rfl, rfl, rfl⟩, ?_⟩
  simp [Value.payload]
  omega

theorem sound_vector
    (h : decodeValuePayload C limits (levels + 1) (0x08 :: input) = .ok (value, rest)) :
    ReadsRewritable (levels + 1) (0x08 :: input) value rest := by
  rw [decodeValuePayload_vector] at h
  obtain ⟨⟨count, tail⟩, hcount, h⟩ := bind_eq_ok_iff.mp h
  obtain ⟨-, h⟩ := guard_eq_ok_iff.mp h
  obtain ⟨-, h⟩ := guard_eq_ok_iff.mp h
  obtain ⟨⟨values, tail'⟩, hvalues, h⟩ := bind_eq_ok_iff.mp h
  cases h
  have hlen := readLen_length hcount
  obtain ⟨hall, hsize⟩ := readMany_sound (fun input value rest => readFiniteF32_sound) hvalues
  simp only [List.map_const', List.sum_replicate_nat] at hsize
  refine ⟨⟨List.all_eq_true.mpr hall, rfl, rfl⟩, ?_⟩
  simp only [Value.payload, List.length_cons, List.length_append, length_beBytes,
    length_flatMap_f32]
  omega

theorem sound_geoPoint
    (h : decodeValuePayload C limits (levels + 1) (0x09 :: input) = .ok (value, rest)) :
    ReadsRewritable (levels + 1) (0x09 :: input) value rest := by
  rw [decodeValuePayload_geoPoint] at h
  obtain ⟨⟨lon, tail⟩, hlon, h⟩ := bind_eq_ok_iff.mp h
  obtain ⟨⟨lat, tail'⟩, hlat, h⟩ := bind_eq_ok_iff.mp h
  cases h
  obtain ⟨hfinite, hcanonical, hlen⟩ := readF64_sound hlon
  obtain ⟨hfinite', hcanonical', hlen'⟩ := readF64_sound hlat
  refine ⟨⟨Bool.and_eq_true_iff.mpr ⟨hfinite, hfinite'⟩, rfl, ?_⟩, ?_⟩
  · rw [Value.canonical, hcanonical, hcanonical']
  · simp [Value.payload]
    omega

/-! The items of an array and the fields of an object nest one level deeper. -/

variable (ih : ∀ input value rest, decodeValuePayload C limits levels input = .ok (value, rest) →
  ReadsRewritable levels input value rest)

include ih

theorem sound_array
    (h : decodeValuePayload C limits (levels + 1) (0x06 :: input) = .ok (value, rest)) :
    ReadsRewritable (levels + 1) (0x06 :: input) value rest := by
  rw [decodeValuePayload_array] at h
  obtain ⟨⟨count, tail⟩, hcount, h⟩ := bind_eq_ok_iff.mp h
  obtain ⟨-, h⟩ := guard_eq_ok_iff.mp h
  obtain ⟨⟨values, tail'⟩, hvalues, h⟩ := bind_eq_ok_iff.mp h
  cases h
  have hlen := readLen_length hcount
  obtain ⟨hall, hsize⟩ := readMany_sound ih hvalues
  refine ⟨⟨List.all_eq_true.mpr fun value hvalue => (hall value hvalue).storable,
    Value.areOrdered_iff.mpr fun value hvalue => (hall value hvalue).ordered, ?_⟩, ?_⟩
  · rw [Value.canonical, Value.canonicals_eq_map,
      List.map_congr_left fun value hvalue => (hall value hvalue).canonical, List.map_id']
  · simp only [Value.payload, List.length_cons, List.length_append, length_beBytes, length_payloads]
    omega

theorem readField_sound (input : Bytes) (field : String × Value) (rest : Bytes)
    (h : readField C limits levels input = .ok (field, rest)) :
    Rewritable levels field.2 ∧ fieldSize field + rest.length ≤ input.length := by
  obtain ⟨⟨name, rest₁⟩, hname, h⟩ := bind_eq_ok_iff.mp h
  obtain ⟨⟨value, rest₂⟩, hvalue, h⟩ := bind_eq_ok_iff.mp h
  cases h
  obtain ⟨hrewrite, hsize⟩ := ih _ _ _ hvalue
  have hlen := readString_length hname
  refine ⟨hrewrite, ?_⟩
  simp only [fieldSize]
  omega

theorem sound_object
    (h : decodeValuePayload C limits (levels + 1) (0x07 :: input) = .ok (value, rest)) :
    ReadsRewritable (levels + 1) (0x07 :: input) value rest := by
  rw [decodeValuePayload_object] at h
  obtain ⟨⟨count, tail⟩, hcount, h⟩ := bind_eq_ok_iff.mp h
  obtain ⟨-, h⟩ := guard_eq_ok_iff.mp h
  obtain ⟨-, h⟩ := guard_eq_ok_iff.mp h
  obtain ⟨⟨fields, tail'⟩, hfields, h⟩ := bind_eq_ok_iff.mp h
  cases h
  have hlen := readLen_length hcount
  obtain ⟨hread, hsize⟩ := readMany_sound (readField_sound ih) hfields
  obtain ⟨hall, hascend, hless⟩ := foldl_insertField_sound hread (by simp) List.Pairwise.nil
  simp only [List.map_nil, List.sum_nil] at hless
  refine ⟨⟨List.all_eq_true.mpr fun field hfield => (hall field hfield).storable,
    Bool.and_eq_true_iff.mpr ⟨by simpa [namesAscend] using hascend,
      Value.fieldsOrdered_iff.mpr fun field hfield => (hall field hfield).ordered⟩, ?_⟩, ?_⟩
  · rw [Value.canonical, Value.canonicalFields_eq_map]
    congr 1
    refine (List.map_congr_left fun field hfield => ?_).trans (List.map_id _)
    rw [(hall field hfield).canonical]
    rfl
  · simp only [Value.payload, List.length_cons, List.length_append, length_beBytes,
      length_fieldPayloads]
    omega

end Tags

/-- What the decoder returns can be written again, in no more bytes than it read. -/
theorem decodeValuePayload_sound {levels : ℕ} (input : Bytes) (value : Value) (rest : Bytes)
    (h : decodeValuePayload C limits levels input = .ok (value, rest)) :
    ReadsRewritable levels input value rest := by
  induction levels generalizing input value rest with
  | zero => cases h
  | succ levels ih =>
    cases input with
    | nil => cases h
    | cons tag input =>
      by_cases h0 : tag = 0x00
      · subst h0
        cases h
        exact ⟨⟨rfl, rfl, rfl⟩, by simp [Value.payload]; omega⟩
      by_cases h1 : tag = 0x01
      · exact h1 ▸ sound_bool (h1 ▸ h)
      by_cases h2 : tag = 0x02
      · exact h2 ▸ sound_int (h2 ▸ h)
      by_cases h3 : tag = 0x03
      · exact h3 ▸ sound_float (h3 ▸ h)
      by_cases h4 : tag = 0x04
      · exact h4 ▸ sound_str (h4 ▸ h)
      by_cases h5 : tag = 0x05
      · exact h5 ▸ sound_bytes (h5 ▸ h)
      by_cases h6 : tag = 0x06
      · exact h6 ▸ sound_array ih (h6 ▸ h)
      by_cases h7 : tag = 0x07
      · exact h7 ▸ sound_object ih (h7 ▸ h)
      by_cases h8 : tag = 0x08
      · exact h8 ▸ sound_vector (h8 ▸ h)
      by_cases h9 : tag = 0x09
      · exact h9 ▸ sound_geoPoint (h9 ▸ h)
      · simp [decodeValuePayload, readU8, bind, Except.bind, h0, h1, h2, h3, h4, h5, h6, h7, h8,
          h9] at h

theorem encodeValueWithLimits_of_decode (hlimits : limits.maxDocumentBytes < 2 ^ 64)
    {value : Value} (hbinary : valueMagic.isPrefixOf bytes = true)
    (h : decodeValueWithLimits C limits bytes = .ok value) :
    ∃ bytes', encodeValueWithLimits limits value = .ok bytes' ∧
      decodeValueWithLimits C limits bytes' = .ok value := by
  rw [decodeValueWithLimits, guard_eq_ok_iff, if_pos hbinary, Nat.not_lt] at h
  obtain ⟨hmax, h⟩ := h
  obtain ⟨body, rfl⟩ := List.isPrefixOf_iff_prefix.mp hbinary
  rw [decodeBinaryValue, List.drop_left] at h
  cases body with
  | nil => contradiction
  | cons version rest =>
    obtain ⟨-, h⟩ := guard_eq_ok_iff.mp h
    obtain ⟨⟨value', rest'⟩, hvalue, h⟩ := bind_eq_ok_iff.mp h
    obtain ⟨-, h⟩ := guard_eq_ok_iff.mp h
    obtain rfl := pure_eq_ok_iff.mp h
    obtain ⟨hrewrite, hsize⟩ := decodeValuePayload_sound _ _ _ hvalue
    have hencode : encodeValueWithLimits limits value' =
        .ok (valueMagic ++ [valueFormatV1] ++ value'.payload) := by
      refine (encodeValueWithLimits_eq_ok_iff hlimits).mpr ⟨hrewrite.storable, rfl, ?_⟩
      simp only [List.length_append, List.length_cons, List.length_nil] at hmax ⊢
      omega
    refine ⟨_, hencode, ?_⟩
    rw [decodeValueWithLimits_of_encode hlimits hrewrite.ordered hencode, hrewrite.canonical]

end Write

/-- The limits fit the machine's word. -/
def ValueCodecLimits.Fits (limits : ValueCodecLimits) : Prop :=
  limits.maxDocumentBytes ≤ usizeMax ∧ limits.maxNestingDepth ≤ usizeMax

/-- Values survive the codec up to the sign of zeros, and so does what the decoder accepts. -/
theorem valueCodec_round_trip (C : RelCodecs) (limits : ValueCodecLimits) (hlimits : limits.Fits) :
    (∀ value bytes, value.isOrdered = true → encodeValueWithLimits limits value = .ok bytes →
      decodeValueWithLimits C limits bytes = .ok value.canonical) ∧
    ∀ bytes value, valueMagic.isPrefixOf bytes = true →
      decodeValueWithLimits C limits bytes = .ok value →
      ∃ bytes', encodeValueWithLimits limits value = .ok bytes' ∧
        decodeValueWithLimits C limits bytes' = .ok value := by
  have hbytes : limits.maxDocumentBytes < 2 ^ 64 := by
    have := hlimits.1
    rw [usizeMax] at this
    omega
  exact ⟨fun value bytes => decodeValueWithLimits_of_encode hbytes,
    fun bytes value => encodeValueWithLimits_of_decode hbytes⟩

/-- An object with a negative zero, and a document that holds one field twice. -/
theorem valueCodec_round_trip_sample :
    let value := Value.object [("a", .float ⟨0x8000000000000000⟩), ("b", .array [.int 7, .str "x"])]
    let document := valueMagic ++ [valueFormatV1, 0x07] ++ beBytes 8 3 ++
      lenBytes (strBytes "b") ++ [0x00] ++ lenBytes (strBytes "a") ++ [0x01, 1] ++
      lenBytes (strBytes "b") ++ [0x01, 0]
    let read := Value.object [("a", .bool true), ("b", .bool false)]
    let C : RelCodecs := { wireCodecs with legacyValue := fun _ => .error "not JSON" }
    (∃ bytes, encodeValueWithLimits {} value = .ok bytes ∧
      decodeValueWithLimits C {} bytes = .ok value.canonical) ∧
    decodeValueWithLimits C {} document = .ok read ∧
    ∃ bytes, encodeValueWithLimits {} read = .ok bytes ∧
      decodeValueWithLimits C {} bytes = .ok read := by
  intro value document read C
  have hfits : ({} : ValueCodecLimits).Fits := by
    constructor <;> decide
  obtain ⟨hread, hwrite⟩ := valueCodec_round_trip C {} hfits
  have hdocument : decodeValueWithLimits C {} document = .ok read := by
    rfl
  have hvalue : encodeValueWithLimits {} value =
      .ok (valueMagic ++ [valueFormatV1] ++ value.payload) :=
    (encodeValueWithLimits_eq_ok_iff (by decide)).mpr ⟨by decide, rfl, by decide⟩
  exact ⟨⟨_, hvalue, hread value _ rfl hvalue⟩, hdocument, hwrite document _ rfl hdocument⟩

end MultiDb
