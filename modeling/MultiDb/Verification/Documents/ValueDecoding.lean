import MultiDb.Verification.Documents.ObjectFields

/-!
# Reading what was written

The decoder reads a payload back, up to the sign of zeros.
-/

namespace MultiDb

open Shared

variable {n : ℕ} {bytes : Bytes}

/-! ## Decoding, tag by tag -/

section Equations

variable {C : RelCodecs} {limits : ValueCodecLimits} {levels : ℕ} {rest : Bytes}

/-- One turn of the loop over the fields of an object. -/
def readField (C : RelCodecs) (limits : ValueCodecLimits) (levels : ℕ) (rest : Bytes) :
    Result ((String × Value) × Bytes) := do
  let (name, rest) ← readString C rest
  let (value, rest) ← decodeValuePayload C limits levels rest
  return ((name, value), rest)

/-- One turn of the loop over the items of a vector. -/
def readFiniteF32 (rest : Bytes) : Result (UInt32 × Bytes) := do
  let (bytes, rest) ← readArray 4 rest
  let value := UInt32.ofNat (beNat bytes)
  if !f32IsFinite value then
    .error (.corruption "non-finite vector value")
  else
    return (value, rest)

theorem decodeValuePayload_bool : decodeValuePayload C limits (levels + 1) (0x01 :: rest) = (do
    let (byte, rest) ← readU8 rest
    if byte = 0 then return (.bool false, rest)
    else if byte = 1 then return (.bool true, rest)
    else .error (.corruption ("invalid bool byte " ++ toString byte.toNat))) :=
  rfl

theorem decodeValuePayload_int : decodeValuePayload C limits (levels + 1) (0x02 :: rest) = (do
    let (bytes, rest) ← readArray 8 rest
    return (.int (UInt64.ofNat (beNat bytes)).toInt64, rest)) :=
  rfl

theorem decodeValuePayload_int_of_read {raw tail : Bytes} (h : readArray 8 rest = .ok (raw, tail)) :
    decodeValuePayload C limits (levels + 1) (0x02 :: rest) =
      .ok (.int (UInt64.ofNat (beNat raw)).toInt64, tail) := by
  rw [decodeValuePayload_int, h]
  rfl

theorem decodeValuePayload_float : decodeValuePayload C limits (levels + 1) (0x03 :: rest) = (do
    let (value, rest) ← readF64 rest
    return (.float value, rest)) :=
  rfl

theorem decodeValuePayload_str : decodeValuePayload C limits (levels + 1) (0x04 :: rest) = (do
    let (value, rest) ← readString C rest
    return (.str value, rest)) :=
  rfl

theorem decodeValuePayload_bytes : decodeValuePayload C limits (levels + 1) (0x05 :: rest) = (do
    let (value, rest) ← readLenBytes rest
    return (.bytes value, rest)) :=
  rfl

theorem decodeValuePayload_array : decodeValuePayload C limits (levels + 1) (0x06 :: rest) = (do
    let (count, rest) ← readLen rest
    if count > rest.length then
      .error (.corruption "array item count exceeds remaining bytes")
    else
      let (values, rest) ← readMany (decodeValuePayload C limits levels) count rest
      return (.array values, rest)) :=
  rfl

theorem decodeValuePayload_object : decodeValuePayload C limits (levels + 1) (0x07 :: rest) = (do
    let (count, rest) ← readLen rest
    if ¬ count * 9 < 2 ^ 64 then
      .error (.corruption "object item count overflows")
    else if count * 9 > rest.length then
      .error (.corruption "object item count exceeds remaining bytes")
    else
      let (fields, rest) ← readMany (readField C limits levels) count rest
      return (.object (fields.foldl (fun fields field => insertField field.1 field.2 fields) []),
        rest)) :=
  rfl

theorem decodeValuePayload_vector : decodeValuePayload C limits (levels + 1) (0x08 :: rest) = (do
    let (count, rest) ← readLen rest
    if ¬ count * 4 < 2 ^ 64 then
      .error (.corruption "vector byte length overflows")
    else if count * 4 > rest.length then
      .error (.corruption "truncated vector")
    else
      let (values, rest) ← readMany readFiniteF32 count rest
      return (.vector values, rest)) :=
  rfl

theorem decodeValuePayload_geoPoint :
    decodeValuePayload C limits (levels + 1) (0x09 :: rest) = (do
      let (lon, rest) ← readF64 rest
      let (lat, rest) ← readF64 rest
      return (.geoPoint lon lat, rest)) :=
  rfl

end Equations

/-! ## Reading what was written -/

section Read

variable {C : RelCodecs} {limits : ValueCodecLimits}

theorem readArray_append {a rest : Bytes} (h : a.length = n) :
    readArray n (a ++ rest) = .ok (a, rest) := by
  subst h
  simp [readArray]

theorem readLen_append (h : n < 2 ^ 64) (rest : Bytes) :
    readLen (beBytes 8 n ++ rest) = .ok (n, rest) := by
  rw [readLen, readArray_append (length_beBytes 8 n)]
  simp only [bind, Except.bind, pure, Except.pure]
  rw [beNat_beBytes (by norm_num; omega)]

theorem readLenBytes_append {a : Bytes} (h : a.length < 2 ^ 64) (rest : Bytes) :
    readLenBytes (lenBytes a ++ rest) = .ok (a, rest) := by
  rw [readLenBytes, lenBytes, List.append_assoc, readLen_append h]
  simp [bind, Except.bind, pure, Except.pure]

theorem readString_append {s : String} (h : (strBytes s).length < 2 ^ 64) (rest : Bytes) :
    readString C (lenBytes (strBytes s) ++ rest) = .ok (s, rest) := by
  rw [readString, readLenBytes_append h]
  simp [bind, Except.bind, fromUTF8_strBytes, pure, Except.pure]

theorem ofNat_beBytes_u64 (n : UInt64) : UInt64.ofNat (beNat (beBytes 8 n.toNat)) = n := by
  have hlt : n.toNat < 256 ^ 8 := n.toNat_lt
  rw [beNat_beBytes hlt, UInt64.ofNat_toNat]

theorem ofNat_beBytes_u32 (n : UInt32) : UInt32.ofNat (beNat (beBytes 4 n.toNat)) = n := by
  have hlt : n.toNat < 256 ^ 4 := n.toNat_lt
  rw [beNat_beBytes hlt, UInt32.ofNat_toNat]

theorem finiteF64_eq_ok_iff {f g : F64} :
    finiteF64 f = .ok g ↔ f.isFinite = true ∧ f.normalize = g := by
  simp [finiteF64, guard_eq_ok_iff]

theorem readF64_eq {input raw rest : Bytes} (h : readArray 8 input = .ok (raw, rest)) :
    readF64 input = (finiteF64 { bits := UInt64.ofNat (beNat raw) }).map fun f => (f, rest) := by
  rw [readF64, h]
  rfl

theorem readF64_append {f : F64} (h : f.isFinite = true) (rest : Bytes) :
    readF64 (beBytes 8 f.normalize.bits.toNat ++ rest) = .ok (f.normalize, rest) := by
  rw [readF64_eq (readArray_append (length_beBytes 8 _)), ofNat_beBytes_u64,
    finiteF64_eq_ok_iff.mpr ⟨(F64.isFinite_normalize f).trans h, F64.normalize_normalize f⟩]
  rfl

theorem readFiniteF32_eq {input raw rest : Bytes} (h : readArray 4 input = .ok (raw, rest)) :
    readFiniteF32 input = if !f32IsFinite (UInt32.ofNat (beNat raw)) then
        .error (.corruption "non-finite vector value")
      else
        .ok (UInt32.ofNat (beNat raw), rest) := by
  rw [readFiniteF32, h]
  rfl

theorem readFiniteF32_append {value : UInt32} (h : f32IsFinite value = true) (rest : Bytes) :
    readFiniteF32 (beBytes 4 value.toNat ++ rest) = .ok (value, rest) := by
  rw [readFiniteF32_eq (readArray_append (length_beBytes 4 _)), ofNat_beBytes_u32, h]
  rfl

theorem readMany_append {α β : Type} {read : Bytes → Result (β × Bytes)} {write : α → Bytes}
    {result : α → β} {items : List α}
    (h : ∀ item ∈ items, ∀ rest, read (write item ++ rest) = .ok (result item, rest))
    (rest : Bytes) : readMany read items.length (items.flatMap write ++ rest) =
      .ok (items.map result, rest) := by
  induction items with
  | nil => rfl
  | cons item items ih =>
    rw [List.length_cons, readMany, List.flatMap_cons, List.append_assoc,
      h item List.mem_cons_self]
    simp only [bind, Except.bind]
    rw [ih fun item' hitem' => h item' (List.mem_cons_of_mem item hitem')]
    rfl

theorem Value.payloads_eq_flatMap (values : List Value) :
    Value.payloads values = values.flatMap Value.payload := by
  induction values with
  | nil => rfl
  | cons value values ih => simp [Value.payloads, ih]

theorem Value.fieldPayloads_eq_flatMap (fields : List (String × Value)) :
    Value.fieldPayloads fields =
      fields.flatMap fun field => lenBytes (strBytes field.1) ++ field.2.payload := by
  induction fields with
  | nil => rfl
  | cons field fields ih => simp [Value.fieldPayloads, ih]

/-! ### Payloads -/

theorem length_le_flatMap {α : Type} (write : α → Bytes) {item : α} {items : List α}
    (h : item ∈ items) : (write item).length ≤ (items.flatMap write).length := by
  induction items with
  | nil => simp at h
  | cons first items ih =>
    rw [List.flatMap_cons, List.length_append]
    rcases List.mem_cons.mp h with rfl | hmem
    · omega
    · have := ih hmem
      omega

/-- Decoding reads back what encoding wrote. -/
theorem decodeValuePayload_payload {levels : ℕ} {value : Value}
    (hstorable : value.storable levels = true) (hordered : value.isOrdered = true)
    (hlen : value.payload.length < 2 ^ 64) (rest : Bytes) :
    decodeValuePayload C limits levels (value.payload ++ rest) = .ok (value.canonical, rest) := by
  induction levels generalizing value rest with
  | zero => simp [Value.storable] at hstorable
  | succ levels ih =>
    cases value with
    | null => rfl
    | bool b => cases b <;> rfl
    | int i =>
      rw [Value.payload, List.cons_append,
        decodeValuePayload_int_of_read (readArray_append (length_beBytes 8 _)),
        ofNat_beBytes_u64]
      rfl
    | float f =>
      rw [Value.payload, List.cons_append, decodeValuePayload_float,
        readF64_append hstorable]
      rfl
    | str s =>
      rw [Value.payload, List.length_cons, length_lenBytes] at hlen
      rw [Value.payload, List.cons_append, decodeValuePayload_str,
        readString_append (by omega)]
      rfl
    | bytes b =>
      rw [Value.payload, List.length_cons, length_lenBytes] at hlen
      rw [Value.payload, List.cons_append, decodeValuePayload_bytes,
        readLenBytes_append (by omega)]
      rfl
    | array values =>
      have hcount := Value.length_le_payloads values
      simp only [Value.payload, List.length_cons, List.length_append, length_beBytes] at hlen
      have hguard : ¬ values.length > (Value.payloads values ++ rest).length := by
        rw [List.length_append]
        omega
      have hitems : readMany (decodeValuePayload C limits levels) values.length
          (Value.payloads values ++ rest) = .ok (values.map Value.canonical, rest) := by
        rw [Value.payloads_eq_flatMap] at hlen ⊢
        refine readMany_append (fun item hitem rest => ih ?_ ?_ ?_ rest) rest
        · exact List.all_eq_true.mp hstorable item hitem
        · exact Value.areOrdered_iff.mp hordered item hitem
        · have := length_le_flatMap Value.payload hitem
          omega
      rw [Value.payload, List.cons_append, List.append_assoc, decodeValuePayload_array,
        readLen_append (by omega)]
      simp only [bind, Except.bind, if_neg hguard, hitems]
      rw [Value.canonical, Value.canonicals_eq_map]
      rfl
    | object fields =>
      have hcount := Value.length_le_fieldPayloads fields
      obtain ⟨hnames, hvalues⟩ := Bool.and_eq_true_iff.mp hordered
      simp only [Value.payload, List.length_cons, List.length_append, length_beBytes] at hlen
      have hguard : ¬ fields.length * 9 > (Value.fieldPayloads fields ++ rest).length := by
        rw [List.length_append]
        omega
      have hitems : readMany (readField C limits levels) fields.length
          (Value.fieldPayloads fields ++ rest) =
            .ok (fields.map fun field => (field.1, field.2.canonical), rest) := by
        rw [Value.fieldPayloads_eq_flatMap] at hlen ⊢
        refine readMany_append (fun item hitem rest => ?_) rest
        have hitem_len := length_le_flatMap
          (fun field : String × Value => lenBytes (strBytes field.1) ++ field.2.payload) hitem
        simp only [List.length_append, length_lenBytes] at hitem_len
        rw [readField, List.append_assoc, readString_append (by omega)]
        simp only [bind, Except.bind]
        rw [ih (List.all_eq_true.mp hstorable item hitem)
          (Value.fieldsOrdered_iff.mp hvalues item hitem) (by omega)]
        rfl
      have hascend : List.Pairwise
          (fun a b : String × Value => compare (strBytes a.1) (strBytes b.1) = .lt)
          ([] ++ fields.map fun field => (field.1, field.2.canonical)) := by
        simpa [namesAscend, List.pairwise_map] using hnames
      rw [Value.payload, List.cons_append, List.append_assoc, decodeValuePayload_object,
        readLen_append (by omega)]
      simp only [bind, Except.bind, if_neg hguard, hitems,
        if_neg (not_not.mpr (show fields.length * 9 < 2 ^ 64 by omega)),
        foldl_insertField_of_ascend hascend]
      rw [Value.canonical, Value.canonicalFields_eq_map]
      rfl
    | vector values =>
      simp only [Value.payload, List.length_cons, List.length_append, length_beBytes,
        length_flatMap_f32] at hlen
      have hguard : ¬ values.length * 4 >
          (values.flatMap (fun value => beBytes 4 value.toNat) ++ rest).length := by
        rw [List.length_append, length_flatMap_f32]
        omega
      have hitems : readMany readFiniteF32 values.length
          (values.flatMap (fun value => beBytes 4 value.toNat) ++ rest) =
            .ok (values.map id, rest) :=
        readMany_append (fun item hitem => readFiniteF32_append
          (List.all_eq_true.mp hstorable item hitem)) rest
      rw [Value.payload, List.cons_append, List.append_assoc, decodeValuePayload_vector,
        readLen_append (by omega)]
      simp only [bind, Except.bind, if_neg hguard, hitems,
        if_neg (not_not.mpr (show values.length * 4 < 2 ^ 64 by omega)), List.map_id]
      rfl
    | geoPoint lon lat =>
      obtain ⟨hlon, hlat⟩ := Bool.and_eq_true_iff.mp hstorable
      rw [Value.payload, List.cons_append, List.append_assoc, decodeValuePayload_geoPoint]
      exact bind_eq_ok_iff.mpr ⟨_, readF64_append hlon _,
        bind_eq_ok_iff.mpr ⟨_, readF64_append hlat rest, rfl⟩⟩

theorem decodeValueWithLimits_of_encode (hlimits : limits.maxDocumentBytes < 2 ^ 64)
    {value : Value} (hordered : value.isOrdered = true)
    (h : encodeValueWithLimits limits value = .ok bytes) :
    decodeValueWithLimits C limits bytes = .ok value.canonical := by
  obtain ⟨hstorable, rfl, hlen⟩ := (encodeValueWithLimits_eq_ok_iff hlimits).mp h
  have hpos : value.payload.length < 2 ^ 64 := by
    simp only [List.length_append] at hlen
    omega
  have hpayload : decodeValuePayload C limits (limits.maxNestingDepth + 1) (value.payload ++ []) =
      .ok (value.canonical, []) :=
    decodeValuePayload_payload hstorable hordered hpos []
  rw [List.append_nil] at hpayload
  rw [decodeValueWithLimits, if_neg (Nat.not_lt.mpr hlen), List.append_assoc,
    if_pos (List.isPrefixOf_iff_prefix.mpr (List.prefix_append _ _)), decodeBinaryValue,
    List.drop_left]
  change (decodeValuePayload C limits (limits.maxNestingDepth + 1) value.payload >>= _) = _
  rw [hpayload]
  rfl

end Read

end MultiDb
