import MultiDb.Model.WireRecords
import MultiDb.Verification.Rel.Keys

/-!
# What the encoder of values writes

The encoder accepts exactly the storable values, and appends the payload of a value.
-/

namespace MultiDb

open Shared

variable {fields : List (String × Value)} {out out' : Bytes} {n : ℕ} {bytes : Bytes}

/-! ## Values of the source -/

mutual

/-- The value with every negative zero of a float or a geo point made positive. -/
def Value.canonical : Value → Value
  | .float value => .float value.normalize
  | .array values => .array (Value.canonicals values)
  | .object fields => .object (Value.canonicalFields fields)
  | .geoPoint lon lat => .geoPoint lon.normalize lat.normalize
  | value => value

def Value.canonicals : List Value → List Value
  | [] => []
  | value :: values => value.canonical :: Value.canonicals values

def Value.canonicalFields : List (String × Value) → List (String × Value)
  | [] => []
  | (name, value) :: fields => (name, value.canonical) :: Value.canonicalFields fields

end

theorem Value.areOrdered_iff {values : List Value} :
    Value.areOrdered values = true ↔ ∀ value ∈ values, value.isOrdered = true := by
  induction values with
  | nil => simp [Value.areOrdered]
  | cons value values ih => simp [Value.areOrdered, ih]

theorem Value.fieldsOrdered_iff :
    Value.fieldsOrdered fields = true ↔ ∀ field ∈ fields, field.2.isOrdered = true := by
  induction fields with
  | nil => simp [Value.fieldsOrdered]
  | cons field fields ih => simp [Value.fieldsOrdered, ih]

theorem Value.canonicals_eq_map (values : List Value) :
    Value.canonicals values = values.map Value.canonical := by
  induction values with
  | nil => rfl
  | cons value values ih => simp [Value.canonicals, ih]

theorem Value.canonicalFields_eq_map (fields : List (String × Value)) :
    Value.canonicalFields fields = fields.map fun field => (field.1, field.2.canonical) := by
  induction fields with
  | nil => rfl
  | cons field fields ih => simp [Value.canonicalFields, ih]

/-! ## What the encoder writes -/

/-- Bytes after their length, as the codec writes them. -/
def lenBytes (bytes : Bytes) : Bytes :=
  beBytes 8 bytes.length ++ bytes

mutual

/-- The encoding of a value behind the header of its document. -/
def Value.payload : Value → Bytes
  | .null => [0x00]
  | .bool value => [0x01, if value then 1 else 0]
  | .int value => 0x02 :: beBytes 8 value.toUInt64.toNat
  | .float value => 0x03 :: beBytes 8 value.normalize.bits.toNat
  | .str value => 0x04 :: lenBytes (strBytes value)
  | .bytes value => 0x05 :: lenBytes value
  | .array values => 0x06 :: (beBytes 8 values.length ++ Value.payloads values)
  | .object fields => 0x07 :: (beBytes 8 fields.length ++ Value.fieldPayloads fields)
  | .vector values => 0x08 :: (beBytes 8 values.length ++
      values.flatMap fun value => beBytes 4 value.toNat)
  | .geoPoint lon lat => 0x09 :: (beBytes 8 lon.normalize.bits.toNat ++
      beBytes 8 lat.normalize.bits.toNat)

def Value.payloads : List Value → Bytes
  | [] => []
  | value :: values => value.payload ++ Value.payloads values

def Value.fieldPayloads : List (String × Value) → Bytes
  | [] => []
  | (name, value) :: fields => lenBytes (strBytes name) ++ value.payload ++
    Value.fieldPayloads fields

end

/-- The value has finite numbers only and nests below the limit. -/
def Value.storable : ℕ → Value → Bool
  | 0, _ => false
  | levels + 1, .array values => values.all (Value.storable levels)
  | levels + 1, .object fields => fields.all fun field => Value.storable levels field.2
  | _ + 1, .float value => value.isFinite
  | _ + 1, .vector values => values.all f32IsFinite
  | _ + 1, .geoPoint lon lat => lon.isFinite && lat.isFinite
  | _ + 1, _ => true

@[simp] theorem length_lenBytes (bytes : Bytes) : (lenBytes bytes).length = 8 + bytes.length := by
  simp [lenBytes]

theorem Value.payload_pos (value : Value) : 1 ≤ value.payload.length := by
  cases value <;> simp [Value.payload]

theorem Value.length_le_payloads (values : List Value) :
    values.length ≤ (Value.payloads values).length := by
  induction values with
  | nil => simp
  | cons value values ih =>
    have := value.payload_pos
    simp only [Value.payloads, List.length_cons, List.length_append]
    omega

theorem Value.length_le_fieldPayloads (fields : List (String × Value)) :
    fields.length * 9 ≤ (Value.fieldPayloads fields).length := by
  induction fields with
  | nil => simp
  | cons field fields ih =>
    have := field.2.payload_pos
    simp only [Value.fieldPayloads, List.length_cons, List.length_append, length_lenBytes]
    omega

theorem length_flatMap_f32 (values : List UInt32) :
    (values.flatMap fun value => beBytes 4 value.toNat).length = values.length * 4 := by
  induction values with
  | nil => rfl
  | cons value values ih =>
    simp only [List.flatMap_cons, List.length_append, length_beBytes, ih, List.length_cons]
    omega

/-! ## Encoding -/

section Encode

variable {limits : ValueCodecLimits}

theorem encodeLen_eq_ok_iff :
    encodeLen out n = .ok out' ↔ n < 2 ^ 64 ∧ out' = out ++ beBytes 8 n := by
  by_cases h : n < 2 ^ 64
  · rw [encodeLen, if_pos h, Except.ok.injEq, eq_comm, and_iff_right h]
  · rw [encodeLen, if_neg h]
    constructor
    · intro herror
      cases herror
    · intro hlt
      exact absurd hlt.1 h

/-- A count that fits and the items behind it. -/
theorem encodeCounted_eq_ok_iff {write : Bytes → Result Bytes} {p : Prop} {items : Bytes}
    (hwrite : ∀ out, write out = .ok out' ↔ p ∧ out' = out ++ items) (hn : n ≤ items.length)
    (hout : out'.length < 2 ^ 64) :
    (encodeLen out n >>= write) = .ok out' ↔ p ∧ out' = out ++ (beBytes 8 n ++ items) := by
  simp only [bind_eq_ok_iff, encodeLen_eq_ok_iff, hwrite]
  constructor
  · rintro ⟨_, ⟨-, rfl⟩, hp, rfl⟩
    exact ⟨hp, by simp⟩
  · rintro ⟨hp, rfl⟩
    simp only [List.length_append] at hout
    exact ⟨_, ⟨by omega, rfl⟩, hp, by simp⟩

theorem encodeLenBytes_eq_ok_iff {value : Bytes} (hout : out'.length < 2 ^ 64) :
    encodeLenBytes out value = .ok out' ↔ out' = out ++ lenBytes value := by
  have hwrite : ∀ out : Bytes, (pure (out ++ value) : Result Bytes) = .ok out' ↔
      True ∧ out' = out ++ value := fun out => by rw [pure_eq_ok_iff, true_and, eq_comm]
  rw [encodeLenBytes, encodeCounted_eq_ok_iff hwrite le_rfl hout, true_and, lenBytes]

theorem ensureEncodedSize_eq_ok_iff :
    ensureEncodedSize limits out = .ok out' ↔ out.length ≤ limits.maxDocumentBytes ∧
    out = out' := by
  rw [ensureEncodedSize, guard_eq_ok_iff, gt_iff_lt, Nat.not_lt, Except.ok.injEq]

theorem encodeFiniteF32s_eq_ok_iff {values : List UInt32} :
    values.foldlM encodeFiniteF32 out = .ok out' ↔ values.all f32IsFinite = true ∧
      out' = out ++ values.flatMap fun value => beBytes 4 value.toNat := by
  induction values generalizing out with
  | nil => simp [pure, Except.pure, eq_comm]
  | cons value values ih =>
    rw [foldlM_cons_eq_ok_iff]
    simp only [encodeFiniteF32, guard_eq_ok_iff, Except.ok.injEq, ih, List.all_cons,
      Bool.and_eq_true, List.flatMap_cons, Bool.not_eq_true', Bool.not_eq_false]
    constructor
    · rintro ⟨_, ⟨hvalue, rfl⟩, hvalues, rfl⟩
      exact ⟨⟨hvalue, hvalues⟩, by simp⟩
    · rintro ⟨⟨hvalue, hvalues⟩, rfl⟩
      exact ⟨_, ⟨hvalue, rfl⟩, hvalues, by simp⟩

/-- A storable value of a document that stays small enough is appended as its payload. -/
def EncodesAs (limits : ValueCodecLimits) (levels : ℕ) (value : Value) : Prop :=
  ∀ out out', encodeValuePayload limits levels out value = .ok out' ↔
    value.storable levels = true ∧ out' = out ++ value.payload ∧
      out'.length ≤ limits.maxDocumentBytes

theorem encodeValues_eq_ok_iff {levels : ℕ} {values : List Value}
    (hitem : ∀ value, EncodesAs limits levels value)
    (hout : out'.length ≤ limits.maxDocumentBytes) :
    values.foldlM (encodeValuePayload limits levels) out = .ok out' ↔
      values.all (Value.storable levels) = true ∧ out' = out ++ Value.payloads values := by
  induction values generalizing out with
  | nil => simp [pure, Except.pure, Value.payloads, eq_comm]
  | cons value values ih =>
    rw [foldlM_cons_eq_ok_iff]
    simp only [ih, hitem value _ _, List.all_cons, Bool.and_eq_true, Value.payloads]
    constructor
    · rintro ⟨_, ⟨hvalue, rfl, -⟩, hvalues, rfl⟩
      exact ⟨⟨hvalue, hvalues⟩, by simp⟩
    · rintro ⟨⟨hvalue, hvalues⟩, rfl⟩
      refine ⟨_, ⟨hvalue, rfl, ?_⟩, hvalues, by simp⟩
      simp only [List.length_append] at hout ⊢
      omega

theorem encodeFields_eq_ok_iff {levels : ℕ}
    (hlimits : limits.maxDocumentBytes < 2 ^ 64) (hitem : ∀ value, EncodesAs limits levels value)
    (hout : out'.length ≤ limits.maxDocumentBytes) :
    fields.foldlM (fun out field => do
        let out ← encodeLenBytes out (strBytes field.1)
        encodeValuePayload limits levels out field.2) out = .ok out' ↔
      fields.all (fun field => field.2.storable levels) = true ∧
        out' = out ++ Value.fieldPayloads fields := by
  induction fields generalizing out with
  | nil => simp [pure, Except.pure, Value.fieldPayloads, eq_comm]
  | cons field fields ih =>
    rw [foldlM_cons_eq_ok_iff]
    simp only [ih, bind_eq_ok_iff, hitem field.2 _ _, List.all_cons, Bool.and_eq_true,
      Value.fieldPayloads]
    constructor
    · rintro ⟨_, ⟨named, hname, hvalue, rfl, hmid⟩, hvalues, rfl⟩
      have hnamed : named.length < 2 ^ 64 := by
        rw [List.length_append] at hmid
        omega
      obtain rfl := (encodeLenBytes_eq_ok_iff hnamed).mp hname
      exact ⟨⟨hvalue, hvalues⟩, by simp⟩
    · rintro ⟨⟨hvalue, hvalues⟩, rfl⟩
      simp only [List.length_append, length_lenBytes] at hout
      refine ⟨_, ⟨_, (encodeLenBytes_eq_ok_iff ?_).mpr rfl, hvalue, rfl, ?_⟩, hvalues, by simp⟩
      all_goals
        simp only [List.length_append, length_lenBytes]
        omega

/-- When a value is encoded, and into which bytes. -/
theorem encodeValuePayload_eq_ok_iff (hlimits : limits.maxDocumentBytes < 2 ^ 64) (levels : ℕ)
    (value : Value) : EncodesAs limits levels value := by
  induction levels generalizing value with
  | zero => simp [EncodesAs, encodeValuePayload, Value.storable]
  | succ levels ih =>
    intro out out'
    unfold encodeValuePayload
    rw [bind_eq_ok_iff]
    simp only [ensureEncodedSize_eq_ok_iff]
    have hsame : ∀ {p : Prop} {x : Bytes → Prop}, (∀ mid, mid.length ≤ limits.maxDocumentBytes →
        (x mid ↔ p ∧ mid = out ++ value.payload)) →
        ((∃ mid, x mid ∧ mid.length ≤ limits.maxDocumentBytes ∧ mid = out') ↔
          p ∧ out' = out ++ value.payload ∧ out'.length ≤ limits.maxDocumentBytes) := by
      intro p x hx
      constructor
      · rintro ⟨mid, hmid, hlen, rfl⟩
        obtain ⟨hp, heq⟩ := (hx mid hlen).mp hmid
        exact ⟨hp, heq, hlen⟩
      · rintro ⟨hp, heq, hlen⟩
        exact ⟨out', (hx out' hlen).mpr ⟨hp, heq⟩, hlen, rfl⟩
    apply hsame
    intro mid hmid
    have hmid' : mid.length < 2 ^ 64 := by omega
    cases value with
    | null => simp [Value.storable, Value.payload, eq_comm]
    | bool b => simp [Value.storable, Value.payload, eq_comm]
    | int i => simp [Value.storable, Value.payload, eq_comm]
    | float f =>
      simp [encodeFinite, guard_eq_ok_iff, Value.storable, Value.payload, eq_comm (b := mid)]
    | str s =>
      rw [encodeLenBytes_eq_ok_iff hmid']
      simp [Value.storable, Value.payload]
    | bytes b =>
      rw [encodeLenBytes_eq_ok_iff hmid']
      simp [Value.storable, Value.payload]
    | array values =>
      rw [encodeCounted_eq_ok_iff (fun _ => encodeValues_eq_ok_iff ih hmid)
        (Value.length_le_payloads values) hmid']
      simp [Value.storable, Value.payload]
    | object fields =>
      have hlen := Value.length_le_fieldPayloads fields
      rw [encodeCounted_eq_ok_iff (fun _ => encodeFields_eq_ok_iff hlimits ih hmid)
        (by omega) hmid']
      simp [Value.storable, Value.payload]
    | vector values =>
      rw [encodeCounted_eq_ok_iff (fun _ => encodeFiniteF32s_eq_ok_iff)
        (by rw [length_flatMap_f32]; omega) hmid']
      simp [Value.storable, Value.payload]
    | geoPoint lon lat =>
      simp [guard_eq_ok_iff, Value.storable, Value.payload, eq_comm (b := mid)]

theorem encodeValueWithLimits_eq_ok_iff (hlimits : limits.maxDocumentBytes < 2 ^ 64)
    {value : Value} : encodeValueWithLimits limits value = .ok bytes ↔
      value.storable (limits.maxNestingDepth + 1) = true ∧
        bytes = valueMagic ++ [valueFormatV1] ++ value.payload ∧
        bytes.length ≤ limits.maxDocumentBytes := by
  simp only [encodeValueWithLimits, bind_eq_ok_iff, ensureEncodedSize_eq_ok_iff,
    encodeValuePayload_eq_ok_iff hlimits _ value _ _]
  constructor
  · rintro ⟨_, ⟨hstorable, rfl, -⟩, hlen, rfl⟩
    exact ⟨hstorable, rfl, hlen⟩
  · rintro ⟨hstorable, rfl, hlen⟩
    exact ⟨_, ⟨hstorable, rfl, hlen⟩, hlen, rfl⟩

end Encode

end MultiDb
