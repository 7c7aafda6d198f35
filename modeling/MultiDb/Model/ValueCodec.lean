import MultiDb.Model.Value

/-!
# The stored form of values

`encode_value` and `decode_value` of `model/mod.rs`: the binary format `MDBV/1`
with its limits, and the legacy JSON form that is still read.
-/

namespace MultiDb

open Shared

/-- The codecs of a node with the legacy JSON reader of values. -/
structure RelCodecs extends Codecs where
  legacyValue : Bytes → Except String Value

structure ValueCodecLimits where
  maxDocumentBytes : ℕ := 16 * 1024 * 1024
  maxNestingDepth : ℕ := 128

def valueMagic : Bytes := strBytes "MDBV"
def valueFormatV1 : UInt8 := 1

def nonFiniteValueError : StorageError :=
  .backend "non-finite numeric values cannot be encoded"

def valueTooDeepError (limit : ℕ) : StorageError :=
  .backend ("value nesting depth exceeds " ++ toString limit)

def valueTooLargeError (limit : ℕ) : StorageError :=
  .backend ("encoded value exceeds " ++ toString limit ++ " bytes")

def ensureEncodedSize (limits : ValueCodecLimits) (out : Bytes) : Result Bytes :=
  if out.length > limits.maxDocumentBytes then
    .error (valueTooLargeError limits.maxDocumentBytes)
  else
    .ok out

def encodeLen (out : Bytes) (len : ℕ) : Result Bytes :=
  if len < 2 ^ 64 then
    .ok (out ++ beBytes 8 len)
  else
    .error (.backend "out of range integral type conversion attempted")

def encodeLenBytes (out value : Bytes) : Result Bytes := do
  return (← encodeLen out value.length) ++ value

def encodeFinite (out : Bytes) (tag : Bytes) (value : F64) : Result Bytes :=
  if !value.isFinite then
    .error nonFiniteValueError
  else
    .ok (out ++ tag ++ beBytes 8 value.normalize.bits.toNat)

def encodeFiniteF32 (out : Bytes) (value : UInt32) : Result Bytes :=
  if !f32IsFinite value then
    .error nonFiniteValueError
  else
    .ok (out ++ beBytes 4 value.toNat)

/-- `encode_value_payload`.  `levels` counts the nesting levels that are left. -/
def encodeValuePayload (limits : ValueCodecLimits) : ℕ → Bytes → Value → Result Bytes
  | 0, _, _ => .error (valueTooDeepError limits.maxNestingDepth)
  | levels + 1, out, value =>
    (match value with
      | .null => .ok (out ++ [0x00])
      | .bool value => .ok (out ++ [0x01, if value then 1 else 0])
      | .int value => .ok (out ++ [0x02] ++ beBytes 8 value.toUInt64.toNat)
      | .float value => encodeFinite out [0x03] value
      | .str value => encodeLenBytes (out ++ [0x04]) (strBytes value)
      | .bytes value => encodeLenBytes (out ++ [0x05]) value
      | .array values => do
        let out ← encodeLen (out ++ [0x06]) values.length
        values.foldlM (encodeValuePayload limits levels) out
      | .object fields => do
        let out ← encodeLen (out ++ [0x07]) fields.length
        fields.foldlM (fun out field => do
          let out ← encodeLenBytes out (strBytes field.1)
          encodeValuePayload limits levels out field.2) out
      | .vector values => do
        let out ← encodeLen (out ++ [0x08]) values.length
        values.foldlM encodeFiniteF32 out
      | .geoPoint lon lat =>
        if !lon.isFinite || !lat.isFinite then
          .error nonFiniteValueError
        else
          .ok (out ++ [0x09] ++ beBytes 8 lon.normalize.bits.toNat ++
            beBytes 8 lat.normalize.bits.toNat)) >>= ensureEncodedSize limits

def encodeValueWithLimits (limits : ValueCodecLimits) (value : Value) : Result Bytes := do
  let out ← encodeValuePayload limits (limits.maxNestingDepth + 1)
    (valueMagic ++ [valueFormatV1]) value
  ensureEncodedSize limits out

def encodeValue (value : Value) : Result Bytes :=
  encodeValueWithLimits {} value

/-! ## Decoding -/

/-- `read_u8`, on the bytes behind the cursor. -/
def readU8 : Bytes → Result (UInt8 × Bytes)
  | [] => .error (.corruption "truncated value")
  | byte :: rest => .ok (byte, rest)

def readArray (n : ℕ) (rest : Bytes) : Result (Bytes × Bytes) :=
  if rest.length < n then
    .error (.corruption "truncated value")
  else
    .ok (rest.take n, rest.drop n)

def readLen (rest : Bytes) : Result (ℕ × Bytes) := do
  let (bytes, rest) ← readArray 8 rest
  return (beNat bytes, rest)

def readLenBytes (rest : Bytes) : Result (Bytes × Bytes) := do
  let (len, rest) ← readLen rest
  if rest.length < len then
    .error (.corruption "truncated bytes")
  else
    return (rest.take len, rest.drop len)

variable (C : RelCodecs)

def readString (rest : Bytes) : Result (String × Bytes) := do
  let (bytes, rest) ← readLenBytes rest
  match String.fromUTF8? ⟨bytes.toArray⟩ with
  | some value => return (value, rest)
  | none => .error (.corruption (C.utf8Error bytes))

/-- The check of `read_f64`. -/
def finiteF64 (value : F64) : Result F64 :=
  if !value.isFinite then
    .error (.corruption "non-finite numeric value")
  else
    .ok value.normalize

def readF64 (rest : Bytes) : Result (F64 × Bytes) := do
  let (bytes, rest) ← readArray 8 rest
  return (← finiteF64 { bits := UInt64.ofNat (beNat bytes) }, rest)

/-- A loop that reads `count` items. -/
def readMany {α : Type} (read : Bytes → Result (α × Bytes)) : ℕ → Bytes → Result (List α × Bytes)
  | 0, rest => .ok ([], rest)
  | count + 1, rest => do
    let (item, rest) ← read rest
    let (items, rest) ← readMany read count rest
    return (item :: items, rest)

/-- `BTreeMap::insert` on the fields of an object. -/
def insertField (name : String) (value : Value) : List (String × Value) → List (String × Value)
  | [] => [(name, value)]
  | field :: fields =>
    match compare (strBytes name) (strBytes field.1) with
    | .lt => (name, value) :: field :: fields
    | .eq => (name, value) :: fields
    | .gt => field :: insertField name value fields

def decodeValuePayload (limits : ValueCodecLimits) : ℕ → Bytes → Result (Value × Bytes)
  | 0, _ => .error (.corruption ("value nesting depth exceeds " ++ toString limits.maxNestingDepth))
  | levels + 1, rest => do
    let (tag, rest) ← readU8 rest
    if tag = 0x00 then return (.null, rest)
    else if tag = 0x01 then
      let (byte, rest) ← readU8 rest
      if byte = 0 then return (.bool false, rest)
      else if byte = 1 then return (.bool true, rest)
      else .error (.corruption ("invalid bool byte " ++ toString byte.toNat))
    else if tag = 0x02 then
      let (bytes, rest) ← readArray 8 rest
      return (.int (UInt64.ofNat (beNat bytes)).toInt64, rest)
    else if tag = 0x03 then
      let (value, rest) ← readF64 rest
      return (.float value, rest)
    else if tag = 0x04 then
      let (value, rest) ← readString C rest
      return (.str value, rest)
    else if tag = 0x05 then
      let (value, rest) ← readLenBytes rest
      return (.bytes value, rest)
    else if tag = 0x06 then
      let (count, rest) ← readLen rest
      if count > rest.length then
        .error (.corruption "array item count exceeds remaining bytes")
      else
        let (values, rest) ← readMany (decodeValuePayload limits levels) count rest
        return (.array values, rest)
    else if tag = 0x07 then
      let (count, rest) ← readLen rest
      if ¬ count * 9 < 2 ^ 64 then
        .error (.corruption "object item count overflows")
      else if count * 9 > rest.length then
        .error (.corruption "object item count exceeds remaining bytes")
      else
        let (fields, rest) ← readMany (fun rest => do
          let (name, rest) ← readString C rest
          let (value, rest) ← decodeValuePayload limits levels rest
          return ((name, value), rest)) count rest
        return (.object (fields.foldl (fun fields field => insertField field.1 field.2 fields) []),
          rest)
    else if tag = 0x08 then
      let (count, rest) ← readLen rest
      if ¬ count * 4 < 2 ^ 64 then
        .error (.corruption "vector byte length overflows")
      else if count * 4 > rest.length then
        .error (.corruption "truncated vector")
      else
        let (values, rest) ← readMany (fun rest => do
          let (bytes, rest) ← readArray 4 rest
          let value := UInt32.ofNat (beNat bytes)
          if !f32IsFinite value then
            .error (.corruption "non-finite vector value")
          else
            return (value, rest)) count rest
        return (.vector values, rest)
    else if tag = 0x09 then
      let (lon, rest) ← readF64 rest
      let (lat, rest) ← readF64 rest
      return (.geoPoint lon lat, rest)
    else
      .error (.corruption ("bad value tag " ++ toString tag.toNat))

def decodeBinaryValue (limits : ValueCodecLimits) (bytes : Bytes) : Result Value :=
  match bytes.drop valueMagic.length with
  | [] => .error (.corruption "truncated value header")
  | version :: rest =>
    if version ≠ valueFormatV1 then
      .error (.corruption ("unsupported value codec version " ++ toString version.toNat))
    else do
      let (value, rest) ← decodeValuePayload C limits (limits.maxNestingDepth + 1) rest
      if !rest.isEmpty then
        .error (.corruption "trailing bytes after value")
      else
        return value

def canonicalizeLegacyValue (limits : ValueCodecLimits) : ℕ → Value → Result Value
  | 0, _ => .error (.corruption ("value nesting depth exceeds " ++ toString limits.maxNestingDepth))
  | levels + 1, value =>
    match value with
    | .float value =>
      if !value.isFinite then
        .error (.corruption "non-finite numeric value")
      else
        .ok (.float value.normalize)
    | .array values => .array <$> values.mapM (canonicalizeLegacyValue limits levels)
    | .object fields => .object <$> fields.mapM fun field => do
      return (field.1, ← canonicalizeLegacyValue limits levels field.2)
    | .vector values =>
      if values.any fun value => !f32IsFinite value then
        .error (.corruption "non-finite vector value")
      else
        .ok (.vector values)
    | .geoPoint lon lat =>
      if !lon.isFinite || !lat.isFinite then
        .error (.corruption "non-finite geo value")
      else
        .ok (.geoPoint lon.normalize lat.normalize)
    | value => .ok value

def decodeValueWithLimits (limits : ValueCodecLimits) (bytes : Bytes) : Result Value :=
  if bytes.length > limits.maxDocumentBytes then
    .error (valueTooLargeError limits.maxDocumentBytes)
  else if valueMagic.isPrefixOf bytes then
    decodeBinaryValue C limits bytes
  else do
    let value ← (C.legacyValue bytes).mapError .corruption
    canonicalizeLegacyValue limits (limits.maxNestingDepth + 1) value

def decodeValue (bytes : Bytes) : Result Value :=
  decodeValueWithLimits C {} bytes

end MultiDb
