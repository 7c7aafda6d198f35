import MultiDb.Model.SingleNode
import MultiDb.Shared.Terminated

/-!
# Values and their relational keys

`Value` of `model/mod.rs` and the byte keys of relational rows and index entries.
-/

namespace MultiDb

open Shared

inductive ModelError
  | repl (error : ReplError)
  | storage (error : StorageError)
  | unsupportedIndexValue
  | invalidFloat
  | invalidRange
  deriving DecidableEq, Repr

/-- The part of `QueryError` that relational tables return. -/
inductive QueryError
  | repl (error : ReplError)
  | storage (error : StorageError)
  | model (error : ModelError)
  | resourceLimit (message : String)
  | cancelled (message : String)
  | timeout (message : String)
  | unsupported (message : String)
  | invalidSchema (message : String)
  | invalidRow (message : String)
  | missingColumn (name : String)
  | duplicatePrimaryKey
  | invalidValue (message : String)
  | serde (message : String)
  deriving DecidableEq, Repr

abbrev QueryResult (α : Type) := Except QueryError α

/-- `From<StorageError> for QueryError`. -/
def QueryError.ofStorage : StorageError → QueryError
  | .resourceLimit reason => .resourceLimit reason
  | .timeout reason => .timeout reason
  | .cancelled reason => .cancelled reason
  | other => .storage other

/-- `From<ReplError> for QueryError`. -/
def QueryError.ofRepl : ReplError → QueryError
  | .storage (.resourceLimit reason) => .resourceLimit reason
  | .storage (.timeout reason) => .timeout reason
  | .storage (.cancelled reason) => .cancelled reason
  | other => .repl other

/-- An `f64` by its bits. -/
structure F64 where
  bits : UInt64
  deriving DecidableEq, Repr

namespace F64

def isSpecial (f : F64) : Bool :=
  f.bits.toNat / 2 ^ 52 % 2 ^ 11 = 2 ^ 11 - 1

def isNan (f : F64) : Bool :=
  f.isSpecial && f.bits.toNat % 2 ^ 52 != 0

def isFinite (f : F64) : Bool :=
  !f.isSpecial

def isZero (f : F64) : Bool :=
  f.bits.toNat % 2 ^ 63 = 0

/-- `normalize_f64`. -/
def normalize (f : F64) : F64 :=
  if f.isZero then { bits := 0 } else f

/-- `==` on floats: a NaN equals nothing, and the zeros are equal. -/
def eq (f g : F64) : Bool :=
  !f.isNan && f.normalize == g.normalize

end F64

/-- `==` of two `f32` by their bits. -/
def f32Eq (a b : UInt32) : Bool :=
  let isNan := a.toNat / 2 ^ 23 % 2 ^ 8 = 2 ^ 8 - 1 && a.toNat % 2 ^ 23 != 0
  (a == b && !isNan) || (a.toNat % 2 ^ 31 = 0 && b.toNat % 2 ^ 31 = 0)

/-- `f32::is_finite`. -/
def f32IsFinite (a : UInt32) : Bool :=
  a.toNat / 2 ^ 23 % 2 ^ 8 ≠ 2 ^ 8 - 1

/-- `Value`.  Objects list their fields by name; the entries of a vector are bits of `f32`. -/
inductive Value
  | null
  | bool (value : Bool)
  | int (value : Int64)
  | float (value : F64)
  | str (value : String)
  | bytes (value : Bytes)
  | array (values : List Value)
  | object (fields : List (String × Value))
  | vector (values : List UInt32)
  | geoPoint (lon lat : F64)

mutual

/-- `==` of values. -/
def Value.eq : Value → Value → Bool
  | .null, .null => true
  | .bool a, .bool b => a == b
  | .int a, .int b => a == b
  | .float a, .float b => a.eq b
  | .str a, .str b => a == b
  | .bytes a, .bytes b => a == b
  | .array as, .array bs => Value.eqs as bs
  | .object as, .object bs => Value.eqFields as bs
  | .vector as, .vector bs => as.length == bs.length && (as.zip bs).all fun ab => f32Eq ab.1 ab.2
  | .geoPoint lon lat, .geoPoint lon' lat' => lon.eq lon' && lat.eq lat'
  | _, _ => false

def Value.eqs : List Value → List Value → Bool
  | [], [] => true
  | a :: as, b :: bs => Value.eq a b && Value.eqs as bs
  | _, _ => false

def Value.eqFields : List (String × Value) → List (String × Value) → Bool
  | [], [] => true
  | (name, a) :: as, (name', b) :: bs => name == name' && Value.eq a b && Value.eqFields as bs
  | _, _ => false

end

/-- The names of the fields ascend, as in a `BTreeMap`. -/
def namesAscend (fields : List (String × Value)) : Bool :=
  decide (fields.Pairwise fun a b => compare (strBytes a.1) (strBytes b.1) = .lt)

mutual

/-- Every object of the value lists its fields by ascending names. -/
def Value.isOrdered : Value → Bool
  | .array values => Value.areOrdered values
  | .object fields => namesAscend fields && Value.fieldsOrdered fields
  | _ => true

def Value.areOrdered : List Value → Bool
  | [] => true
  | value :: values => value.isOrdered && Value.areOrdered values

def Value.fieldsOrdered : List (String × Value) → Bool
  | [] => true
  | (_, value) :: fields => value.isOrdered && Value.fieldsOrdered fields

end

/-- A value that the source can hold: the fields of its objects are `BTreeMap`s. -/
abbrev OrderedValue := { value : Value // value.isOrdered = true }

/-! ## Keys -/

/-- `encode_i64_ordered`: the value above the least one, big-endian. -/
def encodeI64Ordered (value : Int64) : Bytes :=
  beBytes 8 (value.toInt + 2 ^ 63).toNat

/-- `encode_f64_ordered`: negative floats flipped, others with the sign bit set. -/
def encodeF64Ordered (value : F64) : Bytes :=
  let bits := value.normalize.bits.toNat
  beBytes 8 (if 2 ^ 63 ≤ bits then 2 ^ 64 - 1 - bits else bits + 2 ^ 63)

def encodeIndexValue : Value → Except ModelError Bytes
  | .null => .ok [0x00]
  | .bool value => .ok [0x01, if value then 1 else 0]
  | .int value => .ok (0x02 :: encodeI64Ordered value)
  | .float value =>
    if !value.isFinite then .error .invalidFloat else .ok (0x03 :: encodeF64Ordered value)
  | .str value => .ok (0x04 :: terminated (strBytes value))
  | _ => .error .unsupportedIndexValue

def encodeRelKey : Value → QueryResult Bytes
  | .bytes value => .ok (0x05 :: terminated value)
  | .array _ => .error (.invalidValue "complex values cannot be used as relational keys")
  | .object _ => .error (.invalidValue "complex values cannot be used as relational keys")
  | .vector _ => .error (.invalidValue "complex values cannot be used as relational keys")
  | .geoPoint _ _ => .error (.invalidValue "complex values cannot be used as relational keys")
  | value => (encodeIndexValue value).mapError .model

end MultiDb
