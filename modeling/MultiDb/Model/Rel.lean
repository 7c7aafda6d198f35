import MultiDb.Model.ValueCodec

/-!
# Relational rows

The row layout of `query/mod.rs`: the schema of a table and the stored form of a row.
-/

namespace MultiDb

open Shared

abbrev Row := List Value

inductive ColumnType
  | int
  | float
  | str
  | bool
  | bytes
  | null
  deriving DecidableEq, Repr

structure ColumnDef where
  name : String
  ty : ColumnType
  nullable : Bool
  deriving DecidableEq, Repr

structure TableSchema where
  columns : List ColumnDef
  primaryKey : ℕ
  deriving DecidableEq, Repr

def decodeRow (C : RelCodecs) (bytes : Bytes) : QueryResult Row := do
  match ← (decodeValue C bytes).mapError .ofStorage with
  | .array row => return row
  | _ => .error (.storage (.corruption "relational row is not an array"))

end MultiDb
