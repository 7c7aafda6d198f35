import MultiDb.Model.Storage

/-!
# Keyspaces and row addresses

The reserved tables of `txn/mod.rs`, the byte keys of the transaction layer, and the checks that
keep user operations out of reserved tables.
-/

namespace MultiDb

open Shared

/-- `TxnId`, and `DistTxnId` of the distributed layer. -/
abbrev TxnId := UInt64

def reservedKeyspacePrefix : String := "__"
def txnMetaTable : String := "__txn_meta"
def txnVersionsTable : String := "__txn_versions"
def txnMvccTable : String := "__txn_mvcc"
def commitLogTable : String := "__commit_log"
def keyspaceRegistryTable : String := "__keyspaces"
def tableDataVersionTable : String := "__txn_table_data_versions"
def hlcTable : String := "__hlc_clock"
def hlcLocalKey : Bytes := strBytes "local"
def currentTxnIdKey : Bytes := strBytes "current_txn_id"
def keyspacePresentValue : Bytes := strBytes "1"

def tableIsReserved (table : String) : Bool :=
  (strBytes reservedKeyspacePrefix).isPrefixOf (strBytes table)

def validatePublicTable (table : String) : Result Unit :=
  if tableIsReserved table then
    .error (.backend ("reserved keyspace " ++ table ++
      " cannot be written through public APIs"))
  else
    .ok ()

/-- `Op` of `repl/mod.rs`. -/
inductive Op
  | put (table : String) (key value : Bytes)
  | delete (table : String) (key : Bytes)
  deriving DecidableEq, Repr

namespace Op

def table : Op → String
  | put table _ _ => table
  | delete table _ => table

def key : Op → Bytes
  | put _ key _ => key
  | delete _ key => key

def value : Op → Option Bytes
  | put _ _ value => some value
  | delete _ _ => none

end Op

/-- `WriteCondition` of `repl/mod.rs`. -/
inductive WriteCondition
  | keyMissing (table : String) (key : Bytes)
  | valueEquals (table : String) (key : Bytes) (expected : Option Bytes)
  deriving DecidableEq, Repr

def WriteCondition.table : WriteCondition → String
  | keyMissing table _ => table
  | valueEquals table _ _ => table

def opsToWriteSet (ops : List Op) : WriteSet :=
  ops.foldl (fun writes op => writes.put op.table op.key op.value) .empty

def validatePublicOps (ops : List Op) : Result Unit :=
  ops.forM fun op => validatePublicTable op.table

def validatePublicConditions (conditions : List WriteCondition) : Result Unit :=
  conditions.forM fun condition => validatePublicTable condition.table

def validatePublicWriteSet (writes : WriteSet) : Result Unit :=
  writes.entries.forM fun write => validatePublicTable write.1.1

def relRowsTable : String := "rel_rows"
def relIndexTable : String := "rel_indexes"
def relColumnarSegmentsTable : String := "rel_columnar_segments"

/-- The largest `usize`. -/
def usizeMax : ℕ := 2 ^ 64 - 1

/-- `table_prefix`: the table name behind its length. -/
def tablePrefixBytes (table : String) : Bytes :=
  be64 (UInt64.ofNat (min (strBytes table).length usizeMax)) ++ strBytes table

/-- `encode_txn_id`, `commit_log_key` and `txn_key`. -/
def encodeTxnId (value : TxnId) : Bytes :=
  be64 value

def decodeTxnId (bytes : Bytes) : Result TxnId :=
  match ofBe64? bytes with
  | some id => .ok id
  | none => .error (.corruption "transaction id must be exactly 8 bytes")

/-- `u64::checked_add(1)`. -/
def checkedSucc (id : TxnId) : Option TxnId :=
  if id.toNat + 1 < 2 ^ 64 then some (UInt64.ofNat (id.toNat + 1)) else none

/-- `version_key`: the table name behind its length, then the row key. -/
def versionKey (table : String) (key : Bytes) : Result Bytes :=
  if (strBytes table).length < 2 ^ 64 then
    .ok (be64 (UInt64.ofNat (strBytes table).length) ++ strBytes table ++ key)
  else
    .error (.backend "out of range integral type conversion attempted")

/-- `mvcc_key`: a version key followed by the id of the version. -/
def mvccKey (table : String) (key : Bytes) (txnId : TxnId) : Result Bytes := do
  return (← versionKey table key) ++ be64 txnId

end MultiDb
