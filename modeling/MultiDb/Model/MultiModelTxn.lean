import MultiDb.Model.MemEngine
import MultiDb.Model.Txn

/-!
# Serializable transactions

`MultiModelTxn` of `db/mod.rs` at the level `Serializable`, on a node without triggers.
-/

namespace MultiDb

open Shared

structure TxnReadRange where
  table : String
  start : Bytes
  stop : Bytes
  deriving DecidableEq, Repr

structure TxnSavepoint where
  writeSet : WriteSet
  readKeys : List (String × Bytes)
  readRanges : List TxnReadRange

/-- A call of `read_raw` or `range_raw`. -/
inductive TxnRead
  | readRaw (table : String) (key : Bytes)
  | rangeRaw (table : String) (start stop : Bytes)
  deriving DecidableEq, Repr

inductive TxnAnswer
  | value (value : Option Bytes)
  | rows (rows : List (Bytes × Bytes))
  deriving DecidableEq, Repr

/-- A read, what was staged when it was made, and what it returned. -/
structure TxnRecord where
  call : TxnRead
  staged : WriteSet
  answer : TxnAnswer

/-- `reads` lists the reads of the transaction, newest first; no code reads it. -/
structure MultiModelTxn where
  snapshotId : TxnId
  read : Store
  writeSet : WriteSet := .empty
  readKeys : List (String × Bytes) := []
  readRanges : List TxnReadRange := []
  savepoints : Std.ExtTreeMap String TxnSavepoint := ∅
  reads : List TxnRecord := []

/-- The check of one row that a transaction has read. -/
def validateTxnRead (read : Store) (snapshotId : TxnId) (writeSet : WriteSet) (table : String)
    (key : Bytes) : Result Unit := do
  if (writeSet.get table key).isSome then
    return
  if (← lastKeyVersion read table key) > snapshotId then
    .error .conflict

/-- `validate_serializable_reads`; the write keys are those of the write set. -/
def validateSerializableReads (read : Store) (snapshotId : TxnId)
    (readKeys : List (String × Bytes)) (readRanges : List TxnReadRange) (writeSet : WriteSet) :
    Result Unit := do
  readKeys.forM fun row => validateTxnRead read snapshotId writeSet row.1 row.2
  readRanges.forM fun r => (range read r.table r.start r.stop).forM fun row =>
    validateTxnRead read snapshotId writeSet r.table row.1

namespace MultiModelTxn

/-- `begin_transaction_with_options`. -/
def begin (s : Store) : Result MultiModelTxn := do
  return { snapshotId := ← currentTxnIdFrom s, read := s }

variable (txn : MultiModelTxn)

def readRaw (table : String) (key : Bytes) : Option Bytes × MultiModelTxn :=
  match txn.writeSet.get table key with
  | some value => (value, txn)
  | none => (txn.read.get table key, { txn with readKeys := (table, key) :: txn.readKeys })

/-- The rows that `range_raw` collects. -/
def rangeRows (table : String) (start stop : Bytes) : MemTable :=
  txn.writeSet.entries.foldl (fun rows entry =>
    if entry.1.1 = table ∧ keyInRange start stop entry.1.2 then rows.apply entry.1.2 entry.2
    else rows) (.ofList (range txn.read table start stop))

def rangeRaw (table : String) (start stop : Bytes) : List (Bytes × Bytes) × MultiModelTxn :=
  if !stop.isEmpty && (compare stop start).isLE then ([], txn)
  else
    let rows := (txn.rangeRows table start stop).toList
    (rows, { txn with
      readRanges := { table, start, stop } :: txn.readRanges
      readKeys := rows.map (fun row => (table, row.1)) ++ txn.readKeys })

/-- One read, and the transaction after it. -/
def perform : TxnRead → TxnAnswer × MultiModelTxn
  | .readRaw table key => let (value, txn) := txn.readRaw table key; (.value value, txn)
  | .rangeRaw table start stop =>
    let (rows, txn) := txn.rangeRaw table start stop; (.rows rows, txn)

/-- `queue_ops`, which every staged write goes through. -/
def queueOps (ops : List Op) : MultiModelTxn :=
  { txn with
    writeSet := (opsToWriteSet ops).entries.foldl
      (fun writes entry => writes.put entry.1.1 entry.1.2 entry.2) txn.writeSet }

def savepoint (name : String) : MultiModelTxn :=
  { txn with
    savepoints := txn.savepoints.insert name
      { writeSet := txn.writeSet, readKeys := txn.readKeys, readRanges := txn.readRanges } }

/-- The error is the text of `TransactionAborted`. -/
def rollbackToSavepoint (name : String) : Except String MultiModelTxn :=
  match txn.savepoints[name]? with
  | none => .error ("missing savepoint " ++ name)
  | some savepoint => .ok { txn with
      writeSet := savepoint.writeSet
      readKeys := savepoint.readKeys
      readRanges := savepoint.readRanges }

def releaseSavepoint (name : String) : Except String MultiModelTxn :=
  if txn.savepoints.contains name then
    .ok { txn with savepoints := txn.savepoints.erase name }
  else .error ("missing savepoint " ++ name)

/-- The id of the new commit and its store; without writes there is no commit. -/
def commit (C : Codecs) (env : Env) (s : Store) : Result (TxnId × Store) :=
  let validate (s : Store) :=
    validateSerializableReads s txn.snapshotId txn.readKeys txn.readRanges txn.writeSet
  if txn.writeSet.entries.isEmpty then do
    validate s
    return (txn.snapshotId, s)
  else commitWriteSetWithPreflight C env s txn.snapshotId txn.writeSet validate

end MultiModelTxn

inductive TxnOp
  | read (call : TxnRead)
  | queueOps (ops : List Op)
  | savepoint (name : String)
  | rollbackToSavepoint (name : String)
  | releaseSavepoint (name : String)
  deriving DecidableEq, Repr

/-- One call on an open transaction; a call that fails leaves it as it was. -/
def MultiModelTxn.exec (txn : MultiModelTxn) : TxnOp → MultiModelTxn
  | .read call =>
    let (answer, next) := txn.perform call
    { next with reads := { call, staged := txn.writeSet, answer } :: next.reads }
  | .queueOps ops => txn.queueOps ops
  | .savepoint name => txn.savepoint name
  | .rollbackToSavepoint name => (txn.rollbackToSavepoint name).toOption.getD txn
  | .releaseSavepoint name => (txn.releaseSavepoint name).toOption.getD txn

end MultiDb
