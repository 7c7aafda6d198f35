import MultiDb.Model.Keyspace

/-!
# Stored records and their codecs

The records that are kept in the store.  Of the serialisers `postcard` and `serde_json` only the
round trip is known.
-/

namespace MultiDb

open Shared

/-- `HlcTimestamp` of `phase30.rs`, ordered by physical time and then logically. -/
structure HlcTimestamp where
  physicalMs : UInt64 := 0
  logical : UInt32 := 0
  deriving DecidableEq, Repr

structure CommitLogWrite where
  table : String
  key : Bytes
  value : Option Bytes
  deriving DecidableEq, Repr

/-- `CommitLogRecord`.  `committedAt` counts nanoseconds from the Unix epoch. -/
structure CommitLogRecord where
  txnId : TxnId
  committedAt : ℤ
  hlc : Option HlcTimestamp
  writes : List CommitLogWrite
  deriving DecidableEq, Repr

/-- `MvccRecord`; a record without a value is a tombstone. -/
structure MvccRecord where
  value : Option Bytes
  deriving DecidableEq, Repr

/-- `Decision` of `repl/dist_txn.rs`. -/
inductive Decision
  | commit
  | abort
  deriving DecidableEq, Repr

structure PreparedTxnRecord where
  version : UInt16
  txnId : TxnId
  ops : List Op
  preparedAtMs : UInt64
  deadlineMs : UInt64
  retryCount : UInt32
  deriving DecidableEq, Repr

structure CoordinatorDecisionRecord where
  version : UInt16
  txnId : TxnId
  decision : Decision
  decidedAtMs : UInt64
  deadlineMs : UInt64
  retryCount : UInt32
  deriving DecidableEq, Repr

structure FinishedTxnRecord where
  version : UInt16
  txnId : TxnId
  decision : Decision
  finishedAtMs : UInt64
  deriving DecidableEq, Repr

/-- `ShardId` of `repl/shard.rs`. -/
abbrev ShardId := UInt32

/-- `PartitionId` of `repl/shard.rs`. -/
abbrev PartitionId := UInt32

inductive MigrationState
  | copying
  | catchingUp
  | switching
  | done
  | aborted
  deriving DecidableEq, Repr

structure ShardMigration where
  partition : PartitionId
  source : ShardId
  target : ShardId
  state : MigrationState
  deriving DecidableEq, Repr

/-! ## Codecs -/

/-- `postcard` at one type. -/
structure Postcard (α : Type) where
  toAllocvec : α → Except String Bytes
  takeFromBytes : Bytes → Except String (α × Bytes)
  take_toAllocvec : ∀ {record bytes}, toAllocvec record = .ok bytes →
    takeFromBytes bytes = .ok (record, [])

/-- `serde_json` at one type. -/
structure Json (α : Type) where
  toVec : α → Except String Bytes
  fromSlice : Bytes → Except String α
  from_toVec : ∀ {record bytes}, toVec record = .ok bytes → fromSlice bytes = .ok record

section Tabulated

variable {α : Type} [DecidableEq α]

private theorem find_of_table {rows : List (α × Bytes)} (hrows : (rows.map Prod.snd).Nodup)
    {record : α} {bytes : Bytes} (h : (rows.find? (·.1 = record)).map Prod.snd = some bytes) :
    (rows.find? (·.2 = bytes)).map Prod.fst = some record := by
  obtain ⟨row, hrow, rfl⟩ := Option.map_eq_some_iff.mp h
  have hmem := List.mem_of_find?_eq_some hrow
  have hfst : row.1 = record := by simpa using List.find?_some hrow
  cases hfind : rows.find? (·.2 = row.2) with
  | none => simpa using List.find?_eq_none.mp hfind row hmem
  | some row' =>
    have hsnd : row'.2 = row.2 := by simpa using List.find?_some hfind
    obtain rfl : row' = row :=
      List.inj_on_of_nodup_map hrows (List.mem_of_find?_eq_some hfind) hmem hsnd
    simpa using hfst

/-- `postcard` on the finitely many records of a table; other records are refused. -/
def Postcard.ofTable (rows : List (α × Bytes)) (hrows : (rows.map Prod.snd).Nodup) :
    Postcard α where
  toAllocvec record := ((rows.find? (·.1 = record)).map Prod.snd).elim (.error "") .ok
  takeFromBytes bytes :=
    ((rows.find? (·.2 = bytes)).map Prod.fst).elim (.error "") fun record => .ok (record, [])
  take_toAllocvec {record bytes} h := by
    cases hfind : (rows.find? (·.1 = record)).map Prod.snd with
    | none => simp [hfind] at h
    | some bytes' =>
      obtain rfl : bytes' = bytes := by simpa [hfind] using h
      rw [find_of_table hrows hfind]
      rfl

/-- `serde_json` on the finitely many records of a table; other records are refused. -/
def Json.ofTable (rows : List (α × Bytes)) (hrows : (rows.map Prod.snd).Nodup) : Json α where
  toVec record := ((rows.find? (·.1 = record)).map Prod.snd).elim (.error "") .ok
  fromSlice bytes := ((rows.find? (·.2 = bytes)).map Prod.fst).elim (.error "") .ok
  from_toVec {record bytes} h := by
    cases hfind : (rows.find? (·.1 = record)).map Prod.snd with
    | none => simp [hfind] at h
    | some bytes' =>
      obtain rfl : bytes' = bytes := by simpa [hfind] using h
      rw [find_of_table hrows hfind]
      rfl

end Tabulated

/-- The serialisers of stored records, the text of a UTF-8 error and the `blake3` hash. -/
structure Codecs where
  mvcc : Postcard MvccRecord
  commitLog : Postcard CommitLogRecord
  legacyCommitLog : Bytes → Except String CommitLogRecord
  hlc : Postcard HlcTimestamp
  prepared : Json PreparedTxnRecord
  decision : Json CoordinatorDecisionRecord
  finished : Json FinishedTxnRecord
  migration : Json ShardMigration
  utf8Error : Bytes → String
  blake3 : Bytes → Bytes

/-- The encoders' `map_err` into a backend error. -/
def encodeWith {α : Type} (encode : α → Except String Bytes) (record : α) : Result Bytes :=
  (encode record).mapError .backend

def decodeBinaryExact {α : Type} (codec : Postcard α) (bytes : Bytes) (context : String) :
    Result α := do
  let (value, trailing) ← (codec.takeFromBytes bytes).mapError fun error =>
    .corruption (context ++ ": " ++ error)
  if !trailing.isEmpty then
    .error (.corruption (context ++ ": trailing bytes"))
  else
    return value

variable (C : Codecs)

def encodeMvccRecord (record : MvccRecord) : Result Bytes :=
  encodeWith C.mvcc.toAllocvec record

def decodeMvccRecord (bytes : Bytes) : Result MvccRecord :=
  decodeBinaryExact C.mvcc bytes "mvcc record"

def encodeHlc (timestamp : HlcTimestamp) : Result Bytes :=
  encodeWith C.hlc.toAllocvec timestamp

def decodeHlc (bytes : Bytes) : Result HlcTimestamp :=
  decodeBinaryExact C.hlc bytes "hlc timestamp"

def commitLogBinaryMagic : Bytes := strBytes "MDBCLOG2"

def encodeCommitLogRecord (record : CommitLogRecord) : Result Bytes := do
  return commitLogBinaryMagic ++ (← encodeWith C.commitLog.toAllocvec record)

/-- `decode_commit_log_record`: binary v2 behind its magic, else legacy JSON. -/
def decodeCommitLogRecord (bytes : Bytes) : Result CommitLogRecord :=
  if commitLogBinaryMagic.isPrefixOf bytes then
    decodeBinaryExact C.commitLog (bytes.drop commitLogBinaryMagic.length)
      "binary commit log record"
  else
    (C.legacyCommitLog bytes).mapError fun error =>
      .corruption ("commit log record is not binary v2 or legacy JSON: " ++ error)

def distTxnRecordVersion : UInt16 := 1

def validateRecordVersion (version : UInt16) : Result Unit :=
  if version ≠ distTxnRecordVersion then
    .error (.corruption ("unsupported dist txn record version " ++ toString version.toNat))
  else
    .ok ()

def encodePrepared (record : PreparedTxnRecord) : Result Bytes :=
  encodeWith C.prepared.toVec record

def decodePrepared (bytes : Bytes) : Result PreparedTxnRecord := do
  let record ← (C.prepared.fromSlice bytes).mapError fun error =>
    .corruption ("dist txn prepared record: " ++ error)
  validateRecordVersion record.version
  (validatePublicOps record.ops).mapError fun error =>
    .corruption ("invalid prepared transaction operations: " ++ error.display)
  return record

def encodeDecision (record : CoordinatorDecisionRecord) : Result Bytes :=
  encodeWith C.decision.toVec record

def decodeDecision (bytes : Bytes) : Result CoordinatorDecisionRecord := do
  let record ← (C.decision.fromSlice bytes).mapError fun error =>
    .corruption ("dist txn decision record: " ++ error)
  validateRecordVersion record.version
  return record

def encodeFinished (record : FinishedTxnRecord) : Result Bytes :=
  encodeWith C.finished.toVec record

def decodeFinished (bytes : Bytes) : Result FinishedTxnRecord := do
  let record ← (C.finished.fromSlice bytes).mapError fun error =>
    .corruption ("dist txn finished record: " ++ error)
  validateRecordVersion record.version
  return record

end MultiDb
