import Mathlib.Data.List.Sort
import MultiDb.Model.Rel
import MultiDb.Model.Temporal
import MultiDb.Model.ValueMemory

/-!
# System-versioned history

`rows_as_of_lsn` and `history_rows_for_table` of `temporal.rs`, and the guarded listing of
`temporal/guarded.rs`.
-/

namespace MultiDb

open Shared

structure TemporalRetention where
  minLsn : TxnId := 0
  keepHistory : Bool := true

/-- `TemporalError`, as a listing of rows returns it. -/
inductive HistoryError
  | temporal (error : TemporalError)
  | missingPoint (lsn : TxnId)
  | unsupported (message : String)
  | query (error : QueryError)
  deriving DecidableEq, Repr

abbrev HistoryResult (α : Type) := Except HistoryError α

def HistoryError.ofStorage (error : StorageError) : HistoryError :=
  .temporal (.storage error)

def liftHistory {α : Type} (result : Result α) : HistoryResult α :=
  result.mapError .ofStorage

def validateRetention (retention : TemporalRetention) (requested : TxnId) : HistoryResult Unit :=
  if requested < retention.minLsn then
    .error (.temporal (.retentionExpired requested retention.minLsn))
  else if !retention.keepHistory then
    .error (.unsupported "history retention is disabled for this temporal table")
  else
    .ok ()

/-- `ensure_history_retained`, with the horizon that it returns. -/
def retainedHorizon (s : Store) (lsn : TxnId) : HistoryResult TxnId := do
  let horizon := (← liftHistory (readHistoryMeta s historyHorizonKey)).getD 0
  if lsn < horizon then
    .error (.temporal (.retentionExpired lsn horizon))
  else
    return horizon

def validateTemporalRow (schema : TableSchema) (row : Row) : HistoryResult Unit :=
  if row.length ≠ schema.columns.length then
    .error (.query (.invalidRow ("temporal row has " ++ toString row.length ++
      " columns, expected " ++ toString schema.columns.length)))
  else
    .ok ()

def systemTimeToMillis (nanos : ℤ) : HistoryResult Int64 :=
  let millis := nanos.tdiv 1000000
  if -2 ^ 63 ≤ millis ∧ millis < 2 ^ 63 then
    .ok (Int64.ofInt millis)
  else
    .error (.ofStorage (.corruption "temporal timestamp exceeds the SQL integer range"))

section Plain

variable (C : RelCodecs)

def decodeTemporalRow (schema : TableSchema) (bytes : Bytes) : HistoryResult Row := do
  let row ← (decodeRow C bytes).mapError .query
  validateTemporalRow schema row
  return row

/-- `rows_as_of_lsn`; `debug` is the text of `{:?}` that orders the rows. -/
def temporalRowsAsOf (debug : Row → String) (s : Store) (table : String) (schema : TableSchema)
    (lsn : TxnId) : HistoryResult (List Row) := do
  let stored ← (rowsAsOfLsn C.toCodecs s table lsn).mapError .temporal
  let rows ← stored.mapM (decodeTemporalRow C schema)
  return rows.insertionSort fun left right => debug left ≤ debug right

/-- `rows_as_of_lsn` when its first check, its scan and its second check read different stores. -/
def temporalRowsAsOfAcross (debug : Row → String) (checked scanned rechecked : Store)
    (table : String) (schema : TableSchema) (lsn : TxnId) : HistoryResult (List Row) := do
  let stored ←
    (rowsAsOfLsnAcross C.toCodecs checked scanned rechecked table lsn).mapError .temporal
  let rows ← stored.mapM (decodeTemporalRow C schema)
  return rows.insertionSort fun left right => debug left ≤ debug right

/-- One version row in the loop of `history_rows_for_table`. -/
def visitHistoryVersion (pfx : Bytes) (horizon minLsn : TxnId)
    (byKey : Std.ExtTreeMap Bytes (Std.ExtTreeMap TxnId (Option Bytes)))
    (row : Bytes × Bytes) :
    HistoryResult (Std.ExtTreeMap Bytes (Std.ExtTreeMap TxnId (Option Bytes))) :=
  if row.1.length < pfx.length + 8 ∨ ¬ pfx.isPrefixOf row.1 then
    .ok byKey
  else do
    let version ← liftHistory (decodeTxnId (row.1.drop (row.1.length - 8)))
    if version < horizon then
      .error (.temporal (.retentionExpired version horizon))
    else if version < minLsn then
      return byKey
    else
      let record ← liftHistory (decodeMvccRecord C.toCodecs row.2)
      let logicalKey := (row.1.drop pfx.length).take (row.1.length - 8 - pfx.length)
      return byKey.insert logicalKey ((byKey[logicalKey]?.getD ∅).insert version record.value)

/-- The commit time of an LSN, from its record in the log. -/
def commitMillis (s : Store) (lsn : TxnId) : HistoryResult Int64 :=
  match s.get commitLogTable (encodeTxnId lsn) with
  | none => .error (.missingPoint lsn)
  | some bytes => do
    let record ← liftHistory (decodeCommitLogRecord C.toCodecs bytes)
    if record.txnId ≠ lsn then
      .error (.ofStorage (.corruption "temporal commit record does not match its LSN"))
    else
      systemTimeToMillis record.committedAt

/-- The commit times that a listing has read, by LSN. -/
abbrev Timestamps := Std.ExtTreeMap TxnId Int64

/-- The frame of `history_boundary`: the commit time is from the cache or else from `read`. -/
def boundaryWith (read : HistoryResult Int64) (lsn : TxnId) (timestamps : Timestamps) :
    HistoryResult ((Value × Value) × Timestamps) :=
  if ¬ lsn.toNat < 2 ^ 63 then
    .error (.ofStorage (.corruption "temporal LSN exceeds the SQL integer range"))
  else
    match timestamps[lsn]? with
    | some millis => .ok ((.int lsn.toInt64, .int millis), timestamps)
    | none => do
      let millis ← read
      return ((.int lsn.toInt64, .int millis), timestamps.insert lsn millis)

def historyBoundary (s : Store) (lsn : TxnId) (timestamps : Timestamps) :
    HistoryResult ((Value × Value) × Timestamps) :=
  boundaryWith (commitMillis C s lsn) lsn timestamps

/-- The boundary at the version that follows, if there is one. -/
def nextBoundary (boundary : TxnId → Timestamps → HistoryResult ((Value × Value) × Timestamps))
    (next : Option TxnId) (timestamps : Timestamps) :
    HistoryResult ((Value × Value) × Timestamps) :=
  match next with
  | some next => boundary next timestamps
  | none => .ok ((.null, .null), timestamps)

/-- The rows of a listing so far, with the commit times that it has read. -/
structure Listing where
  timestamps : Timestamps := ∅
  rows : List Row := []

def listKeyVersions (s : Store) (schema : TableSchema) :
    List (TxnId × Option Bytes) → Listing → HistoryResult Listing
  | [], listing => .ok listing
  -- a tombstone closes the version before it and is no row
  | (_, none) :: versions, listing => listKeyVersions s schema versions listing
  | (version, some bytes) :: versions, listing => do
    let row ← decodeTemporalRow C schema bytes
    let (start, timestamps) ← historyBoundary C s version listing.timestamps
    let (stop, timestamps) ←
      nextBoundary (historyBoundary C s) (versions.head?.map Prod.fst) timestamps
    listKeyVersions s schema versions
      { timestamps, rows := listing.rows ++ [row ++ [start.1, stop.1, start.2, stop.2]] }

def historyRowsForTable (s : Store) (table : String) (schema : TableSchema)
    (retention : TemporalRetention) : HistoryResult (List Row) := do
  validateRetention retention retention.minLsn
  let horizon ← retainedHorizon s retention.minLsn
  let pfx ← liftHistory (versionKey relRowsTable (tablePrefixBytes table))
  let byKey ← (range s txnMvccTable pfx (rangeEnd pfx)).foldlM
    (visitHistoryVersion C pfx horizon retention.minLsn) ∅
  let listing ← byKey.toList.foldlM
    (fun listing entry => listKeyVersions C s schema entry.2.toList listing) {}
  return listing.rows

end Plain

/-! ## Under a budget -/

/-- `Version`. -/
structure RowVersion where
  key : Bytes
  value : Option Bytes
  lsn : TxnId
  ordinal : ℕ

/-- `Versions`, with the capacity of its buffer. -/
structure RowVersions where
  entries : List RowVersion := []
  capacity : ℕ := 0

/-- `size_of::<Version>()`. -/
def rowVersionBytes : ℕ := 80

def RowVersions.push (budget : ReadBudget) (versions : RowVersions) (entry : RowVersion) :
    Result RowVersions :=
  if versions.entries.length = versions.capacity then do
    let capacity := max (versions.capacity * 2) 4
    budget.reserve (capacity * rowVersionBytes + 256)
    return { entries := versions.entries ++ [entry], capacity }
  else
    .ok { versions with entries := versions.entries ++ [entry] }

def RowVersion.le (a b : RowVersion) : Bool :=
  ((compare a.key b.key).then ((compare a.lsn b.lsn).then (compare a.ordinal b.ordinal))).isLE

/-- `horizon` of `temporal/guarded.rs`. -/
def guardedHorizon (budget : ReadBudget) (s : Store) (requested : TxnId) :
    HistoryResult TxnId := do
  let horizon := (← liftHistory (metadataLsn budget s historyHorizonKey)).getD 0
  if requested < horizon then
    .error (.temporal (.retentionExpired requested horizon))
  else
    return horizon

section Guarded

variable {C : RelCodecs} (legacy : LegacyWalk C) (budget : TemporalBudget)

/-- `mvcc`. -/
def borrowedMvcc (C : Codecs) (bytes : Bytes) : Result (Option Bytes) := do
  let (record, trailing) ← (C.mvcc.takeFromBytes bytes).mapError fun error =>
    .corruption ("mvcc record: " ++ error)
  if !trailing.isEmpty then
    .error (.corruption "mvcc record: trailing bytes")
  else
    return record.value

/-- The visitor of `versions`. -/
def visitRowVersion (C : Codecs) (budget : ReadBudget) (pfx : Bytes) (through : Option TxnId)
    (key bytes : Bytes) : Visit RowVersions Bool := do
  budget.check
  if key.length < pfx.length + 8 ∨ ¬ pfx.isPrefixOf key then
    return true
  else
    let lsn ← decodeTxnId (key.drop (key.length - 8))
    if through.any (lsn > ·) then
      return true
    else
      let value ← borrowedMvcc C bytes
      let logicalKey := (key.drop pfx.length).take (key.length - 8 - pfx.length)
      budget.reserve (logicalKey.length + value.elim 0 List.length + 256)
      let versions ← get
      set (← versions.push budget
        { key := logicalKey, value, lsn, ordinal := versions.entries.length })
      return true

/-- `versions`. -/
def rowVersions (C : Codecs) (budget : ReadBudget) (s : Store) (table : String)
    (through : Option TxnId) : Result (List RowVersion) := do
  budget.reserve ((strBytes table).length * 8 + 512)
  let pfx ← versionKey relRowsTable (tablePrefixBytes table)
  let versions ← Visit.collect (visitRange budget s txnMvccTable pfx (rangeEnd pfx)
    (visitRowVersion C budget pfx through)) {}
  budget.check
  return versions.entries.insertionSort fun a b => RowVersion.le a b

/-- `decode_row` of `temporal/guarded.rs`; `round` counts the rows before it. -/
def guardedRow (schema : TableSchema) (round : ℕ) (bytes : Bytes) : HistoryResult Row := do
  liftHistory budget.check
  if !valueMagic.isPrefixOf bytes then
    liftHistory (budget.reserve (jsonUnescapeWorkingBytes bytes))
  let bound ← liftHistory (valueDecodeMemoryBound legacy bytes (budget.remainingBytes round))
  liftHistory (budget.reserve (bound + 512))
  let row ← decodeTemporalRow C schema bytes
  liftHistory budget.check
  return row

/-- The visitor of `Timestamps::boundary`. -/
def visitCommitPoint (C : Codecs) (budget : ReadBudget) (lsn : TxnId) (value : Option Bytes) :
    Visit (Option ℤ) Bool := do
  match value with
  | none => return false
  | some bytes =>
    let (txnId, time) ← decodeCommitMetadata C budget bytes
    if txnId ≠ lsn then
      throw (.corruption "temporal commit record does not match its LSN")
    set (some time)
    return false

/-- The commit time that `Timestamps::boundary` reads. -/
def guardedMillis (C : Codecs) (budget : ReadBudget) (s : Store) (lsn : TxnId) :
    HistoryResult Int64 := do
  liftHistory (budget.reserve 1024)
  match ← liftHistory (Visit.collect (visitGet budget s commitLogTable (encodeTxnId lsn)
    (visitCommitPoint C budget lsn)) none) with
  | none => .error (.missingPoint lsn)
  | some time => systemTimeToMillis time

/-- `Timestamps::boundary`. -/
def guardedBoundary (C : Codecs) (budget : ReadBudget) (s : Store) (lsn : TxnId)
    (timestamps : Timestamps) : HistoryResult ((Value × Value) × Timestamps) :=
  boundaryWith (guardedMillis C budget s lsn) lsn timestamps

/-- The last copy of a version, and the versions behind it. -/
def lastCopy (current : RowVersion) : List RowVersion → RowVersion × List RowVersion
  | [] => (current, [])
  | next :: versions =>
    if next.key = current.key ∧ next.lsn = current.lsn then
      lastCopy next versions
    else
      (current, next :: versions)

/-- The loop of `history_rows_for_table_guarded`. -/
def listGuarded (s : Store) (schema : TableSchema) (horizon minLsn : TxnId) :
    ℕ → List RowVersion → Listing → HistoryResult Listing
  | 0, _, listing => .ok listing
  | _ + 1, [], listing => .ok listing
  | fuel + 1, first :: versions, listing => do
    liftHistory budget.check
    let (current, versions) := lastCopy first versions
    if current.lsn < horizon then
      .error (.temporal (.retentionExpired current.lsn horizon))
    else if current.lsn < minLsn then
      listGuarded s schema horizon minLsn fuel versions listing
    else
      match current.value with
      | none => listGuarded s schema horizon minLsn fuel versions listing
      | some bytes => do
        let row ← guardedRow legacy budget schema listing.rows.length bytes
        liftHistory (budget.reserve ((row.length + 4) * (2 * valueBytes) + 256))
        let (start, timestamps) ← guardedBoundary C.toCodecs budget.toReadBudget s current.lsn
          listing.timestamps
        let next := versions.head?.filter fun next => next.key = current.key
        let (stop, timestamps) ← nextBoundary
          (guardedBoundary C.toCodecs budget.toReadBudget s) (next.map (·.lsn)) timestamps
        listGuarded s schema horizon minLsn fuel versions
          { timestamps, rows := listing.rows ++ [row ++ [start.1, stop.1, start.2, stop.2]] }

def historyRowsForTableGuarded (s : Store) (table : String) (schema : TableSchema)
    (retention : TemporalRetention) : HistoryResult (List Row) := do
  validateRetention retention retention.minLsn
  let _ ← guardedHorizon budget.toReadBudget s retention.minLsn
  let versions ← liftHistory (rowVersions C.toCodecs budget.toReadBudget s table none)
  let horizon ← guardedHorizon budget.toReadBudget s retention.minLsn
  let listing ← listGuarded legacy budget s schema horizon retention.minLsn versions.length
    versions {}
  liftHistory budget.check
  return listing.rows

end Guarded

end MultiDb
