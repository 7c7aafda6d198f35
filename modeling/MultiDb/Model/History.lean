import MultiDb.Model.Txn

/-!
# History: garbage collection and reads in the past

`txn/history.rs` and the version scan of `temporal.rs`.  A batch maps the snapshot that it reads to
the store after its commit.
-/

namespace MultiDb

open Shared

def historyHorizonKey : Bytes := strBytes "history_horizon"
def mvccGcCursorKey : Bytes := strBytes "mvcc_gc_cursor"
def commitLogFloorKey : Bytes := strBytes "commit_log_floor"
def gcCommitWindow : ℕ := 64

/-- `usize::saturating_add`. -/
def usizeSaturatingAdd (a b : ℕ) : ℕ :=
  min (a + b) usizeMax

def saturatingAdd (a : UInt64) (n : ℕ) : UInt64 :=
  if a.toNat + n < 2 ^ 64 then UInt64.ofNat (a.toNat + n) else UInt64.ofNat (2 ^ 64 - 1)

structure HistoryGcBatchPlan where
  watermark : TxnId
  maxWrites : ℕ
  maxRecordBytes : ℕ
  maxWindows : ℕ
  commitLogFloorTarget : Option TxnId

structure HistoryGcBatchOutcome where
  mvccVersionsPruned : UInt64 := 0
  commitLogRecordsPruned : UInt64 := 0
  mvccCursor : TxnId
  historyHorizon : TxnId
  commitLogFloor : TxnId
  done : Bool := false
  changed : Bool := false

structure HistoryGcState where
  mvccCursor : TxnId
  historyHorizon : TxnId
  commitLogFloor : TxnId

def HistoryGcBatchPlan.floorTarget (plan : HistoryGcBatchPlan) (mvccCursor : TxnId) :
    Option TxnId :=
  plan.commitLogFloorTarget.map fun target =>
    min (min target plan.watermark) (saturatingAdd mvccCursor 1)

def readHistoryMeta (s : Store) (key : Bytes) : Result (Option TxnId) :=
  match s.get txnMetaTable key with
  | none => .ok none
  | some bytes => some <$> decodeTxnId bytes

def earliestCommitLsnIn (s : Store) : Result TxnId := do
  match ← readHistoryMeta s commitLogFloorKey with
  | some floor => return floor
  | none =>
    if (s.get commitLogTable (encodeTxnId 1)).isSome then
      return 1
    else
      match range s commitLogTable [] [] with
      | [] => return 1
      | (key, _) :: _ => decodeTxnId key

def readHistoryGcState (s : Store) : Result HistoryGcState := do
  return {
    mvccCursor := (← readHistoryMeta s mvccGcCursorKey).getD 0
    historyHorizon := (← readHistoryMeta s historyHorizonKey).getD 0
    commitLogFloor := ← earliestCommitLsnIn s }

/-! ## Pruning -/

variable (C : Codecs)

/-- The progress of `collect_processed_writes`. -/
structure GcWalk where
  latest : Tables String Bytes TxnId := .empty
  examined : ℕ := 0
  decodedBytes : ℕ := 0
  processed : TxnId

def GcWalk.visit (walk : GcWalk) (lsn : TxnId) (record : CommitLogRecord) (size : ℕ) : GcWalk where
  latest := record.writes.foldl (fun latest write => latest.put write.table write.key lsn)
    walk.latest
  examined := usizeSaturatingAdd walk.examined (max record.writes.length 1)
  decodedBytes := usizeSaturatingAdd walk.decodedBytes size
  processed := lsn

/-- The rows of one window; the flag tells that a budget ended the walk. -/
def walkWindow (plan : HistoryGcBatchPlan) : List (Bytes × Bytes) → GcWalk →
    Result (GcWalk × Bool)
  | [], walk => .ok (walk, false)
  | (key, value) :: rows, walk => do
    let lsn ← decodeTxnId key
    let record ← decodeCommitLogRecord C value
    if record.txnId ≠ lsn then
      .error (.corruption ("commit log key " ++ toString lsn.toNat ++ " holds record " ++
        toString record.txnId.toNat))
    else
      let walk := walk.visit lsn record value.length
      if walk.examined ≥ plan.maxWrites ∨ walk.decodedBytes ≥ plan.maxRecordBytes then
        return (walk, true)
      else
        walkWindow plan rows walk

/-- The last id of the window after `processed`. -/
def windowLast (plan : HistoryGcBatchPlan) (walk : GcWalk) : TxnId :=
  let remaining := max 1 (min (plan.maxWrites - walk.examined) gcCommitWindow)
  min (saturatingAdd (saturatingAdd walk.processed 1) (remaining - 1)) plan.watermark

/-- The loop of `collect_processed_writes`, with the windows that are left. -/
def walkWindows (s : Store) (plan : HistoryGcBatchPlan) : ℕ → GcWalk → Result GcWalk
  | 0, walk => .ok walk
  | windows + 1, walk =>
    if walk.processed < plan.watermark then do
      let last := windowLast plan walk
      let rows := range s commitLogTable (encodeTxnId (saturatingAdd walk.processed 1))
        (encodeTxnId (saturatingAdd last 1))
      match ← walkWindow C plan rows walk with
      | (walk, true) => return walk
      | (walk, false) => walkWindows s plan windows { walk with processed := last }
    else
      .ok walk

def collectProcessedWrites (s : Store) (cursor : TxnId) (plan : HistoryGcBatchPlan) :
    Result GcWalk :=
  walkWindows C s plan (max plan.maxWindows 1) { processed := cursor }

/-- The version rows of a row, from the scan of `prune_key_versions`. -/
def versionRows (s : Store) (vk start stop : Bytes) : List (Bytes × Bytes) :=
  (range s txnMvccTable start stop).filter fun row =>
    row.1.length = vk.length + 8 && vk.isPrefixOf row.1

/-- The scan splits the versions into the last one and the older ones. -/
def splitVersions (vk : Bytes) (rows : List (Bytes × Bytes)) :
    Result (List Bytes × Option (TxnId × Bytes × Bytes)) :=
  rows.foldlM (fun (older, kept) (row, value) => do
      let version ← decodeTxnId (row.drop vk.length)
      let older := match kept with
        | some (_, previous, _) => older ++ [previous]
        | none => older
      return (older, some (version, row, value))) ([], none)

/-- The exclusive end of the scan of the versions up to `newest`. -/
def versionsEnd (table : String) (key vk : Bytes) (newest : TxnId) : Result Bytes :=
  match checkedSucc newest with
  | some next => mvccKey table key next
  | none => .ok (rangeEnd vk)

/-- Whether a kept version is a tombstone, the last of its row, and the row is absent. -/
def isDeadTombstone (s : Store) (table : String) (key : Bytes) (version : TxnId)
    (value : Bytes) : Result Bool := do
  if (← decodeMvccRecord C value).value.isNone then
    return (← lastKeyVersion s table key) = version && (s.get table key).isNone
  else
    return false

/-- `prune_key_versions`: reads `read`, deletes from `write`. -/
def pruneKeyVersions (read write : Store) (table : String) (key : Bytes) (newest : TxnId) :
    Result (UInt64 × Store) := do
  let vk ← versionKey table key
  let start ← mvccKey table key 0
  let stop ← versionsEnd table key vk newest
  let (older, kept) ← splitVersions vk (versionRows read vk start stop)
  match kept with
  | none => return (0, write)
  | some (keptVersion, keptRow, keptValue) =>
    if keptVersion ≠ newest then
      return (0, write)
    else
      let write := older.foldl (fun write row => write.delete txnMvccTable row) write
      let pruned := saturatingAdd 0 older.length
      if ← isDeadTombstone C read table key keptVersion keptValue then
        return (saturatingAdd pruned 1, write.delete txnMvccTable keptRow)
      else
        return (pruned, write)

/-- One row of the loop of `prune_mvcc_batch`. -/
def pruneEntry (read : Store) (state : UInt64 × Store) (entry : (String × Bytes) × TxnId) :
    Result (UInt64 × Store) := do
  let (n, write) ← pruneKeyVersions C read state.2 entry.1.1 entry.1.2 entry.2
  return (saturatingAdd state.1 n.toNat, write)

def pruneMvccBatch (s : Store) (plan : HistoryGcBatchPlan) (outcome : HistoryGcBatchOutcome) :
    Result (HistoryGcBatchOutcome × Store) := do
  let walk ← collectProcessedWrites C s outcome.mvccCursor plan
  let (pruned, write) ← walk.latest.entries.foldlM (pruneEntry C s)
    (outcome.mvccVersionsPruned, s)
  let horizon := max outcome.historyHorizon walk.processed
  let write := write.put txnMetaTable mvccGcCursorKey (encodeTxnId walk.processed)
  let write := write.put txnMetaTable historyHorizonKey (encodeTxnId horizon)
  let outcome := { outcome with
    mvccVersionsPruned := pruned
    mvccCursor := walk.processed
    historyHorizon := horizon
    changed := true }
  return (outcome, write)

/-! ## Truncation -/

/-- The loop of `truncate_commit_log_batch`: floor, deleted records and bytes, and the writer. -/
def truncateWindows (s : Store) (plan : HistoryGcBatchPlan) (target : TxnId) :
    ℕ → TxnId × ℕ × ℕ × Store → TxnId × ℕ × ℕ × Store
  | 0, state => state
  | windows + 1, (floor, deleted, deletedBytes, write) =>
    if floor < target ∧ deleted < plan.maxWrites ∧ deletedBytes < plan.maxRecordBytes then
      let remaining := max 1 (min (plan.maxWrites - deleted) gcCommitWindow)
      let stop := min (saturatingAdd floor remaining) target
      let rows := range s commitLogTable (encodeTxnId floor) (encodeTxnId stop)
      truncateWindows s plan target windows
        (stop, rows.foldl (fun n _ => usizeSaturatingAdd n 1) deleted,
          rows.foldl (fun n row => usizeSaturatingAdd n row.2.length) deletedBytes,
          rows.foldl (fun write row => write.delete commitLogTable row.1) write)
    else
      (floor, deleted, deletedBytes, write)

def truncateCommitLogBatch (s : Store) (plan : HistoryGcBatchPlan) (target : TxnId)
    (outcome : HistoryGcBatchOutcome) : HistoryGcBatchOutcome × Store :=
  let (floor, deleted, _, write) := truncateWindows s plan target (max plan.maxWindows 1)
    (outcome.commitLogFloor, 0, 0, s)
  let outcome := { outcome with
    commitLogRecordsPruned := saturatingAdd 0 deleted
    commitLogFloor := floor
    changed := true }
  (outcome, write.put txnMetaTable commitLogFloorKey (encodeTxnId floor))

/-- The work of `gc_history_batch`: it prunes versions first, and then truncates the log. -/
def gcHistoryStage (s : Store) (plan : HistoryGcBatchPlan) (outcome : HistoryGcBatchOutcome) :
    Result (HistoryGcBatchOutcome × Store) :=
  if outcome.mvccCursor < plan.watermark then
    pruneMvccBatch C s plan outcome
  else
    match plan.floorTarget outcome.mvccCursor with
    | some target =>
      if outcome.commitLogFloor < target then
        .ok (truncateCommitLogBatch s plan target outcome)
      else
        .ok (outcome, s)
    | none => .ok (outcome, s)

/-- `gc_history_batch`: the outcome and the store with the staged writes. -/
def gcHistoryBatch (s : Store) (plan : HistoryGcBatchPlan) :
    Result (HistoryGcBatchOutcome × Store) := do
  let state ← readHistoryGcState s
  let (outcome, write) ← gcHistoryStage C s plan
    { mvccCursor := state.mvccCursor, historyHorizon := state.historyHorizon,
      commitLogFloor := state.commitLogFloor }
  let done := decide (outcome.mvccCursor ≥ plan.watermark) &&
    (plan.floorTarget outcome.mvccCursor).all fun target => outcome.commitLogFloor ≥ target
  return ({ outcome with done }, write)

/-- A batch run as maintenance: committed when it staged writes, else rolled back. -/
def maintenanceGc (env : Env) (s : Store) (plan : HistoryGcBatchPlan) :
    Result (HistoryGcBatchOutcome × Store) := do
  env.beginWrite
  let (outcome, write) ← gcHistoryBatch C s plan
  if outcome.changed then
    env.commit
    return (outcome, write)
  else
    return (outcome, s)

/-! ## Reads -/

/-- The part of `TemporalError` that an `AS OF` read returns. -/
inductive TemporalError
  | retentionExpired (requested earliest : TxnId)
  | storage (error : StorageError)
  deriving DecidableEq, Repr

def ensureHistoryRetained (s : Store) (lsn : TxnId) : Except TemporalError Unit := do
  let horizon := (← (readHistoryMeta s historyHorizonKey).mapError .storage).getD 0
  if lsn < horizon then
    .error (.retentionExpired lsn horizon)

/-- One version row in the loop of `rows_as_of_lsn`. -/
def visitVersion (pfx : Bytes) (lsn : TxnId)
    (byKey : Std.ExtTreeMap Bytes (TxnId × Option Bytes)) (row : Bytes × Bytes) :
    Result (Std.ExtTreeMap Bytes (TxnId × Option Bytes)) :=
  if row.1.length < pfx.length + 8 ∨ ¬ pfx.isPrefixOf row.1 then
    .ok byKey
  else do
    let version ← decodeTxnId (row.1.drop (row.1.length - 8))
    if version > lsn then
      return byKey
    else
      let logicalKey := (row.1.drop pfx.length).take (row.1.length - 8 - pfx.length)
      let record ← decodeMvccRecord C row.2
      if byKey[logicalKey]?.all fun current => version > current.1 then
        return byKey.insert logicalKey (version, record.value)
      else
        return byKey

/-- `rows_as_of_lsn` up to the decoding of the stored rows. -/
def rowsAsOfLsn (s : Store) (table : String) (lsn : TxnId) :
    Except TemporalError (List Bytes) := do
  ensureHistoryRetained s lsn
  let pfx ← (versionKey relRowsTable (tablePrefixBytes table)).mapError .storage
  let byKey ← ((range s txnMvccTable pfx (rangeEnd pfx)).foldlM (visitVersion C pfx lsn)
    ∅).mapError .storage
  return byKey.toList.filterMap fun entry => entry.2.2

/-- `rows_as_of_lsn` when its first check, its scan and its second check read different stores. -/
def rowsAsOfLsnAcross (checked scanned rechecked : Store) (table : String) (lsn : TxnId) :
    Except TemporalError (List Bytes) := do
  ensureHistoryRetained checked lsn
  let pfx ← (versionKey relRowsTable (tablePrefixBytes table)).mapError .storage
  let rows := range scanned txnMvccTable pfx (rangeEnd pfx)
  ensureHistoryRetained rechecked lsn
  let byKey ← (rows.foldlM (visitVersion C pfx lsn) ∅).mapError .storage
  return byKey.toList.filterMap fun entry => entry.2.2

end MultiDb
