import MultiDb.Model.History

/-!
# Pins of reads in the past

`ActiveSnapshotRegistry` of `txn/mod.rs` and `db/history.rs`.  A run of history garbage collection
holds the lock of the registry from its watermark to its last batch.
-/

namespace MultiDb

open Shared

structure ActiveSnapshotRegistry where
  active : Std.ExtTreeMap TxnId ℕ := ∅
  retentionPins : Std.ExtTreeMap TxnId ℕ := ∅

namespace ActiveSnapshotRegistry

def pinRetentionLsn (r : ActiveSnapshotRegistry) (lsn : TxnId) : ActiveSnapshotRegistry :=
  { r with retentionPins := r.retentionPins.insert lsn (r.retentionPins[lsn]?.getD 0 + 1) }

def unpinRetentionLsn (r : ActiveSnapshotRegistry) (lsn : TxnId) : ActiveSnapshotRegistry :=
  match r.retentionPins[lsn]? with
  | none => r
  | some count =>
    if count - 1 = 0 then
      { r with retentionPins := r.retentionPins.erase lsn }
    else
      { r with retentionPins := r.retentionPins.insert lsn (count - 1) }

def watermark (r : ActiveSnapshotRegistry) (current : TxnId) : TxnId :=
  (r.active.keys ++ r.retentionPins.keys).min?.getD current

end ActiveSnapshotRegistry

structure HistoryGcOptions where
  dryRun : Bool
  batchSize : ℕ
  maxBatches : Option ℕ
  mvccRetainLsns : Option UInt64
  commitLogRetainLsns : Option UInt64

/-- The part of `HistoryWatermarkSource` that limits the versions. -/
inductive HistoryWatermarkSource
  | currentLsn
  | asOfPin
  | temporalRetention (table : String)
  | mvccRetainLsns
  deriving DecidableEq, Repr

structure MvccWatermark where
  current : TxnId
  lsn : TxnId
  limitedBy : HistoryWatermarkSource

/-- A temporal table of the catalog with its retention. -/
structure TemporalTable where
  baseTable : String
  minLsn : TxnId
  keepHistory : Bool

/-- The temporal tables of the catalog, and the next LSN of each durable consumer. -/
structure GcInputs where
  temporalTables : List TemporalTable
  consumers : List TxnId

def saturatingSub (a b : UInt64) : UInt64 :=
  if b ≤ a then a - b else 0

def MvccWatermark.limit (w : MvccWatermark) (lsn : TxnId) (source : HistoryWatermarkSource) :
    MvccWatermark :=
  if lsn < w.lsn then { w with lsn, limitedBy := source } else w

def mvccWatermark (s : Store) (inputs : GcInputs) (retainLsns : Option UInt64)
    (pins : ActiveSnapshotRegistry) : Result MvccWatermark := do
  let current ← currentTxnIdFrom s
  let w : MvccWatermark := { current, lsn := current, limitedBy := .currentLsn }
  let w := w.limit (pins.watermark current) .asOfPin
  let w := inputs.temporalTables.foldl (fun w table =>
    if table.keepHistory then w.limit table.minLsn (.temporalRetention table.baseTable)
    else w) w
  match retainLsns with
  | none => return w
  | some retain => return w.limit (saturatingSub (saturatingAdd current 1) retain) .mvccRetainLsns

/-- The LSN of `commit_log_floor_target`. -/
def commitLogFloorTarget (inputs : GcInputs) (w : MvccWatermark) (retain : UInt64) : TxnId :=
  inputs.consumers.foldl min
    (min (max (saturatingSub (saturatingAdd w.current 1) retain) 1) w.lsn)

def gcBatchRecordBytes : ℕ := 8 * 1024 * 1024
def gcBatchWindows : ℕ := 256

def HistoryGcBatchPlan.new (watermark : TxnId) (maxWrites : ℕ)
    (commitLogFloorTarget : Option TxnId) : HistoryGcBatchPlan where
  watermark := watermark
  maxWrites := max maxWrites 1
  maxRecordBytes := gcBatchRecordBytes
  maxWindows := gcBatchWindows
  commitLogFloorTarget := commitLogFloorTarget

/-- The batches of a run that holds the lock: its plan, and how many are left. -/
structure GcRun where
  plan : HistoryGcBatchPlan
  batches : Option ℕ

/-- `run_history_gc` up to its batches; a retention of zero is refused. -/
def planHistoryGc (s : Store) (inputs : GcInputs) (options : HistoryGcOptions)
    (pins : ActiveSnapshotRegistry) : Result (Option GcRun) :=
  if options.mvccRetainLsns = some 0 ∨ options.commitLogRetainLsns = some 0 then
    .ok none
  else do
    let w ← mvccWatermark s inputs options.mvccRetainLsns pins
    let floor := options.commitLogRetainLsns.map (commitLogFloorTarget inputs w)
    if options.dryRun then
      return none
    else
      return some { plan := .new w.lsn options.batchSize floor, batches := options.maxBatches }

variable (C : Codecs)

/-- One round of `run_history_gc_batches`: the store, and the rest of the run. -/
def GcRun.step (env : Env) (s : Store) (run : GcRun) : Store × Option GcRun :=
  if run.batches = some 0 then
    (s, none)
  else
    match maintenanceGc C env s run.plan with
    | .error _ => (s, none)
    | .ok (outcome, s) =>
      if outcome.done || !outcome.changed then (s, none)
      else (s, some { run with batches := run.batches.map (· - 1) })

/-- `run_history_gc_batches` without a limit of batches, for at most `fuel` rounds. -/
def runHistoryGcBatches (env : Env) (plan : HistoryGcBatchPlan) :
    ℕ → Store → Result (Option (List HistoryGcBatchOutcome × Store))
  | 0, _ => .ok none
  | fuel + 1, s => do
    let (outcome, s) ← maintenanceGc C env s plan
    if outcome.done || !outcome.changed then
      return some ([outcome], s)
    else
      return (← runHistoryGcBatches env plan fuel s).map fun rest => (outcome :: rest.1, rest.2)

/-- Where a call of `pin_history_lsn` stands.  The code does not keep `grantedAt`, its store. -/
inductive PinStage
  | registered
  | granted (grantedAt : Store)
  | refused (error : TemporalError)
  | dropped

/-- The end of `pin_history_lsn`, when the LSN is registered. -/
def checkPin (s : Store) (lsn : TxnId) : PinStage :=
  match ensureHistoryRetained s lsn with
  | .ok () => .granted s
  | .error error => .refused error

end MultiDb
