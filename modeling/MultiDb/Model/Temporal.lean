import MultiDb.Model.Changefeed
import MultiDb.Model.Engine
import MultiDb.Model.HistoryPins

/-!
# Temporal reads

`temporal.rs`, `temporal/guarded.rs` and the timestamp lookup of `txn/history.rs`.  Times are
nanoseconds from the epoch.
-/

namespace MultiDb

open Shared

def commitLogScanWindow : ℕ := 256

/-- `u64::checked_sub(1)`. -/
def checkedPred (a : UInt64) : Option UInt64 :=
  if 0 < a then some (a - 1) else none

/-- The loop of `latest_commit_at_or_before` and of `latest_commit`, down to `earliest`. -/
def scanBackwards (width : ℕ → ℕ) (readWindow : TxnId → TxnId → Result (Option TxnId))
    (earliest : TxnId) : ℕ → ℕ → TxnId → Result (Option TxnId)
  | 0, _, _ => .ok none
  | fuel + 1, round, last =>
    if earliest ≤ last then do
      let first := max (saturatingSub last (UInt64.ofNat (width round - 1))) earliest
      match ← readWindow first last with
      | some lsn => return some lsn
      | none =>
        match checkedPred first with
        | none => return none
        | some previous => scanBackwards width readWindow earliest fuel (round + 1) previous
    else
      .ok none

variable (C : Codecs)

/-- The rows of a window from the last one on, up to the first commit in time. -/
def latestInWindow (timestamp : ℤ) : List (Bytes × Bytes) → Result (Option TxnId)
  | [] => .ok none
  | (_, value) :: rows => do
    let record ← decodeCommitLogRecord C value
    if record.committedAt ≤ timestamp then
      return some record.txnId
    else
      latestInWindow timestamp rows

def latestCommitAtOrBefore (s : Store) (timestamp : ℤ) : Result (Option TxnId) := do
  let earliest := max (← earliestCommitLsnIn s) 1
  let last := (← readHistoryMeta s currentTxnIdKey).getD 0
  scanBackwards (fun _ => commitLogScanWindow)
    (fun first last => latestInWindow C timestamp (commitLogWindow s first last).reverse)
    earliest (last.toNat + 1) 0 last

/-- What a visit leaves in the variables of its visitor. -/
def Visit.collect {σ α : Type} (visit : Visit σ α) (start : σ) : Result σ :=
  match visit.run.run start with
  | (.ok _, out) => .ok out
  | (.error e, _) => .error e

/-- The state of `json_unescape_working_bytes`. -/
structure UnescapeScan where
  start : Option ℕ := none
  escaped : Bool := false
  hasEscape : Bool := false
  longest : ℕ := 0

def UnescapeScan.visit (scan : UnescapeScan) (entry : UInt8 × ℕ) : UnescapeScan :=
  match scan.start with
  | some start =>
    if scan.escaped then { scan with escaped := false }
    else if entry.1 = 92 then { scan with escaped := true, hasEscape := true }
    else if entry.1 = 34 then
      { scan with
        longest := if scan.hasEscape then max scan.longest (entry.2 - start) else scan.longest
        start := none }
    else scan
  | none =>
    if entry.1 = 34 then { scan with start := some (entry.2 + 1), hasEscape := false } else scan

def jsonUnescapeWorkingBytes (bytes : Bytes) : ℕ :=
  let scan := bytes.zipIdx.foldl UnescapeScan.visit {}
  let longest := match scan.start with
    | some start => if scan.hasEscape then max scan.longest (bytes.length - start) else scan.longest
    | none => scan.longest
  min (longest * 2 + 128) usizeMax

/-- `decode_commit_metadata` keeps the id and the time of a record. -/
def decodeCommitMetadata (budget : ReadBudget) (bytes : Bytes) : Result (TxnId × ℤ) := do
  budget.check
  let record ←
    if commitLogBinaryMagic.isPrefixOf bytes then do
      let (record, trailing) ← (C.commitLog.takeFromBytes
        (bytes.drop commitLogBinaryMagic.length)).mapError fun error =>
          .corruption ("commit metadata: " ++ error)
      if trailing.isEmpty then
        pure record
      else
        .error (.corruption "commit metadata has trailing binary bytes")
    else do
      budget.reserve (jsonUnescapeWorkingBytes bytes)
      (C.legacyCommitLog bytes).mapError fun error => .corruption ("commit metadata: " ++ error)
  budget.check
  return (record.txnId, record.committedAt)

def metadataLsn (budget : ReadBudget) (s : Store) (key : Bytes) : Result (Option TxnId) :=
  Visit.collect (visitGet budget s txnMetaTable key fun value => do
    match value with
    | none => set (none : Option TxnId)
    | some bytes => set (some (← decodeTxnId bytes))
    return false) none

/-- The budget of a temporal read: `remainingBytes` is its answer at the given round. -/
structure TemporalBudget extends ReadBudget where
  remainingBytes : ℕ → ℕ

/-- The width of a window follows the rest of the budget. -/
def TemporalBudget.width (budget : TemporalBudget) (round : ℕ) : ℕ :=
  max 1 (min (budget.remainingBytes round / 128) 256)

/-- The first id of the log, as the guarded lookup finds it. -/
def guardedEarliest (budget : ReadBudget) (s : Store) : Result TxnId := do
  match ← metadataLsn budget s commitLogFloorKey with
  | some floor => return max floor 1
  | none =>
    let first ← Visit.collect (visitRange budget s commitLogTable [] [] fun key _ => do
      set (some (← decodeTxnId key))
      return false) none
    return max (first.getD 1) 1

/-- The size of an entry of a window: `size_of::<(u64, SystemTime)>()`. -/
def timeEntryBytes : ℕ := 24

/-- The visitor of a window of `latest_commit`. -/
def visitCommitTime (budget : ReadBudget) (key bytes : Bytes) :
    Visit (List (TxnId × ℤ)) Bool := do
  let (lsn, time) ← decodeCommitMetadata C budget bytes
  if (← decodeTxnId key) ≠ lsn then
    throw (.corruption "temporal commit record does not match its LSN")
  modify fun times => times ++ [(lsn, time)]
  return true

/-- One window of the guarded `latest_commit`. -/
def guardedWindow (budget : ReadBudget) (s : Store) (timestamp : ℤ) (first last : TxnId) :
    Result (Option TxnId) := do
  budget.check
  budget.reserve ((last.toNat - first.toNat + 1) * 4 * timeEntryBytes + 256)
  let times ← Visit.collect (visitRange budget s commitLogTable (encodeTxnId first)
    ((checkedSucc last).elim [] encodeTxnId) (visitCommitTime C budget)) []
  return (times.reverse.find? fun entry => entry.2 ≤ timestamp).map Prod.fst

def latestCommit (budget : TemporalBudget) (s : Store) (timestamp : ℤ) :
    Result (Option TxnId) := do
  let earliest ← guardedEarliest budget.toReadBudget s
  let last := (← metadataLsn budget.toReadBudget s currentTxnIdKey).getD 0
  scanBackwards budget.width
    (guardedWindow C budget.toReadBudget s timestamp) earliest (last.toNat + 1) 0 last

end MultiDb
