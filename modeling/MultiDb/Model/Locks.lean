import MultiDb.Model.Records

/-!
# Key locks of prepared distributed transactions

`repl/dist_txn/locks.rs`.  A prepared transaction owns one lock row per public row it writes.
-/

namespace MultiDb

open Shared

def locksTable : String := "__dist_txn_key_locks"
def distTxnParticipantTable : String := "__dist_txn_participants"
def distTxnCoordinatorTable : String := "__dist_txn_coordinator"
def distTxnFinishedTable : String := "__dist_txn_finished"
def lockFormatKey : Bytes := strBytes "dist_txn_key_lock_format"
def lockFormatValue : Bytes := strBytes "1"
def defaultDistTxnDeadlineMs : UInt64 := 30000

/-- `lock_format`: whether the store keeps key locks for its prepares. -/
def lockFormat (s : Store) : Result Bool :=
  match s.get txnMetaTable lockFormatKey with
  | none => .ok false
  | some format =>
    if format = lockFormatValue then .ok true
    else .error (.corruption "unsupported distributed transaction lock format")

def rejectLegacyPrepares (s : Store) : Result Unit := do
  if !(← lockFormat s) && !(range s distTxnParticipantTable [] []).isEmpty then
    .error .conflict
  else
    return ()

variable (C : Codecs)

/-- The check of a repeated prepare: every row of the record is still locked by it. -/
def validateHeldLocks (s : Store) (txnId : TxnId) (writes : WriteSet) : Result Unit :=
  writes.entries.forM fun write => do
    if s.get locksTable (← versionKey write.1.1 write.1.2) ≠ some (encodeTxnId txnId) then
      .error (.corruption "prepared transaction lost a key lock")

/-- The lock row of one public row of a new prepare, when it is free. -/
def acquireLock (s : Store) (txnId : TxnId) (staged : WriteSet)
    (write : (String × Bytes) × Option Bytes) : Result WriteSet := do
  let lock ← versionKey write.1.1 write.1.2
  if (s.get locksTable lock).isSome then
    .error .conflict
  else
    return staged.put locksTable lock (some (encodeTxnId txnId))

/-- The lock rows of a new prepare, one per public row. -/
def acquireLocks (s : Store) (txnId : TxnId) (writes : WriteSet) : Result WriteSet :=
  writes.entries.foldlM (acquireLock s txnId) .empty

def prepareWriteSet (s : Store) (txnId : TxnId) (ops : List Op)
    (deadlineMs preparedAtMs : UInt64) : Result WriteSet := do
  validatePublicOps ops
  let key := encodeTxnId txnId
  match s.get distTxnFinishedTable key with
  | some bytes =>
    -- a finished id is never prepared again, whatever its decision was
    let finished ← decodeFinished C bytes
    if finished.txnId ≠ txnId then
      .error (.corruption "finished transaction id mismatch")
    else
      .error .conflict
  | none =>
    rejectLegacyPrepares s
    let writes := opsToWriteSet ops
    match s.get distTxnParticipantTable key with
    | some bytes =>
      let prepared ← decodePrepared C bytes
      if prepared.txnId ≠ txnId ∨ prepared.ops ≠ ops then
        .error .conflict
      else
        validateHeldLocks s txnId writes
        return .empty
    | none =>
      let staged ← acquireLocks s txnId writes
      let staged := staged.put txnMetaTable lockFormatKey (some lockFormatValue)
      let record ← encodePrepared C
        { version := distTxnRecordVersion, txnId, ops, preparedAtMs, deadlineMs,
          retryCount := 0 }
      return staged.put distTxnParticipantTable key (some record)

/-- The lock release of one row of a finish; only an abort meets unlocked rows. -/
def releaseLock (s : Store) (txnId : TxnId) (decision : Decision) (staged : WriteSet)
    (write : (String × Bytes) × Option Bytes) : Result WriteSet := do
  let lock ← versionKey write.1.1 write.1.2
  match s.get locksTable lock with
  | some owner =>
    if (← decodeTxnId owner) = txnId then
      return staged.put locksTable lock none
    else
      .error (.corruption "prepared transaction key lock mismatch")
  | none =>
    if decision = .abort then
      return staged
    else
      .error (.corruption "prepared transaction key lock mismatch")

def releaseLocks (s : Store) (txnId : TxnId) (decision : Decision) (writes : WriteSet) :
    Result WriteSet :=
  writes.entries.foldlM (releaseLock s txnId decision) .empty

def WriteSet.extend (staged writes : WriteSet) : WriteSet :=
  writes.entries.foldl (fun staged write => staged.put write.1.1 write.1.2 write.2) staged

/-- The writes that finish a prepared record: its locks, and its rows on a commit. -/
def finishPrepared (s : Store) (txnId : TxnId) (decision : Decision) : Option Bytes →
    Result WriteSet
  | none => .ok .empty
  | some bytes => do
    let prepared ← decodePrepared C bytes
    if prepared.txnId ≠ txnId then
      .error (.corruption "prepared transaction id mismatch")
    else
      let writes := opsToWriteSet prepared.ops
      let staged ← releaseLocks s txnId decision writes
      if decision = .commit then
        return staged.extend writes
      else
        return staged

def finishWriteSet (s : Store) (txnId : TxnId) (decision : Decision) (finishedAtMs : UInt64) :
    Result WriteSet := do
  let key := encodeTxnId txnId
  match s.get distTxnFinishedTable key with
  | some bytes =>
    let finished ← decodeFinished C bytes
    if finished.txnId ≠ txnId then
      .error (.corruption "finished transaction id mismatch")
    else if finished.decision = decision then
      return .empty
    else
      .error .conflict
  | none =>
    let staged ← finishPrepared C s txnId decision (s.get distTxnParticipantTable key)
    let record ← encodeFinished C
      { version := distTxnRecordVersion, txnId, decision, finishedAtMs }
    let staged := staged.put distTxnFinishedTable key (some record)
    return staged.put distTxnParticipantTable key none

/-- The finished record that a write set files for a transaction. -/
def stagedFinish (writes : WriteSet) (owner : TxnId) : Result (Option FinishedTxnRecord) :=
  match writes.get distTxnFinishedTable (encodeTxnId owner) with
  | some (some bytes) => some <$> decodeFinished C bytes
  | _ => .ok none

/-- Whether a write set finishes `owner` with a commit and releases `lock`. -/
def finishesOwner (writes : WriteSet) (lock : Bytes) (owner : TxnId) : Result Bool := do
  let finished ← stagedFinish C writes owner
  return writes.get locksTable lock = some none &&
    writes.get distTxnParticipantTable (encodeTxnId owner) = some none &&
    finished.any fun record => record.txnId = owner && record.decision = .commit

/-- The check of one public row: it is free, or the write set finishes its owner. -/
def validateWriteLock (s : Store) (writes : WriteSet) (write : (String × Bytes) × Option Bytes) :
    Result Unit := do
  let lock ← versionKey write.1.1 write.1.2
  match s.get locksTable lock with
  | none => return ()
  | some bytes =>
    if ← finishesOwner C writes lock (← decodeTxnId bytes) then
      return ()
    else
      .error .conflict

def validateWriteLocks (s : Store) (writes : WriteSet) : Result Unit :=
  let publicWrites := writes.entries.filter fun write => !tableIsReserved write.1.1
  if publicWrites.isEmpty then
    .ok ()
  else do
    rejectLegacyPrepares s
    publicWrites.forM (validateWriteLock C s writes)

def validateReadKey (s : Store) (table : String) (key : Bytes) : Result Unit := do
  if tableIsReserved table then
    return ()
  rejectLegacyPrepares s
  if (s.get locksTable (← versionKey table key)).isSome then
    .error .conflict

/-! ## Ranges -/

/-- `keyenc::successor`: the least byte string above every extension of the given one. -/
def successor (bytes : Bytes) : Option Bytes :=
  match bytes.reverse.dropWhile (· = 0xFF) with
  | [] => none
  | last :: rest => some ((last + 1) :: rest).reverse

/-- `keyenc::range_end`: an exclusive end for the extensions of a byte string. -/
def rangeEnd (bytes : Bytes) : Bytes :=
  (successor bytes).getD []

def hasRangeLocks (s : Store) (table : String) (start stop : Bytes) : Result Bool := do
  if tableIsReserved table then
    return false
  rejectLegacyPrepares s
  let first ← versionKey table start
  let last ← if stop.isEmpty then rangeEnd <$> versionKey table [] else versionKey table stop
  return !(range s locksTable first last).isEmpty

def validateReadRange (s : Store) (table : String) (start stop : Bytes) : Result Unit := do
  if ← hasRangeLocks s table start stop then
    .error .conflict

end MultiDb
