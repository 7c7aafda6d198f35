import MultiDb.Model.Locks

/-!
# Transactions

`txn/mod.rs`.  A function on a write transaction returns the new store, and an error stands for its
rollback.
-/

namespace MultiDb

open Shared

/-- `unix_ms`: milliseconds since the epoch, clamped to `u64`. -/
def unixMs (now : ℤ) : UInt64 :=
  if now < 0 then 0
  else if now / 1000000 < 2 ^ 64 then UInt64.ofNat (now / 1000000).toNat
  else UInt64.ofNat (2 ^ 64 - 1)

namespace HlcTimestamp

/-- `u32::saturating_add(1)`. -/
def saturatingSucc (logical : UInt32) : UInt32 :=
  if logical.toNat + 1 < 2 ^ 32 then UInt32.ofNat (logical.toNat + 1) else logical

def tick (stamp : HlcTimestamp) (now : ℤ) : HlcTimestamp :=
  if unixMs now > stamp.physicalMs then
    { physicalMs := unixMs now, logical := 0 }
  else
    { physicalMs := stamp.physicalMs, logical := saturatingSucc stamp.logical }

/-- The derived order: physical time, then the logical counter. -/
def lt (a b : HlcTimestamp) : Bool :=
  a.physicalMs < b.physicalMs || (a.physicalMs = b.physicalMs && a.logical < b.logical)

def max (a b : HlcTimestamp) : HlcTimestamp :=
  if b.lt a then a else b

end HlcTimestamp

variable (C : Codecs)

def storedHlcInTxn (s : Store) : Result (Option HlcTimestamp) :=
  match s.get hlcTable hlcLocalKey with
  | none => .ok none
  | some bytes => some <$> decodeHlc C bytes

def nextHlcInTxn (s : Store) (now : ℤ) : Result HlcTimestamp := do
  return ((← storedHlcInTxn C s).getD {}).tick now

def currentTxnIdFrom (s : Store) : Result TxnId :=
  match s.get txnMetaTable currentTxnIdKey with
  | none => .ok 0
  | some bytes => decodeTxnId bytes

def lastKeyVersion (s : Store) (table : String) (key : Bytes) : Result TxnId := do
  match s.get txnVersionsTable (← versionKey table key) with
  | none => return 0
  | some bytes => decodeTxnId bytes

/-- One write of a record: its version, its row and its version token. -/
def applyWrite (txnId : TxnId) (s : Store) (write : CommitLogWrite) : Result Store := do
  let s := s.put txnMvccTable (← mvccKey write.table write.key txnId)
    (← encodeMvccRecord C { value := write.value })
  let s := s.set write.table write.key write.value
  return s.put txnVersionsTable (← versionKey write.table write.key) (encodeTxnId txnId)

def publicTables (writes : List CommitLogWrite) : Std.ExtTreeSet String :=
  .ofList ((writes.map (·.table)).filter fun table => !tableIsReserved table)

def keyspacesForCommit (tables : List String) : Std.ExtTreeSet String :=
  tables.foldl (fun keyspaces table =>
      let keyspaces :=
        if tableIsReserved table then keyspaces else keyspaces.insert tableDataVersionTable
      keyspaces.insert table)
    (.ofList [txnMetaTable, txnVersionsTable, txnMvccTable, commitLogTable,
      keyspaceRegistryTable, hlcTable])

/-- The HLC row of a record; a legacy record without an HLC leaves it unchanged. -/
def mergeHlc (s : Store) : Option HlcTimestamp → Result Store
  | none => .ok s
  | some hlc => do
    let merged := match ← storedHlcInTxn C s with
      | none => hlc
      | some stored => stored.max hlc
    return s.put hlcTable hlcLocalKey (← encodeHlc C merged)

def applyCommitRecordInTxn (s : Store) (record : CommitLogRecord) : Result Store := do
  let s := s.put txnMetaTable currentTxnIdKey (encodeTxnId record.txnId)
  let s ← record.writes.foldlM (applyWrite C record.txnId) s
  let s := (publicTables record.writes).toList.foldl (fun s table =>
    s.put tableDataVersionTable (strBytes table) (encodeTxnId record.txnId)) s
  let s := (keyspacesForCommit (record.writes.map (·.table))).toList.foldl (fun s keyspace =>
    s.put keyspaceRegistryTable (strBytes keyspace) keyspacePresentValue) s
  let s := s.put commitLogTable (encodeTxnId record.txnId) (← encodeCommitLogRecord C record)
  mergeHlc C s record.hlc

/-- The writes of a record, in the order of the write set. -/
def commitLogWrites (writes : WriteSet) : List CommitLogWrite :=
  writes.entries.map fun write => { table := write.1.1, key := write.1.2, value := write.2 }

def commitLogRecordWithClockAndHlc (txnId : TxnId) (writes : WriteSet) (now : ℤ)
    (hlc : HlcTimestamp) : CommitLogRecord :=
  { txnId, committedAt := now, hlc := some hlc, writes := commitLogWrites writes }

/-- The write-write check: no written row changed after the snapshot. -/
def validateSnapshot (s : Store) (snapshotId : TxnId) (writes : WriteSet) : Result Unit :=
  writes.entries.forM fun write => do
    if (← lastKeyVersion s write.1.1 write.1.2) > snapshotId then
      .error .conflict

/-- `commit_write_set_in_txn_with_extra_authorized`: the id of the new commit, and the store. -/
def commitWriteSetInTxnWithExtraAuthorized (env : Env) (s : Store) (snapshotId : TxnId)
    (writes : WriteSet) (preflight : Store → Result Store)
    (extra : Store → TxnId → Result Store) : Result (TxnId × Store) := do
  validateWriteLocks C s writes
  validateSnapshot s snapshotId writes
  let s ← preflight s
  let some nextTxnId := checkedSucc (← currentTxnIdFrom s)
    | .error (.backend "transaction id overflow")
  let hlc ← nextHlcInTxn C s env.tickedAt
  let record := commitLogRecordWithClockAndHlc nextTxnId writes env.committedAt hlc
  let s ← applyCommitRecordInTxn C s record
  let s ← extra s nextTxnId
  env.commit
  return (nextTxnId, s)

def commitPlain (env : Env) (s : Store) (snapshotId : TxnId) (writes : WriteSet) :
    Result (TxnId × Store) :=
  commitWriteSetInTxnWithExtraAuthorized C env s snapshotId writes .ok fun s _ => .ok s

def commitWriteSetWithPreflight (env : Env) (s : Store) (snapshotId : TxnId) (writes : WriteSet)
    (preflight : Store → Result Unit) : Result (TxnId × Store) := do
  env.beginWrite
  validatePublicWriteSet writes
  commitWriteSetInTxnWithExtraAuthorized C env s snapshotId writes
    (fun s => do preflight s; return s) fun s _ => .ok s

def commitWriteSetAuthorized (env : Env) (s : Store) (snapshotId : TxnId) (writes : WriteSet) :
    Result (TxnId × Store) := do
  if writes.entries.isEmpty then
    return (snapshotId, s)
  env.beginWrite
  commitPlain C env s snapshotId writes

def commitWriteSet (env : Env) (s : Store) (snapshotId : TxnId) (writes : WriteSet) :
    Result (TxnId × Store) := do
  validatePublicWriteSet writes
  commitWriteSetAuthorized C env s snapshotId writes

def commitWriteSetAtCurrentAuthorized (env : Env) (s : Store) (writes : WriteSet) :
    Result (TxnId × Store) := do
  if writes.entries.isEmpty then
    return (← currentTxnIdFrom s, s)
  env.beginWrite
  commitPlain C env s (← currentTxnIdFrom s) writes

def commitWriteSetAtCurrent (env : Env) (s : Store) (writes : WriteSet) :
    Result (TxnId × Store) := do
  validatePublicWriteSet writes
  commitWriteSetAtCurrentAuthorized C env s writes

def commitOpsAtCurrentAuthorized (env : Env) (s : Store) (ops : List Op) :
    Result (TxnId × Store) :=
  commitWriteSetAtCurrentAuthorized C env s (opsToWriteSet ops)

def commitOpsAtCurrent (env : Env) (s : Store) (ops : List Op) : Result (TxnId × Store) := do
  validatePublicOps ops
  commitWriteSetAtCurrent C env s (opsToWriteSet ops)

end MultiDb
