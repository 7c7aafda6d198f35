import MultiDb.Model.SingleNode
import MultiDb.Model.Versions
import MultiDb.Shared.Durable

/-!
# The Raft state machine

`CpStateMachine` of `repl/cp_live.rs`: an entry is applied in one storage transaction, together
with the position of the log it reaches.
-/

namespace MultiDb

open Shared

/-- `LogId` of `openraft`. -/
structure LogId where
  term : UInt64
  node : NodeId
  index : UInt64
  deriving DecidableEq, Repr

/-- `Membership` of `openraft`: the joint configurations and the address of each node. -/
structure Membership where
  configs : List (List NodeId) := []
  nodes : List (NodeId × String) := []
  deriving DecidableEq, Repr

/-- `StoredMembership` of `openraft`. -/
structure StoredMembership where
  logId : Option LogId := none
  membership : Membership := {}
  deriving DecidableEq, Repr

inductive ReplCommand
  | batch (ops : List Op)
  | conditional (conditions : List WriteCondition) (ops : List Op) (hlc : Option HlcTimestamp)
  | txnCommit (snapshotId : TxnId) (writes : List (String × Bytes × Option Bytes))
      (hlc : Option HlcTimestamp)
  | distTxnPrepare (txnId : TxnId) (ops : List Op) (deadlineMs : UInt64)
      (hlc : Option HlcTimestamp)
  | distTxnFinish (txnId : TxnId) (decision : Decision) (hlc : Option HlcTimestamp)
  deriving DecidableEq, Repr

/-- The conditions that `apply_command` checks. -/
def ReplCommand.conditions : ReplCommand → List WriteCondition
  | conditional conditions _ _ => conditions
  | _ => []

/-- `EntryPayload` of `openraft`. -/
inductive EntryPayload
  | blank
  | membership (membership : Membership)
  | normal (command : ReplCommand)
  deriving DecidableEq, Repr

structure CpEntry where
  logId : LogId
  payload : EntryPayload
  deriving DecidableEq, Repr

structure ReplApplyResponse where
  txnId : TxnId
  conflict : Bool
  deriving DecidableEq, Repr

structure StateSnapshot where
  applied : Option LogId
  membership : StoredMembership
  rows : List (String × Bytes × Bytes)
  deriving DecidableEq, Repr

/-- `SnapshotMeta` of `openraft`. -/
structure SnapshotMeta where
  lastLogId : Option LogId
  lastMembership : StoredMembership
  snapshotId : String
  deriving DecidableEq, Repr

/-- The codecs of a node with the JSON records of its state machine. -/
structure CpCodecs extends Codecs where
  logId : Json LogId
  membership : Json StoredMembership
  snapshot : Json StateSnapshot
  snapshotMeta : Json SnapshotMeta

def raftStateTable : String := "__raft_state"
def raftSnapshotTable : String := "__raft_snapshot"
def raftMirrorTable : String := "__raft_state_machine_mirror"
def lastAppliedKey : Bytes := strBytes "last_applied"
def lastCommittedKey : Bytes := strBytes "last_committed"
def lastTxnIdKey : Bytes := strBytes "last_txn_id"
def lastAppliedLogIdKey : Bytes := strBytes "last_applied_log_id"
def lastMembershipKey : Bytes := strBytes "last_membership"
def currentSnapshotMetaKey : Bytes := strBytes "current_snapshot_meta"
def currentSnapshotDataKey : Bytes := strBytes "current_snapshot_data"

/-- The environments of the transaction with the command and of the one that records a conflict. -/
structure ApplyEnv where
  write : Env
  retry : Env
  commit_ne_conflict : write.commit ≠ .error .conflict

/-! ## Applying entries -/

def mirrorKey (table : String) (key : Bytes) : Bytes :=
  beBytes 4 (min (strBytes table).length (2 ^ 32 - 1)) ++ strBytes table ++ key

variable (C : CpCodecs)

def decodeMirrorKey (bytes : Bytes) : Result (String × Bytes) :=
  if bytes.length < 4 then
    .error (.corruption "mirror key must contain table length")
  else
    let len := beNat (bytes.take 4)
    if bytes.length < 4 + len then
      .error (.corruption "mirror key table bytes are truncated")
    else
      let table := (bytes.drop 4).take len
      match String.fromUTF8? ⟨table.toArray⟩ with
      | some name => .ok (name, bytes.drop (4 + len))
      | none => .error (.corruption (C.utf8Error table))

def writeOptionalLogId (s : Store) (key : Bytes) : Option LogId → Result Store
  | some logId => do return s.put raftStateTable key (← encodeWith C.logId.toVec logId)
  | none => .ok (s.delete raftStateTable key)

def encodeIo {α : Type} (codec : Json α) (value : α) : Result Bytes :=
  (codec.toVec value).mapError .io

def decodeIo {α : Type} (codec : Json α) (bytes : Bytes) : Result α :=
  (codec.fromSlice bytes).mapError .io

def writeApplyMetadata (s : Store) (logId : LogId) (membership : Option StoredMembership)
    (txnId : TxnId) : Result Store := do
  let s ← writeOptionalLogId C s lastAppliedLogIdKey (some logId)
  let s := s.put raftStateTable lastAppliedKey (be64 logId.index)
  let s := s.put raftStateTable lastCommittedKey (be64 logId.index)
  let s := s.put raftStateTable lastTxnIdKey (be64 txnId)
  match membership with
  | some membership =>
    return s.put raftStateTable lastMembershipKey (← encodeIo C.membership membership)
  | none => return s

def commitMetadata (env : Env) (s : Store) (logId : LogId) (membership : Option StoredMembership)
    (conflict : Bool) : Result (ReplApplyResponse × Store) := do
  let txnId ← currentTxnIdFrom s
  let s ← writeApplyMetadata C s logId membership txnId
  env.commit
  return ({ txnId, conflict }, s)

def applyMetadataOnly (env : Env) (s : Store) (logId : LogId)
    (membership : Option StoredMembership) : Result (ReplApplyResponse × Store) := do
  env.beginWrite
  commitMetadata C env s logId membership false

def applyMirror (s : Store) (writes : WriteSet) : Store :=
  writes.entries.foldl
    (fun s write => s.set raftMirrorTable (mirrorKey write.1.1 write.1.2) write.2) s

def entriesToWriteSet (entries : List (String × Bytes × Option Bytes)) : WriteSet :=
  entries.foldl (fun writes entry => writes.put entry.1 entry.2.1 entry.2.2) .empty

/-- The physical time of a command, zero when the command has none. -/
def hlcMs (hlc : Option HlcTimestamp) : UInt64 :=
  hlc.elim 0 (·.physicalMs)

def commandWriteSet (s : Store) : ReplCommand → Result WriteSet
  | .batch ops => .ok (opsToWriteSet ops)
  | .conditional _ ops _ => .ok (opsToWriteSet ops)
  | .txnCommit _ writes _ => .ok (entriesToWriteSet writes)
  | .distTxnPrepare txnId ops deadlineMs hlc =>
    prepareWriteSet C.toCodecs s txnId ops deadlineMs (hlcMs hlc)
  | .distTxnFinish txnId decision hlc => finishWriteSet C.toCodecs s txnId decision (hlcMs hlc)

def commandSnapshot (s : Store) : ReplCommand → Result TxnId
  | .txnCommit snapshotId _ _ => .ok snapshotId
  | _ => currentTxnIdFrom s

/-- The commit of a command's writes, with its mirror rows and its log position. -/
def commitCommand (env : Env) (s : Store) (logId : LogId) (snapshotId : TxnId)
    (writes : WriteSet) : Result (TxnId × Store) :=
  commitWriteSetInTxnWithExtraAuthorized C.toCodecs env s snapshotId writes .ok
    fun s nextTxnId => writeApplyMetadata C (applyMirror s writes) logId none nextTxnId

def applyCommand (env : ApplyEnv) (s : Store) (logId : LogId) (command : ReplCommand) :
    Result (ReplApplyResponse × Store) := do
  env.write.beginWrite
  if !command.conditions.all (conditionMatches s) then
    commitMetadata C env.write s logId none true
  else
    match commandWriteSet C s command with
    | .error .conflict => commitMetadata C env.write s logId none true
    | .error error => .error error
    | .ok writes =>
      let snapshotId ← commandSnapshot s command
      match commitCommand C env.write s logId snapshotId writes with
      | .ok (txnId, s) => return ({ txnId, conflict := false }, s)
      | .error .conflict =>
        -- the transaction with the command is gone; the conflict is recorded in a new one
        env.retry.beginWrite
        commitMetadata C env.retry s logId none true
      | .error error => .error error

def applyOne (env : ApplyEnv) (s : Store) (entry : CpEntry) :
    Result (ReplApplyResponse × Store) :=
  match entry.payload with
  | .blank => applyMetadataOnly C env.write s entry.logId none
  | .membership membership =>
    applyMetadataOnly C env.write s entry.logId
      (some { logId := some entry.logId, membership })
  | .normal command => applyCommand C env s entry.logId command

section Transactions

open Durable

/-- `commitMetadata`, with its storage commit as a step of its own. -/
def commitMetadataTxn (env : Env) (s : Store) (logId : LogId) (membership : Option StoredMembership)
    (conflict : Bool) : Durable Store StorageError ReplApplyResponse := do
  let txnId ← lift (currentTxnIdFrom s)
  let s ← lift (writeApplyMetadata C s logId membership txnId)
  commit env.commit s
  return { txnId, conflict }

/-- `commitCommand`, with its storage commit as a step of its own. -/
def commitCommandTxn (env : Env) (s : Store) (logId : LogId) (snapshotId : TxnId)
    (writes : WriteSet) : Durable Store StorageError TxnId := do
  lift (validateWriteLocks C.toCodecs s writes)
  lift (validateSnapshot s snapshotId writes)
  let current ← lift (currentTxnIdFrom s)
  let some nextTxnId := checkedSucc current
    | lift (.error (.backend "transaction id overflow"))
  let hlc ← lift (nextHlcInTxn C.toCodecs s env.tickedAt)
  let record := commitLogRecordWithClockAndHlc nextTxnId writes env.committedAt hlc
  let s ← lift (applyCommitRecordInTxn C.toCodecs s record)
  let s ← lift (writeApplyMetadata C (applyMirror s writes) logId none nextTxnId)
  commit env.commit s
  return nextTxnId

def applyCommandTxns (env : ApplyEnv) (logId : LogId) (command : ReplCommand) :
    Durable Store StorageError ReplApplyResponse := do
  let s ← beginWrite env.write.beginWrite
  if !command.conditions.all (conditionMatches s) then
    commitMetadataTxn C env.write s logId none true
  else
    match commandWriteSet C s command with
    | .error .conflict => commitMetadataTxn C env.write s logId none true
    | .error error => lift (.error error)
    | .ok writes =>
      let snapshotId ← lift (commandSnapshot s command)
      (commitCommandTxn C env.write s logId snapshotId writes).andThen fun
        | .ok txnId => return { txnId, conflict := false }
        | .error .conflict => do
          let s ← beginWrite env.retry.beginWrite
          commitMetadataTxn C env.retry s logId none true
        | .error error => lift (.error error)

/-- `apply_one` by its storage transactions. -/
def applyOneTxns (env : ApplyEnv) (entry : CpEntry) :
    Durable Store StorageError ReplApplyResponse :=
  match entry.payload with
  | .blank => do
    let s ← beginWrite env.write.beginWrite
    commitMetadataTxn C env.write s entry.logId none false
  | .membership membership => do
    let s ← beginWrite env.write.beginWrite
    commitMetadataTxn C env.write s entry.logId
      (some { logId := some entry.logId, membership }) false
  | .normal command => applyCommandTxns C env entry.logId command

end Transactions

/-- The loop of `apply`, with the responses it sends. -/
def applyEntries (s : Store) : List (ApplyEnv × CpEntry) →
    Result (List ReplApplyResponse × Store)
  | [] => .ok ([], s)
  | (env, entry) :: rest => do
    let (response, s) ← applyOne C env s entry
    let (responses, s) ← applyEntries s rest
    return (response :: responses, s)

def readLogId (s : Store) (key : Bytes) : Result (Option LogId) :=
  match s.get raftStateTable key with
  | none => .ok none
  | some bytes => some <$> decodeIo C.logId bytes

def readMembership (s : Store) : Result StoredMembership :=
  match s.get raftStateTable lastMembershipKey with
  | none => .ok {}
  | some bytes => decodeIo C.membership bytes

def appliedState (s : Store) : Result (Option LogId × StoredMembership) := do
  let applied ← readLogId C s lastAppliedLogIdKey
  return (applied, ← readMembership C s)

/-! ## Snapshots -/

/-- One row of a snapshot: a row of the mirror table, decoded. -/
def mirroredRow (row : Bytes × Bytes) : Result (String × Bytes × Bytes) := do
  let (table, key) ← decodeMirrorKey C row.1
  return (table, key, row.2)

def mirroredRows (s : Store) : Result (List (String × Bytes × Bytes)) :=
  (range s raftMirrorTable [] []).mapM (mirroredRow C)

/-- `build_snapshot`.  The id of a snapshot names the process and the size of the data. -/
def buildSnapshot (env : Env) (pid : ℕ) (s : Store) : Result ((SnapshotMeta × Bytes) × Store) := do
  let (applied, membership) ← appliedState C s
  let rows ← mirroredRows C s
  let data ← encodeIo C.snapshot { applied, membership, rows }
  let snapshotMeta : SnapshotMeta :=
    { lastLogId := applied, lastMembership := membership,
      snapshotId := "cp-" ++ toString pid ++ "-" ++ toString data.length }
  env.beginWrite
  let s := s.put raftSnapshotTable currentSnapshotMetaKey (← encodeIo C.snapshotMeta snapshotMeta)
  let s := s.put raftSnapshotTable currentSnapshotDataKey data
  env.commit
  return ((snapshotMeta, data), s)

def clearMirroredRow (s : Store) (row : Bytes × Bytes) : Result Store := do
  let (table, key) ← decodeMirrorKey C row.1
  return (s.delete table key).delete raftMirrorTable row.1

def clearMirroredState (s : Store) : Result Store :=
  (range s raftMirrorTable [] []).foldlM (clearMirroredRow C) s

/-- One row of a snapshot, in its table and in the mirror. -/
def installRow (s : Store) (row : String × Bytes × Bytes) : Store :=
  (s.put row.1 row.2.1 row.2.2).put raftMirrorTable (mirrorKey row.1 row.2.1) row.2.2

def installSnapshot (env : Env) (s : Store) (snapshotMeta : SnapshotMeta) (data : Bytes) :
    Result Store := do
  let decoded ← decodeIo C.snapshot data
  env.beginWrite
  let s ← clearMirroredState C s
  let s := decoded.rows.foldl installRow s
  let s ← writeOptionalLogId C s lastAppliedLogIdKey decoded.applied
  let s := match decoded.applied with
    | some logId => s.put raftStateTable lastAppliedKey (be64 logId.index)
    | none => s
  let s := s.put raftStateTable lastMembershipKey (← encodeIo C.membership decoded.membership)
  let s := s.put raftSnapshotTable currentSnapshotMetaKey (← encodeIo C.snapshotMeta snapshotMeta)
  let s := s.put raftSnapshotTable currentSnapshotDataKey data
  env.commit
  return s

end MultiDb
