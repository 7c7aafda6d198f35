import MultiDb.Model.Txn

/-!
# One node

`SingleNode` of `repl/mod.rs`.  Every call holds the commit lock or one read snapshot, so it is a
function on the store.
-/

namespace MultiDb

open Shared

/-- The part of `ReplError` that nodes and routers return. -/
inductive ReplError
  | conflict
  | storage (error : StorageError)
  | transport (message : String)
  | unsupported (message : String)
  | quotaExceeded (tenant : String) (requested remaining : ℕ)
  deriving DecidableEq, Repr

abbrev ReplResult (α : Type) := Except ReplError α

inductive Vote
  | yes
  | no
  deriving DecidableEq, Repr

structure ConditionalBatch where
  conditions : List WriteCondition
  ops : List Op
  deriving DecidableEq, Repr

/-- The conversion of conditional commits and of `finish_dist_txn`. -/
def ReplError.ofStorage : StorageError → ReplError
  | .conflict => .conflict
  | error => .storage error

/-- `now_ms` of `repl/dist_txn.rs`. -/
def nowMs (env : Env) : UInt64 :=
  unixMs env.stampedAt

def conditionMatches (s : Store) : WriteCondition → Bool
  | .keyMissing table key => (s.get table key).isNone
  | .valueEquals table key expected => s.get table key = expected

variable (C : Codecs)

def commitConditionalBatchAuthorized (env : Env) (s : Store) (batch : ConditionalBatch) :
    Result (TxnId × Store) := do
  env.beginWrite
  if !batch.conditions.all (conditionMatches s) then
    .error .conflict
  else
    let snapshot ← currentTxnIdFrom s
    if batch.ops.isEmpty then
      return (snapshot, s)
    else
      commitPlain C env s snapshot (opsToWriteSet batch.ops)

def commitConditionalBatch (env : Env) (s : Store) (batch : ConditionalBatch) :
    Result (TxnId × Store) := do
  validatePublicConditions batch.conditions
  validatePublicOps batch.ops
  commitConditionalBatchAuthorized C env s batch

/-- `commit_group`: the batches that wait for one group commit, as one commit. -/
def commitGroup (env : Env) (s : Store) (requests : List (List Op)) : Result (TxnId × Store) :=
  commitWriteSetAtCurrent C env s (opsToWriteSet requests.flatten)

/-- The commit of a prepare or a finish: nothing when it staged no write. -/
def commitStaged (env : Env) (s : Store) (writes : WriteSet) : Result Store := do
  if writes.entries.isEmpty then
    return s
  else
    let (_, s) ← commitPlain C env s (← currentTxnIdFrom s) writes
    return s

namespace SingleNode

/-- `propose_batch` without a group-commit window. -/
def proposeBatch (env : Env) (s : Store) (ops : List Op) : ReplResult Store :=
  ((commitOpsAtCurrent C env s ops).mapError .storage).map Prod.snd

/-- `propose_batch` of all members of one group commit. -/
def proposeGroup (env : Env) (s : Store) (requests : List (List Op)) : ReplResult Store :=
  ((commitGroup C env s requests).mapError .storage).map Prod.snd

def proposeAuthorizedBatch (env : Env) (s : Store) (ops : List Op) : ReplResult Store :=
  ((commitOpsAtCurrentAuthorized C env s ops).mapError .storage).map Prod.snd

def proposeConditionalBatch (env : Env) (s : Store) (batch : ConditionalBatch) :
    ReplResult Store :=
  ((commitConditionalBatch C env s batch).mapError .ofStorage).map Prod.snd

def proposeAuthorizedConditionalBatch (env : Env) (s : Store) (batch : ConditionalBatch) :
    ReplResult Store :=
  ((commitConditionalBatchAuthorized C env s batch).mapError .ofStorage).map Prod.snd

def commitWriteSet (env : Env) (s : Store) (snapshotId : TxnId) (writes : WriteSet) :
    ReplResult Store :=
  ((MultiDb.commitWriteSet C env s snapshotId writes).mapError .storage).map Prod.snd

def prepareDistTxn (env : Env) (s : Store) (txnId : TxnId) (ops : List Op) :
    ReplResult (Vote × Store) := do
  (validatePublicOps ops).mapError .storage
  env.beginWrite.mapError .storage
  match prepareWriteSet C s txnId ops defaultDistTxnDeadlineMs (nowMs env) with
  | .error .conflict => return (.no, s)
  | .error error => .error (.storage error)
  | .ok writes => return (.yes, ← (commitStaged C env s writes).mapError .storage)

def finishDistTxn (env : Env) (s : Store) (txnId : TxnId) (decision : Decision) :
    ReplResult Store := do
  env.beginWrite.mapError .storage
  let writes ← (finishWriteSet C s txnId decision (nowMs env)).mapError .ofStorage
  (commitStaged C env s writes).mapError .storage

def read (s : Store) (table : String) (key : Bytes) : ReplResult (Option Bytes) := do
  (validateReadKey s table key).mapError .storage
  return s.get table key

/-- `range`, and the rows that `scan_range_batches` visits. -/
def range (s : Store) (table : String) (start stop : Bytes) :
    ReplResult (List (Bytes × Bytes)) := do
  (validateReadRange s table start stop).mapError .storage
  return MultiDb.range s table start stop

def loadDistTxnDecision (s : Store) (txnId : TxnId) : ReplResult (Option Decision) :=
  match s.get distTxnCoordinatorTable (encodeTxnId txnId) with
  | none => .ok none
  | some bytes => ((decodeDecision C bytes).mapError .storage).map fun record =>
    some record.decision

def localPreparedDistTxns (s : Store) : ReplResult (List PreparedTxnRecord) :=
  ((MultiDb.range s distTxnParticipantTable [] []).mapM fun row =>
    decodePrepared C row.2).mapError .storage

def keyspaceName (key : Bytes) : Result String :=
  match String.fromUTF8? ⟨key.toArray⟩ with
  | some name => .ok name
  | none => .error (.corruption ("invalid keyspace inventory name: " ++ C.utf8Error key))

/-- `registered_keyspaces`: the public tables a commit has written to. -/
def registeredKeyspaces (s : Store) : ReplResult (List String) := do
  let rows ← range s keyspaceRegistryTable [] []
  let names ← (rows.mapM fun row => keyspaceName C row.1).mapError .storage
  return names.filter fun name => !tableIsReserved name

end SingleNode

/-- The reply and the new store of a write, which keeps the store when it fails. -/
def written {α : Type} (s : Store) : ReplResult (α × Store) → ReplResult α × Store
  | .ok (answer, s') => (.ok answer, s')
  | .error error => (.error error, s)

end MultiDb
