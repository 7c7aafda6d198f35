import MultiDb.Model.Documents
import MultiDb.Model.SingleNode

/-!
# Tenant quotas and the write pipeline

`TenantRuntime` of `cloud.rs` and `WritePipeline::execute` of `db/mod.rs`.
-/

namespace MultiDb

open Shared

/-- `CloudError`, without the URL and backup errors of other calls. -/
inductive CloudError
  | io (message : String)
  | storage (error : StorageError)
  | serde (message : String)
  | quotaExceeded (tenant : String) (requested remaining : ℕ)
  | tenantLimitExceeded (tenant kind : String) (limit : ℕ)
  | leaseExists (path : String)
  | leaseOwnerMismatch (path : String)
  | unsupported (message : String)
  deriving DecidableEq, Repr

/-- The `Display` text of an error. -/
def CloudError.display : CloudError → String
  | io message => "io: " ++ message
  | storage error => "storage: " ++ error.display
  | serde message => "serialization: " ++ message
  | quotaExceeded tenant requested remaining =>
    "quota exceeded for tenant " ++ tenant ++ ": requested " ++ toString requested ++
      " bytes, remaining " ++ toString remaining ++ " bytes"
  | tenantLimitExceeded tenant kind limit =>
    "tenant " ++ tenant ++ " exceeded concurrent " ++ kind ++ " limit " ++ toString limit
  | leaseExists path => "cloud lease already exists: " ++ path
  | leaseOwnerMismatch path => "cloud lease owner mismatch: " ++ path
  | unsupported message => "unsupported cloud operation: " ++ message

abbrev CloudResult (α : Type) := Except CloudError α

def replQuotaError : CloudError → ReplError
  | .quotaExceeded tenant requested remaining => .quotaExceeded tenant requested remaining
  | .tenantLimitExceeded tenant _ _ => .quotaExceeded tenant 1 0
  | other => .storage (.backend other.display)

/-- `TenantQuota`, its limits on writes. -/
structure TenantQuota where
  maxStorageBytes : UInt64
  maxConcurrentWrites : ℕ
  deriving DecidableEq, Repr

structure QuotaReservation where
  tenantId : String
  bytes : ℕ
  deriving DecidableEq, Repr

/-- `TenantRuntime`: its configuration and the counters behind its locks. -/
structure TenantRuntime where
  tenantId : String
  quota : TenantQuota
  usedStorageBytes : ℕ := 0
  activeWrites : ℕ := 0
  deriving DecidableEq, Repr

def rowBytes (table : String) (key value : Bytes) : ℕ :=
  (strBytes table).length + key.length + value.length

def estimateOpsBytes (ops : List Op) : ℕ :=
  (ops.map fun op => match op with
    | .put table key value => rowBytes table key value
    | .delete _ _ => 0).sum

def estimateDeleteBytes (ops : List Op) : ℕ :=
  (ops.map fun op => match op with
    | .put _ _ _ => 0
    | .delete table key => (strBytes table).length + key.length).sum

namespace TenantRuntime

/-- `used.saturating_add(requested)` on `u64`. -/
def saturatingAdd (used requested : ℕ) : ℕ :=
  min (2 ^ 64 - 1) (used + requested)

def reserveOps (tenant : TenantRuntime) (ops : List Op) :
    CloudResult (QuotaReservation × TenantRuntime) :=
  let requested := estimateOpsBytes ops
  let remaining := tenant.quota.maxStorageBytes.toNat - tenant.usedStorageBytes
  if requested > remaining then
    .error (.quotaExceeded tenant.tenantId requested remaining)
  else
    .ok ({ tenantId := tenant.tenantId, bytes := requested },
      { tenant with usedStorageBytes := saturatingAdd tenant.usedStorageBytes requested })

def release (tenant : TenantRuntime) (reservation : QuotaReservation) : TenantRuntime :=
  { tenant with usedStorageBytes := tenant.usedStorageBytes - reservation.bytes }

def commitSuccessfulOps (tenant : TenantRuntime) (ops : List Op) : TenantRuntime :=
  { tenant with usedStorageBytes := tenant.usedStorageBytes - estimateDeleteBytes ops }

def tryBeginWrite (tenant : TenantRuntime) : CloudResult TenantRuntime :=
  if tenant.activeWrites ≥ tenant.quota.maxConcurrentWrites then
    .error (.tenantLimitExceeded tenant.tenantId "write" tenant.quota.maxConcurrentWrites)
  else
    .ok { tenant with activeWrites := tenant.activeWrites + 1 }

def dropWritePermit (tenant : TenantRuntime) : TenantRuntime :=
  { tenant with activeWrites := tenant.activeWrites - 1 }

end TenantRuntime

/-- `Replication`, as the commit closures of the pipeline use it.  A call answers and leaves a
state, also when it fails. -/
structure Backend (β : Type) where
  /-- The rows that reads return. -/
  rows : β → Store
  proposeBatch : Env → β → List Op → ReplResult Unit × β
  proposeConditionalBatch : Env → β → ConditionalBatch → ReplResult Unit × β
  proposePlainDocumentLww : Env → β → UInt32 → Op → ReplResult Unit × β
  commitWriteSet : Env → β → TxnId → WriteSet → ReplResult Unit × β
  commitWriteSetWithPreflight :
    Env → β → TxnId → WriteSet → (Store → Result Unit) → ReplResult Unit × β

/-- The `commit` argument of `execute`: the call that writes the batch to the backend. -/
inductive CommitCall
  | proposeBatch
  | proposeConditionalBatch
  /-- A plain document of an AP cluster, under the key that the caller named. -/
  | proposePlainDocumentLww (collectionId : UInt32) (sourceKey : Bytes)
  | commitWriteSet (snapshotId : TxnId)
  /-- A serializable transaction, with the check of what it read. -/
  | commitWriteSetWithPreflight (snapshotId : TxnId) (validateReads : Store → Result Unit)

/-- `SingleNode` as a backend. -/
def singleNodeBackend (C : Codecs) : Backend Store where
  rows s := s
  proposeBatch env s ops := written s ((SingleNode.proposeBatch C env s ops).map ((), ·))
  proposeConditionalBatch env s batch :=
    written s ((SingleNode.proposeConditionalBatch C env s batch).map ((), ·))
  proposePlainDocumentLww _ s _ _ :=
    (.error (.unsupported "plain document LWW is not supported"), s)
  commitWriteSet env s snapshotId writes :=
    written s ((SingleNode.commitWriteSet C env s snapshotId writes).map ((), ·))
  commitWriteSetWithPreflight env s snapshotId writes validateReads :=
    written s ((((MultiDb.commitWriteSetWithPreflight C env s snapshotId writes
      validateReads).mapError .storage).map Prod.snd).map ((), ·))

variable {β : Type} (B : Backend β)

def CommitCall.run (env : Env) (b : β) (batch : ConditionalBatch) : CommitCall → ReplResult Unit × β
  | proposeBatch => B.proposeBatch env b batch.ops
  | proposeConditionalBatch => B.proposeConditionalBatch env b batch
  | proposePlainDocumentLww collectionId sourceKey =>
    match batch.conditions, batch.ops with
    | [], [op] =>
      if op.table = documentTable ∧ op.key = sourceKey then
        B.proposePlainDocumentLww env b collectionId op
      else
        (.error (.unsupported "plain AP document LWW changed its source identity"), b)
    | _, _ =>
      (.error (.unsupported "plain AP document LWW cannot include index or trigger deltas"), b)
  | commitWriteSet snapshotId => B.commitWriteSet env b snapshotId (opsToWriteSet batch.ops)
  | commitWriteSetWithPreflight snapshotId validateReads =>
    B.commitWriteSetWithPreflight env b snapshotId (opsToWriteSet batch.ops) validateReads

/-- One call of `execute`; `staged` is what checks, triggers and hooks make of its operations. -/
structure WriteCall where
  conditions : List WriteCondition
  staged : ReplResult (List Op)
  commit : CommitCall

structure Pipeline (β : Type) where
  backend : β
  tenant : TenantRuntime

/-- `WritePipeline::execute` without other calls in between. -/
def Pipeline.execute (env : Env) (p : Pipeline β) (call : WriteCall) :
    Pipeline β × ReplResult Unit :=
  match call.staged with
  | .error error => (p, .error error)
  | .ok ops =>
    match p.tenant.tryBeginWrite with
    | .error error => (p, .error (replQuotaError error))
    | .ok tenant =>
      match tenant.reserveOps ops with
      | .error error => ({ p with tenant := tenant.dropWritePermit }, .error (replQuotaError error))
      | .ok (reservation, tenant) =>
        match call.commit.run B env p.backend { conditions := call.conditions, ops } with
        | (.error error, backend) =>
          ({ backend, tenant := (tenant.release reservation).dropWritePermit }, .error error)
        | (.ok _, backend) =>
          ({ backend, tenant := (tenant.commitSuccessfulOps ops).dropWritePermit }, .ok ())

/-! ## Concurrent writes -/

/-- How far a call of `execute` has come; each lock it takes is one stage. -/
inductive WriteStage
  | admitted
  | reserved (reservation : QuotaReservation)
  /-- The commit returned an error and the reservation is still held. -/
  | failed (reservation : QuotaReservation) (error : ReplError)
  /-- The commit returned and the deletes are not given back yet. -/
  | written (reservation : QuotaReservation)
  | closing (result : ReplResult Unit)
  | finished (result : ReplResult Unit)

/-- A call of `execute` in flight or finished. -/
structure WriteFlight where
  conditions : List WriteCondition
  ops : List Op
  commit : CommitCall
  stage : WriteStage

def WriteCall.flight (call : WriteCall) (ops : List Op) (stage : WriteStage) : WriteFlight :=
  { conditions := call.conditions, ops, commit := call.commit, stage }

structure PipelineState (β : Type) extends Pipeline β where
  calls : List WriteFlight := []

namespace PipelineState

def init (backend : β) (tenantId : String) (quota : TenantQuota) : PipelineState β where
  backend
  tenant := { tenantId, quota }

/-- A call enters: it is refused, or it gets a write permit. -/
def enter (p : PipelineState β) (call : WriteCall) : PipelineState β :=
  match call.staged with
  | .error error => { p with calls := p.calls ++ [call.flight [] (.finished (.error error))] }
  | .ok ops =>
    match p.tenant.tryBeginWrite with
    | .error error =>
      { p with calls := p.calls ++ [call.flight ops (.finished (.error (replQuotaError error)))] }
    | .ok tenant => { p with tenant := tenant, calls := p.calls ++ [call.flight ops .admitted] }

def moveTo (p : PipelineState β) (i : ℕ) (flight : WriteFlight) (stage : WriteStage) :
    PipelineState β :=
  { p with calls := p.calls.set i { flight with stage } }

/-- The commit call that a flight makes next, when it is at that point. -/
def commitResult (env : Env) (p : PipelineState β) (flight : WriteFlight) : ReplResult Unit × β :=
  flight.commit.run B env p.backend { conditions := flight.conditions, ops := flight.ops }

def advanceFlight (env : Env) (p : PipelineState β) (i : ℕ) (flight : WriteFlight) :
    PipelineState β :=
  match flight.stage with
  | .admitted =>
    match p.tenant.reserveOps flight.ops with
    | .ok (reservation, tenant) =>
      { p with tenant := tenant }.moveTo i flight (.reserved reservation)
    | .error error => p.moveTo i flight (.closing (.error (replQuotaError error)))
  | .reserved reservation =>
    match p.commitResult B env flight with
    | (.ok _, backend) => { p with backend := backend }.moveTo i flight (.written reservation)
    | (.error error, backend) =>
      { p with backend := backend }.moveTo i flight (.failed reservation error)
  | .failed reservation error =>
    { p with tenant := p.tenant.release reservation }.moveTo i flight (.closing (.error error))
  | .written _ =>
    { p with tenant := p.tenant.commitSuccessfulOps flight.ops }.moveTo i flight (.closing (.ok ()))
  | .closing result =>
    { p with tenant := p.tenant.dropWritePermit }.moveTo i flight (.finished result)
  | .finished _ => p

inductive Step
  | enter (call : WriteCall)
  | advance (i : ℕ) (env : Env)

def step (p : PipelineState β) : Step → PipelineState β
  | .enter call => p.enter call
  | .advance i env =>
    match p.calls[i]? with
    | some flight => p.advanceFlight B env i flight
    | none => p

def run (p : PipelineState β) (steps : List Step) : PipelineState β :=
  steps.foldl (step B) p

end PipelineState

end MultiDb
