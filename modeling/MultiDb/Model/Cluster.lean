import MultiDb.Model.Shard

/-!
# Routers over shared shards

Any number of routers run against the same shards.  The cluster also remembers which transaction
ids were allocated and where operations were applied; no code reads these two.
-/

namespace MultiDb

open Shared

/-- The stores of the shards, with the history of allocations and applications. -/
structure Cluster where
  stores : ShardId → Store
  allocated : List TxnId := []
  applied : List (ShardId × TxnId) := []

/-- The id that an operation stores in the sequence row. -/
def Op.sequenceId : Op → Option TxnId
  | put table key value =>
    if table = distTxnSequenceTable ∧ key = distTxnSequenceKey then ofBe64? value else none
  | delete _ _ => none

/-- The ids that a call hands out: a successful swap of the sequence row. -/
def Request.allocates : (r : Request) → ReplResult r.Answer → List TxnId
  | proposeAuthorizedConditionalBatch batch, .ok _ => batch.ops.filterMap Op.sequenceId
  | _, _ => []

/-- The transaction that a call applies: a finish with a commit, prepared on the shard. -/
def Request.applies (s : Store) : (r : Request) → ReplResult r.Answer → Option TxnId
  | finishDistTxn txnId .commit, .ok _ =>
    if (s.get distTxnParticipantTable (encodeTxnId txnId)).isSome then some txnId else none
  | _, _ => none

def Cluster.exec (C : Codecs) (env : Env) (c : Cluster) (call : Call) : call.Reply × Cluster :=
  let s := c.stores call.shard
  let (reply, s') := call.request.exec C env s
  (reply,
    { stores := Function.update c.stores call.shard s'
      allocated := call.request.allocates reply ++ c.allocated
      applied := ((call.request.applies s reply).map (call.shard, ·)).toList ++ c.applied })

/-- The shards as a service that a caller may lose contact with. -/
def shardService (C : Codecs) : Service Cluster Call Call.Reply Env ReplError where
  exec := Cluster.exec C
  failure error _ := .error error

inductive RouterJob
  | proposeBatch (map : ShardMap) (decidedAtMs : UInt64) (ops : List Op)
  | proposeDistributedBatch (decidedAtMs : UInt64) (groups : List (ShardId × List Op))
  | recordDistTxnDecision (decidedAtMs : UInt64) (txnId : TxnId) (decision : Decision)
  | recoverDistTxns

def RouterJob.program (C : Codecs) (cfg : RouterConfig) : RouterJob → Router Unit
  | proposeBatch map decidedAtMs ops => MultiDb.proposeBatch C cfg map decidedAtMs ops
  | proposeDistributedBatch decidedAtMs groups =>
    MultiDb.proposeDistributedBatch C cfg decidedAtMs groups
  | recordDistTxnDecision decidedAtMs txnId decision =>
    MultiDb.recordDistTxnDecision C cfg decidedAtMs txnId decision
  | recoverDistTxns => MultiDb.recoverDistTxns C cfg

def Cluster.empty : Cluster where
  stores _ := .empty

/-- Routers at work on the shards of one cluster. -/
abbrev RouterSys := Sys Cluster Call Call.Reply ReplError RouterJob

/-- The routers after an interleaved run of their operations on empty shards. -/
def runRouters (C : Codecs) (cfg : RouterConfig)
    (events : List (SysEvent RouterJob Env ReplError)) : RouterSys :=
  Sys.run (shardService C) (RouterJob.program C cfg) .empty events

end MultiDb
