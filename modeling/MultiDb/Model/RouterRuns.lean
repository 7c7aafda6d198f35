import MultiDb.Model.Cluster
import MultiDb.Shared.Sequential

/-!
# Runs of one router

One router serves batches, partition migrations and recoveries one after the other.  Its finish
calls, or their answers, may get lost.
-/

namespace MultiDb

open Shared

/-- How a finish call fails: before the shard has seen it, or after it was served. -/
inductive FinishFault
  | lost (error : ReplError)
  | unanswered (error : ReplError)

structure CallInput where
  env : Env
  fault : Option FinishFault := none

/-- A shard serves a call; only finish calls have faults. -/
def serveCall (C : Codecs) (input : CallInput) (c : Cluster) : (call : Call) → call.Reply × Cluster
  | ⟨shard, .finishDistTxn txnId decision⟩ =>
    let (reply, c') := c.exec C input.env ⟨shard, .finishDistTxn txnId decision⟩
    match input.fault with
    | none => (reply, c')
    | some (.lost error) => (.error error, c)
    | some (.unanswered error) => (.error error, c')
  | call => c.exec C input.env call

/-- A shard serves a call; every call may fail, as a finish does. -/
def serveFaulty (C : Codecs) (input : CallInput) (c : Cluster) (call : Call) :
    call.Reply × Cluster :=
  let (reply, c') := c.exec C input.env call
  match input.fault with
  | none => (reply, c')
  | some (.lost error) => (.error error, c)
  | some (.unanswered error) => (.error error, c')

structure RouterState where
  cluster : Cluster
  map : ShardMap
  committed : WriteSet

def RouterState.init (map : ShardMap) : RouterState where
  cluster := .empty
  map := map
  committed := .empty

/-- The check of `ShardedReplication::new`: the map references known shards only. -/
def RouterConfig.accepts (cfg : RouterConfig) (map : ShardMap) : Bool :=
  map.placement.toList.all fun placement => placement.2 ∈ cfg.shards

/-- The decision that the coordinator's shard stores for a transaction. -/
def Cluster.decision (C : Codecs) (cfg : RouterConfig) (c : Cluster) (txnId : TxnId) :
    Option Decision :=
  match SingleNode.loadDistTxnDecision C (c.stores cfg.globalShard) txnId with
  | .ok decision => decision
  | .error _ => none

/-- Whether a batch has committed: by its durable decision or else by its result. -/
def batchCommitted (C : Codecs) (cfg : RouterConfig) (before after : Cluster) (succeeded : Bool) :
    Option Bool :=
  if after.allocated = before.allocated then some succeeded
  else
    (after.allocated.head?.bind (after.decision C cfg)).map fun decision => decision = .commit

inductive RouterOp
  | batch (decidedAtMs : UInt64) (ops : List Op)
  | migrate (partition : PartitionId) (target : ShardId)
  | recover

structure RouterStep where
  op : RouterOp
  inputs : ℕ → CallInput

section Runs

variable (C : Codecs) (cfg : RouterConfig)

/-- There is no state after an undecided batch or a failed migration. -/
def RouterState.step (st : RouterState) (step : RouterStep) : Option RouterState :=
  match step.op with
  | .batch decidedAtMs ops =>
    let (result, c) :=
      (proposeBatch C cfg st.map decidedAtMs ops).run (serveCall C) step.inputs st.cluster
    (batchCommitted C cfg st.cluster c result.isOk).map fun committed =>
      { cluster := c
        map := st.map
        committed :=
          if committed then st.committed.extend (opsToWriteSet ops) else st.committed }
  | .migrate partition target =>
    match (migratePartition C cfg st.map partition target).run (serveCall C) step.inputs
        st.cluster with
    | (.ok (.ok _, map), c) => some { st with cluster := c, map }
    | _ => none
  | .recover =>
    some { st with
      cluster := ((recoverDistTxns C cfg).run (serveCall C) step.inputs st.cluster).2 }

def RouterState.run (st : RouterState) (steps : List RouterStep) : Option RouterState :=
  steps.foldlM (RouterState.step C cfg) st

end Runs

end MultiDb
