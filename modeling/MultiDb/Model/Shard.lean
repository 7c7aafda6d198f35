import MultiDb.Model.SingleNode
import MultiDb.Shared.Programs

/-!
# The sharding router

`ShardedReplication` of `repl/shard.rs` over `SingleNode` shards.  The router keeps
no lock across its calls, so it is a program whose requests go to one shard each;
the shards answer them one at a time.
-/

namespace MultiDb

open Shared

/-- A call that a shard answers under its commit lock or on one read snapshot. -/
inductive Request
  | read (table : String) (key : Bytes)
  | range (table : String) (start stop : Bytes)
  | proposeBatch (ops : List Op)
  | proposeAuthorizedBatch (ops : List Op)
  | proposeAuthorizedConditionalBatch (batch : ConditionalBatch)
  | prepareDistTxn (txnId : TxnId) (ops : List Op)
  | finishDistTxn (txnId : TxnId) (decision : Decision)
  | localPreparedDistTxns
  | loadDistTxnDecision (txnId : TxnId)
  | registeredKeyspaces
  deriving DecidableEq

abbrev Request.Answer : Request → Type
  | read .. => Option Bytes
  | range .. => List (Bytes × Bytes)
  | prepareDistTxn .. => Vote
  | localPreparedDistTxns => List PreparedTxnRecord
  | loadDistTxnDecision _ => Option Decision
  | registeredKeyspaces => List String
  | proposeBatch _ | proposeAuthorizedBatch _ | proposeAuthorizedConditionalBatch _
  | finishDistTxn .. => Unit

def Request.exec (C : Codecs) (env : Env) (s : Store) : (r : Request) → ReplResult r.Answer × Store
  | read table key => (SingleNode.read s table key, s)
  | range table start stop => (SingleNode.range s table start stop, s)
  | proposeBatch ops => written s ((SingleNode.proposeBatch C env s ops).map ((), ·))
  | proposeAuthorizedBatch ops =>
    written s ((SingleNode.proposeAuthorizedBatch C env s ops).map ((), ·))
  | proposeAuthorizedConditionalBatch batch =>
    written s ((SingleNode.proposeAuthorizedConditionalBatch C env s batch).map ((), ·))
  | prepareDistTxn txnId ops => written s (SingleNode.prepareDistTxn C env s txnId ops)
  | finishDistTxn txnId decision =>
    written s ((SingleNode.finishDistTxn C env s txnId decision).map ((), ·))
  | localPreparedDistTxns => (SingleNode.localPreparedDistTxns C s, s)
  | loadDistTxnDecision txnId => (SingleNode.loadDistTxnDecision C s txnId, s)
  | registeredKeyspaces => (SingleNode.registeredKeyspaces C s, s)

structure Call where
  shard : ShardId
  request : Request
  deriving DecidableEq

abbrev Call.Reply (call : Call) : Type := ReplResult call.request.Answer

abbrev Router := Prog Call Call.Reply ReplError

def Router.ask (shard : ShardId) (request : Request) : Router request.Answer :=
  .call { shard, request } .done

def Router.tell (shard : ShardId) (request : Request) : Router (ReplResult request.Answer) :=
  .call { shard, request } fun reply => .done (.ok reply)

def Router.compute {α : Type} (result : ReplResult α) : Router α :=
  .done result

def shardMigrationsTable : String := "__shard_migrations"
def documentIndexTable : String := "document_indexes"
def documentIdLen : ℕ := 16
def distTxnSequenceTable : String := "__dist_txn_sequence"
def distTxnSequenceKey : Bytes := strBytes "last_allocated_id"

/-! ## The shard map -/

/-- `ShardMap`, with its hash-slot strategy. -/
structure ShardMap where
  version : UInt64
  partitions : UInt32
  placement : Std.ExtTreeMap PartitionId ShardId

/-- The shards a router is built over, in the order of their ids. -/
structure RouterConfig where
  shards : List ShardId
  globalShard : ShardId
  sorted : shards.Pairwise (· < ·)
  global_mem : globalShard ∈ shards

def isGlobalTable (table : String) : Bool :=
  (strBytes "__").isPrefixOf (strBytes table)

def rowKeyFromRelIndex (key : Bytes) : Option Bytes := do
  if key.length < 8 then
    none
  else
    let lenStart := key.length - 8
    let rowLen ← ofBe64? (key.drop lenStart)
    if rowLen.toNat ≤ lenStart then
      some ((key.drop (lenStart - rowLen.toNat)).take rowLen.toNat)
    else
      none

def documentKeyFromIndexKey (key : Bytes) : Option Bytes :=
  if key.length < 4 + documentIdLen then none
  else some (key.take 4 ++ key.drop (key.length - documentIdLen))

def tablePrefixFromRelKey (key : Bytes) : Option Bytes := do
  if key.length < 8 then
    none
  else
    let tableLen ← ofBe64? (key.take 8)
    let stop := 8 + tableLen.toNat
    if stop < 2 ^ 64 ∧ stop ≤ key.length then some (key.take stop) else none

def canonicalRouteKey (table : String) (key : Bytes) : Bytes :=
  if table = relIndexTable then (rowKeyFromRelIndex key).getD key
  else if table = documentIndexTable then (documentKeyFromIndexKey key).getD key
  else if table = relColumnarSegmentsTable then (tablePrefixFromRelKey key).getD key
  else key

/-- `stable_hash`: the first eight bytes of the hash. -/
def stableHash (C : Codecs) (key : Bytes) : UInt64 :=
  (ofBe64? ((C.blake3 key).take 8)).getD 0

namespace ShardMap

def partitionOf (C : Codecs) (map : ShardMap) (key : Bytes) : ReplResult PartitionId :=
  if map.partitions = 0 then
    .error (.unsupported "hash-slot partition count must be greater than zero")
  else
    .ok (UInt32.ofNat ((stableHash C key).toNat % map.partitions.toNat))

def shardForPartition (map : ShardMap) (partition : PartitionId) : ReplResult ShardId :=
  match map.placement[partition]? with
  | some shard => .ok shard
  | none => .error (.unsupported ("partition " ++ toString partition ++ " has no shard placement"))

def reassignPartition (map : ShardMap) (partition : PartitionId) (shard : ShardId) :
    ReplResult ShardMap :=
  match map.placement[partition]? with
  | none => .error (.unsupported ("partition " ++ toString partition ++ " has no shard placement"))
  | some current =>
    if current = shard then
      .ok map
    else
      match checkedSucc map.version with
      | some version => .ok { map with version, placement := map.placement.insert partition shard }
      | none => .error (.unsupported "shard map version overflow")

/-- `route`: no partition for a global table. -/
def route (C : Codecs) (map : ShardMap) (table : String) (key : Bytes) :
    ReplResult (Option PartitionId) :=
  if isGlobalTable table then .ok none
  else (map.partitionOf C (canonicalRouteKey table key)).map some

/-- `shard_for` and `shard_for_route`. -/
def shardFor (C : Codecs) (cfg : RouterConfig) (map : ShardMap) (table : String) (key : Bytes) :
    ReplResult ShardId := do
  match ← map.route C table key with
  | none => return cfg.globalShard
  | some partition => map.shardForPartition partition

end ShardMap

/-- `shard` and `ensure_shard_exists`. -/
def RouterConfig.shard (cfg : RouterConfig) (shard : ShardId) : ReplResult ShardId :=
  if shard ∈ cfg.shards then .ok shard
  else .error (.unsupported ("unknown shard " ++ toString shard))

/-- `map_err(Into::into)` of a storage result. -/
def storageResult {α : Type} (result : Result α) : ReplResult α :=
  result.mapError .storage

/-! ## The coordinator -/

section Coordinator

variable (C : Codecs) (cfg : RouterConfig)

def coordinatorDecisions : Router (List CoordinatorDecisionRecord) := do
  let rows ← Router.ask cfg.globalShard (.range distTxnCoordinatorTable [] [])
  Router.compute (storageResult (rows.mapM fun row => decodeDecision C row.2))

/-- The ids that a legacy cluster used without a sequence row. -/
def bootstrapMaximum : Router TxnId := do
  let decisions ← coordinatorDecisions C cfg
  let maximum := decisions.foldl (fun maximum record => max maximum record.txnId) 0
  cfg.shards.foldlM (fun maximum shard =>
    [distTxnParticipantTable, distTxnFinishedTable].foldlM (fun maximum table => do
      let rows ← Router.ask shard (.range table [] [])
      rows.foldlM (fun maximum row => do
        return max maximum (← Router.compute (storageResult (decodeTxnId row.1)))) maximum)
      maximum) maximum

/-- The last allocated id, from the sequence row or from the records. -/
def lastAllocated : Option Bytes → Router TxnId
  | some bytes => Router.compute (storageResult (decodeTxnId bytes))
  | none => bootstrapMaximum C cfg

def allocationBatch (previous : Option Bytes) (next : TxnId) : ConditionalBatch where
  conditions := [.valueEquals distTxnSequenceTable distTxnSequenceKey previous]
  ops := [.put distTxnSequenceTable distTxnSequenceKey (encodeTxnId next)]

/-- `allocate_dist_txn_id`, with the number of attempts left. -/
def allocateDistTxnId : ℕ → Router TxnId
  | 0 => .fail .conflict
  | attempts + 1 => do
    let previous ← Router.ask cfg.globalShard (.read distTxnSequenceTable distTxnSequenceKey)
    let last ← lastAllocated C cfg previous
    match checkedSucc last with
    | none => .fail (.unsupported "distributed transaction ID exhausted")
    | some next =>
      match ← Router.tell cfg.globalShard
        (.proposeAuthorizedConditionalBatch (allocationBatch previous next)) with
      | .ok () => return next
      | .error .conflict | .error (.storage .conflict) => allocateDistTxnId attempts
      | .error error => .fail error

/-- The first decision of a transaction as a conditional write. -/
def decisionBatch (txnId : TxnId) (bytes : Bytes) : ConditionalBatch where
  conditions := [.keyMissing distTxnCoordinatorTable (encodeTxnId txnId)]
  ops := [.put distTxnCoordinatorTable (encodeTxnId txnId) bytes]

def confirmDecision (txnId : TxnId) (decision : Decision) : Option Bytes → ReplResult Unit
  | none => .error .conflict
  | some bytes => do
    let existing ← storageResult (decodeDecision C bytes)
    if existing.txnId ≠ txnId ∨ existing.decision ≠ decision then
      .error .conflict

def recordDistTxnDecision (decidedAtMs : UInt64) (txnId : TxnId) (decision : Decision) :
    Router Unit := do
  let bytes ← Router.compute (storageResult (encodeDecision C
    { version := distTxnRecordVersion, txnId, decision, decidedAtMs,
      deadlineMs := defaultDistTxnDeadlineMs, retryCount := 0 }))
  match ← Router.tell cfg.globalShard
    (.proposeAuthorizedConditionalBatch (decisionBatch txnId bytes)) with
  | .ok () => return ()
  | .error .conflict | .error (.storage .conflict) =>
    let stored ← Router.ask cfg.globalShard (.read distTxnCoordinatorTable (encodeTxnId txnId))
    Router.compute (confirmDecision C txnId decision stored)
  | .error error => .fail error

/-- The prepare loop, up to the first shard that does not vote yes. -/
def prepareGroups (txnId : TxnId) : List (ShardId × List Op) → Router (Option ReplError)
  | [] => return none
  | (shard, ops) :: groups => do
    let shard ← Router.compute (cfg.shard shard)
    match ← Router.tell shard (.prepareDistTxn txnId ops) with
    | .ok .yes => prepareGroups txnId groups
    | .ok .no => return some .conflict
    | .error error => return some error

def finishGroups (txnId : TxnId) (decision : Decision) (shards : List ShardId) :
    Router (Option ReplError) :=
  shards.foldlM (fun finishError shard => do
    let shard ← Router.compute (cfg.shard shard)
    match ← Router.tell shard (.finishDistTxn txnId decision) with
    | .ok () => return finishError
    | .error error => return finishError.or (some error)) none

def proposeDistributedBatch (decidedAtMs : UInt64) (groups : List (ShardId × List Op)) :
    Router Unit := do
  let txnId ← allocateDistTxnId C cfg 64
  let prepareError ← prepareGroups cfg txnId groups
  let decision : Decision := if prepareError.isSome then .abort else .commit
  recordDistTxnDecision C cfg decidedAtMs txnId decision
  -- every possible participant is notified, also after an ambiguous prepare error
  let finishError ← finishGroups cfg txnId decision (groups.map Prod.fst)
  match prepareError.or finishError with
  | some error => .fail error
  | none => return ()

/-- `SingleNode::recover_dist_txns` on one shard. -/
def recoverShard (shard : ShardId) : Router Unit := do
  let records ← Router.ask shard .localPreparedDistTxns
  records.forM fun record => do
    match ← Router.ask shard (.loadDistTxnDecision record.txnId) with
    | some decision => Router.ask shard (.finishDistTxn record.txnId decision)
    | none => return ()

def recoverDistTxns : Router Unit := do
  let decisions ← coordinatorDecisions C cfg
  decisions.forM fun record => cfg.shards.forM fun shard =>
    Router.ask shard (.finishDistTxn record.txnId record.decision)
  cfg.shards.forM recoverShard

end Coordinator

section Write

variable (C : Codecs) (cfg : RouterConfig) (map : ShardMap)

def routePublicOps (ops : List Op) : ReplResult (Std.ExtTreeMap ShardId (List Op)) :=
  ops.foldlM (fun groups op => do
    let shard ← map.shardFor C cfg op.table op.key
    return groups.insert shard (groups.getD shard [] ++ [op])) ∅

def proposeBatch (decidedAtMs : UInt64) (ops : List Op) : Router Unit :=
  if ops.isEmpty then
    return ()
  else do
    Router.compute (storageResult (validatePublicOps ops))
    let groups ← Router.compute (routePublicOps C cfg map ops)
    if groups.size > 1 then
      proposeDistributedBatch C cfg decidedAtMs groups.toList
    else
      let group := groups.toList.head?.getD (cfg.globalShard, [])
      let shard ← Router.compute (cfg.shard group.1)
      Router.ask shard (.proposeBatch group.2)

end Write

section Read

variable (C : Codecs) (cfg : RouterConfig) (map : ShardMap)

/-- `ShardedReplication::read`. -/
def routedRead (table : String) (key : Bytes) : Router (Option Bytes) := do
  let shard ← Router.compute (map.shardFor C cfg table key >>= cfg.shard)
  Router.ask shard (.read table key)

/-- The rows of one shard that the shard currently owns. -/
def ownedRows (shard : ShardId) (table : String) (rows : List (Bytes × Bytes)) :
    ReplResult (List (Bytes × Bytes)) :=
  rows.filterM fun row => return (← map.shardFor C cfg table row.1) = shard

/-- `dedup_by` on keys. -/
def dedupByKey : List (Bytes × Bytes) → List (Bytes × Bytes)
  | [] => []
  | row :: rows => row :: (dedupByKey rows).dropWhile fun other => other.1 = row.1

/-- `ShardedReplication::range`. -/
def routedRange (table : String) (start stop : Bytes) : Router (List (Bytes × Bytes)) :=
  if isGlobalTable table then
    Router.ask cfg.globalShard (.range table start stop)
  else do
    let rows ← cfg.shards.foldlM (fun rows shard => do
      let found ← Router.ask shard (.range table start stop)
      return rows ++ (← Router.compute (ownedRows C cfg map shard table found))) []
    return dedupByKey (rows.mergeSort fun left right => (compare left.1 right.1).isLE)

end Read

/-- The batches of `scan_range_batches`. -/
def scanBatches {α : Type} (size : ℕ) : ℕ → List α → List (List α)
  | 0, _ => []
  | _, [] => []
  | fuel + 1, rows => rows.take size :: scanBatches size fuel (rows.drop size)

/-! ## Migration -/

section Migrate

variable (C : Codecs) (cfg : RouterConfig) (map : ShardMap)

/-- `set_migration`, as far as it is stored. -/
def setMigration (migration : ShardMigration) : Router Unit := do
  let bytes ← Router.compute ((C.migration.toVec migration).mapError .transport)
  Router.ask cfg.globalShard (.proposeAuthorizedBatch
    [.put shardMigrationsTable (beBytes 4 migration.partition.toNat) bytes])

/-- The rows of a batch that belong to the partition, as operations. -/
def partitionOps (partition : PartitionId) (table : String) (op : Bytes × Bytes → Op)
    (batch : List (Bytes × Bytes)) : ReplResult (List Op) := do
  let rows ← batch.filterM fun row => return (← map.route C table row.1) = some partition
  return rows.map op

/-- One pass of `copy_partition` over a table, batch by batch. -/
def copyPass (partition : PartitionId) (source target : ShardId) (table : String)
    (op : Bytes × Bytes → Op) : Router Unit := do
  let source ← Router.compute (cfg.shard source)
  let rows ← Router.ask source (.range table [] [])
  (scanBatches 128 rows.length rows).forM fun batch => do
    let ops ← Router.compute (partitionOps C map partition table op batch)
    if ops.isEmpty then
      return ()
    else
      let target ← Router.compute (cfg.shard target)
      Router.ask target (.proposeBatch ops)

/-- `copy_partition`: copies from an earlier attempt disappear first. -/
def copyPartition (partition : PartitionId) (source target : ShardId) (tables : List String) :
    Router Unit :=
  tables.forM fun table => do
    copyPass C cfg map partition target target table fun row => .delete table row.1
    copyPass C cfg map partition source target table fun row => .put table row.1 row.2

/-- The tables that a migration copies: the public tables of both inventories. -/
def migrationTables (source target : ShardId) : Router (List String) := do
  let source ← Router.compute (cfg.shard source)
  let sourceTables : List String ← Router.ask source .registeredKeyspaces
  let target ← Router.compute (cfg.shard target)
  let targetTables : List String ← Router.ask target .registeredKeyspaces
  return (Std.ExtTreeSet.ofList ((sourceTables ++ targetTables).filter fun table =>
    !isGlobalTable table)).toList

/-- `migrate_partition` before the placement changes. -/
def startMigration (partition : PartitionId) (target : ShardId) : Router ShardMigration := do
  let target ← Router.compute (cfg.shard target)
  let source ← Router.compute (map.shardForPartition partition)
  let migration : ShardMigration := { partition, source, target, state := .copying }
  if source = target then
    setMigration C cfg { migration with state := .done }
    return { migration with state := .done }
  else
    let tables ← migrationTables cfg source target
    setMigration C cfg migration
    match ← (copyPartition C cfg map partition source target tables).attempt with
    | .error error =>
      let _ ← (setMigration C cfg { migration with state := .aborted }).attempt
      .fail error
    | .ok () =>
      setMigration C cfg { migration with state := .switching }
      return { migration with state := .switching }

/-- `migrate_partition`: its result and the placement after it. -/
def migratePartition (partition : PartitionId) (target : ShardId) :
    Router (ReplResult ShardMigration × ShardMap) := do
  match ← (startMigration C cfg map partition target).attempt with
  | .error error => return (.error error, map)
  | .ok migration =>
    if migration.state = .done then
      return (.ok migration, map)
    else
      match map.reassignPartition partition target with
      | .error error =>
        let _ ← (setMigration C cfg { migration with state := .aborted }).attempt
        return (.error error, map)
      | .ok placed =>
        let migration := { migration with state := .done }
        match ← (setMigration C cfg migration).attempt with
        | .error error => return (.error error, placed)
        | .ok () => return (.ok migration, placed)

end Migrate

end MultiDb
