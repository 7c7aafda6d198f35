import MultiDb.Model.Shard
import MultiDb.Shared.Merge

/-!
# Ordered scans over the shards

`scan_range_batches` of `repl/shard.rs` and `guarded_range` of `repl/shard/guarded.rs`.  The loops
get a number of rounds; the budget of `guarded_range` is one that never rejects.
-/

namespace MultiDb

open Shared

/-- The caller of a scan: whether it has cancelled, and what it makes of a batch. -/
structure ScanVisitor (σ : Type) where
  cancelled : σ → Bool
  onBatch : σ → List (Bytes × Bytes) → ReplResult (Bool × σ)

/-- The batches of one shard or of a range in memory. -/
def ScanVisitor.visit {σ : Type} (visitor : ScanVisitor σ) :
    List (List (Bytes × Bytes)) → σ → ReplResult σ
  | [], st => return st
  | batch :: batches, st =>
    if visitor.cancelled st then
      return st
    else do
      let (more, st) ← visitor.onBatch st batch
      if more then visitor.visit batches st else return st

/-- `batch_rows.clamp(1, 1_024)`. -/
def clampBatchRows (batchRows : ℕ) : ℕ :=
  max 1 (min batchRows 1024)

def keyLE (left right : Bytes × Bytes) : Bool :=
  (compare left.1 right.1).isLE

section Scan

variable (C : Codecs) (cfg : RouterConfig) (map : ShardMap) {σ : Type}

/-- The first of the rows that the shard owns; the rows before it are stale copies. -/
def firstOwned (shard : ShardId) (table : String) :
    List (Bytes × Bytes) → ReplResult (Option (Bytes × Bytes))
  | [] => return none
  | row :: rows => do
    if (← map.shardFor C cfg table row.1) = shard then
      return some row
    else
      firstOwned shard table rows

def nextOwnedRow (cancelled : Bool) (shard : ShardId) (table : String) (start stop : Bytes) :
    Router (Option (Bytes × Bytes)) :=
  if cancelled then
    return none
  else do
    let rows ← Router.ask shard (.range table start stop)
    Router.compute (firstOwned C cfg map shard table rows)

def scanHeads (table : String) (start stop : Bytes) :
    List ShardId → Router (List (ShardId × Option (Bytes × Bytes)))
  | [] => return []
  | shard :: shards => do
    let head ← nextOwnedRow C cfg map false shard table start stop
    return (shard, head) :: (← scanHeads table start stop shards)

/-- The loop of `scan_range_batches`. -/
def scanMerge (visitor : ScanVisitor σ) (table : String) (stop : Bytes) (batchRows : ℕ) :
    ℕ → List (ShardId × Option (Bytes × Bytes)) → List (Bytes × Bytes) → σ → Router σ
  | 0, _, _, _ => .fail (.transport "no rounds left")
  | rounds + 1, heads, batch, st =>
    if visitor.cancelled st then
      return st
    else
      match leastHead keyLE (heads.map Prod.snd) with
      | none =>
        if batch.isEmpty then
          return st
        else do
          let (_, st) ← Router.compute (visitor.onBatch st batch)
          return st
      | some (index, row) =>
        match heads[index]? with
        | none => .fail (.transport "missing shard scan head")
        | some (shard, _) =>
          if batchRows ≤ (batch ++ [row]).length then do
            let (more, st) ← Router.compute (visitor.onBatch st (batch ++ [row]))
            if more then
              let head ←
                nextOwnedRow C cfg map (visitor.cancelled st) shard table (row.1 ++ [0]) stop
              scanMerge visitor table stop batchRows rounds (heads.set index (shard, head)) []
                st
            else
              return st
          else do
            let head ← nextOwnedRow C cfg map false shard table (row.1 ++ [0]) stop
            scanMerge visitor table stop batchRows rounds (heads.set index (shard, head))
              (batch ++ [row]) st

/-- `ShardedReplication::scan_range_batches`.  `bounded` is `supports_bounded_scans`. -/
def scanRangeBatches (bounded : Bool) (visitor : ScanVisitor σ) (table : String)
    (start stop : Bytes) (batchRows rounds : ℕ) (st : σ) : Router σ :=
  if visitor.cancelled st || (!stop.isEmpty && (compare stop start).isLE) then
    return st
  else if !bounded then do
    let rows ← routedRange C cfg map table start stop
    Router.compute (visitor.visit (scanBatches (clampBatchRows batchRows) rows.length rows) st)
  else if isGlobalTable table then do
    let rows ← Router.ask cfg.globalShard (.range table start stop)
    Router.compute (visitor.visit (scanBatches (clampBatchRows batchRows) rows.length rows) st)
  else do
    let heads ← scanHeads C cfg map table start stop cfg.shards
    scanMerge C cfg map visitor table stop (clampBatchRows batchRows) rounds heads [] st

def guardedHead (shard : ShardId) (table : String) (start stop : Bytes) :
    Router (Option (Bytes × Bytes)) :=
  nextOwnedRow C cfg map false shard table start stop

/-- The loop of `guarded_range`. -/
def guardedMerge (visitor : σ → Bytes × Bytes → ReplResult (Bool × σ)) (table : String)
    (stop : Bytes) : ℕ → List (ShardId × Option (Bytes × Bytes)) → σ → Router σ
  | 0, _, _ => .fail (.transport "no rounds left")
  | rounds + 1, heads, st =>
    match leastHead keyLE (heads.map Prod.snd) with
    | none => return st
    | some (index, row) =>
      match heads[index]? with
      | none => .fail (.transport "missing guarded shard head")
      | some (shard, _) => do
        let (more, st) ← Router.compute (visitor st row)
        if more then
          let head ← guardedHead C cfg map shard table (row.1 ++ [0]) stop
          guardedMerge visitor table stop rounds (heads.set index (shard, head)) st
        else
          return st

/-- The rows of `visit_range` on one shard. -/
def visitRows (visitor : σ → Bytes × Bytes → ReplResult (Bool × σ)) :
    List (Bytes × Bytes) → σ → ReplResult σ
  | [], st => return st
  | row :: rows, st => do
    let (more, st) ← visitor st row
    if more then visitRows visitor rows st else return st

def guardedRange (visitor : σ → Bytes × Bytes → ReplResult (Bool × σ)) (table : String)
    (start stop : Bytes) (rounds : ℕ) (st : σ) : Router σ :=
  if !stop.isEmpty && (compare stop start).isLE then
    return st
  else if isGlobalTable table then do
    let rows ← Router.ask cfg.globalShard (.range table start stop)
    Router.compute (visitRows visitor rows st)
  else do
    let heads ← scanHeads C cfg map table start stop cfg.shards
    guardedMerge C cfg map visitor table stop rounds heads st

end Scan

def collectBatches : ScanVisitor (List (List (Bytes × Bytes))) where
  cancelled _ := false
  onBatch batches batch := .ok (true, batches ++ [batch])

def collectRow (rows : List (Bytes × Bytes)) (row : Bytes × Bytes) :
    ReplResult (Bool × List (Bytes × Bytes)) :=
  .ok (true, rows ++ [row])

end MultiDb
