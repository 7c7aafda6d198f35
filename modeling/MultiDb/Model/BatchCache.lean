import MultiDb.Model.History
import MultiDb.Model.Rel

/-!
# The cache of scanned batches

`txn/table_version.rs`, `query/batch_cache.rs` and the unfiltered scan of
`query/row_scan.rs`.  Each step of a scan takes its own snapshot or lock; writers and other readers
run between them.
-/

namespace MultiDb

open Shared

def readTableDataVersionFrom (s : Store) (table : String) : Result (Option TxnId) := do
  if tableIsReserved table then
    return none
  if ← hasRangeLocks s table [] [] then
    return none
  match s.get tableDataVersionTable (strBytes table) with
  | none => return some 0
  | some bytes => return some (← decodeTxnId bytes)

/-- `Key`: what a scan depends on besides the rows, and the token of the rows. -/
structure BatchKey (σ : Type) where
  table : String
  schema : σ
  projection : Option (List ℕ)
  batchRows : ℕ
  version : TxnId
  deriving DecidableEq, Repr

/-- Arrow: schemas `σ`, record batches `β`, and the sizes that Rust reports for them. -/
structure Arrow (σ β : Type) where
  projectSchema : σ → List ℕ → σ
  hasNoFields : σ → Bool
  /-- A batch without columns, which only has a row count. -/
  countBatch : σ → ℕ → QueryResult β
  rowsToRecordBatch : σ → List Row → QueryResult β
  weight : BatchKey σ → List β → ℕ

variable {σ β : Type} [DecidableEq σ] (C : RelCodecs) (A : Arrow σ β)

/-- The rows of an unfinished batch and the finished batches. -/
structure BatchBuilder (β : Type) where
  rows : List Row := []
  result : List β := []

def BatchBuilder.flush (schema : σ) (b : BatchBuilder β) : QueryResult (BatchBuilder β) :=
  if b.rows.isEmpty then
    .ok b
  else do
    let batch ←
      if A.hasNoFields schema then A.countBatch schema b.rows.length
      else A.rowsToRecordBatch schema b.rows
    return { rows := [], result := b.result ++ [batch] }

/-- `project_row`, behind the check of `charge_row` that every column is there. -/
def projectRow (row : Row) : Option (List ℕ) → QueryResult Row
  | none => .ok row
  | some projection =>
    if projection.all (· < row.length) then .ok (projection.filterMap (row[·]?))
    else .error (.invalidRow "projection column is missing")

def BatchBuilder.visit (schema : σ) (key : BatchKey σ) (b : BatchBuilder β)
    (row : Bytes × Bytes) : QueryResult (BatchBuilder β) := do
  let row ← projectRow (← decodeRow C row.2) key.projection
  let b := { b with rows := b.rows ++ [row] }
  if b.rows.length ≥ max key.batchRows 1 then
    b.flush A schema
  else
    return b

/-- `row_scan::batches` without filters and limit, in one read snapshot. -/
def scanRecordBatches (s : Store) (key : BatchKey σ) : QueryResult (List β) := do
  let start := tablePrefixBytes key.table
  let rows ← (SingleNode.range s relRowsTable start (rangeEnd start)).mapError .ofRepl
  let schema := key.projection.elim key.schema (A.projectSchema key.schema)
  let b ← rows.foldlM (BatchBuilder.visit C A schema key) {}
  return (← b.flush A schema).result

/-! ## The cache -/

/-- `Entry`. -/
structure CacheEntry (β : Type) where
  batches : List β
  bytes : ℕ
  lastUsed : UInt64

/-- `Entries`.  The map is a list with one entry per key. -/
structure CacheEntries (σ β : Type) where
  values : List (BatchKey σ × CacheEntry β) := []
  bytes : ℕ := 0
  clock : UInt64 := 0

namespace CacheEntries

/-- `HashMap::remove`, with its bytes taken off the counter. -/
def remove (e : CacheEntries σ β) (key : BatchKey σ) : CacheEntries σ β :=
  match e.values.lookup key with
  | none => e
  | some previous =>
    { e with
      values := e.values.filter fun value => value.1 ≠ key
      bytes := e.bytes - previous.bytes }

/-- The keys that `min_by_key` may return: the iteration order of the map is arbitrary. -/
def oldest (e : CacheEntries σ β) : List (BatchKey σ) :=
  (e.values.filter fun value =>
    e.values.all fun other => value.2.lastUsed ≤ other.2.lastUsed).map Prod.fst

def evict (e : CacheEntries σ β) (pick : ℕ) : CacheEntries σ β :=
  match e.oldest[pick % e.oldest.length]? with
  | none => e
  | some key => e.remove key

/-- The eviction loop.  Every round removes an entry. -/
def makeRoom (maxEntries maxBytes bytes : ℕ) (picks : ℕ → ℕ) :
    ℕ → CacheEntries σ β → CacheEntries σ β
  | 0, e => e
  | rounds + 1, e =>
    if maxEntries ≤ e.values.length ∨ maxBytes - bytes < e.bytes then
      makeRoom maxEntries maxBytes bytes picks rounds (e.evict (picks rounds))
    else
      e

end CacheEntries

/-- The part of `PerformanceConfig` that sizes the cache. -/
structure PerformanceConfig where
  cacheEnabled : Bool
  cacheMaxCapacity : ℕ
  queryMemoryLimitBytes : ℕ
  deriving DecidableEq, Repr

/-- `MAX_BYTES`. -/
def maxCacheBytes : ℕ := 64 * 1024 * 1024

structure BatchCache (σ β : Type) where
  maxBytes : ℕ
  maxEntries : ℕ
  entries : CacheEntries σ β := {}

namespace BatchCache

def new (performance : PerformanceConfig) : BatchCache σ β where
  maxBytes :=
    if performance.cacheEnabled then min maxCacheBytes (performance.queryMemoryLimitBytes / 8)
    else 0
  maxEntries := min performance.cacheMaxCapacity usizeMax

/-- `get`.  `charge` is the budget's answer to the batches of a hit. -/
def get (c : BatchCache σ β) (key : BatchKey σ) (charge : List β → QueryResult Unit) :
    QueryResult (Option (List β)) × BatchCache σ β :=
  let clock := saturatingAdd c.entries.clock 1
  let ticked := { c with entries := { c.entries with clock } }
  match c.entries.values.lookup key with
  | none => (.ok none, ticked)
  | some entry =>
    match charge entry.batches with
    | .error error => (.error error, ticked)
    | .ok () =>
      let values := c.entries.values.map fun value =>
        if value.1 = key then (value.1, { value.2 with lastUsed := clock }) else value
      (.ok (some entry.batches), { c with entries := { c.entries with values, clock } })

def insert (c : BatchCache σ β) (key : BatchKey σ) (batches : List β) (picks : ℕ → ℕ) :
    BatchCache σ β :=
  let bytes := A.weight key batches
  if c.maxBytes < bytes ∨ c.maxEntries = 0 then
    c
  else
    let e := c.entries.remove key
    let e := e.makeRoom c.maxEntries c.maxBytes bytes picks e.values.length
    let lastUsed := saturatingAdd e.clock 1
    { c with
      entries :=
        { values := (key, { batches, bytes, lastUsed }) :: e.values
          bytes := e.bytes + bytes
          clock := lastUsed } }

end BatchCache

/-! ## Scans -/

structure ScanRequest (σ : Type) where
  table : String
  schema : σ
  projection : Option (List ℕ)
  batchRows : ℕ

def ScanRequest.key (request : ScanRequest σ) (version : TxnId) : BatchKey σ :=
  { request with version }

/-- Where a call of `batches` stands.  The code does not keep `readAt`, the store of its token. -/
inductive ScanStage (σ β : Type)
  | started
  | uncached
  | versioned (key : BatchKey σ) (readAt : Store)
  | missed (key : BatchKey σ)
  | filled (key : BatchKey σ) (batches : List β)
  | unmoved (key : BatchKey σ) (batches : List β)
  | hit (key : BatchKey σ) (readAt : Store) (batches : List β)
  | scanned (batches : List β)
  | failed (error : QueryError)

/-- What a step meets outside the cache: failures, the charge of a hit, and an iteration order. -/
structure ScanEnv (β : Type) where
  fault : Option QueryError := none
  charge : List β → QueryResult Unit := fun _ => .ok ()
  picks : ℕ → ℕ := fun _ => 0

/-- A read in the store of the step, unless it fails. -/
def ScanEnv.read {α : Type} (env : ScanEnv β) (result : QueryResult α) : QueryResult α :=
  match env.fault with
  | some error => .error error
  | none => result

/-- `table_data_version` of the row table. -/
def rowsDataVersion (s : Store) : QueryResult (Option TxnId) :=
  (readTableDataVersionFrom s relRowsTable).mapError fun error => .ofRepl (.storage error)

/-- The next step of a call of `batches`. -/
def scanStep (env : ScanEnv β) (s : Store) (c : BatchCache σ β) (request : ScanRequest σ) :
    ScanStage σ β → ScanStage σ β × BatchCache σ β
  | .started =>
    if c.maxBytes = 0 ∨ c.maxEntries = 0 then
      (.uncached, c)
    else
      match env.read (rowsDataVersion s) with
      | .error error => (.failed error, c)
      | .ok none => (.uncached, c)
      | .ok (some version) => (.versioned (request.key version) s, c)
  | .uncached =>
    match env.read (scanRecordBatches C A s (request.key 0)) with
    | .error error => (.failed error, c)
    | .ok batches => (.scanned batches, c)
  | .versioned key readAt =>
    match c.get key env.charge with
    | (.error error, c) => (.failed error, c)
    | (.ok (some batches), c) => (.hit key readAt batches, c)
    | (.ok none, c) => (.missed key, c)
  | .missed key =>
    match env.read (scanRecordBatches C A s key) with
    | .error error => (.failed error, c)
    | .ok batches => (.filled key batches, c)
  | .filled key batches =>
    match env.read (rowsDataVersion s) with
    | .error error => (.failed error, c)
    | .ok version =>
      if version = some key.version then (.unmoved key batches, c) else (.scanned batches, c)
  | .unmoved key batches => (.scanned batches, c.insert A key batches env.picks)
  | stage => (stage, c)

end MultiDb
