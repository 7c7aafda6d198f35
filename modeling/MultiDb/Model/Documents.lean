import MultiDb.Model.ValueCodec

/-!
# Document collections

`DocumentCollection` of `model/mod.rs` over one node.  An update or a delete reads the stored
document and later commits a batch that is conditioned on what it read.
-/

namespace MultiDb

open Shared

def documentTable : String := "documents"
def indexTable : String := "document_indexes"

def derivedTables : List String :=
  ["full_text_postings", "full_text_docs", "geo_points", "geo_indexes"]

structure DocumentId where
  bytes : Bytes
  length_bytes : bytes.length = 16
  deriving DecidableEq

abbrev CollectionId := UInt32
abbrev IndexId := UInt32

abbrev FieldPath := List String

structure IndexSpec where
  id : IndexId
  path : FieldPath
  deriving DecidableEq

inductive Predicate
  | eq (path : FieldPath) (value : Value)
  | range (path : FieldPath) (start stop : Value)

/-- A full-text or geo index of a handle: the writes it adds to its own tables. -/
structure DerivedIndex where
  changeOps : DocumentId → Option Value → Option Value → Except String (List Op)
  tables : ∀ {id old new ops}, changeOps id old new = .ok ops → ∀ op ∈ ops, op.table ∈ derivedTables

/-! ### Geo indexes -/

structure GeoPoint where
  lon : F64
  lat : F64

/-- `GeoIndexConfig`, with what needs float arithmetic: the point of a value, its cell, its JSON. -/
structure GeoIndexConfig where
  name : String
  path : FieldPath
  valueToPoint : Value → Option GeoPoint
  geoHash : GeoPoint → String
  toVec : GeoPoint → Except String Bytes

def extractPath : Value → FieldPath → Option Value
  | value, [] => some value
  | .object fields, segment :: path =>
    (fields.lookup segment).bind fun value => extractPath value path
  | _, _ :: _ => none

def samePoint : Option GeoPoint → Option GeoPoint → Bool
  | none, none => true
  | some p, some q => p.lon.eq q.lon && p.lat.eq q.lat
  | _, _ => false

namespace GeoIndexConfig

variable (config : GeoIndexConfig)

def valuePoint (doc : Value) : Option GeoPoint :=
  (extractPath doc config.path).bind config.valueToPoint

def pointKey (id : DocumentId) : Bytes :=
  tablePrefixBytes config.name ++ id.bytes

def geoIndexKey (point : GeoPoint) (id : DocumentId) : Bytes :=
  tablePrefixBytes config.name ++ tablePrefixBytes (config.geoHash point) ++ id.bytes

/-- The writes for a point that is gone or has moved. -/
def removePointOps (id : DocumentId) (new : Option GeoPoint) (point : GeoPoint) : List Op :=
  let key := config.geoIndexKey point id
  (if new.all fun point => config.geoIndexKey point id ≠ key then [.delete "geo_indexes" key]
    else []) ++
  if new.isNone then [.delete "geo_points" (config.pointKey id)] else []

def appendPointOps (id : DocumentId) (point : GeoPoint) : Except String (List Op) := do
  let bytes ← config.toVec point
  return [.put "geo_points" (config.pointKey id) bytes,
    .put "geo_indexes" (config.geoIndexKey point id) bytes]

/-- `geo::append_document_change_ops`. -/
def appendDocumentChangeOps (id : DocumentId) (old new : Option Value) :
    Except String (List Op) := do
  let oldPoint := old.bind config.valuePoint
  let newPoint := new.bind config.valuePoint
  if samePoint oldPoint newPoint then
    return []
  else
    let removed := oldPoint.toList.flatMap (config.removePointOps id newPoint)
    match newPoint with
    | none => return removed
    | some point => return removed ++ (← config.appendPointOps id point)

/-- A geo index writes its points and its cells. -/
def derivedIndex : DerivedIndex where
  changeOps := config.appendDocumentChangeOps
  tables {id old new ops} h := by
    have hremoved : ∀ new point, ∀ op ∈ config.removePointOps id new point,
        op.table ∈ derivedTables := by
      intro new point op hop
      simp only [removePointOps, List.mem_append, List.mem_ite_nil_right, List.mem_singleton] at hop
      rcases hop with ⟨-, rfl⟩ | ⟨-, rfl⟩ <;> simp [Op.table, derivedTables]
    have hadded : ∀ point added, config.appendPointOps id point = .ok added →
        ∀ op ∈ added, op.table ∈ derivedTables := by
      intro point added hadded
      obtain ⟨bytes, -, heq⟩ := bind_eq_ok_iff.mp hadded
      obtain rfl := pure_eq_ok_iff.mp heq
      simp [Op.table, derivedTables]
    rw [appendDocumentChangeOps] at h
    split at h
    · obtain rfl := pure_eq_ok_iff.mp h
      simp
    · split at h
      · obtain rfl := pure_eq_ok_iff.mp h
        simp only [List.mem_flatMap]
        rintro op ⟨point, -, hop⟩
        exact hremoved _ _ op hop
      · obtain ⟨added, hpoint, heq⟩ := bind_eq_ok_iff.mp h
        obtain rfl := pure_eq_ok_iff.mp heq
        simp only [List.mem_append, List.mem_flatMap]
        rintro op (⟨point, -, hop⟩ | hop)
        · exact hremoved _ _ op hop
        · exact hadded _ _ hpoint op hop

end GeoIndexConfig

/-- `DocumentCollection` without its backend. -/
structure DocumentCollection where
  collectionId : CollectionId
  indexes : List IndexSpec
  derived : List DerivedIndex := []

abbrev ModelResult (α : Type) := Except ModelError α

def makeDocumentKey (collectionId : CollectionId) (id : DocumentId) : Bytes :=
  beBytes 4 collectionId.toNat ++ id.bytes

def collectionRangeBounds (collectionId : CollectionId) : Bytes × Bytes :=
  (beBytes 4 collectionId.toNat, rangeEnd (beBytes 4 collectionId.toNat))

def documentIdFromKey (key : Bytes) : Option DocumentId :=
  if h : key.length = 20 then some ⟨key.drop 4, by simp [h]⟩ else none

namespace DocumentIndex

def makeIndexPrefix (collectionId : CollectionId) (indexId : IndexId) (value : Value) :
    ModelResult Bytes := do
  let encodedValue ← encodeIndexValue value
  return beBytes 4 collectionId.toNat ++ (beBytes 4 indexId.toNat ++ encodedValue)

def makeIndexKey (collectionId : CollectionId) (indexId : IndexId) (value : Value)
    (id : DocumentId) : ModelResult Bytes := do
  return (← makeIndexPrefix collectionId indexId value) ++ id.bytes

def documentIdFromIndexKey (key : Bytes) : ModelResult DocumentId :=
  if h : key.length < 24 then
    .error (.storage (.corruption "index key is too short"))
  else
    .ok ⟨key.drop (key.length - 16), by simp; omega⟩

end DocumentIndex

/-! ## Operations -/

def putDocumentOp (collectionId : CollectionId) (id : DocumentId) (doc : Value) :
    ModelResult Op := do
  return .put documentTable (makeDocumentKey collectionId id)
    (← (encodeValue doc).mapError .storage)

def deleteDocumentOp (collectionId : CollectionId) (id : DocumentId) : Op :=
  .delete documentTable (makeDocumentKey collectionId id)

/-- One write to the index key of each indexed value of a document. -/
def appendIndexOps (write : Bytes → Op) (collectionId : CollectionId) (indexes : List IndexSpec)
    (id : DocumentId) (doc : Value) (ops : List Op) : ModelResult (List Op) :=
  indexes.foldlM (fun ops index =>
    match extractPath doc index.path with
    | none => .ok ops
    | some value => do
      return ops ++ [write (← DocumentIndex.makeIndexKey collectionId index.id value id)]) ops

def appendNewIndexOps : CollectionId → List IndexSpec → DocumentId → Value → List Op →
    ModelResult (List Op) :=
  appendIndexOps fun key => .put indexTable key []

def appendOldIndexDeleteOps : CollectionId → List IndexSpec → DocumentId → Value → List Op →
    ModelResult (List Op) :=
  appendIndexOps fun key => .delete indexTable key

def appendDerivedIndexOps (derived : List DerivedIndex) (id : DocumentId) (old new : Option Value)
    (ops : List Op) : ModelResult (List Op) :=
  derived.foldlM (fun ops index => do
    return ops ++ (← (index.changeOps id old new).mapError fun error =>
      .storage (.backend error))) ops

namespace DocumentCollection

variable (collection : DocumentCollection)

def putOpsWithOld (id : DocumentId) (old : Option Value) (doc : Value) : ModelResult (List Op) := do
  let ops := [← putDocumentOp collection.collectionId id doc]
  let ops ← appendNewIndexOps collection.collectionId collection.indexes id doc ops
  appendDerivedIndexOps collection.derived id old (some doc) ops

/-- `insert_ops`, with the generated id. -/
def insertOps (id : DocumentId) (doc : Value) : ModelResult (List Op) :=
  collection.putOpsWithOld id none doc

def replaceOpsWithOld (id : DocumentId) (old : Option Value) (doc : Value) :
    ModelResult (List Op) := do
  let ops ← match old with
    | none => .ok []
    | some old => appendOldIndexDeleteOps collection.collectionId collection.indexes id old []
  return ops ++ (← collection.putOpsWithOld id old doc)

/-- `delete_ops_with_old`, of a stored document. -/
def deleteOpsWithOld (id : DocumentId) (old : Value) : ModelResult (List Op) := do
  let ops ← appendOldIndexDeleteOps collection.collectionId collection.indexes id old []
  let ops := ops ++ [deleteDocumentOp collection.collectionId id]
  appendDerivedIndexOps collection.derived id (some old) none ops

/-- A change that waits for its commit: the batch of `commit_document_change`. -/
structure Change where
  id : DocumentId
  expected : Option Bytes
  ops : List Op

/-- The condition of a change: the document row still holds what was read. -/
def Change.condition (change : Change) (collectionId : CollectionId) : WriteCondition :=
  .valueEquals documentTable (makeDocumentKey collectionId change.id) change.expected

variable (C : RelCodecs)

def readRow (s : Store) (id : DocumentId) : ModelResult (Option Bytes) :=
  (SingleNode.read s documentTable (makeDocumentKey collection.collectionId id)).mapError .repl

def get (s : Store) (id : DocumentId) : ModelResult (Option Value) := do
  match ← collection.readRow s id with
  | none => return none
  | some bytes => return some (← (decodeValue C bytes).mapError .storage)

/-- `update`, up to its commit. -/
def planUpdate (s : Store) (id : DocumentId) (doc : Value) : ModelResult Change := do
  let oldBytes ← collection.readRow s id
  let old ← match oldBytes with
    | none => .ok none
    | some bytes => some <$> (decodeValue C bytes).mapError .storage
  return { id, expected := oldBytes, ops := ← collection.replaceOpsWithOld id old doc }

/-- `delete`, up to its commit; a missing document needs none. -/
def planDelete (s : Store) (id : DocumentId) : ModelResult (Option Change) := do
  match ← collection.readRow s id with
  | none => return none
  | some oldBytes =>
    let old ← (decodeValue C oldBytes).mapError .storage
    return some { id, expected := some oldBytes, ops := ← collection.deleteOpsWithOld id old }

/-- `commit_document_change` on a node, which supports conditional batches. -/
def commitDocumentChange (env : Env) (s : Store) (change : Change) : ModelResult Store :=
  (SingleNode.proposeConditionalBatch C.toCodecs env s
    { conditions := [change.condition collection.collectionId], ops := change.ops }).mapError .repl

/-- `insert`, with the generated id. -/
def insert (env : Env) (s : Store) (id : DocumentId) (doc : Value) : ModelResult Store := do
  (SingleNode.proposeBatch C.toCodecs env s (← collection.insertOps id doc)).mapError .repl

def insertGroup (env : Env) (s : Store) (docs : List (DocumentId × Value)) : ModelResult Store := do
  let requests ← docs.mapM fun doc => collection.insertOps doc.1 doc.2
  (SingleNode.proposeGroup C.toCodecs env s requests).mapError .repl

end DocumentCollection

/-! ## Queries -/

/-- `Predicate::matches`. -/
def Predicate.holds : Predicate → Value → Bool
  | .eq path value, doc =>
    match extractPath doc path with
    | some found => found.eq value
    | none => false
  | .range path start stop, doc =>
    match extractPath doc path with
    | some found =>
      match encodeIndexValue found, encodeIndexValue start, encodeIndexValue stop with
      | .ok encoded, .ok start, .ok stop =>
        (compare start encoded).isLE && (compare encoded stop).isLT
      | _, _, _ => false
    | none => false

def Predicate.path : Predicate → FieldPath
  | .eq path _ => path
  | .range path _ _ => path

inductive PlanKind
  | indexScan (id : IndexId)
  | fullScan
  deriving DecidableEq

/-- `QueryResult` of `model/mod.rs`. -/
structure DocumentQueryResult where
  plan : PlanKind
  examinedDocuments : ℕ
  documents : List (DocumentId × Value)

def rangeIndexIdsBetween (s : Store) (start stop : Bytes) : ModelResult (List DocumentId) := do
  let rows ← (SingleNode.range s indexTable start stop).mapError .repl
  rows.mapM fun row => DocumentIndex.documentIdFromIndexKey row.1

def rangeIndexIds (s : Store) (start : Bytes) : ModelResult (List DocumentId) :=
  rangeIndexIdsBetween s start (rangeEnd start)

namespace DocumentCollection

variable (collection : DocumentCollection) (C : RelCodecs)

def indexedIds (s : Store) (index : IndexSpec) : Predicate → ModelResult (List DocumentId)
  | .eq _ value => do
    rangeIndexIds s (← DocumentIndex.makeIndexPrefix collection.collectionId index.id value)
  | .range _ start stop => do
    let startKey ← DocumentIndex.makeIndexPrefix collection.collectionId index.id start
    let stopKey ← DocumentIndex.makeIndexPrefix collection.collectionId index.id stop
    if (compare stopKey startKey).isLE then
      .error .invalidRange
    else
      rangeIndexIdsBetween s startKey stopKey

def visitIndexed (s : Store) (predicate : Predicate) (documents : List (DocumentId × Value))
    (id : DocumentId) : ModelResult (List (DocumentId × Value)) := do
  match ← collection.get C s id with
  | some document =>
    return if predicate.holds document then documents ++ [(id, document)] else documents
  | none => return documents

def queryWithIndex (s : Store) (index : IndexSpec) (predicate : Predicate) :
    ModelResult DocumentQueryResult := do
  let ids ← collection.indexedIds s index predicate
  let documents ← ids.foldlM (collection.visitIndexed C s predicate) []
  return { plan := .indexScan index.id, examinedDocuments := documents.length, documents }

def visitRow (predicate : Predicate) (result : DocumentQueryResult) (row : Bytes × Bytes) :
    ModelResult DocumentQueryResult :=
  match documentIdFromKey row.1 with
  | none => .ok result
  | some id => do
    let document ← (decodeValue C row.2).mapError .storage
    let result := { result with examinedDocuments := result.examinedDocuments + 1 }
    return if predicate.holds document then
        { result with documents := result.documents ++ [(id, document)] }
      else
        result

def queryFullScan (s : Store) (predicate : Predicate) : ModelResult DocumentQueryResult := do
  let (start, stop) := collectionRangeBounds collection.collectionId
  let rows ← (SingleNode.range s documentTable start stop).mapError .repl
  rows.foldlM (visitRow C predicate) { plan := .fullScan, examinedDocuments := 0, documents := [] }

end DocumentCollection

end MultiDb
