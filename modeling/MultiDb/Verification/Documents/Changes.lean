import MultiDb.Shared.SecondaryIndex
import MultiDb.Verification.DistTxn.Rows
import MultiDb.Verification.Documents.Keys

/-!
# Document changes and their index entries

While a row still holds the document that was read, the batch of a change keeps an exact
index exact.
-/

namespace MultiDb

open Shared

variable {C : RelCodecs} {collection : DocumentCollection} {doc : Value} {ops : List Op}
variable {key bytes : Bytes} {ops' : List Op} {old : Option Bytes} {oldDoc : Option Value}

namespace DocumentCollection

/-- The collection holds this document under this id. -/
def Stored (collection : DocumentCollection) (C : RelCodecs) (s : Store) (id : DocumentId)
    (doc : Value) : Prop :=
  ∃ bytes, s.get documentTable (makeDocumentKey collection.collectionId id) = some bytes ∧
    decodeValue C bytes = .ok doc

/-- The key is an index entry of the document. -/
def IsEntry (collection : DocumentCollection) (id : DocumentId) (doc : Value) (key : Bytes) :
    Prop :=
  ∃ index ∈ collection.indexes, ∃ value, extractPath doc index.path = some value ∧
    DocumentIndex.makeIndexKey collection.collectionId index.id value id = .ok key

/-- Every indexed field of the document has an index key. -/
def Indexable (collection : DocumentCollection) (id : DocumentId) (doc : Value) : Prop :=
  ∀ index ∈ collection.indexes, ∀ value, extractPath doc index.path = some value →
    ∃ key, DocumentIndex.makeIndexKey collection.collectionId index.id value id = .ok key

end DocumentCollection

open DocumentCollection in
/-- The indexes of a collection are exactly those of its documents. -/
structure IndexesMatch (C : RelCodecs) (collection : DocumentCollection) (s : Store) : Prop where
  readable : ∀ id bytes,
    s.get documentTable (makeDocumentKey collection.collectionId id) = some bytes →
    ∃ doc, decodeValue C bytes = .ok doc ∧ collection.Indexable id doc
  entry : ∀ id doc key, collection.Stored C s id doc → collection.IsEntry id doc key →
    s.get indexTable key = some []
  document : ∀ key value, beBytes 4 collection.collectionId.toNat <+: key →
    s.get indexTable key = some value →
    value = [] ∧ ∃ id doc, collection.Stored C s id doc ∧ collection.IsEntry id doc key

/-! ## The index scheme -/

open Classical in
/-- The collection as an instance of the library's index scheme. -/
noncomputable def documentScheme (C : RelCodecs) (collection : DocumentCollection) :
    IndexScheme Bytes Bytes Bytes Bytes where
  entry row bytes key :=
    if ∃ id doc, row = makeDocumentKey collection.collectionId id ∧ decodeValue C bytes = .ok doc ∧
        collection.IsEntry id doc key then
      some []
    else
      none
  owner key := (DocumentIndex.documentIdFromIndexKey key).toOption.map
    (makeDocumentKey collection.collectionId)
  owner_of_entry {row bytes key p} h := by
    obtain ⟨id, doc, rfl, -, index, -, value, -, hkey⟩ : ∃ id doc,
        row = makeDocumentKey collection.collectionId id ∧ decodeValue C bytes = .ok doc ∧
          collection.IsEntry id doc key := by
      by_contra hno
      rw [if_neg hno] at h
      contradiction
    rw [DocumentIndex.documentIdFromIndexKey_makeIndexKey hkey]
    rfl

def documentRows (s : Store) (key : Bytes) : Option Bytes :=
  s.get documentTable key

/-- The index rows of this collection. -/
def collectionIndex (collection : DocumentCollection) (s : Store) (key : Bytes) : Option Bytes :=
  if beBytes 4 collection.collectionId.toNat <+: key then s.get indexTable key else none

theorem DocumentCollection.IsEntry.startsWith {id : DocumentId}
    (h : collection.IsEntry id doc key) : beBytes 4 collection.collectionId.toNat <+: key := by
  obtain ⟨index, -, value, -, hkey⟩ := h
  obtain ⟨body, -, rfl⟩ := DocumentIndex.makeIndexKey_eq_ok_iff.mp hkey
  exact List.prefix_append _ _

theorem entry_eq_some_iff {row value : Bytes} :
    (documentScheme C collection).entry row bytes key = some value ↔ value = [] ∧ ∃ id doc,
      row = makeDocumentKey collection.collectionId id ∧ decodeValue C bytes = .ok doc ∧
        collection.IsEntry id doc key := by
  classical
  by_cases h : ∃ id doc, row = makeDocumentKey collection.collectionId id ∧
      decodeValue C bytes = .ok doc ∧ collection.IsEntry id doc key
  · simp only [documentScheme, if_pos h, Option.some.injEq, eq_comm (a := value), and_iff_left h]
  · simp only [documentScheme, if_neg h, reduceCtorEq, false_iff, not_and]
    exact fun _ => h

theorem entry_of_decode {id : DocumentId} (h : decodeValue C bytes = .ok doc) :
    (documentScheme C collection).entry (makeDocumentKey collection.collectionId id) bytes key =
      some [] ↔ collection.IsEntry id doc key := by
  rw [entry_eq_some_iff]
  constructor
  · rintro ⟨-, id', doc', hrow, hdecode, hentry⟩
    obtain ⟨-, rfl⟩ := makeDocumentKey_inj.mp hrow
    cases h.symm.trans hdecode
    exact hentry
  · intro hentry
    exact ⟨rfl, id, doc, rfl, h, hentry⟩

theorem entry_eq_none_of_decode {id : DocumentId}
    (h : decodeValue C bytes = .ok doc) (hentry : ¬ collection.IsEntry id doc key) :
    (documentScheme C collection).entry (makeDocumentKey collection.collectionId id) bytes key =
      none := by
  cases hvalue : (documentScheme C collection).entry
      (makeDocumentKey collection.collectionId id) bytes key with
  | none => rfl
  | some value =>
    obtain ⟨rfl, -⟩ := entry_eq_some_iff.mp hvalue
    exact absurd ((entry_of_decode h).mp hvalue) hentry

/-- The match, spelled out for documents and index rows. -/
theorem indexesMatch_iff {s : Store} : IndexesMatch C collection s ↔
    (∀ id bytes, s.get documentTable (makeDocumentKey collection.collectionId id) = some bytes →
      ∃ doc, decodeValue C bytes = .ok doc ∧ collection.Indexable id doc) ∧
    (documentScheme C collection).Exact (documentRows s) (collectionIndex collection s) := by
  constructor
  · intro h
    refine ⟨h.readable, (documentScheme C collection).exact_iff.mpr fun key value => ?_⟩
    simp only [entry_eq_some_iff, collectionIndex]
    constructor
    · intro hget
      split at hget
      · rename_i hprefix
        obtain ⟨rfl, id, doc, ⟨bytes, hbytes, hdecode⟩, hentry⟩ := h.document key value hprefix hget
        exact ⟨_, bytes, hbytes, rfl, id, doc, rfl, hdecode, hentry⟩
      · contradiction
    · rintro ⟨_, bytes, hbytes, rfl, id, doc, rfl, hdecode, hentry⟩
      rw [if_pos hentry.startsWith]
      exact h.entry id doc key ⟨bytes, hbytes, hdecode⟩ hentry
  · rintro ⟨hreadable, hexact⟩
    have hiff := (documentScheme C collection).exact_iff.mp hexact
    simp only [entry_eq_some_iff, collectionIndex] at hiff
    refine ⟨hreadable, fun id doc key hstored hentry => ?_, fun key value hprefix hget => ?_⟩
    · obtain ⟨bytes, hbytes, hdecode⟩ := hstored
      have hget := (hiff key []).mpr ⟨_, bytes, hbytes, rfl, id, doc, rfl, hdecode, hentry⟩
      rwa [if_pos hentry.startsWith] at hget
    · obtain ⟨_, bytes, hbytes, rfl, id, doc, rfl, hdecode, hentry⟩ :=
        (hiff key value).mp (by rwa [if_pos hprefix])
      exact ⟨rfl, id, doc, ⟨bytes, hbytes, hdecode⟩, hentry⟩

theorem appendIndexOps_spec {write : Bytes → Op} {id : DocumentId} {ops : List Op}
    (h : appendIndexOps write collection.collectionId collection.indexes id doc ops = .ok ops') :
    collection.Indexable id doc ∧ ∃ keys : List Bytes, ops' = ops ++ keys.map write ∧
      ∀ key, key ∈ keys ↔ collection.IsEntry id doc key := by
  simp only [DocumentCollection.Indexable, DocumentCollection.IsEntry]
  rw [appendIndexOps] at h
  generalize collection.indexes = indexes at h
  induction indexes generalizing ops with
  | nil =>
    obtain rfl := pure_eq_ok_iff.mp h
    exact ⟨by simp, [], by simp⟩
  | cons index indexes ih =>
    obtain ⟨mid, hmid, hrest⟩ := foldlM_cons_eq_ok_iff.mp h
    obtain ⟨hindexable, keys, rfl, hkeys⟩ := ih hrest
    cases hvalue : extractPath doc index.path with
    | none =>
      simp only [hvalue, Except.ok.injEq] at hmid
      obtain rfl := hmid
      refine ⟨?_, keys, rfl, fun key => ?_⟩
      · simpa [hvalue] using hindexable
      · simpa [hvalue] using hkeys key
    | some value =>
      simp only [hvalue, bind_eq_ok_iff, pure_eq_ok_iff] at hmid
      obtain ⟨first, hfirst, rfl⟩ := hmid
      refine ⟨?_, first :: keys, by simp, fun key => ?_⟩
      · simp only [List.forall_mem_cons, hvalue, Option.some.injEq, forall_eq']
        exact ⟨⟨first, hfirst⟩, hindexable⟩
      · simp only [List.mem_cons, hkeys key, exists_eq_or_imp, hvalue, Option.some.injEq,
          exists_eq_left', hfirst, Except.ok.injEq, eq_comm (a := key)]

theorem appendDerivedIndexOps_spec {derived : List DerivedIndex} {id : DocumentId}
    {old new : Option Value} {ops : List Op}
    (h : appendDerivedIndexOps derived id old new ops = .ok ops') :
    ∃ extra, ops' = ops ++ extra ∧ ∀ op ∈ extra, op.table ∈ derivedTables := by
  rw [appendDerivedIndexOps] at h
  induction derived generalizing ops with
  | nil =>
    obtain rfl := pure_eq_ok_iff.mp h
    exact ⟨[], by simp⟩
  | cons index derived ih =>
    obtain ⟨mid, hmid, hrest⟩ := foldlM_cons_eq_ok_iff.mp h
    obtain ⟨extra, rfl, hextra⟩ := ih hrest
    simp only [bind_eq_ok_iff, mapError_eq_ok_iff, pure_eq_ok_iff] at hmid
    obtain ⟨first, hfirst, rfl⟩ := hmid
    refine ⟨first ++ extra, by simp, fun op hop => ?_⟩
    rcases List.mem_append.mp hop with hop | hop
    · exact index.tables hfirst op hop
    · exact hextra op hop

/-! ## Writes of a change -/

/-- The writes of a change: the row, and the keys of the old and of the new document. -/
structure ChangeWrites (collection : DocumentCollection) (id : DocumentId) (new : Option Bytes)
    (oldKeys newKeys : Bytes → Prop) (writes : WriteSet) : Prop where
  row : ∀ key, writes.get documentTable key =
    if makeDocumentKey collection.collectionId id = key then some new else none
  put : ∀ key, newKeys key → writes.get indexTable key = some (some [])
  delete : ∀ key, oldKeys key → ¬ newKeys key → writes.get indexTable key = some none
  kept : ∀ key, ¬ oldKeys key → ¬ newKeys key → writes.get indexTable key = none

theorem get_opsToWriteSet_of_table {t : String} (h : ∀ op ∈ ops, op.table ≠ t)
    (key : Bytes) : (opsToWriteSet ops).get t key = none := by
  by_contra hne
  obtain ⟨v, hv⟩ := Option.ne_none_iff_exists'.mp hne
  obtain ⟨op, hop, ht, -⟩ := exists_op_of_get hv
  exact h op hop ht

theorem get_opsToWriteSet_keys {t : String} (write : Bytes → Op) {v : Option Bytes}
    (hwrite : ∀ key, (write key).table = t ∧ (write key).key = key ∧ (write key).value = v)
    (keys : List Bytes) (key : Bytes) :
    (opsToWriteSet (keys.map write)).get t key = if key ∈ keys then some v else none := by
  induction keys using List.reverseRecOn with
  | nil => simp [opsToWriteSet]
  | append_singleton keys last ih =>
    obtain ⟨ht, hkey, hv⟩ := hwrite last
    rw [List.map_append, List.map_cons, List.map_nil, opsToWriteSet_append_singleton, ih, ht, hkey,
      hv]
    by_cases heq : last = key
    · simp [heq]
    · simp [heq, Ne.symm heq]

theorem changeWrites_of_ops (collection : DocumentCollection) (id : DocumentId) (docOp : Op)
    (oldKeys newKeys : List Bytes) {extra : List Op} (htable : docOp.table = documentTable)
    (hkey : docOp.key = makeDocumentKey collection.collectionId id)
    (hextra : ∀ op ∈ extra, op.table ∈ derivedTables) :
    ChangeWrites collection id docOp.value (· ∈ oldKeys) (· ∈ newKeys)
      (opsToWriteSet (oldKeys.map (.delete indexTable) ++
        ([docOp] ++ newKeys.map (fun key => .put indexTable key []) ++ extra))) := by
  have hderived : documentTable ∉ derivedTables ∧ indexTable ∉ derivedTables := by decide
  have hne : indexTable ≠ documentTable := by decide
  have hindex : ∀ key, (opsToWriteSet (oldKeys.map (.delete indexTable) ++
      ([docOp] ++ newKeys.map (fun key => .put indexTable key []) ++ extra))).get indexTable key =
        (if key ∈ newKeys then some (some []) else none).or
          (if key ∈ oldKeys then some none else none) := by
    intro key
    have hold : (opsToWriteSet (oldKeys.map (Op.delete indexTable))).get indexTable key =
        if key ∈ oldKeys then some none else none :=
      get_opsToWriteSet_keys (.delete indexTable) (fun key => ⟨rfl, rfl, rfl⟩) oldKeys key
    have hnew : (opsToWriteSet (newKeys.map fun key => Op.put indexTable key [])).get indexTable
        key = if key ∈ newKeys then some (some []) else none :=
      get_opsToWriteSet_keys (.put indexTable · []) (fun key => ⟨rfl, rfl, rfl⟩) newKeys key
    have hdoc : (opsToWriteSet [docOp]).get indexTable key = none :=
      get_opsToWriteSet_of_table (by simp [htable, hne.symm]) key
    have hrest : (opsToWriteSet extra).get indexTable key = none := by
      refine get_opsToWriteSet_of_table (fun op hop ht => ?_) key
      exact hderived.2 (ht ▸ hextra op hop)
    rw [opsToWriteSet_append, opsToWriteSet_append, opsToWriteSet_append, hold, hnew, hdoc, hrest]
    simp
  have hrow : ∀ key, (opsToWriteSet (oldKeys.map (.delete indexTable) ++
      ([docOp] ++ newKeys.map (fun key => .put indexTable key []) ++ extra))).get
        documentTable key =
        if makeDocumentKey collection.collectionId id = key then some docOp.value else none := by
    intro key
    have hold : (opsToWriteSet (oldKeys.map (Op.delete indexTable))).get documentTable key = none :=
      get_opsToWriteSet_of_table (by simp [Op.table, hne]) key
    have hnew : (opsToWriteSet (newKeys.map fun key => Op.put indexTable key [])).get documentTable
        key = none :=
      get_opsToWriteSet_of_table (by simp [Op.table, hne]) key
    have hdoc : (opsToWriteSet [docOp]).get documentTable key =
        if makeDocumentKey collection.collectionId id = key then some docOp.value else none := by
      rw [← List.nil_append [docOp], opsToWriteSet_append_singleton, htable, hkey]
      simp [opsToWriteSet]
    have hrest : (opsToWriteSet extra).get documentTable key = none := by
      refine get_opsToWriteSet_of_table (fun op hop ht => ?_) key
      exact hderived.1 (ht ▸ hextra op hop)
    rw [opsToWriteSet_append, opsToWriteSet_append, opsToWriteSet_append, hold, hnew, hdoc, hrest]
    simp
  refine ⟨hrow, fun key hnew => ?_, fun key hold hnew => ?_, fun key hold hnew => ?_⟩
  · rw [hindex, if_pos hnew, Option.some_or]
  · rw [hindex, if_neg hnew, if_pos hold, Option.none_or]
  · rw [hindex, if_neg hnew, if_neg hold, Option.none_or]

/-- The operations replace the document `old` of one row by the bytes `new`. -/
structure PlannedChange (C : RelCodecs) (collection : DocumentCollection) (id : DocumentId)
    (old new : Option Bytes) (writes : WriteSet) : Prop where
  readable : ∀ bytes, new = some bytes → ∃ doc, decodeValue C bytes = .ok doc ∧
    collection.Indexable id doc
  sound : ∀ rows, rows (makeDocumentKey collection.collectionId id) = old →
    (documentScheme C collection).Sound rows
      { rows := fun key => writes.get documentTable key
        index := fun key => writes.get indexTable key }
  row : ∀ key, writes.get documentTable key =
    if makeDocumentKey collection.collectionId id = key then some new else none
  owned : ∀ key, writes.get indexTable key ≠ none →
    beBytes 4 collection.collectionId.toNat <+: key

/-- The document of some stored bytes, if there are any. -/
def OldDocument (C : RelCodecs) : Option Bytes → Option Value → Prop
  | none, none => True
  | some bytes, some doc => decodeValue C bytes = .ok doc
  | _, _ => False

/-- The index keys of a document, none when it is absent. -/
def DocumentCollection.KeysOf (collection : DocumentCollection) (id : DocumentId) :
    Option Value → Bytes → Prop
  | none, _ => False
  | some doc, key => collection.IsEntry id doc key

/-- A change whose writes replace the old keys by the new is a planned one. -/
theorem plannedChange_of_writes {id : DocumentId} {new : Option Bytes}
    {newDoc : Option Value} {writes : WriteSet} (hold : OldDocument C old oldDoc)
    (hnew : OldDocument C new newDoc) (hindexable : ∀ doc, newDoc = some doc →
      collection.Indexable id doc)
    (h : ChangeWrites collection id new (collection.KeysOf id oldDoc) (collection.KeysOf id newDoc)
      writes) : PlannedChange C collection id old new writes := by
  -- the entries of a row that may be missing are the keys of its document
  have hentries : ∀ {bytes doc}, OldDocument C bytes doc → ∀ key,
      (collection.KeysOf id doc key → bytes.bind (fun r => (documentScheme C collection).entry
        (makeDocumentKey collection.collectionId id) r key) = some []) ∧
      (¬ collection.KeysOf id doc key → bytes.bind (fun r => (documentScheme C collection).entry
        (makeDocumentKey collection.collectionId id) r key) = none) := by
    intro bytes doc hdoc key
    cases bytes with
    | none =>
      cases doc with
      | none => exact ⟨False.elim, fun _ => rfl⟩
      | some doc => exact hdoc.elim
    | some bytes =>
      cases doc with
      | none => exact hdoc.elim
      | some doc => exact ⟨(entry_of_decode hdoc).mpr, entry_eq_none_of_decode hdoc⟩
  have hkeys : ∀ {doc : Option Value} {key}, collection.KeysOf id doc key →
      ∃ doc', collection.IsEntry id doc' key := by
    intro doc key hkey
    cases doc with
    | none => exact hkey.elim
    | some doc => exact ⟨doc, hkey⟩
  have howned : ∀ key, writes.get indexTable key ≠ none → ∃ doc, collection.IsEntry id doc key := by
    intro key hne
    by_cases hn : collection.KeysOf id newDoc key
    · exact hkeys hn
    · by_cases ho : collection.KeysOf id oldDoc key
      · exact hkeys ho
      · exact absurd (h.kept key ho hn) hne
  refine ⟨fun bytes hbytes => ?_, fun rows hrows => ?_, h.row, fun key hne => ?_⟩
  · subst hbytes
    cases newDoc with
    | none => exact hnew.elim
    | some doc => exact ⟨doc, hnew, hindexable doc rfl⟩
  · have hself : writes.get documentTable (makeDocumentKey collection.collectionId id) =
      some new := by
      simp [h.row]
    refine IndexScheme.sound_single hself (fun k hk => by simp [h.row, Ne.symm hk])
      (fun key _ => ?_) fun key hne => ?_
    · rw [hrows]
      by_cases hn : collection.KeysOf id newDoc key
      · rw [((hentries hnew) key).1 hn]
        simp only [h.put key hn, Option.getD_some]
      · rw [((hentries hnew) key).2 hn]
        by_cases ho : collection.KeysOf id oldDoc key
        · simp only [h.delete key ho hn, Option.getD_some]
        · rw [((hentries hold) key).2 ho]
          simp only [h.kept key ho hn, Option.getD_none]
    · obtain ⟨doc, index, -, value, -, hkey⟩ := howned key hne
      simp only [documentScheme, DocumentIndex.documentIdFromIndexKey_makeIndexKey hkey]
      rfl
  · obtain ⟨doc, hentry⟩ := howned key hne
    exact hentry.startsWith

/-! ## Plans -/

section Plans

variable {s : Store} {id : DocumentId}

theorem stored_document {doc : OrderedValue} (h : encodeValue doc.1 = .ok bytes) :
    decodeValue C bytes = .ok doc.1.canonical := by
  exact decodeValueWithLimits_of_encode (by decide) doc.2 h

theorem isEntry_canonical :
    collection.IsEntry id doc.canonical key ↔ collection.IsEntry id doc key := by
  simp only [DocumentCollection.IsEntry, extractPath_canonical, Option.map_eq_some_iff]
  constructor
  · rintro ⟨index, hindex, _, ⟨value, hvalue, rfl⟩, hkey⟩
    rw [DocumentIndex.makeIndexKey_canonical] at hkey
    exact ⟨index, hindex, value, hvalue, hkey⟩
  · rintro ⟨index, hindex, value, hvalue, hkey⟩
    rw [← DocumentIndex.makeIndexKey_canonical] at hkey
    exact ⟨index, hindex, _, ⟨value, hvalue, rfl⟩, hkey⟩

theorem indexable_canonical (h : collection.Indexable id doc) :
    collection.Indexable id doc.canonical := by
  intro index hindex value hvalue
  rw [extractPath_canonical, Option.map_eq_some_iff] at hvalue
  obtain ⟨raw, hraw, rfl⟩ := hvalue
  rw [DocumentIndex.makeIndexKey_canonical]
  exact h index hindex raw hraw

theorem plannedChange_of_put {doc : OrderedValue}
    (deletes : List Bytes) (hold : OldDocument C old oldDoc)
    (hdeletes : ∀ key, key ∈ deletes ↔ collection.KeysOf id oldDoc key)
    (h : collection.putOpsWithOld id oldDoc doc.1 = .ok ops) :
    ∃ new, PlannedChange C collection id old (some new)
      (opsToWriteSet (deletes.map (.delete indexTable) ++ ops)) := by
  simp only [DocumentCollection.putOpsWithOld, putDocumentOp, bind_eq_ok_iff, pure_eq_ok_iff,
    mapError_eq_ok_iff] at h
  obtain ⟨_, ⟨bytes, hbytes, rfl⟩, mid, hmid, hderived⟩ := h
  obtain ⟨hindexable, keys, rfl, hkeys⟩ := appendIndexOps_spec hmid
  obtain ⟨extra, rfl, hextra⟩ := appendDerivedIndexOps_spec hderived
  have hwrites := changeWrites_of_ops collection id
    (.put documentTable (makeDocumentKey collection.collectionId id) bytes) deletes keys
      rfl rfl hextra
  have hnew : OldDocument C (some bytes) (some doc.1.canonical) := stored_document hbytes
  refine ⟨bytes, plannedChange_of_writes hold hnew ?_ ?_⟩
  · rintro _ ⟨⟩
    exact indexable_canonical hindexable
  · have hnewKeys : (· ∈ keys) = collection.KeysOf id (some doc.1.canonical) := by
      funext key
      exact propext ((hkeys key).trans isEntry_canonical.symm)
    have holdKeys : (· ∈ deletes) = collection.KeysOf id oldDoc :=
      funext fun key => propext (hdeletes key)
    rw [← hnewKeys, ← holdKeys]
    exact hwrites

theorem plannedChange_of_insert {doc : OrderedValue} (h : collection.insertOps id doc.1 = .ok ops) :
    ∃ new, PlannedChange C collection id none (some new) (opsToWriteSet ops) :=
  plannedChange_of_put [] (show OldDocument C none none from trivial)
    (by simp [DocumentCollection.KeysOf]) h

variable {change : DocumentCollection.Change}

theorem plannedChange_of_planUpdate {doc : OrderedValue}
    (h : collection.planUpdate C s id doc.1 = .ok change) :
    ∃ new, PlannedChange C collection change.id change.expected (some new)
      (opsToWriteSet change.ops) := by
  obtain ⟨row, -, h⟩ := bind_eq_ok_iff.mp h
  cases row with
  | none =>
    simp only [bind_eq_ok_iff, pure_eq_ok_iff, Except.ok.injEq, exists_eq_left',
      DocumentCollection.replaceOpsWithOld] at h
    obtain ⟨_, ⟨puts, hputs, rfl⟩, rfl⟩ := h
    exact plannedChange_of_put [] (show OldDocument C none none from trivial)
      (by simp [DocumentCollection.KeysOf]) hputs
  | some bytes =>
    simp only [bind_eq_ok_iff, pure_eq_ok_iff, map_eq_ok_iff, mapError_eq_ok_iff] at h
    obtain ⟨_, ⟨old, hdecode, rfl⟩, ops, hops, rfl⟩ := h
    simp only [DocumentCollection.replaceOpsWithOld, bind_eq_ok_iff, pure_eq_ok_iff] at hops
    obtain ⟨_, hdeletes, puts, hputs, rfl⟩ := hops
    obtain ⟨-, keys, rfl, hkeys⟩ := appendIndexOps_spec hdeletes
    exact plannedChange_of_put keys (show OldDocument C (some bytes) (some old) from hdecode) hkeys
      hputs

theorem plannedChange_of_planDelete
    (h : collection.planDelete C s id = .ok (some change)) :
    PlannedChange C collection change.id change.expected none (opsToWriteSet change.ops) := by
  simp only [DocumentCollection.planDelete, bind_eq_ok_iff] at h
  obtain ⟨row, -, h⟩ := h
  cases row with
  | none => simp [pure, Except.pure] at h
  | some bytes =>
    simp only [bind_eq_ok_iff, pure_eq_ok_iff, mapError_eq_ok_iff, Option.some.injEq,
      DocumentCollection.deleteOpsWithOld] at h
    obtain ⟨old, hdecode, ops, ⟨deletes, hdeletes, hderived⟩, rfl⟩ := h
    obtain ⟨-, keys, rfl, hkeys⟩ := appendIndexOps_spec hdeletes
    obtain ⟨extra, rfl, hextra⟩ := appendDerivedIndexOps_spec hderived
    have hwrites := changeWrites_of_ops collection id (deleteDocumentOp collection.collectionId id)
      keys [] rfl rfl hextra
    have hold : OldDocument C (some bytes) (some old) := hdecode
    have hnew : OldDocument C none none := trivial
    refine plannedChange_of_writes hold hnew (fun doc hdoc => by contradiction) ?_
    have hnewKeys : (· ∈ ([] : List Bytes)) = collection.KeysOf id none := by
      funext key
      exact propext (by simp [DocumentCollection.KeysOf])
    have holdKeys : (· ∈ keys) = collection.KeysOf id (some old) :=
      funext fun key => propext (hkeys key)
    rw [← hnewKeys, ← holdKeys]
    simpa [deleteDocumentOp, Op.value] using hwrites

end Plans

end MultiDb
