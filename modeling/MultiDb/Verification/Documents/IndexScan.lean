import MultiDb.Verification.Documents.IndexRuns
import MultiDb.Verification.Query.DataVersions

/-!
# Index scans and full scans

The byte range of a predicate holds exactly the entries of the values that satisfy it.
-/

namespace MultiDb

open Shared

variable {C : RelCodecs} {collection : DocumentCollection} {s : Store} {id : DocumentId}
  {row : Bytes × Bytes} {doc : Value}
variable {value : Value} {result : DocumentQueryResult} {ids : List DocumentId}

/-- The entries of one index are those of the stored documents with a key. -/
structure ExactIndex (C : RelCodecs) (collection : DocumentCollection) (s : Store)
    (index : IndexSpec) : Prop where
  readable : ∀ id bytes,
    s.get documentTable (makeDocumentKey collection.collectionId id) = some bytes →
    ∃ doc, decodeValue C bytes = .ok doc
  entry : ∀ id doc value key, collection.Stored C s id doc →
    extractPath doc index.path = some value →
    DocumentIndex.makeIndexKey collection.collectionId index.id value id = .ok key →
    (s.get indexTable key).isSome = true
  only : ∀ key, (s.get indexTable key).isSome = true →
    beBytes 4 collection.collectionId.toNat ++ beBytes 4 index.id.toNat <+: key →
    ∃ id doc value, collection.Stored C s id doc ∧ extractPath doc index.path = some value ∧
      DocumentIndex.makeIndexKey collection.collectionId index.id value id = .ok key

/-- The operands of the predicate have keys, and a range is not empty. -/
def Predicate.Encodable : Predicate → Prop
  | .eq _ value => ∃ body, encodeIndexValue value = .ok body
  | .range _ start stop => ∃ a b, encodeIndexValue start = .ok a ∧ encodeIndexValue stop = .ok b ∧
      compare a b = .lt

/-! ## Values and their keys -/

theorem F64.eq_iff_normalize {f g : F64} (hg : g.isFinite = true) :
    f.eq g = true ↔ f.isFinite = true ∧ f.normalize = g.normalize := by
  have hnan : ∀ h : F64, h.isFinite = true → h.isNan = false := by
    intro h hfinite
    simp only [F64.isFinite, Bool.not_eq_true'] at hfinite
    simp [F64.isNan, hfinite]
  rw [F64.eq, Bool.and_eq_true, Bool.not_eq_true', beq_iff_eq]
  constructor
  · rintro ⟨-, heq⟩
    exact ⟨by rw [← F64.isFinite_normalize, heq, F64.isFinite_normalize, hg], heq⟩
  · rintro ⟨hf, heq⟩
    exact ⟨hnan f hf, heq⟩

/-- Values are equal when their encodings are. -/
theorem Value.eq_iff_encodeIndexValue {v w : Value} {body : Bytes}
    (hw : encodeIndexValue w = .ok body) : v.eq w = true ↔ encodeIndexValue v = .ok body := by
  cases w with
  | null =>
    cases hw
    cases v with
    | float f => simp [Value.eq, encodeIndexValue, guard_eq_ok_iff]
    | _ => simp [Value.eq, encodeIndexValue]
  | bool b =>
    cases hw
    cases v with
    | bool a => cases a <;> cases b <;> simp [Value.eq, encodeIndexValue]
    | float f => simp [Value.eq, encodeIndexValue, guard_eq_ok_iff]
    | _ => simp [Value.eq, encodeIndexValue]
  | int i =>
    cases hw
    cases v with
    | int j => simp [Value.eq, encodeIndexValue, encodeI64Ordered_inj]
    | float f => simp [Value.eq, encodeIndexValue, guard_eq_ok_iff]
    | _ => simp [Value.eq, encodeIndexValue]
  | float g =>
    simp only [encodeIndexValue, guard_eq_ok_iff, Except.ok.injEq] at hw
    obtain ⟨hfinite, rfl⟩ := hw
    cases v with
    | float f =>
      simp only [Value.eq, F64.eq_iff_normalize (by simpa using hfinite), encodeIndexValue,
        guard_eq_ok_iff, Except.ok.injEq, List.cons.injEq, true_and, encodeF64Ordered_inj]
      simp
    | _ => simp [Value.eq, encodeIndexValue]
  | str t =>
    cases hw
    cases v with
    | str r =>
      have hterm : terminated (strBytes r) = terminated (strBytes t) ↔ r = t := by
        have := terminated_append_inj (a := strBytes r) (b := strBytes t) (x := []) (y := [])
        simpa [strBytes_inj] using this
      simp [Value.eq, encodeIndexValue, hterm]
    | float f => simp [Value.eq, encodeIndexValue, guard_eq_ok_iff]
    | _ => simp [Value.eq, encodeIndexValue]
  | _ => simp [encodeIndexValue] at hw

theorem not_prefix_of_encodeIndexValue {v w : Value} {a b : Bytes} (ha : encodeIndexValue v = .ok a)
    (hb : encodeIndexValue w = .ok b) (hne : a ≠ b) : ¬ a <+: b := by
  rintro ⟨x, hx⟩
  have h := (encodeIndexValue_append_inj (x := x) (y := []) ha hb).mp (by simpa using hx)
  exact hne h.1

section Order

variable {v w : Value} {a b : Bytes}

theorem isLE_compare_append (ha : encodeIndexValue v = .ok a) (hb : encodeIndexValue w = .ok b)
    (x : Bytes) : (compare a (b ++ x)).isLE = (compare a b).isLE := by
  by_cases hab : a = b
  · subst hab
    rw [compare_self_append, Std.LawfulEqOrd.compare_eq_iff_eq.mpr rfl]
    rfl
  · have h := compare_append_of_not_prefix (not_prefix_of_encodeIndexValue ha hb hab)
      (not_prefix_of_encodeIndexValue hb ha (Ne.symm hab)) [] x
    rw [List.append_nil] at h
    rw [h]

theorem isLT_compare_append (ha : encodeIndexValue v = .ok a) (hb : encodeIndexValue w = .ok b)
    (x : Bytes) : (compare (a ++ x) b).isLT = (compare a b).isLT := by
  by_cases hab : a = b
  · subst hab
    have hle := compare_self_append a x
    rw [Std.LawfulEqOrd.compare_eq_iff_eq.mpr rfl]
    cases hcmp : compare (a ++ x) a with
    | lt =>
      rw [Std.OrientedCmp.gt_of_lt hcmp] at hle
      contradiction
    | eq => rfl
    | gt => rfl
  · have h := compare_append_of_not_prefix (not_prefix_of_encodeIndexValue ha hb hab)
      (not_prefix_of_encodeIndexValue hb ha (Ne.symm hab)) x []
    rw [List.append_nil] at h
    rw [h]

end Order

/-! ## The range of a predicate -/

/-- The bytes every entry of one index starts with. -/
def indexFront (collection : DocumentCollection) (index : IndexSpec) : Bytes :=
  beBytes 4 collection.collectionId.toNat ++ beBytes 4 index.id.toNat

theorem makeIndexKey_eq_front {index : IndexSpec} {key : Bytes} :
    DocumentIndex.makeIndexKey collection.collectionId index.id value id = .ok key ↔
      ∃ body, encodeIndexValue value = .ok body ∧
        key = indexFront collection index ++ (body ++ id.bytes) := by
  simp only [DocumentIndex.makeIndexKey_eq_ok_iff, indexFront, List.append_assoc]

/-- The index rows a predicate scans. -/
def predicateRange (collection : DocumentCollection) (index : IndexSpec) :
    Predicate → ModelResult (Bytes × Bytes)
  | .eq _ value => do
    let start ← DocumentIndex.makeIndexPrefix collection.collectionId index.id value
    return (start, rangeEnd start)
  | .range _ start stop => do
    let startKey ← DocumentIndex.makeIndexPrefix collection.collectionId index.id start
    let stopKey ← DocumentIndex.makeIndexPrefix collection.collectionId index.id stop
    if (compare stopKey startKey).isLE then
      .error .invalidRange
    else
      return (startKey, stopKey)

theorem indexedIds_eq {index : IndexSpec} (predicate : Predicate) :
    collection.indexedIds s index predicate = (do
      let bounds ← predicateRange collection index predicate
      rangeIndexIdsBetween s bounds.1 bounds.2) := by
  cases predicate with
  | eq path value =>
    simp only [DocumentCollection.indexedIds, predicateRange, rangeIndexIds, bind_assoc, pure_bind]
  | range path start stop =>
    simp only [DocumentCollection.indexedIds, predicateRange, bind_assoc]
    congr 1
    funext startKey
    congr 1
    funext stopKey
    split <;> rfl

theorem makeIndexPrefix_eq_front {index : IndexSpec} {body : Bytes}
    (h : encodeIndexValue value = .ok body) :
    DocumentIndex.makeIndexPrefix collection.collectionId index.id value =
      .ok (indexFront collection index ++ body) :=
  DocumentIndex.makeIndexPrefix_eq_ok_iff.mpr ⟨body, h, by simp [indexFront]⟩

/-- A byte range holds the entries of the values that satisfy a predicate. -/
structure RangeCovers (collection : DocumentCollection) (index : IndexSpec) (predicate : Predicate)
    (start stop : Bytes) : Prop where
  inside : ∀ key, keyInRange start stop key = true → indexFront collection index <+: key
  holds_iff : ∀ doc value id key, extractPath doc index.path = some value →
    DocumentIndex.makeIndexKey collection.collectionId index.id value id = .ok key →
    (keyInRange start stop key = true ↔ predicate.holds doc = true)

/-- The range of a predicate covers the entries of every document it accepts. -/
theorem predicateRange_covers (collection : DocumentCollection) {index : IndexSpec}
    {predicate : Predicate} (hpath : predicate.path = index.path) (h : predicate.Encodable) :
    ∃ start stop, predicateRange collection index predicate = .ok (start, stop) ∧
      RangeCovers collection index predicate start stop := by
  cases predicate with
  | eq path wanted =>
    obtain rfl : path = index.path := hpath
    obtain ⟨body, hbody⟩ := h
    refine ⟨indexFront collection index ++ body, rangeEnd (indexFront collection index ++ body), ?_,
      fun key hkey => ?_, ?_⟩
    · rw [predicateRange, makeIndexPrefix_eq_front hbody]
      rfl
    · exact (List.prefix_append _ _).trans (keyInRange_rangeEnd_iff.mp hkey)
    · intro doc value id key hvalue hkey
      obtain ⟨found, hfound, rfl⟩ := makeIndexKey_eq_front.mp hkey
      rw [keyInRange_rangeEnd_iff]
      simp only [Predicate.holds, hvalue, Value.eq_iff_encodeIndexValue hbody]
      constructor
      · intro hprefix
        obtain ⟨rest, hrest⟩ := (List.prefix_append_right_inj _).mp hprefix
        rw [((encodeIndexValue_append_inj hbody hfound).mp hrest).1]
        exact hfound
      · intro hsame
        cases hfound.symm.trans hsame
        exact (List.prefix_append_right_inj _).mpr (List.prefix_append _ _)
  | range path start stop =>
    obtain rfl : path = index.path := hpath
    obtain ⟨a, b, ha, hb, hlt⟩ := h
    have hgt : compare b a = .gt := Std.OrientedCmp.gt_of_lt hlt
    refine ⟨indexFront collection index ++ a, indexFront collection index ++ b, ?_,
      fun key hkey => ?_, ?_⟩
    · rw [predicateRange, makeIndexPrefix_eq_front ha, makeIndexPrefix_eq_front hb]
      change (if (compare (indexFront collection index ++ b)
        (indexFront collection index ++ a)).isLE = true then _ else _) = _
      rw [compare_append_left, hgt]
      rfl
    · rw [keyInRange, Bool.and_eq_true, Bool.or_eq_true] at hkey
      obtain ⟨hstart, hstop⟩ := hkey
      have hne : (indexFront collection index ++ b).isEmpty = false := by
        simp [indexFront, beBytes]
      rw [hne] at hstop
      exact prefix_of_between hstart (by simpa [Ordering.isLT_iff_eq_lt] using hstop)
    · intro doc value id key hvalue hkey
      obtain ⟨found, hfound, rfl⟩ := makeIndexKey_eq_front.mp hkey
      have hne : (indexFront collection index ++ b).isEmpty = false := by
        simp [indexFront, beBytes]
      simp only [keyInRange, compare_append_left, isLE_compare_append ha hfound,
        isLT_compare_append hfound hb, hne, Bool.false_or, Predicate.holds, hvalue, hfound, ha, hb]

/-! ## The two scans -/

/-- What a query is asked for: each stored document that satisfies the predicate, once. -/
structure Answers (C : RelCodecs) (collection : DocumentCollection) (s : Store)
    (predicate : Predicate) (documents : List (DocumentId × Value)) : Prop where
  mem_iff : ∀ id doc, (id, doc) ∈ documents ↔
    collection.Stored C s id doc ∧ predicate.holds doc = true
  once : (documents.map Prod.fst).Nodup

/-- A stored row the predicate accepts. -/
def foundRow (C : RelCodecs) (predicate : Predicate) (row : Bytes × Bytes) :
    Option (DocumentId × Value) :=
  (documentIdFromKey row.1).bind fun id => (decodeValue C row.2).toOption.bind fun doc =>
    if predicate.holds doc then some (id, doc) else none

theorem foundRow_eq_some_iff {predicate : Predicate} : foundRow C predicate row = some (id, doc) ↔
      documentIdFromKey row.1 = some id ∧ decodeValue C row.2 = .ok doc ∧
        predicate.holds doc = true := by
  rw [foundRow]
  cases documentIdFromKey row.1 with
  | none => simp
  | some found =>
    cases decodeValue C row.2 with
    | error e => simp [Except.toOption]
    | ok value =>
      by_cases hholds : predicate.holds value
      · simp only [Except.toOption, Option.bind_some, hholds, if_true, Option.some.injEq,
          Prod.mk.injEq, Except.ok.injEq]
        grind
      · simp only [Except.toOption, Option.bind_some, hholds, Bool.false_eq_true, if_false,
          Except.ok.injEq]
        grind

theorem visitRow_collects {predicate : Predicate} {result' : DocumentQueryResult}
    (h : DocumentCollection.visitRow C predicate result row = .ok result') :
    result'.documents = result.documents ++ (foundRow C predicate row).toList := by
  rw [DocumentCollection.visitRow] at h
  rw [foundRow]
  cases hid : documentIdFromKey row.1 with
  | none =>
    rw [hid] at h
    cases h
    simp
  | some id =>
    rw [hid] at h
    obtain ⟨doc, hdoc, h⟩ := bind_eq_ok_iff.mp h
    rw [mapError_eq_ok_iff.mp hdoc]
    obtain rfl := pure_eq_ok_iff.mp h
    by_cases hholds : predicate.holds doc <;> simp [Except.toOption, hholds]

theorem documentIdFromKey_of_mem {key bytes : Bytes}
    (hrow : (key, bytes) ∈ range s documentTable (beBytes 4 collection.collectionId.toNat)
      (rangeEnd (beBytes 4 collection.collectionId.toNat))) :
    documentIdFromKey key = some id ↔ key = makeDocumentKey collection.collectionId id :=
  documentIdFromKey_eq_some_iff (keyInRange_rangeEnd_iff.mp (mem_range.mp hrow).2)

/-- A full scan answers with the documents the predicate accepts. -/
theorem queryFullScan_answers {predicate : Predicate}
    (h : collection.queryFullScan C s predicate = .ok result) :
    Answers C collection s predicate result.documents := by
  obtain ⟨rows, hrows, hrun⟩ := bind_eq_ok_iff.mp h
  obtain ⟨_, -, hrows⟩ := bind_eq_ok_iff.mp (mapError_eq_ok_iff.mp hrows)
  obtain rfl := pure_eq_ok_iff.mp hrows
  have hall := foldlM_collect DocumentQueryResult.documents (foundRow C predicate) hrun
    fun _ _ _ _ hstep => visitRow_collects hstep
  rw [hall, List.nil_append]
  constructor
  · intro id doc
    rw [List.mem_filterMap]
    constructor
    · rintro ⟨⟨key, bytes⟩, hrow, hfound⟩
      obtain ⟨hid, hdecode, hholds⟩ := foundRow_eq_some_iff.mp hfound
      obtain rfl := (documentIdFromKey_of_mem hrow).mp hid
      exact ⟨⟨bytes, (mem_range.mp hrow).1, hdecode⟩, hholds⟩
    · rintro ⟨⟨bytes, hbytes, hdecode⟩, hholds⟩
      have hrow : (makeDocumentKey collection.collectionId id, bytes) ∈ range s documentTable
          (beBytes 4 collection.collectionId.toNat)
          (rangeEnd (beBytes 4 collection.collectionId.toNat)) :=
        mem_range.mpr ⟨hbytes, keyInRange_rangeEnd_iff.mpr (List.prefix_append _ _)⟩
      exact ⟨_, hrow,
        foundRow_eq_some_iff.mpr ⟨(documentIdFromKey_of_mem hrow).mpr rfl, hdecode, hholds⟩⟩
  · rw [List.Nodup, List.pairwise_map, List.pairwise_filterMap]
    refine (Tables.scan_sorted s documentTable _).imp_of_mem ?_
    rintro ⟨key, bytes⟩ ⟨key', bytes'⟩ hrow hrow' hlt ⟨id, doc⟩ hfound ⟨id', doc'⟩ hfound' rfl
    -- one id has one key, and keys ascend
    have hkey := (documentIdFromKey_of_mem hrow).mp (foundRow_eq_some_iff.mp hfound).1
    have hkey' := (documentIdFromKey_of_mem hrow').mp (foundRow_eq_some_iff.mp hfound').1
    simp only [hkey, hkey', Std.LawfulEqOrd.compare_eq_iff_eq.mpr rfl] at hlt
    exact absurd hlt (by decide)

/-- The document behind an index entry, if it is stored and accepted. -/
def foundIndexed (C : RelCodecs) (collection : DocumentCollection) (s : Store)
    (predicate : Predicate) (id : DocumentId) : Option (DocumentId × Value) :=
  (s.get documentTable (makeDocumentKey collection.collectionId id)).bind fun bytes =>
    (decodeValue C bytes).toOption.bind fun doc =>
      if predicate.holds doc then some (id, doc) else none

theorem foundIndexed_eq_some_iff {predicate : Predicate} {id id' : DocumentId} :
    foundIndexed C collection s predicate id = some (id', doc) ↔
      id' = id ∧ collection.Stored C s id doc ∧ predicate.holds doc = true := by
  rw [foundIndexed, DocumentCollection.Stored]
  cases s.get documentTable (makeDocumentKey collection.collectionId id) with
  | none => simp
  | some bytes =>
    cases hdecode : decodeValue C bytes with
    | error e => simp [Except.toOption, hdecode]
    | ok value =>
      by_cases hholds : predicate.holds value
      · simp only [Except.toOption, Option.bind_some, hdecode, hholds, if_true,
          Option.some.injEq, Prod.mk.injEq, exists_eq_left', Except.ok.injEq]
        grind
      · simp only [Except.toOption, Option.bind_some, hdecode, hholds, Bool.false_eq_true,
          if_false, Option.some.injEq, exists_eq_left', Except.ok.injEq]
        grind

theorem visitIndexed_collects {predicate : Predicate}
    {documents documents' : List (DocumentId × Value)}
    (h : collection.visitIndexed C s predicate documents id = .ok documents') :
    documents' = documents ++ (foundIndexed C collection s predicate id).toList := by
  obtain ⟨found, hget, h⟩ := bind_eq_ok_iff.mp h
  obtain ⟨row, hrow, hget⟩ := bind_eq_ok_iff.mp hget
  obtain ⟨_, -, hrow⟩ := bind_eq_ok_iff.mp (mapError_eq_ok_iff.mp hrow)
  obtain rfl := pure_eq_ok_iff.mp hrow
  rw [foundIndexed]
  cases hbytes : s.get documentTable (makeDocumentKey collection.collectionId id) with
  | none =>
    rw [hbytes] at hget
    obtain rfl := pure_eq_ok_iff.mp hget
    obtain rfl := pure_eq_ok_iff.mp h
    simp
  | some bytes =>
    rw [hbytes] at hget
    obtain ⟨doc, hdoc, hget⟩ := bind_eq_ok_iff.mp hget
    obtain rfl := pure_eq_ok_iff.mp hget
    obtain rfl := pure_eq_ok_iff.mp h
    rw [Option.bind_some, mapError_eq_ok_iff.mp hdoc]
    by_cases hholds : predicate.holds doc <;> simp [Except.toOption, hholds]

theorem Predicate.exists_key (collection : DocumentCollection) {predicate : Predicate}
    {index : IndexSpec} (hpath : predicate.path = index.path) (h : predicate.Encodable)
    (hholds : predicate.holds doc = true) (id : DocumentId) :
    ∃ value key, extractPath doc index.path = some value ∧
      DocumentIndex.makeIndexKey collection.collectionId index.id value id = .ok key := by
  have hencoded : ∃ value body, extractPath doc index.path = some value ∧
      encodeIndexValue value = .ok body := by
    cases predicate with
    | eq path wanted =>
      obtain rfl : path = index.path := hpath
      obtain ⟨body, hbody⟩ := h
      cases hvalue : extractPath doc index.path with
      | none => simp [Predicate.holds, hvalue] at hholds
      | some value =>
        simp only [Predicate.holds, hvalue, Value.eq_iff_encodeIndexValue hbody] at hholds
        exact ⟨value, body, rfl, hholds⟩
    | range path start stop =>
      obtain rfl : path = index.path := hpath
      cases hvalue : extractPath doc index.path with
      | none => simp [Predicate.holds, hvalue] at hholds
      | some value =>
        cases hbody : encodeIndexValue value with
        | error e => simp [Predicate.holds, hvalue, hbody] at hholds
        | ok body => exact ⟨value, body, rfl, hbody⟩
  obtain ⟨value, body, hvalue, hbody⟩ := hencoded
  exact ⟨value, _, hvalue, makeIndexKey_eq_front.mpr ⟨body, hbody, rfl⟩⟩

section Entries

variable {index : IndexSpec} {predicate : Predicate} {start stop : Bytes}

theorem ExactIndex.of_mem (hexact : ExactIndex C collection s index)
    (hcovers : RangeCovers collection index predicate start stop)
    (hrow : row ∈ range s indexTable start stop) :
    ∃ id doc value, collection.Stored C s id doc ∧ predicate.holds doc = true ∧
      extractPath doc index.path = some value ∧
      DocumentIndex.makeIndexKey collection.collectionId index.id value id = .ok row.1 := by
  obtain ⟨hget, hin⟩ := mem_range.mp hrow
  obtain ⟨id, doc, value, hstored, hvalue, hkey⟩ :=
    hexact.only row.1 (by rw [hget]; rfl) (hcovers.inside row.1 hin)
  exact ⟨id, doc, value, hstored, (hcovers.holds_iff doc value id row.1 hvalue hkey).mp hin, hvalue,
    hkey⟩

theorem exists_rangeIds (hexact : ExactIndex C collection s index)
    (hcovers : RangeCovers collection index predicate start stop) :
    ∃ ids, (range s indexTable start stop).mapM
      (fun row => DocumentIndex.documentIdFromIndexKey row.1) = .ok ids := by
  refine exists_mapM_eq_ok fun row hrow => ?_
  obtain ⟨id, _, _, -, -, -, hkey⟩ := hexact.of_mem hcovers hrow
  exact ⟨id, DocumentIndex.documentIdFromIndexKey_makeIndexKey hkey⟩

/-- The ids of a range are those of the documents the predicate accepts. -/
theorem mem_rangeIds_iff (hexact : ExactIndex C collection s index)
    (hpath : predicate.path = index.path) (hencodable : predicate.Encodable)
    (hcovers : RangeCovers collection index predicate start stop)
    (hids : (range s indexTable start stop).mapM
      (fun row => DocumentIndex.documentIdFromIndexKey row.1) = .ok ids) (id : DocumentId) :
    id ∈ ids ↔ ∃ doc, collection.Stored C s id doc ∧ predicate.holds doc = true := by
  have hmap := mapM_eq_ok_iff.mp hids
  have hmem : id ∈ ids ↔ ∃ row ∈ range s indexTable start stop,
      DocumentIndex.documentIdFromIndexKey row.1 = .ok id := by
    have h : (.ok id : ModelResult DocumentId) ∈ ids.map .ok ↔ id ∈ ids := by simp
    rw [← h, ← hmap, List.mem_map]
  rw [hmem]
  constructor
  · rintro ⟨row, hrow, hid⟩
    obtain ⟨found, doc, value, hstored, hholds, -, hkey⟩ := hexact.of_mem hcovers hrow
    have hfound := DocumentIndex.documentIdFromIndexKey_makeIndexKey hkey
    cases hid.symm.trans hfound
    exact ⟨doc, hstored, hholds⟩
  · rintro ⟨doc, hstored, hholds⟩
    obtain ⟨value, key, hvalue, hkey⟩ :=
      Predicate.exists_key collection hpath hencodable hholds id
    obtain ⟨bytes, hbytes⟩ := Option.isSome_iff_exists.mp
      (hexact.entry id doc value key hstored hvalue hkey)
    have hin := (hcovers.holds_iff doc value id key hvalue hkey).mpr hholds
    exact ⟨(key, bytes), mem_range.mpr ⟨hbytes, hin⟩,
      DocumentIndex.documentIdFromIndexKey_makeIndexKey hkey⟩

theorem nodup_rangeIds (hexact : ExactIndex C collection s index)
    (hcovers : RangeCovers collection index predicate start stop)
    (hids : (range s indexTable start stop).mapM
      (fun row => DocumentIndex.documentIdFromIndexKey row.1) = .ok ids) : ids.Nodup := by
  have hmap := mapM_eq_ok_iff.mp hids
  apply List.Nodup.of_map (.ok : DocumentId → ModelResult DocumentId)
  rw [← hmap, List.Nodup, List.pairwise_map]
  refine (Tables.scan_sorted s indexTable _).imp_of_mem ?_
  intro row row' hrow hrow' hlt hsame
  obtain ⟨id, doc, value, hstored, -, hvalue, hkey⟩ := hexact.of_mem hcovers hrow
  obtain ⟨id', doc', value', hstored', -, hvalue', hkey'⟩ := hexact.of_mem hcovers hrow'
  rw [DocumentIndex.documentIdFromIndexKey_makeIndexKey hkey,
    DocumentIndex.documentIdFromIndexKey_makeIndexKey hkey'] at hsame
  -- one document has one value at the path, hence one key
  cases hsame
  obtain rfl := hstored.unique hstored'
  cases hvalue.symm.trans hvalue'
  rw [Except.ok.inj (hkey.symm.trans hkey'), Std.LawfulEqOrd.compare_eq_iff_eq.mpr rfl] at hlt
  exact absurd hlt (by decide)

end Entries

/-- An index scan answers with the documents the predicate accepts. -/
theorem queryWithIndex_answers {index : IndexSpec} {predicate : Predicate} (hexact : ExactIndex C collection s index)
    (hpath : predicate.path = index.path) (hencodable : predicate.Encodable)
    (h : collection.queryWithIndex C s index predicate = .ok result) :
    Answers C collection s predicate result.documents := by
  obtain ⟨start, stop, hrange, hcovers⟩ :=
    predicateRange_covers collection hpath hencodable
  obtain ⟨ids, hids, h⟩ := bind_eq_ok_iff.mp h
  obtain ⟨documents, hrun, h⟩ := bind_eq_ok_iff.mp h
  obtain rfl := pure_eq_ok_iff.mp h
  rw [indexedIds_eq, hrange] at hids
  change rangeIndexIdsBetween s start stop = .ok ids at hids
  obtain ⟨rows, hrows, hids⟩ := bind_eq_ok_iff.mp hids
  obtain ⟨_, -, hrows⟩ := bind_eq_ok_iff.mp (mapError_eq_ok_iff.mp hrows)
  obtain rfl := pure_eq_ok_iff.mp hrows
  have hall := foldlM_collect (fun found => found) (foundIndexed C collection s predicate) hrun
    fun _ _ _ _ hstep => visitIndexed_collects hstep
  simp only [List.nil_append] at hall
  subst hall
  constructor
  · intro id doc
    rw [List.mem_filterMap]
    constructor
    · rintro ⟨id', -, hfound⟩
      obtain ⟨rfl, hstored, hholds⟩ := foundIndexed_eq_some_iff.mp hfound
      exact ⟨hstored, hholds⟩
    · intro hdoc
      exact ⟨id, (mem_rangeIds_iff hexact hpath hencodable hcovers hids id).mpr ⟨doc, hdoc⟩,
        foundIndexed_eq_some_iff.mpr ⟨rfl, hdoc⟩⟩
  · rw [List.Nodup, List.pairwise_map, List.pairwise_filterMap]
    refine (nodup_rangeIds hexact hcovers hids).imp ?_
    rintro id id' hne ⟨found, doc⟩ hfound ⟨found', doc'⟩ hfound' rfl
    obtain ⟨rfl, -⟩ := foundIndexed_eq_some_iff.mp hfound
    obtain ⟨rfl, -⟩ := foundIndexed_eq_some_iff.mp hfound'
    exact hne rfl

/-! ## Both scans succeed when nothing is locked -/

theorem exists_queryFullScan {predicate : Predicate} {index : IndexSpec}
    (hexact : ExactIndex C collection s index)
    (hfree : hasRangeLocks s documentTable [] [] = .ok false) :
    ∃ result, collection.queryFullScan C s predicate = .ok result := by
  have hrun : ∃ result, (range s documentTable (beBytes 4 collection.collectionId.toNat)
      (rangeEnd (beBytes 4 collection.collectionId.toNat))).foldlM
        (DocumentCollection.visitRow C predicate)
        { plan := .fullScan, examinedDocuments := 0, documents := [] } = .ok result := by
    refine exists_foldlM_eq_ok (fun row hrow t => ?_) _
    rw [DocumentCollection.visitRow]
    cases hid : documentIdFromKey row.1 with
    | none => exact ⟨t, rfl⟩
    | some id =>
      have hkey := (documentIdFromKey_of_mem hrow).mp hid
      obtain ⟨doc, hdoc⟩ := hexact.readable id row.2 (by rw [← hkey]; exact (mem_range.mp hrow).1)
      exact ⟨_, bind_eq_ok_iff.mpr ⟨doc, mapError_eq_ok_iff.mpr hdoc, rfl⟩⟩
  obtain ⟨result, hresult⟩ := hrun
  refine ⟨result, bind_eq_ok_iff.mpr ⟨_, ?_, hresult⟩⟩
  rw [range_of_unlocked (by decide) hfree]
  rfl

theorem exists_queryWithIndex {predicate : Predicate} {index : IndexSpec}
    (hexact : ExactIndex C collection s index) (hpath : predicate.path = index.path)
    (hencodable : predicate.Encodable) (hfree : hasRangeLocks s documentTable [] [] = .ok false)
    (hentries : hasRangeLocks s indexTable [] [] = .ok false) :
    ∃ result, collection.queryWithIndex C s index predicate = .ok result := by
  obtain ⟨start, stop, hrange, hcovers⟩ :=
    predicateRange_covers collection hpath hencodable
  obtain ⟨ids, hids⟩ := exists_rangeIds hexact hcovers
  have hindexed : collection.indexedIds s index predicate = .ok ids := by
    rw [indexedIds_eq, hrange]
    change rangeIndexIdsBetween s start stop = .ok ids
    rw [rangeIndexIdsBetween, range_of_unlocked (by decide) hentries]
    exact hids
  obtain ⟨documents, hrun⟩ : ∃ documents,
      ids.foldlM (collection.visitIndexed C s predicate) [] = .ok documents := by
    refine exists_foldlM_eq_ok (fun id _ found => ?_) _
    rw [DocumentCollection.visitIndexed, DocumentCollection.get, DocumentCollection.readRow,
      read_of_unlocked (by decide) hfree]
    cases hbytes : s.get documentTable (makeDocumentKey collection.collectionId id) with
    | none => exact ⟨found, rfl⟩
    | some bytes =>
      obtain ⟨doc, hdoc⟩ := hexact.readable id bytes hbytes
      refine ⟨_, bind_eq_ok_iff.mpr ⟨some doc, ?_, rfl⟩⟩
      exact bind_eq_ok_iff.mpr ⟨some bytes, rfl,
        bind_eq_ok_iff.mpr ⟨doc, mapError_eq_ok_iff.mpr hdoc, rfl⟩⟩
  exact ⟨_, bind_eq_ok_iff.mpr ⟨ids, hindexed, bind_eq_ok_iff.mpr ⟨documents, hrun, rfl⟩⟩⟩

/-- An index scan finds what a full scan finds, each once.  Reads are refused only while a prepared
transaction holds rows of the two tables. -/
theorem indexScan_eq_fullScan (C : RelCodecs) (collection : DocumentCollection) (s : Store)
    (hexact : ∀ index ∈ collection.indexes, ExactIndex C collection s index) (index : IndexSpec)
    (hindex : index ∈ collection.indexes) (predicate : Predicate)
    (hpath : predicate.path = index.path) (hencodable : predicate.Encodable) :
    (hasRangeLocks s documentTable [] [] = .ok false →
      hasRangeLocks s indexTable [] [] = .ok false →
      ∃ scanned full, collection.queryWithIndex C s index predicate = .ok scanned ∧
        collection.queryFullScan C s predicate = .ok full) ∧
    ∀ scanned full, collection.queryWithIndex C s index predicate = .ok scanned →
      collection.queryFullScan C s predicate = .ok full →
      (∀ id doc, (id, doc) ∈ scanned.documents ↔ (id, doc) ∈ full.documents) ∧
        (scanned.documents.map Prod.fst).Nodup ∧ (full.documents.map Prod.fst).Nodup := by
  refine ⟨fun hfree hentries => ?_, fun scanned full hscan hfull => ?_⟩
  · obtain ⟨scanned, hscan⟩ :=
      exists_queryWithIndex (hexact index hindex) hpath hencodable hfree hentries
    obtain ⟨full, hfull⟩ := exists_queryFullScan (hexact index hindex) hfree
    exact ⟨scanned, full, hscan, hfull⟩
  · have hindexed := queryWithIndex_answers (hexact index hindex) hpath hencodable hscan
    have hall := queryFullScan_answers hfull
    refine ⟨fun id doc => ?_, hindexed.once, hall.once⟩
    rw [hindexed.mem_iff, hall.mem_iff]

theorem IndexesMatch.exactIndex (h : IndexesMatch C collection s) {index : IndexSpec}
    (hindex : index ∈ collection.indexes)
    (hid : ∀ other ∈ collection.indexes, other.id = index.id → other.path = index.path) :
    ExactIndex C collection s index where
  readable id bytes hbytes := by
    obtain ⟨doc, hdoc, -⟩ := h.readable id bytes hbytes
    exact ⟨doc, hdoc⟩
  entry id doc value key hstored hvalue hkey := by
    rw [h.entry id doc key hstored ⟨index, hindex, value, hvalue, hkey⟩]
    rfl
  only := (h.oneEntryEach hindex hid).only

/-- Two documents, one of them in the range. -/
theorem indexScan_eq_fullScan_sample :
    let C : RelCodecs := { wireCodecs with legacyValue := fun _ => .error "not JSON" }
    let collection : DocumentCollection := { collectionId := 7, indexes := [⟨1, ["a"]⟩] }
    let doc (n : Int64) : OrderedValue := ⟨.object [("a", .int n)], rfl⟩
    let one : DocumentId := ⟨List.replicate 16 1, rfl⟩
    let two : DocumentId := ⟨List.replicate 16 255, rfl⟩
    let s := (DocumentWorld.run C collection .empty
      [.insert epochEnv one (doc 5), .insert epochEnv two (doc 9)]).store
    ∃ scanned full,
      collection.queryWithIndex C s ⟨1, ["a"]⟩ (.range ["a"] (.int 6) (.int 10)) = .ok scanned ∧
      collection.queryFullScan C s (.range ["a"] (.int 6) (.int 10)) = .ok full ∧
      ∀ id doc, (id, doc) ∈ scanned.documents ↔ (id, doc) ∈ full.documents := by
  intro C collection doc one two s
  obtain ⟨hsteps, hdocuments, hentries⟩ : ({ store := .empty } : DocumentWorld).freshRun
    C collection
      [.insert epochEnv one (doc 5), .insert epochEnv two (doc 9)] = true ∧
      hasRangeLocks s documentTable [] [] = .ok false ∧
      hasRangeLocks s indexTable [] [] = .ok false := by
    decide +kernel
  have hinv : DocumentInv C collection (DocumentWorld.run C collection .empty
      [.insert epochEnv one (doc 5), .insert epochEnv two (doc 9)]) :=
    DocumentInv.foldl ⟨indexesMatch_empty C collection, by simp⟩ hsteps
  have hexact : ∀ index ∈ collection.indexes, ExactIndex C collection s index := by
    intro index hindex
    obtain rfl := List.mem_singleton.mp hindex
    exact hinv.matches_store.exactIndex List.mem_cons_self (by decide)
  obtain ⟨hok, hsame⟩ := indexScan_eq_fullScan C collection s hexact ⟨1, ["a"]⟩
    List.mem_cons_self (.range ["a"] (.int 6) (.int 10)) rfl ⟨_, _, rfl, rfl, by decide⟩
  obtain ⟨scanned, full, hscan, hfull⟩ := hok hdocuments hentries
  exact ⟨scanned, full, hscan, hfull, (hsame scanned full hscan hfull).1⟩

end MultiDb
