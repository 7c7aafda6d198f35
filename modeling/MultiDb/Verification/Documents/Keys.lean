import MultiDb.Model.Documents
import MultiDb.Verification.Documents.ValueCodec

/-!
# Keys of documents and of their index entries

An index key names its collection, its index, its document and, up to the sign of a zero,
its value.
-/

namespace MultiDb

open Shared

variable {collectionId : CollectionId} {value : Value} {key : Bytes} {indexId : IndexId}
  {id : DocumentId}

theorem beBytes_four_inj {a b : UInt32} : beBytes 4 a.toNat = beBytes 4 b.toNat ↔ a = b := by
  constructor
  · intro h
    rw [← ofNat_beBytes_u32 a, h, ofNat_beBytes_u32]
  · rintro rfl
    rfl

@[simp] theorem length_makeDocumentKey (collectionId : CollectionId) (id : DocumentId) :
    (makeDocumentKey collectionId id).length = 20 := by
  simp [makeDocumentKey, id.length_bytes]

theorem makeDocumentKey_inj {collectionId collectionId' : CollectionId} {id id' : DocumentId} :
    makeDocumentKey collectionId id = makeDocumentKey collectionId' id' ↔
      collectionId = collectionId' ∧ id = id' := by
  rw [makeDocumentKey, makeDocumentKey, append_inj_of_length (by simp), beBytes_four_inj]
  cases id
  cases id'
  simp

theorem documentIdFromKey_makeDocumentKey (collectionId : CollectionId) (id : DocumentId) :
    documentIdFromKey (makeDocumentKey collectionId id) = some id := by
  rw [documentIdFromKey, dif_pos (length_makeDocumentKey collectionId id)]
  cases id
  simp [makeDocumentKey]

theorem documentIdFromKey_eq_some_iff (h : beBytes 4 collectionId.toNat <+: key) :
    documentIdFromKey key = some id ↔ key = makeDocumentKey collectionId id := by
  constructor
  · intro hid
    rw [documentIdFromKey] at hid
    split at hid
    · cases hid
      obtain ⟨rest, rfl⟩ := h
      simp [makeDocumentKey]
    · contradiction
  · rintro rfl
    exact documentIdFromKey_makeDocumentKey collectionId id

theorem lookup_map_canonical (fields : List (String × Value)) (name : String) :
    (fields.map fun field => (field.1, field.2.canonical)).lookup name =
      (fields.lookup name).map Value.canonical := by
  induction fields with
  | nil => rfl
  | cons field fields ih =>
    obtain ⟨name', value⟩ := field
    by_cases h : (name == name') = true
    · simp [List.lookup_cons, h]
    · simp [List.lookup_cons, h, ih]

theorem extractPath_canonical (doc : Value) (path : FieldPath) :
    extractPath doc.canonical path = (extractPath doc path).map Value.canonical := by
  induction path generalizing doc with
  | nil => simp [extractPath]
  | cons segment path ih =>
    cases doc with
    | object fields =>
      rw [Value.canonical, Value.canonicalFields_eq_map, extractPath, lookup_map_canonical,
        extractPath]
      cases fields.lookup segment with
      | none => rfl
      | some value => exact ih value
    | _ => rfl

theorem encodeIndexValue_canonical (value : Value) :
    encodeIndexValue value.canonical = encodeIndexValue value := by
  cases value with
  | float f =>
    simp only [Value.canonical, encodeIndexValue, F64.isFinite_normalize,
      encodeF64Ordered_normalize]
  | _ => rfl

theorem encodeRelKey_of_encodeIndexValue {body : Bytes}
    (h : encodeIndexValue value = .ok body) : encodeRelKey value = .ok body := by
  cases value with
  | bytes _ => simp [encodeIndexValue] at h
  | array _ => simp [encodeIndexValue] at h
  | object _ => simp [encodeIndexValue] at h
  | vector _ => simp [encodeIndexValue] at h
  | geoPoint _ _ => simp [encodeIndexValue] at h
  | _ => simp only [encodeRelKey, mapError_eq_ok_iff, h]

theorem encodeIndexValue_append_inj {v w : Value} {a b x y : Bytes}
    (ha : encodeIndexValue v = .ok a) (hb : encodeIndexValue w = .ok b) :
    a ++ x = b ++ y ↔ a = b ∧ x = y := by
  have hva := encodeRelKey_of_encodeIndexValue ha
  have hwb := encodeRelKey_of_encodeIndexValue hb
  constructor
  · intro h
    obtain ⟨hvalue, rfl⟩ := (encodeRelKey_append_inj hva hwb).mp h
    exact ⟨List.append_cancel_right h, rfl⟩
  · rintro ⟨rfl, rfl⟩
    rfl

namespace DocumentIndex

theorem makeIndexPrefix_eq_ok_iff : makeIndexPrefix collectionId indexId value = .ok key ↔
      ∃ body, encodeIndexValue value = .ok body ∧
        key = beBytes 4 collectionId.toNat ++ (beBytes 4 indexId.toNat ++ body) := by
  simp only [makeIndexPrefix, bind_eq_ok_iff, pure_eq_ok_iff, eq_comm (a := key)]

theorem makeIndexKey_eq_ok_iff : makeIndexKey collectionId indexId value id = .ok key ↔
      ∃ body, encodeIndexValue value = .ok body ∧
        key = beBytes 4 collectionId.toNat ++ (beBytes 4 indexId.toNat ++ (body ++ id.bytes)) := by
  simp only [makeIndexKey, bind_eq_ok_iff, pure_eq_ok_iff, makeIndexPrefix_eq_ok_iff]
  constructor
  · rintro ⟨_, ⟨body, hbody, rfl⟩, rfl⟩
    exact ⟨body, hbody, by simp⟩
  · rintro ⟨body, hbody, rfl⟩
    exact ⟨_, ⟨body, hbody, rfl⟩, by simp⟩

theorem makeIndexKey_canonical (collectionId : CollectionId) (indexId : IndexId) (value : Value)
    (id : DocumentId) :
    makeIndexKey collectionId indexId value.canonical id =
      makeIndexKey collectionId indexId value id := by
  rw [makeIndexKey, makeIndexKey, makeIndexPrefix, makeIndexPrefix, encodeIndexValue_canonical]

theorem documentIdFromIndexKey_makeIndexKey
    (h : makeIndexKey collectionId indexId value id = .ok key) :
    documentIdFromIndexKey key = .ok id := by
  obtain ⟨body, -, rfl⟩ := makeIndexKey_eq_ok_iff.mp h
  have hlen : (beBytes 4 collectionId.toNat ++ (beBytes 4 indexId.toNat ++
      (body ++ id.bytes))).length = 8 + body.length + 16 := by
    simp only [List.length_append, length_beBytes, id.length_bytes]
    omega
  rw [documentIdFromIndexKey, dif_neg (by omega)]
  cases id
  simp only [Except.ok.injEq, DocumentId.mk.injEq, hlen, Nat.add_sub_cancel]
  rw [← List.append_assoc, ← List.append_assoc]
  exact List.drop_left' (by simp; omega)

end DocumentIndex

end MultiDb
