import MultiDb.Model.Shard
import MultiDb.Verification.Documents.Changes

/-!
# The partition of a document change

The router hashes the key of an index entry as that of its document.
-/

namespace MultiDb

open Shared

variable {C : RelCodecs} {map : ShardMap} {collection : DocumentCollection} {id : DocumentId}
  {writes : WriteSet}

/-- Every written row is in the partition of the document. -/
def DocumentCollection.Colocated (collection : DocumentCollection) (C : Codecs) (map : ShardMap)
    (id : DocumentId) (writes : WriteSet) : Prop :=
  ∀ t ∈ [documentTable, indexTable], ∀ key, writes.get t key ≠ none →
    map.route C t key = map.route C documentTable (makeDocumentKey collection.collectionId id)

theorem route_indexTable {collectionId : CollectionId} {key : Bytes}
    (hcollection : beBytes 4 collectionId.toNat <+: key)
    (hid : DocumentIndex.documentIdFromIndexKey key = .ok id) :
    map.route C.toCodecs indexTable key =
      map.route C.toCodecs documentTable (makeDocumentKey collectionId id) := by
  have hkey : canonicalRouteKey indexTable key = makeDocumentKey collectionId id := by
    rw [DocumentIndex.documentIdFromIndexKey] at hid
    split at hid
    · contradiction
    · rename_i hlen
      obtain rfl := Except.ok.inj hid
      obtain ⟨rest, rfl⟩ := hcollection
      have hentry : canonicalRouteKey indexTable (beBytes 4 collectionId.toNat ++ rest) =
          (documentKeyFromIndexKey (beBytes 4 collectionId.toNat ++ rest)).getD _ := rfl
      rw [hentry, documentKeyFromIndexKey, if_neg (by rw [documentIdLen]; omega)]
      simp [makeDocumentKey, documentIdLen]
  have hdocument : ∀ key, canonicalRouteKey documentTable key = key := fun _ => rfl
  rw [ShardMap.route, ShardMap.route, hkey, hdocument]
  rfl

theorem PlannedChange.colocated {old new : Option Bytes}
    (h : PlannedChange C collection id old new writes) :
    collection.Colocated C.toCodecs map id writes := by
  refine List.forall_mem_cons.mpr ⟨fun key hne => ?_,
    List.forall_mem_singleton.mpr fun key hne => ?_⟩
  · rw [h.row] at hne
    rw [(ite_ne_right_iff.mp hne).1]
  · -- an index key is written for the one document whose row is written
    obtain ⟨row, howner, hrow⟩ := (h.sound (fun _ => old) rfl).owned key hne
    obtain ⟨id', hid', rfl⟩ := Option.map_eq_some_iff.mp howner
    change writes.get documentTable (makeDocumentKey collection.collectionId id') ≠ none at hrow
    rw [h.row] at hrow
    obtain ⟨-, rfl⟩ := makeDocumentKey_inj.mp (ite_ne_right_iff.mp hrow).1
    refine route_indexTable (h.owned key hne) ?_
    cases hresult : DocumentIndex.documentIdFromIndexKey key with
    | error e => simp [hresult, Except.toOption] at hid'
    | ok found => simpa [hresult, Except.toOption] using hid'

/-- Under every placement, a change of a document with its entries stays in one partition. -/
theorem document_changes_colocated (C : RelCodecs) (map : ShardMap)
    (collection : DocumentCollection) (id : DocumentId) :
    (∀ (doc : OrderedValue) ops, collection.insertOps id doc.1 = .ok ops →
      collection.Colocated C.toCodecs map id (opsToWriteSet ops)) ∧
    (∀ s (doc : OrderedValue) change, collection.planUpdate C s id doc.1 = .ok change →
      collection.Colocated C.toCodecs map change.id (opsToWriteSet change.ops)) ∧
    ∀ s change, collection.planDelete C s id = .ok (some change) →
      collection.Colocated C.toCodecs map change.id (opsToWriteSet change.ops) := by
  refine ⟨fun doc ops h => ?_, fun s doc change h => ?_, fun s change h => ?_⟩
  · obtain ⟨new, hplanned⟩ := plannedChange_of_insert (C := C) h
    exact hplanned.colocated
  · obtain ⟨new, hplanned⟩ := plannedChange_of_planUpdate h
    exact hplanned.colocated
  · exact (plannedChange_of_planDelete h).colocated

/-- The `blake3` hashes of the keys of two documents of collection 7. -/
def documentDigest (key : Bytes) : Bytes :=
  if key = beBytes 4 7 ++ List.replicate 16 1 then
    [0x17, 0xbb, 0x88, 0xb7, 0x57, 0x1d, 0xcf, 0x46, 0x4c, 0xc7, 0x1e, 0x92, 0xed, 0xaf, 0x33,
      0x13, 0xc6, 0x29, 0xfe, 0xd3, 0x91, 0x39, 0x9a, 0xf4, 0x9a, 0xfc, 0x5c, 0x49, 0x0e, 0x97,
      0xb2, 0xc7]
  else if key = beBytes 4 7 ++ List.replicate 16 5 then
    [0x66, 0xf3, 0xd4, 0xa2, 0x60, 0x7a, 0x7f, 0x97, 0x01, 0x26, 0xe9, 0x28, 0x0e, 0x56, 0x6d,
      0xfe, 0x7e, 0xd9, 0xb6, 0xff, 0x4c, 0x5c, 0x54, 0xf3, 0xd5, 0xd9, 0x47, 0x23, 0xb8, 0x8b,
      0x66, 0x15]
  else
    []

/-- A document with an entry, in another partition than a second document. -/
theorem document_changes_colocated_sample :
    let C : RelCodecs :=
      { wireCodecs with legacyValue := fun _ => .error "not JSON", blake3 := documentDigest }
    let map : ShardMap := ⟨1, 4, ∅⟩
    let collection : DocumentCollection := { collectionId := 7, indexes := [⟨1, ["a"]⟩] }
    let id (n : UInt8) : DocumentId := ⟨List.replicate 16 n, by simp⟩
    map.route C.toCodecs documentTable (makeDocumentKey 7 (id 1)) = .ok (some 2) ∧
    map.route C.toCodecs documentTable (makeDocumentKey 7 (id 5)) = .ok (some 3) ∧
    ∃ ops, collection.insertOps (id 1) (.object [("a", .int 5)]) = .ok ops ∧ ops.length = 2 ∧
      collection.Colocated C.toCodecs map (id 1) (opsToWriteSet ops) := by
  intro C map collection id
  have hlength :
      (collection.insertOps (id 1) (.object [("a", .int 5)])).map List.length = .ok 2 := by
    decide +kernel
  obtain ⟨ops, hops, hlength⟩ := map_eq_ok_iff.mp hlength
  exact ⟨by decide +kernel, by decide +kernel, ops, hops, hlength,
    (document_changes_colocated C map collection (id 1)).1 ⟨_, rfl⟩ ops hops⟩

end MultiDb
