import MultiDb.Verification.Documents.Changes

/-!
# Indexes under concurrent clients

An update and a delete are two steps, a read and later a conditional batch, between which
other clients may do anything.
-/

namespace MultiDb

open Shared

variable {id : DocumentId} {s s' : Store}
variable {old new : Option Bytes} {docs : List (DocumentId × OrderedValue)} {env : Env}
  {change : DocumentCollection.Change}

/-- A step of some client; a commit names the waiting change it finishes. -/
inductive DocumentStep
  | insert (env : Env) (id : DocumentId) (doc : OrderedValue)
  | insertGroup (env : Env) (docs : List (DocumentId × OrderedValue))
  | readUpdate (id : DocumentId) (doc : OrderedValue)
  | readDelete (id : DocumentId)
  | commit (env : Env) (n : ℕ)

/-- The store, and the changes that were read and not committed yet. -/
structure DocumentWorld where
  store : Store
  pending : List DocumentCollection.Change := []

namespace DocumentWorld

def stored (w : DocumentWorld) : ModelResult Store → DocumentWorld
  | .ok s => { w with store := s }
  | .error _ => w

/-- One call of the collection; a failed one changes nothing. -/
def step (C : RelCodecs) (collection : DocumentCollection) (w : DocumentWorld) :
    DocumentStep → DocumentWorld
  | .insert env id doc => w.stored (collection.insert C env w.store id doc.1)
  | .insertGroup env docs => w.stored
      (collection.insertGroup C env w.store (docs.map fun doc => (doc.1, doc.2.1)))
  | .readUpdate id doc =>
    match collection.planUpdate C w.store id doc.1 with
    | .ok change => { w with pending := w.pending ++ [change] }
    | .error _ => w
  | .readDelete id =>
    match collection.planDelete C w.store id with
    | .ok (some change) => { w with pending := w.pending ++ [change] }
    | _ => w
  | .commit env n =>
    match w.pending[n]? with
    | none => w
    | some change => { w with pending := w.pending.eraseIdx n }.stored
        (collection.commitDocumentChange C env w.store change)

def run (C : RelCodecs) (collection : DocumentCollection) (s : Store) (steps : List DocumentStep) :
    DocumentWorld :=
  steps.foldl (step C collection) { store := s }

/-- An insert brings only ids that are not stored yet. -/
def fresh (collection : DocumentCollection) (w : DocumentWorld) : DocumentStep → Bool
  | .insert _ id _ =>
    (w.store.get documentTable (makeDocumentKey collection.collectionId id)).isNone
  | .insertGroup _ docs => decide (docs.map Prod.fst).Nodup && docs.all fun doc =>
    (w.store.get documentTable (makeDocumentKey collection.collectionId doc.1)).isNone
  | _ => true

def freshRun (C : RelCodecs) (collection : DocumentCollection) :
    DocumentWorld → List DocumentStep → Bool
  | _, [] => true
  | w, next :: steps => w.fresh collection next && freshRun C collection
    (w.step C collection next) steps

end DocumentWorld

variable {C : RelCodecs} {collection : DocumentCollection}

theorem IndexesMatch.congr (h : IndexesMatch C collection s)
    (hdocs : ∀ k, s'.get documentTable k = s.get documentTable k)
    (hindex : ∀ k, s'.get indexTable k = s.get indexTable k) : IndexesMatch C collection s' := by
  obtain ⟨hreadable, hentry, hdocument⟩ := h
  simp only [DocumentCollection.Stored] at hentry hdocument
  constructor <;> simp only [DocumentCollection.Stored, hdocs, hindex]
  · exact hreadable
  · exact hentry
  · exact hdocument

/-- A planned change keeps the indexes in step with the documents. -/
theorem IndexesMatch.commit {writes : WriteSet}
    (h : IndexesMatch C collection s) (hplan : PlannedChange C collection id old new writes)
    (hold : s.get documentTable (makeDocumentKey collection.collectionId id) = old)
    (hdocs : ∀ k, s'.get documentTable k = (writes.get documentTable k).getD
    (s.get documentTable k))
    (hindex : ∀ k, s'.get indexTable k = (writes.get indexTable k).getD (s.get indexTable k)) :
    IndexesMatch C collection s' := by
  obtain ⟨hreadable, hexact⟩ := indexesMatch_iff.mp h
  refine indexesMatch_iff.mpr ⟨fun id' bytes hbytes => ?_, ?_⟩
  · rw [hdocs, hplan.row] at hbytes
    by_cases hid : makeDocumentKey collection.collectionId id =
        makeDocumentKey collection.collectionId id'
    · rw [if_pos hid, Option.getD_some] at hbytes
      obtain ⟨-, rfl⟩ := makeDocumentKey_inj.mp hid
      exact hplan.readable bytes hbytes
    · rw [if_neg hid, Option.getD_none] at hbytes
      exact hreadable id' bytes hbytes
  · have hsound := (hplan.sound (documentRows s) hold).exact hexact
    have hrows : documentRows s' = overlay (fun k => writes.get documentTable k) (documentRows s) :=
      funext hdocs
    have hentries : collectionIndex collection s' =
        overlay (fun k => writes.get indexTable k) (collectionIndex collection s) := by
      funext k
      by_cases hprefix : beBytes 4 collection.collectionId.toNat <+: k
      · simp only [collectionIndex, if_pos hprefix, overlay, hindex]
      · have hnone : writes.get indexTable k = none := by
          by_contra hne
          exact hprefix (hplan.owned k hne)
        simp only [collectionIndex, if_neg hprefix, overlay, hnone, Option.getD_none]
    rw [hrows, hentries]
    exact hsound

theorem IndexesMatch.writes {writes : WriteSet}
    (h : IndexesMatch C collection s) (hplan : PlannedChange C collection id old new writes)
    (hold : s.get documentTable (makeDocumentKey collection.collectionId id) = old)
    (hwrites : WritesRows C.toCodecs s writes s') : IndexesMatch C collection s' :=
  h.commit hplan hold (fun k => hwrites.row _ k (by decide)) fun k => hwrites.row _ k (by decide)

/-- A group of inserts with new ids keeps the indexes in step. -/
theorem IndexesMatch.inserts {s : Store}
    {requests : List (List Op)} (h : IndexesMatch C collection s)
    (hnodup : (docs.map Prod.fst).Nodup)
    (hfresh : ∀ doc ∈ docs,
      s.get documentTable (makeDocumentKey collection.collectionId doc.1) = none)
    (hops : docs.map (fun doc => collection.insertOps doc.1 doc.2.1) = requests.map .ok) :
    IndexesMatch C collection (requests.flatten.foldl applyOp s) := by
  induction docs generalizing s requests with
  | nil =>
    obtain rfl : requests = [] := by simpa using hops.symm
    exact h
  | cons doc docs ih =>
    cases requests with
    | nil => simp at hops
    | cons ops requests =>
      obtain ⟨hinsert, hrest⟩ := List.cons.inj hops
      obtain ⟨hnew, hnodup⟩ := List.nodup_cons.mp hnodup
      obtain ⟨new, hplan⟩ := plannedChange_of_insert (C := C) hinsert
      rw [List.flatten_cons, List.foldl_append]
      refine ih (h.commit hplan (hfresh doc List.mem_cons_self)
        (get_foldl_applyOp ops s documentTable) (get_foldl_applyOp ops s indexTable)) hnodup
        (fun other hother => ?_) hrest
      -- the row of another document is not touched by this insert
      have hne : makeDocumentKey collection.collectionId doc.1 ≠
          makeDocumentKey collection.collectionId other.1 := by
        intro heq
        apply hnew
        rw [(makeDocumentKey_inj.mp heq).2]
        exact List.mem_map_of_mem hother
      rw [get_foldl_applyOp, hplan.row, if_neg hne, Option.getD_none]
      exact hfresh other (List.mem_cons_of_mem doc hother)

/-! ## Steps -/

/-- The indexes match the store, and every pending change is a planned one. -/
structure DocumentInv (C : RelCodecs) (collection : DocumentCollection) (w : DocumentWorld) :
    Prop where
  matches_store : IndexesMatch C collection w.store
  planned : ∀ change ∈ w.pending, ∃ new, PlannedChange C collection change.id change.expected new
    (opsToWriteSet change.ops)

section Steps

variable {w : DocumentWorld}

theorem DocumentInv.insert (h : DocumentInv C collection w)
    {doc : OrderedValue} (hfresh : w.fresh collection (.insert env id doc) = true) :
    DocumentInv C collection (w.step C collection (.insert env id doc)) := by
  rw [DocumentWorld.step]
  cases hinsert : collection.insert C env w.store id doc.1 with
  | error error => exact h
  | ok s =>
    refine ⟨?_, h.planned⟩
    obtain ⟨ops, hops, hpropose⟩ := bind_eq_ok_iff.mp hinsert
    obtain ⟨new, hplan⟩ := plannedChange_of_insert (C := C) hops
    exact h.matches_store.writes hplan (Option.isNone_iff_eq_none.mp hfresh)
      (proposeBatch_commits (mapError_eq_ok_iff.mp hpropose)).writesRows

theorem DocumentInv.insertGroup (h : DocumentInv C collection w)
    (hfresh : w.fresh collection (.insertGroup env docs) = true) :
    DocumentInv C collection (w.step C collection (.insertGroup env docs)) := by
  rw [DocumentWorld.step]
  cases hinsert : collection.insertGroup C env w.store (docs.map fun doc => (doc.1, doc.2.1)) with
  | error error => exact h
  | ok s =>
    refine ⟨?_, h.planned⟩
    obtain ⟨requests, hrequests, hpropose⟩ := bind_eq_ok_iff.mp hinsert
    have hwrites := (proposeGroup_commits (mapError_eq_ok_iff.mp hpropose)).writesRows
    rw [mapM_eq_ok_iff, List.map_map] at hrequests
    simp only [DocumentWorld.fresh, Bool.and_eq_true, decide_eq_true_eq, List.all_eq_true,
      Option.isNone_iff_eq_none] at hfresh
    refine (h.matches_store.inserts hfresh.1 hfresh.2 hrequests).congr ?_ ?_
    · exact fun k => hwrites.get_foldl _ k (by decide)
    · exact fun k => hwrites.get_foldl _ k (by decide)

theorem DocumentInv.wait (h : DocumentInv C collection w)
    (hplan : PlannedChange C collection change.id change.expected new (opsToWriteSet change.ops)) :
    DocumentInv C collection { w with pending := w.pending ++ [change] } := by
  refine ⟨h.matches_store, fun other hother => ?_⟩
  rcases List.mem_append.mp hother with hother | hother
  · exact h.planned other hother
  · obtain rfl := List.mem_singleton.mp hother
    exact ⟨new, hplan⟩

theorem DocumentInv.readUpdate (h : DocumentInv C collection w) (id : DocumentId)
    (doc : OrderedValue) : DocumentInv C collection (w.step C collection (.readUpdate id doc)) := by
  rw [DocumentWorld.step]
  cases hplan : collection.planUpdate C w.store id doc.1 with
  | error error => exact h
  | ok change =>
    obtain ⟨new, hplan⟩ := plannedChange_of_planUpdate hplan
    exact h.wait hplan

theorem DocumentInv.readDelete (h : DocumentInv C collection w) (id : DocumentId) :
    DocumentInv C collection (w.step C collection (.readDelete id)) := by
  rw [DocumentWorld.step]
  cases hplan : collection.planDelete C w.store id with
  | error error => exact h
  | ok change =>
    cases change with
    | none => exact h
    | some change => exact h.wait (plannedChange_of_planDelete hplan)

theorem row_of_commitDocumentChange
    (h : collection.commitDocumentChange C env s change = .ok s') :
    s.get documentTable (makeDocumentKey collection.collectionId change.id) = change.expected ∧
      WritesRows C.toCodecs s (opsToWriteSet change.ops) s' := by
  obtain ⟨hconditions, hcommits⟩ := proposeConditionalBatch_commits (mapError_eq_ok_iff.mp h)
  have hcondition := hconditions _ List.mem_cons_self
  exact ⟨by simpa [DocumentCollection.Change.condition, conditionMatches] using hcondition,
    hcommits.writesRows⟩

/-- A commit either fails or applies the change that was planned. -/
theorem DocumentInv.commit (h : DocumentInv C collection w) (env : Env) (n : ℕ) :
    DocumentInv C collection (w.step C collection (.commit env n)) := by
  rw [DocumentWorld.step]
  cases hchange : w.pending[n]? with
  | none => exact h
  | some change =>
    have hrest : ∀ other ∈ w.pending.eraseIdx n, ∃ new, PlannedChange C collection other.id
        other.expected new (opsToWriteSet other.ops) :=
      fun other hother => h.planned other (List.mem_of_mem_eraseIdx hother)
    change DocumentInv C collection (DocumentWorld.stored _ _)
    cases hcommit : collection.commitDocumentChange C env w.store change with
    | error error => exact ⟨h.matches_store, hrest⟩
    | ok s =>
      obtain ⟨hrow, hwrites⟩ := row_of_commitDocumentChange hcommit
      obtain ⟨new, hplan⟩ := h.planned change (List.mem_of_getElem? hchange)
      exact ⟨h.matches_store.writes hplan hrow hwrites, hrest⟩

theorem DocumentInv.step (h : DocumentInv C collection w) {next : DocumentStep}
    (hfresh : w.fresh collection next = true) :
    DocumentInv C collection (w.step C collection next) := by
  cases next with
  | insert env id doc => exact h.insert hfresh
  | insertGroup env docs => exact h.insertGroup hfresh
  | readUpdate id doc => exact h.readUpdate id doc
  | readDelete id => exact h.readDelete id
  | commit env n => exact h.commit env n

end Steps

theorem DocumentInv.foldl {w : DocumentWorld} {steps : List DocumentStep}
    (h : DocumentInv C collection w) (hfresh : w.freshRun C collection steps = true) :
    DocumentInv C collection (steps.foldl (DocumentWorld.step C collection) w) := by
  induction steps generalizing w with
  | nil => exact h
  | cons next steps ih =>
    obtain ⟨hnext, hrest⟩ := Bool.and_eq_true_iff.mp hfresh
    exact ih (h.step hnext) hrest

/-! ## One entry for each value -/

/-- A document with a value at the path has the entry of that value, and there are no others. -/
structure OneEntryEach (C : RelCodecs) (collection : DocumentCollection) (s : Store)
    (index : IndexSpec) : Prop where
  one : ∀ id doc value, collection.Stored C s id doc → extractPath doc index.path = some value →
    ∃ key, DocumentIndex.makeIndexKey collection.collectionId index.id value id = .ok key ∧
      ∀ key', ((s.get indexTable key').isSome = true ∧
        beBytes 4 collection.collectionId.toNat ++ beBytes 4 index.id.toNat <+: key' ∧
        DocumentIndex.documentIdFromIndexKey key' = .ok id) ↔ key' = key
  only : ∀ key, (s.get indexTable key).isSome = true →
    beBytes 4 collection.collectionId.toNat ++ beBytes 4 index.id.toNat <+: key →
    ∃ id doc value, collection.Stored C s id doc ∧ extractPath doc index.path = some value ∧
      DocumentIndex.makeIndexKey collection.collectionId index.id value id = .ok key

theorem DocumentCollection.Stored.unique {s : Store} {doc doc' : Value}
    (h : collection.Stored C s id doc) (h' : collection.Stored C s id doc') : doc = doc' := by
  obtain ⟨bytes, hbytes, hdecode⟩ := h
  obtain ⟨bytes', hbytes', hdecode'⟩ := h'
  cases hbytes.symm.trans hbytes'
  exact Except.ok.inj (hdecode.symm.trans hdecode')

/-- The entries under an id belong to its index, if no other index has the id. -/
theorem IndexesMatch.oneEntryEach {s : Store} (h : IndexesMatch C collection s) {index : IndexSpec}
    (hindex : index ∈ collection.indexes)
    (hid : ∀ other ∈ collection.indexes, other.id = index.id → other.path = index.path) :
    OneEntryEach C collection s index := by
  have honly : ∀ key, (s.get indexTable key).isSome = true →
      beBytes 4 collection.collectionId.toNat ++ beBytes 4 index.id.toNat <+: key →
      ∃ id doc value, collection.Stored C s id doc ∧ extractPath doc index.path = some value ∧
        DocumentIndex.makeIndexKey collection.collectionId index.id value id = .ok key := by
    intro key hsome hprefix
    obtain ⟨bytes, hbytes⟩ := Option.isSome_iff_exists.mp hsome
    obtain ⟨-, id, doc, hstored, other, hother, value, hvalue, hkey⟩ :=
      h.document key bytes ((List.prefix_append _ _).trans hprefix) hbytes
    have hsame : other.id = index.id := by
      obtain ⟨body, -, rfl⟩ := DocumentIndex.makeIndexKey_eq_ok_iff.mp hkey
      obtain ⟨rest, hrest⟩ := hprefix
      rw [List.append_assoc] at hrest
      obtain ⟨hids, -⟩ := (append_inj_of_length (by simp)).mp (List.append_cancel_left hrest)
      exact (beBytes_four_inj.mp hids).symm
    rw [hid other hother hsame] at hvalue
    rw [hsame] at hkey
    exact ⟨id, doc, value, hstored, hvalue, hkey⟩
  refine ⟨fun id doc value hstored hvalue => ?_, honly⟩
  obtain ⟨bytes, hbytes, hdecode⟩ := hstored
  obtain ⟨doc', hdecode', hindexable⟩ := h.readable id bytes hbytes
  cases hdecode.symm.trans hdecode'
  obtain ⟨key, hkey⟩ := hindexable index hindex value hvalue
  refine ⟨key, hkey, fun key' => ⟨?_, ?_⟩⟩
  · rintro ⟨hsome, hprefix, hdocument⟩
    obtain ⟨id', doc', value', hstored', hvalue', hkey'⟩ := honly key' hsome hprefix
    rw [DocumentIndex.documentIdFromIndexKey_makeIndexKey hkey', Except.ok.injEq] at hdocument
    subst hdocument
    obtain rfl := hstored'.unique ⟨bytes, hbytes, hdecode⟩
    cases hvalue.symm.trans hvalue'
    exact Except.ok.inj (hkey'.symm.trans hkey)
  · rintro rfl
    rw [h.entry id doc key' ⟨bytes, hbytes, hdecode⟩ ⟨index, hindex, value, hvalue, hkey⟩]
    refine ⟨rfl, ?_, DocumentIndex.documentIdFromIndexKey_makeIndexKey hkey⟩
    obtain ⟨body, -, rfl⟩ := DocumentIndex.makeIndexKey_eq_ok_iff.mp hkey
    exact ⟨body ++ id.bytes, by simp⟩

/-- In every reachable state the index rows are the keys of the documents, and a change whose
document is no longer as it was read fails and leaves the store as it is. -/
theorem documentIndexes_match (C : RelCodecs) (collection : DocumentCollection) (s : Store)
    (hs : IndexesMatch C collection s) (steps : List DocumentStep)
    (hfresh : DocumentWorld.freshRun C collection { store := s } steps = true) :
    let w := DocumentWorld.run C collection s steps
    IndexesMatch C collection w.store ∧
    (∀ index ∈ collection.indexes,
      (∀ other ∈ collection.indexes, other.id = index.id → other.path = index.path) →
      OneEntryEach C collection w.store index) ∧
    ∀ env n change, w.pending[n]? = some change →
      w.store.get documentTable (makeDocumentKey collection.collectionId change.id) ≠
        change.expected →
      (∃ error, collection.commitDocumentChange C env w.store change = .error error) ∧
        (w.step C collection (.commit env n)).store = w.store := by
  intro w
  have hinv : DocumentInv C collection w :=
    DocumentInv.foldl ⟨hs, by simp⟩ hfresh
  refine ⟨hinv.matches_store, fun index hindex hid => hinv.matches_store.oneEntryEach
    hindex hid, ?_⟩
  intro env n change hchange hlost
  cases hcommit : collection.commitDocumentChange C env w.store change with
  | ok s' => exact absurd (row_of_commitDocumentChange hcommit).1 hlost
  | error error =>
    refine ⟨⟨error, rfl⟩, ?_⟩
    simp only [DocumentWorld.step, hchange, hcommit, DocumentWorld.stored]

theorem indexesMatch_empty (C : RelCodecs) (collection : DocumentCollection) :
    IndexesMatch C collection .empty := by
  constructor <;> simp [DocumentCollection.Stored]

/-- A geo index, at the one point of the sample. -/
def originIndex : GeoIndexConfig where
  name := "places"
  path := ["at"]
  valueToPoint
    | .geoPoint lon lat => some ⟨lon, lat⟩
    | _ => none
  geoHash _ := "00000000000000000180:00000000000000000090"
  toVec _ := .ok (strBytes "\x7b\"lon\":0.0,\"lat\":0.0\x7d")

/-- Two clients read one document and both change it. -/
theorem documentIndexes_match_sample :
    let C : RelCodecs := { wireCodecs with legacyValue := fun _ => .error "not JSON" }
    let collection : DocumentCollection :=
      { collectionId := 7, indexes := [⟨1, ["a"]⟩], derived := [originIndex.derivedIndex] }
    let doc (n : Int64) : OrderedValue := ⟨.object [("a", .int n), ("at", .geoPoint ⟨0⟩ ⟨0⟩)], rfl⟩
    let id : DocumentId := ⟨List.replicate 16 1, rfl⟩
    let w := DocumentWorld.run C collection .empty [.insert epochEnv id (doc 5),
      .readUpdate id (doc 6), .readDelete id, .commit epochEnv 0, .commit epochEnv 0]
    w.store.get "geo_points" (originIndex.pointKey id) =
      some (strBytes "\x7b\"lon\":0.0,\"lat\":0.0\x7d") ∧
    OneEntryEach C collection w.store ⟨1, ["a"]⟩ := by
  intro C collection doc id w
  obtain ⟨-, hone, -⟩ := documentIndexes_match C collection .empty
    (indexesMatch_empty C collection) [.insert epochEnv id (doc 5), .readUpdate id (doc 6),
      .readDelete id, .commit epochEnv 0, .commit epochEnv 0] (by decide +kernel)
  exact ⟨by decide +kernel, hone _ List.mem_cons_self (by decide)⟩

end MultiDb
