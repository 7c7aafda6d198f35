import MultiDb.Model.SystemVersions
import MultiDb.Shared.Refusal
import MultiDb.Verification.History.FullHistory

/-!
# System-versioned history

A listing of a table has one row for each of its versions, from the LSN of the version to that
of the next version of the same key.
-/

namespace MultiDb

open Shared

variable {v : TxnId} {lk value : Bytes} {lsn : TxnId}

/-- One version of one row of a table. -/
structure TableVersion where
  key : Bytes
  lsn : TxnId
  value : Option Bytes
  deriving DecidableEq

/-- By key, then by age. -/
def TableVersion.Before (a b : TableVersion) : Prop :=
  compare a.key b.key = .lt ∨ a.key = b.key ∧ a.lsn < b.lsn

/-- The log holds a write of this version. -/
def CommittedVersion (commits : List CommitLogRecord) (table : String) (version : TableVersion) :
    Prop :=
  ∃ record ∈ commits, record.txnId = version.lsn ∧
    ⟨relRowsTable, tablePrefixBytes table ++ version.key, version.value⟩ ∈ record.writes

/-- What the version keys of the rows of a table start with. -/
def rowsPrefixBytes (table : String) : Bytes :=
  be64 (UInt64.ofNat (strBytes relRowsTable).length) ++ strBytes relRowsTable ++
    tablePrefixBytes table

theorem versionKey_rows (table : String) (lk : Bytes) :
    versionKey relRowsTable (tablePrefixBytes table ++ lk) = .ok (rowsPrefixBytes table ++ lk) := by
  rw [versionKey_eq_ok_iff, rowsPrefixBytes]
  exact ⟨by decide, by rw [List.append_assoc _ _ lk]⟩

theorem versionKey_table (table : String) :
    versionKey relRowsTable (tablePrefixBytes table) = .ok (rowsPrefixBytes table) := by
  have hrows := versionKey_rows table []
  rwa [List.append_nil, List.append_nil] at hrows

instance : Std.Irrefl TableVersion.Before where
  irrefl a h := by
    rcases h with hkey | ⟨-, hlsn⟩
    · simp at hkey
    · exact lt_irrefl _ hlsn

instance : Std.Antisymm TableVersion.Before where
  antisymm a b hab hba := by
    rcases hab with hab | ⟨hkey, hab⟩
    · rcases hba with hba | ⟨hkey, -⟩
      · simp [Std.OrientedCmp.gt_of_lt hba] at hab
      · simp [hkey] at hab
    · rcases hba with hba | ⟨-, hba⟩
      · simp [hkey] at hba
      · exact absurd hab hba.asymm

section Versions

variable {C : Codecs} {s : Store} {commits : List CommitLogRecord} {table : String}

theorem FullHistory.get_version (h : FullHistory C s commits) :
    s.get txnMvccTable (rowsPrefixBytes table ++ lk ++ be64 v) = some value ↔
      ∃ x, CommittedVersion commits table ⟨lk, v, x⟩ ∧
        encodeMvccRecord C { value := x } = .ok value := by
  rw [h.versions]
  constructor
  · rintro ⟨record, hrecord, ⟨t, k, x⟩, hwrite, hkey, hvalue⟩
    obtain ⟨vk, hvk, heq⟩ := mvccKey_eq_ok_iff.mp hkey
    obtain ⟨rfl, hid⟩ := List.append_inj' heq (by simp)
    obtain ⟨rfl, rfl⟩ := versionKey_inj hvk (versionKey_rows table lk)
    exact ⟨x, ⟨record, hrecord, (be64_inj.mp hid).symm, hwrite⟩, hvalue⟩
  · rintro ⟨x, ⟨record, hrecord, hid, hwrite⟩, hvalue⟩
    refine ⟨record, hrecord, _, hwrite, ?_, hvalue⟩
    exact mvccKey_eq_ok_iff.mpr ⟨_, versionKey_rows table lk, by rw [hid]⟩

theorem FullHistory.decodes (h : FullHistory C s commits)
    (hget : s.get txnMvccTable (rowsPrefixBytes table ++ lk ++ be64 v) = some value) :
    ∃ x, CommittedVersion commits table ⟨lk, v, x⟩ ∧
      decodeMvccRecord C value = .ok { value := x } := by
  obtain ⟨x, hx, hvalue⟩ := h.get_version.mp hget
  exact ⟨x, hx, decodeMvccRecord_of_encode hvalue⟩

theorem FullHistory.exists_row (h : FullHistory C s commits) {lk : Bytes}
    {x : Option Bytes} (hversion : CommittedVersion commits table ⟨lk, v, x⟩) :
    ∃ value, (rowsPrefixBytes table ++ lk ++ be64 v, value) ∈
        range s txnMvccTable (rowsPrefixBytes table) (rangeEnd (rowsPrefixBytes table)) ∧
      decodeMvccRecord C value = .ok { value := x } := by
  obtain ⟨record, hrecord, -, hwrite⟩ := id hversion
  obtain ⟨_, value, -, hvalue⟩ := h.encoded record hrecord _ hwrite
  refine ⟨value, mem_range.mpr ⟨h.get_version.mpr ⟨x, hversion, hvalue⟩, ?_⟩,
    decodeMvccRecord_of_encode hvalue⟩
  rw [keyInRange_rangeEnd_iff, List.append_assoc]
  exact List.prefix_append _ _

theorem FullHistory.value_unique (h : FullHistory C s commits) {lk : Bytes}
    {x y : Option Bytes} (hx : CommittedVersion commits table ⟨lk, v, x⟩)
    (hy : CommittedVersion commits table ⟨lk, v, y⟩) : x = y := by
  obtain ⟨value, hmem, hvalue⟩ := h.exists_row hx
  obtain ⟨value', hmem', hvalue'⟩ := h.exists_row hy
  cases (mem_range.mp hmem).1.symm.trans (mem_range.mp hmem').1
  rw [hvalue, Except.ok.injEq, MvccRecord.mk.injEq] at hvalue'
  exact hvalue'

end Versions

/-! ## Versions by key -/

abbrev KeyVersions := Std.ExtTreeMap Bytes (Std.ExtTreeMap TxnId (Option Bytes))

section ByKey

variable {C : RelCodecs} {s : Store} {commits : List CommitLogRecord} {table : String}
  {pfx : Bytes} {minLsn : TxnId} {rows : List (Bytes × Bytes)} {byKey byKey' : KeyVersions}

def versionsOf (byKey : KeyVersions) (lk : Bytes) : Std.ExtTreeMap TxnId (Option Bytes) :=
  byKey[lk]?.getD ∅

/-- The map holds the versions of these rows from `minLsn` on. -/
def HoldsVersions (C : Codecs) (pfx : Bytes) (minLsn : TxnId) (rows : List (Bytes × Bytes))
    (byKey : KeyVersions) : Prop :=
  ∀ lk v x, (versionsOf byKey lk)[v]? = some x ↔ minLsn ≤ v ∧ ∃ value,
    (pfx ++ lk ++ be64 v, value) ∈ rows ∧ decodeMvccRecord C value = .ok { value := x }

theorem visitHistoryVersion_eq :
    visitHistoryVersion C pfx 0 minLsn byKey (pfx ++ lk ++ be64 v, value) =
      if v < minLsn then .ok byKey
      else do
        let record ← liftHistory (decodeMvccRecord C.toCodecs value)
        return byKey.insert lk ((versionsOf byKey lk).insert v record.value) := by
  obtain ⟨hform, hdrop, hkey⟩ := versionRow_parts pfx lk v
  have hzero : ¬ v < 0 := not_lt.mpr UInt64.zero_le
  have hlsn : decodeTxnId (be64 v) = .ok v := decodeTxnId_encodeTxnId v
  simp only [visitHistoryVersion, if_neg hform, hdrop, hkey, hlsn, liftHistory, Except.mapError,
    bind, Except.bind, if_neg hzero]
  rfl

theorem versionsOf_insert {lk lk' : Bytes} {v v' : TxnId} {x : Option Bytes} :
    (versionsOf (byKey.insert lk ((versionsOf byKey lk).insert v x)) lk')[v']? =
      if lk = lk' ∧ v = v' then some x else (versionsOf byKey lk')[v']? := by
  by_cases hlk : lk = lk'
  · subst hlk
    by_cases hv : v = v'
    · subst hv
      simp [versionsOf]
    · simp [versionsOf, hv, Std.ExtTreeMap.getElem?_insert]
  · simp [versionsOf, hlk, Std.ExtTreeMap.getElem?_insert]

/-- One more row keeps the versions of each key. -/
theorem HoldsVersions.visit {row : Bytes × Bytes}
    (h : HoldsVersions C.toCodecs pfx minLsn rows byKey) (hfresh : ∀ row' ∈ rows, row'.1 ≠ row.1)
    (hstep : visitHistoryVersion C pfx 0 minLsn byKey row = .ok byKey') :
    HoldsVersions C.toCodecs pfx minLsn (rows ++ [row]) byKey' := by
  obtain ⟨row, value⟩ := row
  intro lk v x
  have hold : (row ≠ pfx ++ lk ++ be64 v ∨ v < minLsn) →
      (minLsn ≤ v ∧ (∃ value', (pfx ++ lk ++ be64 v, value') ∈ rows ++ [(row, value)] ∧
        decodeMvccRecord C.toCodecs value' = .ok { value := x }) ↔
      minLsn ≤ v ∧ ∃ value', (pfx ++ lk ++ be64 v, value') ∈ rows ∧
        decodeMvccRecord C.toCodecs value' = .ok { value := x }) := by
    rintro (hne | hlt)
    · simp only [List.mem_append, List.mem_singleton, Prod.mk.injEq, hne.symm, false_and, or_false]
    · simp [not_le.mpr hlt]
  rcases versionRow_cases pfx row with hform | ⟨lk', v', rfl⟩
  · rw [visitHistoryVersion, if_pos hform] at hstep
    cases hstep
    rw [h lk v x, hold]
    refine .inl fun heq => ?_
    subst heq
    exact (versionRow_parts pfx lk v).1 hform
  · rw [visitHistoryVersion_eq] at hstep
    by_cases hlt : v' < minLsn
    · rw [if_pos hlt] at hstep
      cases hstep
      rw [h lk v x, hold]
      by_cases heq : v' = v
      · exact .inr (heq ▸ hlt)
      · exact .inl fun hrow => heq (versionRow_inj hrow).2
    · rw [if_neg hlt] at hstep
      simp only [liftHistory, bind_eq_ok_iff, mapError_eq_ok_iff, pure_eq_ok_iff] at hstep
      obtain ⟨record, hrecord, rfl⟩ := hstep
      rw [versionsOf_insert]
      by_cases heq : lk' = lk ∧ v' = v
      · obtain ⟨rfl, rfl⟩ := heq
        rw [if_pos ⟨rfl, rfl⟩, Option.some_inj]
        constructor
        · rintro rfl
          exact ⟨not_lt.mp hlt, value, by simp, hrecord⟩
        · rintro ⟨-, value', hmem, hdecoded⟩
          rcases List.mem_append.mp hmem with hmem | hmem
          · exact absurd rfl (hfresh (_, value') hmem)
          · obtain rfl := (Prod.mk.inj (List.mem_singleton.mp hmem)).2
            rw [hrecord] at hdecoded
            rw [Except.ok.inj hdecoded]
      · rw [if_neg heq, h lk v x, hold]
        exact .inl fun hrow => heq (versionRow_inj hrow)

theorem holdsVersions_foldlM (hsorted : rows.Pairwise fun a b => compare a.1 b.1 = .lt)
    (hrun : rows.foldlM (visitHistoryVersion C pfx 0 minLsn) ∅ = .ok byKey) :
    HoldsVersions C.toCodecs pfx minLsn rows byKey := by
  induction rows using List.reverseRecOn generalizing byKey with
  | nil =>
    obtain rfl := pure_eq_ok_iff.mp hrun
    intro lk v x
    simp [versionsOf]
  | append_singleton rows row ih =>
    rw [List.foldlM_append, bind_eq_ok_iff] at hrun
    obtain ⟨byKey₀, hinit, hlast⟩ := hrun
    obtain ⟨byKey₁, hstep, hnil⟩ := foldlM_cons_eq_ok_iff.mp hlast
    obtain rfl := pure_eq_ok_iff.mp hnil
    rw [List.pairwise_append] at hsorted
    refine (ih hsorted.1 hinit).visit (fun row' hmem heq => ?_) hstep
    have hlt := hsorted.2.2 row' hmem row (List.mem_singleton_self _)
    simp [heq] at hlt

/-- The versions by key, then by age. -/
def flatVersions (byKey : KeyVersions) : List TableVersion :=
  byKey.toList.flatMap fun entry => entry.2.toList.map fun version =>
    ⟨entry.1, version.1, version.2⟩

theorem mem_flatVersions {version : TableVersion} :
    version ∈ flatVersions byKey ↔
      (versionsOf byKey version.key)[version.lsn]? = some version.value := by
  obtain ⟨lk, v, x⟩ := version
  simp only [flatVersions, List.mem_flatMap, List.mem_map, TableVersion.mk.injEq, Prod.exists,
    Std.ExtTreeMap.mem_toList_iff_getElem?_eq_some]
  constructor
  · rintro ⟨lk', versions, hkey, v', x', hversion, rfl, rfl, rfl⟩
    rw [versionsOf, hkey]
    exact hversion
  · intro hversion
    rw [versionsOf] at hversion
    cases hkey : byKey[lk]? with
    | none => simp [hkey] at hversion
    | some versions =>
      rw [hkey] at hversion
      exact ⟨lk, versions, hkey, v, x, hversion, rfl, rfl, rfl⟩

theorem flatVersions_sorted (byKey : KeyVersions) :
    (flatVersions byKey).Pairwise TableVersion.Before := by
  rw [flatVersions, List.pairwise_flatMap]
  refine ⟨fun entry _ => ?_, ?_⟩
  · rw [List.pairwise_map]
    refine Std.ExtTreeMap.ordered_keys_toList.imp fun {a b} hlt => ?_
    exact .inr ⟨rfl, Std.compare_eq_lt.mp hlt⟩
  · refine Std.ExtTreeMap.ordered_keys_toList.imp fun {a b} hlt => ?_
    intro x hx y hy
    obtain ⟨_, -, rfl⟩ := List.mem_map.mp hx
    obtain ⟨_, -, rfl⟩ := List.mem_map.mp hy
    exact .inl hlt

end ByKey

/-! ## Periods -/

/-- A version that opens an interval, with the LSN that closes it. -/
structure Opening where
  key : Bytes
  lsn : TxnId
  bytes : Bytes
  next : Option TxnId

/-- When the version's row was written next. -/
def nextLsn (key : Bytes) (versions : List TableVersion) : Option TxnId :=
  (versions.head?.filter fun next => next.key = key).map TableVersion.lsn

/-- The periods in which a row had a value. -/
def openings : List TableVersion → List Opening
  | [] => []
  | version :: versions =>
    (version.value.map fun bytes =>
      ⟨version.key, version.lsn, bytes, nextLsn version.key versions⟩).toList ++ openings versions

section Rows

variable {C : RelCodecs} {s : Store} {schema : TableSchema}

def pointOf (C : RelCodecs) (s : Store) (lsn : TxnId) : HistoryResult (Value × Value) :=
  Prod.fst <$> historyBoundary C s lsn ∅

def endPoint (C : RelCodecs) (s : Store) (next : Option TxnId) : HistoryResult (Value × Value) :=
  next.elim (.ok (.null, .null)) (pointOf C s)

/-- The listed row of one period. -/
def listedRow (C : RelCodecs) (s : Store) (schema : TableSchema) (opening : Opening) :
    HistoryResult Row := do
  let row ← decodeTemporalRow C schema opening.bytes
  let start ← pointOf C s opening.lsn
  let stop ← endPoint C s opening.next
  return row ++ [start.1, stop.1, start.2, stop.2]

def listRows (C : RelCodecs) (s : Store) (schema : TableSchema) (versions : List TableVersion) :
    HistoryResult (List Row) :=
  (openings versions).mapM (listedRow C s schema)

/-- The cached timestamps are the log's. -/
def Fresh (C : RelCodecs) (s : Store) (timestamps : Timestamps) : Prop :=
  ∀ (lsn : TxnId) (millis : Int64), timestamps[lsn]? = some millis →
    commitMillis C s lsn = .ok millis

theorem fresh_empty (C : RelCodecs) (s : Store) : Fresh C s ∅ := by simp [Fresh]

/-- A boundary of a listing: the point, and the cache after it. -/
def ReadsPoint (C : RelCodecs) (s : Store) (point : Value × Value)
    (answer : (Value × Value) × Timestamps) : Prop :=
  answer.1 = point ∧ Fresh C s answer.2

theorem pointOf_eq (hrange : lsn.toNat < 2 ^ 63) :
    pointOf C s lsn = commitMillis C s lsn >>= fun millis =>
      .ok (.int lsn.toInt64, .int millis) := by
  rw [pointOf, historyBoundary, boundaryWith, if_neg (not_not.mpr hrange)]
  cases commitMillis C s lsn <;> rfl

variable {refusal : HistoryError → Prop} {timestamps : Timestamps}

theorem follows_boundaryWith {read : HistoryResult Int64}
    (hfresh : Fresh C s timestamps) (hread : Follows refusal Eq read (commitMillis C s lsn)) :
    Follows refusal (ReadsPoint C s) (boundaryWith read lsn timestamps) (pointOf C s lsn) := by
  by_cases hrange : lsn.toNat < 2 ^ 63
  · rw [boundaryWith, if_neg (not_not.mpr hrange), pointOf_eq hrange]
    cases hcached : timestamps[lsn]? with
    | some millis =>
      rw [hfresh lsn millis hcached]
      exact .ok ⟨rfl, hfresh⟩
    | none =>
      refine .bind hread.returned ?_
      rintro millis _ ⟨rfl, hmillis⟩
      refine .ok ⟨rfl, fun lsn' millis' hget => ?_⟩
      rw [Std.ExtTreeMap.getElem?_insert] at hget
      split at hget
      · rename_i heq
        obtain rfl := Std.LawfulEqOrd.eq_of_compare heq
        rw [hmillis, Option.some.inj hget]
      · exact hfresh lsn' millis' hget
  · rw [boundaryWith, pointOf, historyBoundary, boundaryWith, if_pos hrange, if_pos hrange]
    exact .error

theorem follows_nextBoundary {boundary : TxnId → Timestamps →
      HistoryResult ((Value × Value) × Timestamps)} (hfresh : Fresh C s timestamps)
    (hboundary : ∀ lsn, Follows refusal (ReadsPoint C s) (boundary lsn timestamps)
    (pointOf C s lsn)) (next : Option TxnId) :
    Follows refusal (ReadsPoint C s) (nextBoundary boundary next timestamps)
      (endPoint C s next) := by
  cases next with
  | none => exact .ok ⟨rfl, hfresh⟩
  | some next => exact hboundary next

/-- The listing has grown by these rows. -/
def Extends (C : RelCodecs) (s : Store) (listing : Listing) (rows : List Row) (listing' : Listing) :
    Prop :=
  listing'.rows = listing.rows ++ rows ∧ Fresh C s listing'.timestamps

theorem listRows_row {key bytes : Bytes} {versions : List TableVersion} :
    listRows C s schema (⟨key, lsn, some bytes⟩ :: versions) = do
      let row ← decodeTemporalRow C schema bytes
      let start ← pointOf C s lsn
      let stop ← endPoint C s (nextLsn key versions)
      let rows ← listRows C s schema versions
      return (row ++ [start.1, stop.1, start.2, stop.2]) :: rows := by
  rw [listRows, openings, Option.map_some, Option.toList_some, List.singleton_append,
    List.mapM_cons, listedRow]
  simp only [bind_assoc, pure_bind]
  rfl

theorem follows_listKeyVersions (key : Bytes) {versions : List (TxnId × Option Bytes)}
    {listing : Listing} (hfresh : Fresh C s listing.timestamps) :
    Follows refusal (Extends C s listing) (listKeyVersions C s schema versions listing)
      (listRows C s schema (versions.map fun version => ⟨key, version.1, version.2⟩)) := by
  induction versions generalizing listing with
  | nil => exact .ok ⟨(List.append_nil _).symm, hfresh⟩
  | cons version versions ih =>
    obtain ⟨lsn, value⟩ := version
    cases value with
    | none => exact ih hfresh
    | some bytes =>
      have hboundary : ∀ lsn timestamps, Fresh C s timestamps → Follows refusal (ReadsPoint C s)
          (historyBoundary C s lsn timestamps) (pointOf C s lsn) := fun lsn timestamps hfresh =>
        follows_boundaryWith hfresh (.refl _)
      have hnext : nextLsn key (versions.map fun version => ⟨key, version.1, version.2⟩) =
          versions.head?.map Prod.fst := by
        rw [nextLsn, List.head?_map]
        cases versions.head? <;> simp
      rw [List.map_cons, listRows_row, listKeyVersions, hnext]
      refine .bind (.refl _) ?_
      rintro row _ rfl
      refine .bind (hboundary lsn _ hfresh) ?_
      rintro start ⟨_, timestamps⟩ ⟨rfl, hfresh⟩
      refine .bind (follows_nextBoundary hfresh (fun lsn => hboundary lsn _ hfresh) _) ?_
      rintro stop ⟨_, timestamps⟩ ⟨rfl, hfresh⟩
      refine (ih hfresh).map_right ?_
      rintro rows listing' ⟨hrows, hfresh⟩
      exact ⟨by rw [hrows, List.append_assoc]; rfl, hfresh⟩

theorem openings_append {versions rest : List TableVersion}
    (h : ∀ version ∈ versions, ∀ next ∈ rest, next.key ≠ version.key) :
    openings (versions ++ rest) = openings versions ++ openings rest := by
  induction versions with
  | nil => rfl
  | cons version versions ih =>
    rw [List.forall_mem_cons] at h
    have hnext : nextLsn version.key (versions ++ rest) = nextLsn version.key versions := by
      cases versions with
      | cons => rfl
      | nil =>
        cases rest with
        | nil => rfl
        | cons next rest => simp [nextLsn, h.1 next List.mem_cons_self]
    rw [List.cons_append, openings, openings, ih h.2, hnext, List.append_assoc]

/-- Listing the versions in order lists their periods. -/
theorem follows_listVersions {entries : List (Bytes × Std.ExtTreeMap TxnId (Option Bytes))}
    (hkeys : entries.Pairwise fun a b => compare a.1 b.1 = .lt) {listing : Listing}
    (hfresh : Fresh C s listing.timestamps) :
    Follows refusal (Extends C s listing)
      (entries.foldlM (fun listing entry => listKeyVersions C s schema entry.2.toList listing)
        listing)
      (listRows C s schema (entries.flatMap fun entry =>
        entry.2.toList.map fun version => ⟨entry.1, version.1, version.2⟩)) := by
  induction entries generalizing listing with
  | nil => exact .ok ⟨(List.append_nil _).symm, hfresh⟩
  | cons entry entries ih =>
    rw [List.pairwise_cons] at hkeys
    rw [List.foldlM_cons, List.flatMap_cons, listRows, openings_append, List.mapM_append]
    · refine .bind (follows_listKeyVersions entry.1 hfresh) ?_
      rintro rows listing' ⟨hrows, hfresh⟩
      refine (ih hkeys.2 hfresh).map_right ?_
      rintro rows' listing'' ⟨hrows', hfresh⟩
      exact ⟨by rw [hrows', hrows, List.append_assoc], hfresh⟩
    · intro version hversion next hnext
      obtain ⟨_, -, rfl⟩ := List.mem_map.mp hversion
      obtain ⟨other, hother, hnext⟩ := List.mem_flatMap.mp hnext
      obtain ⟨_, -, rfl⟩ := List.mem_map.mp hnext
      intro heq
      have hlt := hkeys.1 other hother
      simp [show other.1 = entry.1 from heq] at hlt

end Rows

/-! ## The listing -/

section Listing

variable {C : RelCodecs} {s : Store} {commits : List CommitLogRecord} {table : String}
  {schema : TableSchema} {retention : TemporalRetention}

/-- The versions in the retention of a table, in the order of a listing. -/
structure RetainedVersions (commits : List CommitLogRecord) (table : String) (minLsn : TxnId)
    (versions : List TableVersion) : Prop where
  sorted : versions.Pairwise TableVersion.Before
  mem : ∀ version, version ∈ versions ↔ CommittedVersion commits table version ∧
    minLsn ≤ version.lsn

theorem retainedHorizon_empty (hempty : HorizonAt s 0) (lsn : TxnId) :
    retainedHorizon s lsn = .ok 0 := by
  obtain ⟨stored, hstored, hzero⟩ := map_eq_ok_iff.mp hempty
  rw [retainedHorizon, liftHistory, hstored]
  simp only [Except.mapError, bind, Except.bind, hzero]
  rfl

/-- The walk finds the committed versions of the table. -/
theorem FullHistory.exists_retained (h : FullHistory C.toCodecs s commits) (table : String)
    (minLsn : TxnId) : ∃ byKey,
      (range s txnMvccTable (rowsPrefixBytes table) (rangeEnd (rowsPrefixBytes table))).foldlM
        (visitHistoryVersion C (rowsPrefixBytes table) 0 minLsn) ∅ = .ok byKey ∧
      RetainedVersions commits table minLsn (flatVersions byKey) := by
  set rows := range s txnMvccTable (rowsPrefixBytes table) (rangeEnd (rowsPrefixBytes table))
    with hrows
  obtain ⟨byKey, hrun⟩ : ∃ byKey, rows.foldlM
      (visitHistoryVersion C (rowsPrefixBytes table) 0 minLsn) ∅ = .ok byKey := by
    refine exists_foldlM_eq_ok (fun row hrow byKey => ?_) ∅
    obtain ⟨row, value⟩ := row
    rcases versionRow_cases (rowsPrefixBytes table) row with hform | ⟨lk, v, rfl⟩
    · exact ⟨byKey, if_pos hform⟩
    · obtain ⟨x, -, hvalue⟩ := h.decodes (mem_range.mp hrow).1
      rw [visitHistoryVersion_eq, hvalue]
      split
      · exact ⟨_, rfl⟩
      · exact ⟨_, rfl⟩
  refine ⟨byKey, hrun, flatVersions_sorted byKey, fun version => ?_⟩
  obtain ⟨lk, v, x⟩ := version
  rw [mem_flatVersions, holdsVersions_foldlM (s.scan_sorted _ _) hrun, and_comm]
  refine and_congr_left fun _ => ⟨?_, h.exists_row⟩
  · rintro ⟨value, hmem, hvalue⟩
    obtain ⟨x', hversion, hvalue'⟩ := h.decodes (mem_range.mp hmem).1
    obtain rfl : x' = x := by
      rw [hvalue, Except.ok.injEq, MvccRecord.mk.injEq] at hvalue'
      exact hvalue'.symm
    exact hversion

/-- The listed rows are the periods of the committed versions. -/
theorem FullHistory.historyRows (h : FullHistory C.toCodecs s commits) (hempty : HorizonAt s 0)
    (hkeep : retention.keepHistory = true) (table : String) (schema : TableSchema) :
    ∃ versions, RetainedVersions commits table retention.minLsn versions ∧
      Follows (fun _ => False) Eq (historyRowsForTable C s table schema retention)
        (listRows C s schema versions) := by
  obtain ⟨byKey, hrun, hretained⟩ := h.exists_retained table retention.minLsn
  refine ⟨flatVersions byKey, hretained, ?_⟩
  have hvalid : validateRetention retention retention.minLsn = .ok () := by
    simp [validateRetention, hkeep]
  have hrows : historyRowsForTable C s table schema retention =
      byKey.toList.foldlM (fun listing entry =>
        listKeyVersions C s schema entry.2.toList listing) {} >>= fun listing =>
          pure listing.rows := by
    simp only [historyRowsForTable, hvalid, retainedHorizon_empty hempty, versionKey_table,
      liftHistory,
      Except.mapError, hrun, bind, Except.bind]
  rw [hrows]
  refine (follows_listVersions Std.ExtTreeMap.ordered_keys_toList (fresh_empty C s)).map_left ?_
  rintro rows listing ⟨hlisted, -⟩
  rw [hlisted]
  rfl

end Listing

end MultiDb
