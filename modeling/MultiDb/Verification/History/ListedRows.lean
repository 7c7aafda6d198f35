import MultiDb.Shared.Greatest
import MultiDb.Verification.History.GuardedHistory

/-!
# The rows of a listing at an LSN

A listing has one row for each retained version that is not a delete.
-/

namespace MultiDb

open Shared

/-! ## Intervals -/

def Opening.version (opening : Opening) : TableVersion :=
  ⟨opening.key, opening.lsn, some opening.bytes⟩

/-- The interval from the version up to the next one. -/
def Opening.contains (opening : Opening) (lsn : TxnId) : Bool :=
  opening.lsn ≤ lsn && opening.next.all (lsn < ·)

/-- When the row was written again. -/
def laterLsns (P : TableVersion → Prop) (key : Bytes) (lsn : TxnId) : Set TxnId :=
  {later | lsn < later ∧ ∃ value, P ⟨key, later, value⟩}

/-- A version that is not a delete, and the LSN of the next version of its key. -/
def Opens (commits : List CommitLogRecord) (table : String) (minLsn : TxnId) (opening : Opening) :
    Prop :=
  CommittedVersion commits table opening.version ∧ minLsn ≤ opening.lsn ∧
    LeastIn (laterLsns (CommittedVersion commits table) opening.key opening.lsn) opening.next

/-- The version is the row's latest at `lsn`. -/
def CurrentAt (commits : List CommitLogRecord) (table : String) (lsn : TxnId)
    (version : TableVersion) : Prop :=
  CommittedVersion commits table version ∧ version.lsn ≤ lsn ∧
    ∀ later value, CommittedVersion commits table ⟨version.key, later, value⟩ → later ≤ lsn →
      later ≤ version.lsn

section Openings

variable {version : TableVersion} {versions : List TableVersion} {opening : Opening}

/-- The next version of the list is the next write of the row. -/
theorem leastIn_nextLsn (hsorted : (version :: versions).Pairwise TableVersion.Before) :
    LeastIn (laterLsns (· ∈ version :: versions) version.key version.lsn)
      (nextLsn version.key versions) := by
  rw [List.pairwise_cons] at hsorted
  have hlater : ∀ later, later ∈ laterLsns (· ∈ version :: versions) version.key version.lsn →
      ∃ value, ⟨version.key, later, value⟩ ∈ versions := by
    rintro later ⟨hlt, value, hmem⟩
    rcases List.mem_cons.mp hmem with heq | hmem
    · rw [← heq] at hlt
      exact absurd hlt (lt_irrefl _)
    · exact ⟨value, hmem⟩
  cases versions with
  | nil =>
    refine Set.eq_empty_iff_forall_notMem.mpr fun later hmem => ?_
    obtain ⟨value, hmem⟩ := hlater later hmem
    contradiction
  | cons next versions =>
    by_cases hkey : next.key = version.key
    · have hnext : nextLsn version.key (next :: versions) = some next.lsn := by
        simp [nextLsn, Option.filter_some, hkey]
      rw [hnext]
      constructor
      · rcases hsorted.1 next List.mem_cons_self with hlt | ⟨-, hlt⟩
        · simp [hkey] at hlt
        · exact ⟨hlt, next.value, by simp [← hkey]⟩
      · intro later hmem
        obtain ⟨value, hmem⟩ := hlater later hmem
        rcases List.mem_cons.mp hmem with rfl | hmem
        · exact le_rfl
        · rcases (List.pairwise_cons.mp hsorted.2).1 _ hmem with hlt | ⟨-, hlt⟩
          · simp [hkey] at hlt
          · exact hlt.le
    · have hnext : nextLsn version.key (next :: versions) = none := by
        simp [nextLsn, Option.filter_some, hkey]
      rw [hnext]
      refine Set.eq_empty_iff_forall_notMem.mpr fun later hmem => ?_
      obtain ⟨value, hmem⟩ := hlater later hmem
      -- the versions of a key stand together
      rcases hsorted.1 next List.mem_cons_self with hlt | ⟨heq, -⟩
      · rcases List.mem_cons.mp hmem with rfl | hmem
        · contradiction
        · rcases (List.pairwise_cons.mp hsorted.2).1 _ hmem with hlt' | ⟨heq, -⟩
          · rw [← Std.OrientedCmp.gt_iff_lt, hlt] at hlt'
            contradiction
          · contradiction
      · exact hkey heq.symm

theorem laterLsns_cons (hsorted : (version :: versions).Pairwise TableVersion.Before)
    (hmem : opening.version ∈ versions) :
    laterLsns (· ∈ version :: versions) opening.key opening.lsn =
      laterLsns (· ∈ versions) opening.key opening.lsn := by
  ext later
  refine and_congr_right fun hlt => exists_congr fun value => ?_
  change _ ∈ version :: versions ↔ _ ∈ versions
  rw [List.mem_cons, or_iff_right]
  rintro rfl
  rcases (List.pairwise_cons.mp hsorted).1 _ hmem with hkey | ⟨-, hlsn⟩
  · simp [Opening.version] at hkey
  · exact hlt.asymm hlsn

theorem map_version_openings (versions : List TableVersion) :
    (openings versions).map Opening.version = versions.filter (·.value.isSome) := by
  induction versions with
  | nil => rfl
  | cons version versions ih =>
    obtain ⟨key, lsn, value⟩ := version
    cases value with
    | none => exact ih
    | some bytes =>
      rw [openings, List.map_append, ih]
      rfl

/-- The periods are those between a row's versions. -/
theorem mem_openings (hsorted : versions.Pairwise TableVersion.Before) :
    opening ∈ openings versions ↔ opening.version ∈ versions ∧
      LeastIn (laterLsns (· ∈ versions) opening.key opening.lsn) opening.next := by
  induction versions with
  | nil => simp [openings]
  | cons version versions ih =>
    have hfirst := leastIn_nextLsn hsorted
    have hrest := ih (List.pairwise_cons.mp hsorted).2
    rw [openings, List.mem_append, Option.mem_toList, Option.map_eq_some_iff, hrest]
    constructor
    · rintro (⟨bytes, hvalue, rfl⟩ | ⟨hmem, hleast⟩)
      · refine ⟨List.mem_cons.mpr (.inl ?_), hfirst⟩
        rw [Opening.version, ← hvalue]
      · rw [laterLsns_cons hsorted hmem]
        exact ⟨List.mem_cons_of_mem _ hmem, hleast⟩
    · rintro ⟨hmem, hleast⟩
      rcases List.mem_cons.mp hmem with rfl | hmem
      · refine .inl ⟨opening.bytes, rfl, ?_⟩
        rw [← LeastIn.unique hleast hfirst]
        rfl
      · rw [laterLsns_cons hsorted hmem] at hleast
        exact .inr ⟨hmem, hleast⟩

theorem openings_sorted (hsorted : versions.Pairwise TableVersion.Before) :
    (openings versions).Pairwise fun a b => a.version.Before b.version := by
  rw [← List.pairwise_map (R := TableVersion.Before), map_version_openings]
  exact hsorted.filter _

theorem openings_filter (hsorted : versions.Pairwise TableVersion.Before) (minLsn : TxnId) :
    openings (versions.filter fun version => minLsn ≤ version.lsn) =
      (openings versions).filter fun opening => minLsn ≤ opening.lsn := by
  induction versions with
  | nil => rfl
  | cons version versions ih =>
    have hrest := ih (List.pairwise_cons.mp hsorted).2
    obtain ⟨key, lsn, value⟩ := version
    by_cases hmin : minLsn ≤ lsn
    · rw [List.filter_cons_of_pos (by simpa using hmin), openings, openings, hrest,
        nextLsn_filter hsorted hmin, List.filter_append]
      cases value with
      | none => rfl
      | some bytes => simp [hmin]
    · rw [List.filter_cons_of_neg (by simpa using hmin), openings, hrest, List.filter_append]
      cases value with
      | none => rfl
      | some bytes => simp [hmin]

end Openings

/-! ## Rows as of an LSN -/

section AsOf

variable {C : RelCodecs} {s : Store} {commits : List CommitLogRecord} {table : String}
  {versions : List TableVersion} {minLsn lsn : TxnId} {opening : Opening}

theorem RetainedVersions.mem_openings (h : RetainedVersions commits table minLsn versions) :
    opening ∈ openings versions ↔ Opens commits table minLsn opening := by
  rw [MultiDb.mem_openings h.sorted, h.mem, and_assoc, Opens]
  refine and_congr_right fun _ => and_congr_right fun hmin => ?_
  -- what closes a retained version is retained
  have hlater : laterLsns (· ∈ versions) opening.key opening.lsn =
      laterLsns (CommittedVersion commits table) opening.key opening.lsn := by
    ext later
    refine and_congr_right fun hlt => exists_congr fun value => ?_
    exact (h.mem _).trans (and_iff_left (hmin.trans hlt.le))
  rw [hlater]

/-- A period contains the times at which its version is current. -/
theorem Opens.contains_iff (h : Opens commits table minLsn opening) :
    opening.contains lsn = true ↔ CurrentAt commits table lsn opening.version := by
  obtain ⟨hversion, -, hleast⟩ := h
  rw [Opening.contains, Bool.and_eq_true, decide_eq_true_eq, CurrentAt, and_iff_right hversion]
  refine and_congr_right fun hle => ?_
  cases hnext : opening.next with
  | none =>
    rw [hnext] at hleast
    refine iff_of_true rfl fun later value hlater _ => ?_
    by_contra hlt
    exact Set.eq_empty_iff_forall_notMem.mp hleast later ⟨not_le.mp hlt, value, hlater⟩
  | some next =>
    rw [hnext] at hleast
    rw [Option.all_some, decide_eq_true_eq]
    constructor
    · intro hlt later value hlater hlsn
      by_contra hafter
      exact (hlsn.trans_lt hlt).not_ge (hleast.2 ⟨not_le.mp hafter, value, hlater⟩)
    · intro hnewest
      obtain ⟨hafter, value, hlater⟩ := hleast.1
      by_contra hge
      exact (hnewest next value hlater (not_lt.mp hge)).not_gt hafter

theorem RetainedVersions.exists_opening (h : RetainedVersions commits table minLsn versions)
    {key bytes : Bytes} {v : TxnId} (hversion : CommittedVersion commits table ⟨key, v, some bytes⟩)
    (hmin : minLsn ≤ v) : ∃ opening ∈ openings versions, opening.version =
    ⟨key, v, some bytes⟩ := by
  have hmem : ⟨key, v, some bytes⟩ ∈ (openings versions).map Opening.version := by
    rw [map_version_openings, List.mem_filter, h.mem]
    exact ⟨⟨hversion, hmin⟩, rfl⟩
  exact List.mem_map.mp hmem

theorem CurrentAt.unique {a b : TableVersion} (ha : CurrentAt commits table lsn a)
    (hb : CurrentAt commits table lsn b) (hkey : a.key = b.key) : a.lsn = b.lsn :=
  le_antisymm (hb.2.2 a.lsn a.value (hkey ▸ ha.1) ha.2.1)
    (ha.2.2 b.lsn b.value (hkey.symm ▸ hb.1) hb.2.1)

/-- The versions read as of `lsn` are the current ones. -/
theorem FullHistory.currentAt_iff (h : FullHistory C.toCodecs s commits)
    {byKey : Std.ExtTreeMap Bytes (TxnId × Option Bytes)}
    (hrun : (range s txnMvccTable (rowsPrefixBytes table) (rangeEnd (rowsPrefixBytes table))).foldlM
      (visitVersion C.toCodecs (rowsPrefixBytes table) lsn) ∅ = .ok byKey)
    {key : Bytes} {v : TxnId} {x : Option Bytes} :
    byKey[key]? = some (v, x) ↔ CurrentAt commits table lsn ⟨key, v, x⟩ := by
  have hnewest := newestByKey_foldlM hrun
  have hsound : ∀ w y, byKey[key]? = some (w, y) →
      w ≤ lsn ∧ CommittedVersion commits table ⟨key, w, y⟩ := by
    intro w y hget
    obtain ⟨hle, value, hmem, hvalue⟩ := hnewest.sound key w y hget
    obtain ⟨y', hversion, hvalue'⟩ := h.decodes (mem_range.mp hmem).1
    rw [hvalue, Except.ok.injEq, MvccRecord.mk.injEq] at hvalue'
    exact ⟨hle, hvalue' ▸ hversion⟩
  have hcomplete : ∀ w y, CommittedVersion commits table ⟨key, w, y⟩ → w ≤ lsn →
      ∃ w' y', byKey[key]? = some (w', y') ∧ w ≤ w' := by
    intro w y hversion hle
    obtain ⟨value, hmem, -⟩ := h.exists_row hversion
    exact hnewest.complete key w value hmem hle
  constructor
  · intro hget
    obtain ⟨hle, hversion⟩ := hsound v x hget
    refine ⟨hversion, hle, fun later value hlater hlsn => ?_⟩
    obtain ⟨w, y, hget', hlew⟩ := hcomplete later value hlater hlsn
    rw [hget, Option.some_inj, Prod.mk.injEq] at hget'
    rwa [← hget'.1] at hlew
  · rintro ⟨hversion, hle, hlast⟩
    obtain ⟨w, y, hget, hlew⟩ := hcomplete v x hversion hle
    obtain ⟨hwle, hversion'⟩ := hsound w y hget
    obtain rfl : w = v := le_antisymm (hlast w y hversion' hwle) hlew
    rw [hget, h.value_unique hversion hversion']

theorem RetainedVersions.current_sorted (h : RetainedVersions commits table minLsn versions) :
    ((openings versions).filter (·.contains lsn)).Pairwise fun a b =>
      compare a.key b.key = .lt := by
  refine ((openings_sorted h.sorted).filter _).imp_of_mem fun {a b} ha hb hbefore => ?_
  obtain ⟨ha, hacontains⟩ := List.mem_filter.mp ha
  obtain ⟨hb, hbcontains⟩ := List.mem_filter.mp hb
  rcases hbefore with hlt | ⟨hkey, hlt⟩
  · exact hlt
  · have hsame := CurrentAt.unique ((h.mem_openings.mp ha).contains_iff.mp hacontains)
      ((h.mem_openings.mp hb).contains_iff.mp hbcontains) hkey
    rw [hsame] at hlt
    exact absurd hlt (lt_irrefl _)

theorem ensureHistoryRetained_empty (hempty : HorizonAt s 0) (lsn : TxnId) :
    ensureHistoryRetained s lsn = .ok () := by
  obtain ⟨stored, hstored, hzero⟩ := map_eq_ok_iff.mp hempty
  have hnot : ¬ lsn < stored.getD 0 := by
    rw [hzero]
    exact not_lt.mpr UInt64.zero_le
  rw [ensureHistoryRetained, hstored]
  exact if_neg hnot

/-- Reading as of `lsn` gives the rows whose periods contain it. -/
theorem FullHistory.rowsAsOf (h : FullHistory C.toCodecs s commits) (hempty : HorizonAt s 0)
    (hversions : RetainedVersions commits table 0 versions) (lsn : TxnId) :
    rowsAsOfLsn C.toCodecs s table lsn =
      .ok (((openings versions).filter (·.contains lsn)).map Opening.bytes) := by
  obtain ⟨byKey, hrun⟩ : ∃ byKey, (range s txnMvccTable (rowsPrefixBytes table)
      (rangeEnd (rowsPrefixBytes table))).foldlM
        (visitVersion C.toCodecs (rowsPrefixBytes table) lsn) ∅ = .ok byKey := by
    refine exists_foldlM_eq_ok (fun row hrow byKey => ?_) ∅
    obtain ⟨row, value⟩ := row
    rcases versionRow_cases (rowsPrefixBytes table) row with hform | ⟨lk, v, rfl⟩
    · exact ⟨byKey, if_pos hform⟩
    · obtain ⟨x, -, hvalue⟩ := h.decodes (mem_range.mp hrow).1
      rw [visitVersion_eq, hvalue]
      split
      · exact ⟨_, rfl⟩
      · simp only [bind, Except.bind]
        split
        · exact ⟨_, rfl⟩
        · exact ⟨_, rfl⟩
  -- both lists are in key order, so their members decide
  have hlists : byKey.toList.filterMap (fun entry => entry.2.2.map fun bytes => (entry.1, bytes)) =
      ((openings versions).filter (·.contains lsn)).map fun opening =>
        (opening.key, opening.bytes) := by
    refine eq_of_sorted_of_mem_iff ?_ ?_ fun row => ?_
    · rw [List.pairwise_filterMap]
      refine Std.ExtTreeMap.ordered_keys_toList.imp fun {a b} hlt => ?_
      intro x hx y hy
      obtain ⟨_, -, rfl⟩ := Option.map_eq_some_iff.mp hx
      obtain ⟨_, -, rfl⟩ := Option.map_eq_some_iff.mp hy
      exact hlt
    · rw [List.pairwise_map]
      exact hversions.current_sorted
    · obtain ⟨key, bytes⟩ := row
      simp only [List.mem_filterMap, Prod.exists, Std.ExtTreeMap.mem_toList_iff_getElem?_eq_some,
        Option.map_eq_some_iff, Prod.mk.injEq, List.mem_map, List.mem_filter]
      constructor
      · rintro ⟨_, v, x, hget, _, rfl, rfl, rfl⟩
        have hcurrent := h.currentAt_iff hrun |>.mp hget
        obtain ⟨opening, hmem, hopening⟩ := hversions.exists_opening hcurrent.1 UInt64.zero_le
        obtain ⟨hkey, -, hbytes⟩ := TableVersion.mk.inj hopening
        refine ⟨opening, ⟨hmem, ?_⟩, hkey, Option.some.inj hbytes⟩
        rw [(hversions.mem_openings.mp hmem).contains_iff, hopening]
        exact hcurrent
      · rintro ⟨opening, ⟨hmem, hcontains⟩, rfl, rfl⟩
        have hcurrent := (hversions.mem_openings.mp hmem).contains_iff.mp hcontains
        exact ⟨_, _, _, h.currentAt_iff hrun |>.mpr hcurrent, opening.bytes, rfl, rfl, rfl⟩
  have hrows : byKey.toList.filterMap (fun entry => entry.2.2) =
      ((openings versions).filter (·.contains lsn)).map Opening.bytes := by
    have hsnd := congrArg (List.map Prod.snd) hlists
    simpa only [List.map_filterMap, List.map_map, Option.map_map, Function.comp_def,
      Option.map_id'] using hsnd
  simp only [rowsAsOfLsn, ensureHistoryRetained_empty hempty, versionKey_table, Except.mapError,
    hrun, hrows, bind, Except.bind]
  rfl

end AsOf

/-! ## Listed rows -/

/-- The system-time point of the commit at `lsn`. -/
def CommitPoint (commits : List CommitLogRecord) (lsn : TxnId) (point : Value × Value) : Prop :=
  ∃ record ∈ commits, ∃ millis, record.txnId = lsn ∧ lsn.toNat < 2 ^ 63 ∧
    systemTimeToMillis record.committedAt = .ok millis ∧ point = (.int lsn.toInt64, .int millis)

/-- The end of a period: null while the row is current. -/
def EndPoint (commits : List CommitLogRecord) (next : Option TxnId) (point : Value × Value) :
    Prop :=
  match next with
  | none => point = (.null, .null)
  | some next => CommitPoint commits next point

/-- The row of a version: the stored row, the LSNs of its interval, and their commit times. -/
def ListsVersion (C : RelCodecs) (commits : List CommitLogRecord) (schema : TableSchema)
    (opening : Opening) (row : Row) : Prop :=
  ∃ stored start stop, decodeRow C opening.bytes = .ok stored ∧
    stored.length = schema.columns.length ∧ CommitPoint commits opening.lsn start ∧
    EndPoint commits opening.next stop ∧ row = stored ++ [start.1, stop.1, start.2, stop.2]

/-- A listed row is valid at an LSN by the two columns behind its first `width` ones. -/
def validAt (width : ℕ) (lsn : TxnId) (row : Row) : Bool :=
  match row[width]?, row[width + 1]? with
  | some (.int start), some .null => start.toInt ≤ lsn.toNat
  | some (.int start), some (.int stop) => start.toInt ≤ lsn.toNat && (lsn.toNat : ℤ) < stop.toInt
  | _, _ => false

section Listed

variable {C : RelCodecs} {s : Store} {commits : List CommitLogRecord} {table : String}
  {schema : TableSchema} {retention : TemporalRetention} {opening : Opening} {row : Row}
  {lsn : TxnId} {point : Value × Value}

theorem FullHistory.commitMillis_eq_ok_iff (h : FullHistory C.toCodecs s commits) {millis : Int64} :
    commitMillis C s lsn = .ok millis ↔ ∃ record ∈ commits, record.txnId = lsn ∧
      systemTimeToMillis record.committedAt = .ok millis := by
  constructor
  · intro hmillis
    rw [commitMillis] at hmillis
    cases hget : s.get commitLogTable (encodeTxnId lsn) with
    | none => simp [hget] at hmillis
    | some bytes =>
      obtain ⟨record, hrecord, -, hkey, hbytes⟩ := (h.log.log _ _).mp hget
      have hid := encodeTxnId_inj.mp hkey
      simp only [hget, liftHistory, decodeCommitLogRecord_of_encode hbytes, Except.mapError, bind,
        Except.bind, hid, ne_eq, not_true_eq_false, if_false] at hmillis
      exact ⟨record, hrecord, hid, hmillis⟩
  · rintro ⟨record, hrecord, rfl, hmillis⟩
    obtain ⟨bytes, hbytes⟩ := h.log.encoded record hrecord
    have hget : s.get commitLogTable (encodeTxnId record.txnId) = some bytes := by
      refine (h.log.log _ _).mpr ⟨record, hrecord, ?_, rfl, hbytes⟩
      obtain ⟨i, hi⟩ := List.mem_iff_getElem?.mp hrecord
      rw [UInt64.le_iff_toNat_le, h.log.numbered i record hi]
      exact Nat.le_add_left 1 i
    simp only [commitMillis, hget, liftHistory, decodeCommitLogRecord_of_encode hbytes,
      Except.mapError, bind, Except.bind, ne_eq, not_true_eq_false, if_false]
    exact hmillis

theorem FullHistory.pointOf_eq_ok_iff (h : FullHistory C.toCodecs s commits) :
    pointOf C s lsn = .ok point ↔ CommitPoint commits lsn point := by
  by_cases hrange : lsn.toNat < 2 ^ 63
  · rw [pointOf_eq hrange, bind_eq_ok_iff]
    constructor
    · rintro ⟨millis, hmillis, hpoint⟩
      cases hpoint
      obtain ⟨record, hrecord, hid, hmillis⟩ := h.commitMillis_eq_ok_iff.mp hmillis
      exact ⟨record, hrecord, millis, hid, hrange, hmillis, rfl⟩
    · rintro ⟨record, hrecord, millis, hid, -, hmillis, rfl⟩
      exact ⟨millis, h.commitMillis_eq_ok_iff.mpr ⟨record, hrecord, hid, hmillis⟩, rfl⟩
  · rw [pointOf, historyBoundary, boundaryWith, if_pos hrange]
    refine iff_of_false (fun hok => by contradiction) ?_
    rintro ⟨-, -, -, -, hlt, -⟩
    exact hrange hlt

theorem FullHistory.endPoint_eq_ok_iff (h : FullHistory C.toCodecs s commits)
    (next : Option TxnId) : endPoint C s next = .ok point ↔ EndPoint commits next point := by
  cases next with
  | none =>
    change Except.ok (Value.null, Value.null) = Except.ok point ↔ point = (.null, .null)
    rw [Except.ok.injEq, eq_comm]
  | some next => exact h.pointOf_eq_ok_iff

theorem decodeTemporalRow_eq_ok_iff {bytes : Bytes} :
    decodeTemporalRow C schema bytes = .ok row ↔
      decodeRow C bytes = .ok row ∧ row.length = schema.columns.length := by
  simp only [decodeTemporalRow, validateTemporalRow, bind_eq_ok_iff, mapError_eq_ok_iff,
    pure_eq_ok_iff]
  constructor
  · rintro ⟨row, hrow, ⟨⟩, hvalid, rfl⟩
    refine ⟨hrow, ?_⟩
    by_contra hne
    rw [if_pos hne] at hvalid
    contradiction
  · rintro ⟨hrow, hlength⟩
    exact ⟨row, hrow, (), if_neg (not_not.mpr hlength), rfl⟩

theorem FullHistory.listedRow_eq_ok_iff (h : FullHistory C.toCodecs s commits) :
    listedRow C s schema opening = .ok row ↔ ListsVersion C commits schema opening row := by
  simp only [listedRow, bind_eq_ok_iff, pure_eq_ok_iff, decodeTemporalRow_eq_ok_iff,
    h.pointOf_eq_ok_iff, h.endPoint_eq_ok_iff]
  constructor
  · rintro ⟨stored, ⟨hstored, hlength⟩, start, hstart, stop, hstop, rfl⟩
    exact ⟨stored, start, stop, hstored, hlength, hstart, hstop, rfl⟩
  · rintro ⟨stored, start, stop, hstored, hlength, hstart, hstop, rfl⟩
    exact ⟨stored, ⟨hstored, hlength⟩, start, hstart, stop, hstop, rfl⟩

theorem FullHistory.historyRows_eq_ok_iff (h : FullHistory C.toCodecs s commits)
    (hempty : HorizonAt s 0) {versions : List TableVersion}
    (hversions : RetainedVersions commits table retention.minLsn versions) {rows : List Row} :
    historyRowsForTable C s table schema retention = .ok rows ↔ retention.keepHistory = true ∧
      List.Forall₂ (ListsVersion C commits schema) (openings versions) rows := by
  by_cases hkeep : retention.keepHistory = true
  · obtain ⟨versions', hversions', hplain⟩ := h.historyRows hempty hkeep table schema
    rw [hplain.eq_ok_iff, hversions'.unique hversions, listRows, mapM_eq_ok_iff_forall₂,
      and_iff_right hkeep]
    exact ⟨List.Forall₂.imp fun _ _ => h.listedRow_eq_ok_iff.mp,
      List.Forall₂.imp fun _ _ => h.listedRow_eq_ok_iff.mpr⟩
  · have hinvalid : validateRetention retention retention.minLsn =
        .error (.unsupported "history retention is disabled for this temporal table") := by
      simp [validateRetention, hkeep]
    rw [historyRowsForTable, hinvalid]
    exact iff_of_false (fun hok => by contradiction) fun hrows => hkeep hrows.1

theorem toInt_toInt64 (hrange : lsn.toNat < 2 ^ 63) : lsn.toInt64.toInt = lsn.toNat :=
  BitVec.toInt_eq_toNat_of_lt (show 2 * lsn.toNat < 2 ^ 64 by omega)

theorem ListsVersion.take_eq (h : ListsVersion C commits schema opening row) :
    decodeTemporalRow C schema opening.bytes = .ok (row.take schema.columns.length) := by
  obtain ⟨stored, start, stop, hstored, hlength, -, -, rfl⟩ := h
  rw [List.take_left' hlength, decodeTemporalRow_eq_ok_iff]
  exact ⟨hstored, hlength⟩

/-- A listed row is valid at the times its period contains. -/
theorem ListsVersion.validAt_iff (h : ListsVersion C commits schema opening row) :
    validAt schema.columns.length lsn row = true ↔ opening.contains lsn = true := by
  obtain ⟨stored, start, stop, -, hlength, hstart, hstop, rfl⟩ := h
  obtain ⟨-, -, _, -, hrange, -, rfl⟩ := hstart
  have hfrom : (stored ++ [Value.int opening.lsn.toInt64, stop.1, Value.int ‹_›, stop.2])[
      schema.columns.length]? = some (.int opening.lsn.toInt64) := by
    rw [← hlength]
    simp
  have hto : (stored ++ [Value.int opening.lsn.toInt64, stop.1, Value.int ‹_›, stop.2])[
      schema.columns.length + 1]? = some stop.1 := by
    rw [← hlength]
    simp
  rw [Opening.contains, validAt, hfrom, hto]
  cases hnext : opening.next with
  | none =>
    rw [hnext] at hstop
    obtain rfl := hstop
    simp [toInt_toInt64 hrange, UInt64.le_iff_toNat_le]
  | some next =>
    rw [hnext] at hstop
    obtain ⟨-, -, _, -, hrange', -, rfl⟩ := hstop
    simp [toInt_toInt64 hrange, toInt_toInt64 hrange', UInt64.le_iff_toNat_le,
      UInt64.lt_iff_toNat_lt]

theorem FullHistory.exists_current (h : FullHistory C.toCodecs s commits) (hempty : HorizonAt s 0)
    {rows : List Row} (hrows : historyRowsForTable C s table schema retention = .ok rows)
    (lsn : TxnId) : ∃ current : List Opening,
      rowsAsOfLsn C.toCodecs s table lsn = .ok (current.map Opening.bytes) ∧
      (∀ key v bytes, CurrentAt commits table lsn ⟨key, v, some bytes⟩ ↔
        ∃ opening ∈ current, opening.version = ⟨key, v, some bytes⟩) ∧
      (current.filter fun opening => retention.minLsn ≤ opening.lsn).mapM
          (fun opening => decodeTemporalRow C schema opening.bytes) =
        .ok ((rows.filter (validAt schema.columns.length lsn)).map
          (·.take schema.columns.length)) := by
  obtain ⟨byKey, -, hversions⟩ := h.exists_retained table 0
  generalize flatVersions byKey = versions at hversions
  refine ⟨_, h.rowsAsOf hempty hversions lsn, fun key v bytes => ?_, ?_⟩
  · constructor
    · intro hcurrent
      obtain ⟨opening, hmem, hopening⟩ := hversions.exists_opening hcurrent.1 UInt64.zero_le
      refine ⟨opening, List.mem_filter.mpr ⟨hmem, ?_⟩, hopening⟩
      rwa [(hversions.mem_openings.mp hmem).contains_iff, hopening]
    · rintro ⟨opening, hmem, hopening⟩
      obtain ⟨hmem, hcontains⟩ := List.mem_filter.mp hmem
      rwa [(hversions.mem_openings.mp hmem).contains_iff, hopening] at hcontains
  · have hlisted := ((h.historyRows_eq_ok_iff hempty (hversions.filter _)).mp hrows).2
    rw [openings_filter hversions.sorted] at hlisted
    have hcurrent := List.rel_filter (p := (·.contains lsn))
      (q := validAt schema.columns.length lsn) (fun _ _ hrow => hrow.validAt_iff.symm) hlisted
    rw [List.filter_comm, mapM_eq_ok_iff_forall₂, List.forall₂_map_right_iff]
    exact hcurrent.imp fun _ _ hrow => hrow.take_eq

theorem sublist_of_mapM {α β ε : Type} {f : α → Except ε β} {as as' : List α} {bs bs' : List β}
    (hsub : as'.Sublist as) (h : as.mapM f = .ok bs) (h' : as'.mapM f = .ok bs') :
    bs'.Sublist bs := by
  have hmap : (bs'.map (Except.ok : β → Except ε β)).Sublist (bs.map .ok) := by
    rw [← mapM_eq_ok_iff.mp h, ← mapM_eq_ok_iff.mp h']
    exact hsub.map f
  have hinverse : ∀ l : List β, (l.map (Except.ok : β → Except ε β)).filterMap Except.toOption =
    l := by
    intro l
    rw [List.filterMap_map]
    exact List.filterMap_some
  rw [← hinverse bs', ← hinverse bs]
  exact hmap.filterMap _

theorem temporalRowsAsOf_eq_ok_iff {debug : Row → String} {stored : List Bytes} {current : List Row}
    (hstored : rowsAsOfLsn C.toCodecs s table lsn = .ok stored) :
    temporalRowsAsOf C debug s table schema lsn = .ok current ↔ ∃ rows,
      stored.mapM (decodeTemporalRow C schema) = .ok rows ∧
        rows.insertionSort (fun left right => debug left ≤ debug right) = current := by
  rw [temporalRowsAsOf, hstored]
  simp only [Except.mapError, bind_eq_ok_iff, pure_eq_ok_iff, Except.ok.injEq, exists_eq_left']

end Listed

/-- A listing has one row for each retained version that is not a delete, in order.  Its rows at an
LSN are among those of a read as of the LSN.  The guarded listing is the same, unless its budget
rejects. -/
theorem system_versions_exact (C : RelCodecs) (debug : Row → String) (steps : List PinWorld.Step)
    (hempty : HorizonAt (PinWorld.run C.toCodecs steps).store 0) (table : String)
    (schema : TableSchema) (retention : TemporalRetention) :
    let s := (PinWorld.run C.toCodecs steps).store
    let commits := PinWorld.commits C.toCodecs {} steps
    let width := schema.columns.length
    (∃ versions : List Opening, versions.Pairwise (fun a b => a.version.Before b.version) ∧
      (∀ version, version ∈ versions ↔ Opens commits table retention.minLsn version) ∧
      ∀ rows, historyRowsForTable C s table schema retention = .ok rows ↔
        retention.keepHistory = true ∧
          List.Forall₂ (ListsVersion C commits schema) versions rows) ∧
    (∀ rows, historyRowsForTable C s table schema retention = .ok rows → ∀ lsn,
      (∀ current, temporalRowsAsOf C debug s table schema lsn = .ok current →
        ((rows.filter (validAt width lsn)).map (·.take width)).Subperm current) ∧
      ((∃ current, temporalRowsAsOf C debug s table schema lsn = .ok current ∧
          current.Perm ((rows.filter (validAt width lsn)).map (·.take width))) ↔
        ∀ key v bytes, CurrentAt commits table lsn ⟨key, v, some bytes⟩ → retention.minLsn ≤ v)) ∧
    ∀ (legacy : LegacyWalk C) (budget : TemporalBudget), Follows budget.Rejects Eq
      (historyRowsForTableGuarded legacy budget s table schema retention)
      (historyRowsForTable C s table schema retention) := by
  intro s commits width
  have h : FullHistory C.toCodecs s commits := fullHistory_run C.toCodecs steps hempty
  refine ⟨?_, fun rows hrows lsn => ?_, h.follows_guarded hempty⟩
  · obtain ⟨byKey, -, hversions⟩ := h.exists_retained table retention.minLsn
    exact ⟨_, openings_sorted hversions.sorted, fun _ => hversions.mem_openings,
      fun _ => h.historyRows_eq_ok_iff hempty hversions⟩
  · obtain ⟨current, hstored, hmem, hlisted⟩ := h.exists_current hempty hrows lsn
    have hread : ∀ rows', temporalRowsAsOf C debug s table schema lsn = .ok rows' ↔ ∃ decoded,
        current.mapM (fun opening => decodeTemporalRow C schema opening.bytes) = .ok decoded ∧
          decoded.insertionSort (fun left right => debug left ≤ debug right) = rows' := by
      intro rows'
      rw [temporalRowsAsOf_eq_ok_iff hstored]
      simp only [List.mapM_map]
      exact Iff.rfl
    constructor
    · intro rows' hrows'
      obtain ⟨decoded, hdecoded, rfl⟩ := (hread rows').mp hrows'
      have hsub := sublist_of_mapM List.filter_sublist hdecoded hlisted
      exact hsub.subperm.trans (List.perm_insertionSort _ decoded).symm.subperm
    · constructor
      · rintro ⟨rows', hrows', hperm⟩ key v bytes hcurrent
        obtain ⟨decoded, hdecoded, rfl⟩ := (hread rows').mp hrows'
        -- a row of the read that is not listed would make the listing shorter
        have hlength : (current.filter fun opening => retention.minLsn ≤ opening.lsn).length =
            current.length := by
          rw [(mapM_eq_ok_iff_forall₂.mp hlisted).length_eq, ← hperm.length_eq,
            List.length_insertionSort, (mapM_eq_ok_iff_forall₂.mp hdecoded).length_eq]
        obtain ⟨opening, hopening, hversion⟩ := (hmem key v bytes).mp hcurrent
        have hmin := List.length_filter_eq_length_iff.mp hlength opening hopening
        rw [decide_eq_true_eq] at hmin
        exact (TableVersion.mk.inj hversion).2.1 ▸ hmin
      · intro hretained
        have hall : (current.filter fun opening => retention.minLsn ≤ opening.lsn) = current := by
          refine List.filter_eq_self.mpr fun opening hopening => ?_
          rw [decide_eq_true_eq]
          exact hretained _ _ _ ((hmem _ _ _).mpr ⟨opening, hopening, rfl⟩)
        rw [hall] at hlisted
        exact ⟨_, (hread _).mpr ⟨_, hlisted, rfl⟩, List.perm_insertionSort _ _⟩

/-! ## Samples -/

private def plainCodecs : RelCodecs := { wireCodecs with legacyValue := fun _ => .error "not JSON" }

private def putRow (key : UInt8) (n : Int64) : PinWorld.Step :=
  .write epochEnv (.node (.proposeBatch [.put relRowsTable (tablePrefixBytes "users" ++ [key])
    ((encodeValue (.array [.int n])).toOption.getD [])]))

private def intsDebug (row : Row) : String :=
  "[" ++ String.intercalate ", " (row.map fun
    | .int n => "Int(" ++ toString n ++ ")"
    | _ => "Null") ++ "]"

private def oneColumn : TableSchema := ⟨[⟨"id", .int, false⟩], 0⟩

private def listedAndRead (steps : List PinWorld.Step) (retention : TemporalRetention)
    (lsn : TxnId) : Option (ℕ × ℕ) :=
  let s := (PinWorld.run wireCodecs steps).store
  match historyRowsForTable plainCodecs s "users" oneColumn retention,
      temporalRowsAsOf plainCodecs intsDebug s "users" oneColumn lsn with
  | .ok rows, .ok current => some ((rows.filter (validAt 1 lsn)).length, current.length)
  | _, _ => none

private theorem exists_of_listedAndRead {steps : List PinWorld.Step} {retention : TemporalRetention}
    {lsn : TxnId} {listed read : ℕ} (h : listedAndRead steps retention lsn = some (listed, read)) :
    ∃ rows current, historyRowsForTable plainCodecs (PinWorld.run wireCodecs steps).store "users"
        oneColumn retention = .ok rows ∧
      temporalRowsAsOf plainCodecs intsDebug (PinWorld.run wireCodecs steps).store "users"
        oneColumn lsn = .ok current ∧
      (rows.filter (validAt 1 lsn)).length = listed ∧ current.length = read := by
  rw [listedAndRead] at h
  split at h
  · rename_i rows current hrows hcurrent
    obtain ⟨hlisted, hread⟩ := Prod.mk.inj (Option.some.inj h)
    exact ⟨rows, current, hrows, hcurrent, hlisted, hread⟩
  · contradiction

private theorem listing_samples :
    (HorizonAt (PinWorld.run wireCodecs [putRow 1 5, putRow 1 6]).store 0 ∧
      listedAndRead [putRow 1 5, putRow 1 6] {} 1 = some (1, 1)) ∧
    HorizonAt (PinWorld.run wireCodecs [putRow 1 5, putRow 2 6]).store 0 ∧
      listedAndRead [putRow 1 5, putRow 2 6] { minLsn := 2 } 2 = some (1, 2) := by
  simp only [HorizonAt]
  decide +kernel

/-- Two versions of a row, the older of them read back. -/
theorem system_versions_exact_sample :
    let s := (PinWorld.run wireCodecs [putRow 1 5, putRow 1 6]).store
    HorizonAt s 0 ∧ ∃ rows current,
      historyRowsForTable plainCodecs s "users" oneColumn {} = .ok rows ∧
      temporalRowsAsOf plainCodecs intsDebug s "users" oneColumn 1 = .ok current ∧
      current.length = 1 ∧ current.Perm ((rows.filter (validAt 1 1)).map (·.take 1)) := by
  intro s
  obtain ⟨hempty, hcounts⟩ := listing_samples.1
  obtain ⟨rows, current, hrows, hcurrent, -, hlength⟩ := exists_of_listedAndRead hcounts
  obtain ⟨-, hexact, -⟩ := system_versions_exact plainCodecs intsDebug [putRow 1 5, putRow 1 6]
    hempty "users" oneColumn {}
  obtain ⟨current', hcurrent', hperm⟩ :=
    (hexact rows hrows 1).2.mpr fun _ _ _ _ => UInt64.zero_le
  cases hcurrent.symm.trans hcurrent'
  exact ⟨hempty, rows, current, hrows, hcurrent, hlength, hperm⟩

/-- A row that was committed below the retention is read, but not listed. -/
theorem listing_misses_older_rows :
    let s := (PinWorld.run wireCodecs [putRow 1 5, putRow 2 6]).store
    HorizonAt s 0 ∧ ∃ rows current,
      historyRowsForTable plainCodecs s "users" oneColumn { minLsn := 2 } = .ok rows ∧
      temporalRowsAsOf plainCodecs intsDebug s "users" oneColumn 2 = .ok current ∧
      ¬ current.Perm ((rows.filter (validAt 1 2)).map (·.take 1)) := by
  intro s
  obtain ⟨hempty, hcounts⟩ := listing_samples.2
  obtain ⟨rows, current, hrows, hcurrent, hlisted, hread⟩ := exists_of_listedAndRead hcounts
  refine ⟨hempty, rows, current, hrows, hcurrent, fun hperm => ?_⟩
  have hlength := hperm.length_eq
  rw [List.length_map, hlisted, hread] at hlength
  exact absurd hlength (by decide)

end MultiDb
