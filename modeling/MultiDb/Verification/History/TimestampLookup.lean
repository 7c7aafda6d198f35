import MultiDb.Model.Temporal
import MultiDb.Shared.Greatest
import MultiDb.Verification.History.RetainedLog

/-!
# Looking up a timestamp

The plain and the guarded lookup read the commit log backwards in windows of different widths.
-/

namespace MultiDb

open Shared

variable {records : List CommitLogRecord} {rows : List (Bytes × Bytes)} {record : CommitLogRecord}
  {earliest : TxnId}
variable {last first : TxnId} {bytes : Bytes}

/-! ## The backward scan -/

section Scan

theorem toNat_saturatingSub (a b : UInt64) : (saturatingSub a b).toNat = a.toNat - b.toNat := by
  rw [saturatingSub]
  split
  · rename_i h
    exact UInt64.toNat_sub_of_le _ _ h
  · rename_i h
    rw [UInt64.le_iff_toNat_le] at h
    rw [UInt64.toNat_zero]
    omega

theorem window_first_bounds {earliest : TxnId} {width : ℕ} (hle : earliest ≤ last)
    (hpos : 0 < width) (hwidth : width ≤ 256) :
    earliest ≤ max (saturatingSub last (UInt64.ofNat (width - 1))) earliest ∧
      max (saturatingSub last (UInt64.ofNat (width - 1))) earliest ≤ last ∧
      last.toNat - (max (saturatingSub last (UInt64.ofNat (width - 1))) earliest).toNat <
        width := by
  have hsub := toNat_saturatingSub last (UInt64.ofNat (width - 1))
  rw [UInt64.toNat_ofNat_of_lt' (by rw [UInt64.size]; omega)] at hsub
  have hmax : (saturatingSub last (UInt64.ofNat (width - 1))).toNat ≤
      (max (saturatingSub last (UInt64.ofNat (width - 1))) earliest).toNat :=
    UInt64.le_iff_toNat_le.mp (le_max_left _ _)
  refine ⟨le_max_right _ _, max_le ?_ hle, by omega⟩
  rw [UInt64.le_iff_toNat_le]
  omega

theorem le_checkedPred_iff {previous : TxnId} (h : checkedPred first = some previous)
    (lsn : TxnId) : previous.toNat + 1 = first.toNat ∧ (lsn ≤ previous ↔ lsn < first) := by
  rw [checkedPred] at h
  split at h
  · rename_i hpos
    cases h
    rw [UInt64.lt_iff_toNat_lt, UInt64.toNat_zero] at hpos
    have hsub : (first - 1).toNat = first.toNat - 1 := by
      rw [UInt64.toNat_sub_of_le _ _ (UInt64.le_iff_toNat_le.mpr (by rw [UInt64.toNat_one]; omega)),
        UInt64.toNat_one]
    rw [UInt64.le_iff_toNat_le, UInt64.lt_iff_toNat_lt]
    omega
  · contradiction

/-- Windows that each return their greatest hit find the greatest hit of all. -/
theorem exists_scanBackwards {width : ℕ → ℕ} (readWindow : TxnId → TxnId → Result (Option TxnId))
    {S : Set TxnId} (hearliest : 1 ≤ earliest)
    (hwidth : ∀ round, 0 < width round ∧ width round ≤ 256)
    (hread : ∀ round first last, last.toNat - first.toNat < width round →
      ∃ found, readWindow first last = .ok found ∧ GreatestIn (S ∩ Set.Icc first last) found)
    {fuel : ℕ} (round : ℕ) (hfuel : last.toNat < fuel) :
    ∃ found, scanBackwards width readWindow earliest fuel round last = .ok found ∧
      GreatestIn (S ∩ Set.Icc earliest last) found := by
  induction fuel generalizing round last with
  | zero => omega
  | succ fuel ih =>
    by_cases hle : earliest ≤ last
    · obtain ⟨hlow, hhigh, hcount⟩ := window_first_bounds hle (hwidth round).1 (hwidth round).2
      simp only [scanBackwards, if_pos hle, bind_eq_ok_iff]
      generalize max (saturatingSub last (UInt64.ofNat (width round - 1))) earliest = first
        at hlow hhigh hcount ⊢
      obtain ⟨found, hfound, hgreatest⟩ := hread round first last hcount
      have hupper : S ∩ Set.Icc earliest last ∩ Set.Ici first = S ∩ Set.Icc first last := by
        ext lsn
        simp only [Set.mem_inter_iff, Set.mem_Icc, Set.mem_Ici]
        exact ⟨fun h => ⟨h.1.1, h.2, h.1.2.2⟩, fun h => ⟨⟨h.1, hlow.trans h.2.1, h.2.2⟩, h.2.1⟩⟩
      cases found with
      | some lsn => exact ⟨some lsn, ⟨_, hfound, rfl⟩, (hupper ▸ hgreatest).of_upper⟩
      | none =>
        cases hpred : checkedPred first with
        | none =>
          have hpos : 0 < first := lt_of_lt_of_le (by decide) (hearliest.trans hlow)
          rw [checkedPred, if_pos hpos] at hpred
          contradiction
        | some previous =>
          obtain ⟨hprevious, -⟩ := le_checkedPred_iff hpred first
          rw [UInt64.le_iff_toNat_le] at hhigh
          obtain ⟨found, hrest, hgreatest'⟩ := ih (round + 1) (show previous.toNat < fuel by omega)
          refine ⟨found, ⟨none, hfound, by simpa only [hpred] using hrest⟩, ?_⟩
          refine GreatestIn.of_lower (hupper ▸ hgreatest) ?_
          convert hgreatest' using 1
          ext lsn
          simp only [Set.mem_inter_iff, Set.mem_Icc, Set.mem_Iio,
            (le_checkedPred_iff hpred lsn).2]
          refine ⟨fun h => ⟨h.1.1, h.1.2.1, h.2⟩, fun h => ⟨⟨h.1, h.2.1, ?_⟩, h.2.2⟩⟩
          exact h.2.2.le.trans (UInt64.le_iff_toNat_le.mpr hhigh)
    · refine ⟨none, by rw [scanBackwards, if_neg hle], ?_⟩
      rw [Set.Icc_eq_empty hle, Set.inter_empty]
      rfl

end Scan

/-! ## The commit log -/

/-- A commit log whose records match their keys, up to the current LSN. -/
structure CommitLog (C : Codecs) (s : Store) (current : TxnId) : Prop where
  current_row : (readHistoryMeta s currentTxnIdKey).map (·.getD 0) = .ok current
  floor_row : ∃ stored, readHistoryMeta s commitLogFloorKey = .ok stored
  log : ∀ key bytes, s.get commitLogTable key = some bytes → ∃ record : CommitLogRecord,
    encodeTxnId record.txnId = key ∧ decodeCommitLogRecord C bytes = .ok record ∧
      1 ≤ record.txnId ∧ record.txnId ≤ current

/-- The log holds this record. -/
def Logged (C : Codecs) (s : Store) (record : CommitLogRecord) : Prop :=
  ∃ bytes, s.get commitLogTable (encodeTxnId record.txnId) = some bytes ∧
    decodeCommitLogRecord C bytes = .ok record

/-- The commits made by the time `timestamp`. -/
def CommittedBy (C : Codecs) (s : Store) (timestamp : ℤ) : Set TxnId :=
  {lsn | ∃ record, Logged C s record ∧ record.txnId = lsn ∧ record.committedAt ≤ timestamp}

/-- The commits the log still keeps. -/
def RetainedLsns (s : Store) : Set TxnId :=
  {lsn | ∀ floor, readHistoryMeta s commitLogFloorKey = .ok (some floor) → floor ≤ lsn}

section Windows

variable {C : Codecs} {s : Store} {current : TxnId}

theorem exists_records
    (h : ∀ row ∈ rows, ∃ record : CommitLogRecord, encodeTxnId record.txnId = row.1 ∧
      decodeCommitLogRecord C row.2 = .ok record) :
    ∃ records : List CommitLogRecord,
      rows.mapM (fun row => decodeCommitLogRecord C row.2) = .ok records ∧
      rows.map Prod.fst = records.map fun record => encodeTxnId record.txnId := by
  induction rows with
  | nil => exact ⟨[], rfl, rfl⟩
  | cons row rows ih =>
    obtain ⟨record, hkey, hdecoded⟩ := h row List.mem_cons_self
    obtain ⟨records, hrecords, hkeys⟩ := ih fun row' hmem => h row' (List.mem_cons_of_mem _ hmem)
    refine ⟨record :: records, ?_, ?_⟩
    · simp only [List.mapM_cons, hdecoded, hrecords, bind, Except.bind]
      rfl
    · rw [List.map_cons, List.map_cons, hkeys, hkey]

/-- A window decodes to the records it holds. -/
theorem CommitLog.window (h : CommitLog C s current) (first last : TxnId) :
    ∃ records : List CommitLogRecord,
      (commitLogWindow s first last).mapM (fun row => decodeCommitLogRecord C row.2) = .ok records ∧
      (commitLogWindow s first last).map Prod.fst =
        records.map (fun record => encodeTxnId record.txnId) ∧
      records.Pairwise (fun a b => a.txnId < b.txnId) ∧
      ∀ record, record ∈ records ↔
        Logged C s record ∧ first ≤ record.txnId ∧ record.txnId ≤ last := by
  have hrow : ∀ row ∈ commitLogWindow s first last, ∃ record : CommitLogRecord,
      encodeTxnId record.txnId = row.1 ∧ decodeCommitLogRecord C row.2 = .ok record := by
    intro row hmem
    obtain ⟨record, hkey, hdecoded, -⟩ := h.log _ _ (mem_range.mp hmem).1
    exact ⟨record, hkey, hdecoded⟩
  obtain ⟨records, hrecords, hkeys⟩ := exists_records hrow
  refine ⟨records, hrecords, hkeys, ?_, fun record => ?_⟩
  · have hsorted : (commitLogWindow s first last).Pairwise fun a b => compare a.1 b.1 = .lt :=
      s.scan_sorted _ _
    have hids : ((commitLogWindow s first last).map Prod.fst).Pairwise fun a b =>
        compare a b = .lt := List.pairwise_map.mpr hsorted
    rw [hkeys, List.pairwise_map] at hids
    refine hids.imp fun {a b} hlt => ?_
    rwa [encodeTxnId, encodeTxnId, compare_be64, Std.compare_eq_lt] at hlt
  · rw [mem_of_mapM_eq_ok hrecords]
    constructor
    · rintro ⟨row, hmem, hdecoded⟩
      obtain ⟨hget, hrange⟩ := mem_range.mp hmem
      obtain ⟨record', hkey, hdecoded'⟩ := hrow row hmem
      cases hdecoded.symm.trans hdecoded'
      rw [← hkey] at hget hrange
      exact ⟨⟨_, hget, hdecoded⟩, keyInRange_window.mp hrange⟩
    · rintro ⟨⟨bytes, hget, hdecoded⟩, hbounds⟩
      exact ⟨(_, bytes), mem_range.mpr ⟨hget, keyInRange_window.mpr hbounds⟩, hdecoded⟩

theorem greatestIn_window (timestamp : ℤ)
    (hsorted : records.Pairwise fun a b => a.txnId < b.txnId)
    (hmem : ∀ record, record ∈ records ↔
      Logged C s record ∧ first ≤ record.txnId ∧ record.txnId ≤ last) :
    GreatestIn (CommittedBy C s timestamp ∩ Set.Icc first last)
      ((records.reverse.find? fun record => record.committedAt ≤ timestamp).map (·.txnId)) := by
  have hfind := greatestIn_find? CommitLogRecord.txnId (l := records.reverse)
    (List.pairwise_reverse.mpr hsorted) fun record => record.committedAt ≤ timestamp
  convert hfind using 1
  ext lsn
  simp only [Set.mem_inter_iff, CommittedBy, Set.mem_ofPred_eq, Set.mem_Icc, List.mem_reverse, hmem,
    decide_eq_true_eq]
  constructor
  · rintro ⟨⟨record, hlogged, rfl, htime⟩, hbounds⟩
    exact ⟨record, ⟨hlogged, hbounds⟩, htime, rfl⟩
  · rintro ⟨record, ⟨hlogged, hbounds⟩, htime, rfl⟩
    exact ⟨⟨record, hlogged, rfl, htime⟩, hbounds⟩

theorem latestInWindow_eq {timestamp : ℤ}
    (h : rows.mapM (fun row => decodeCommitLogRecord C row.2) = .ok records) :
    latestInWindow C timestamp rows =
      .ok ((records.find? fun record => record.committedAt ≤ timestamp).map (·.txnId)) := by
  induction rows generalizing records with
  | nil =>
    cases h
    rfl
  | cons row rows ih =>
    simp only [List.mapM_cons, bind_eq_ok_iff, pure_eq_ok_iff] at h
    obtain ⟨record, hrecord, records', hrecords', rfl⟩ := h
    simp only [latestInWindow, hrecord, bind, Except.bind]
    by_cases htime : record.committedAt ≤ timestamp
    · rw [if_pos htime, List.find?_cons_of_pos (by simpa using htime)]
      rfl
    · rw [if_neg htime, List.find?_cons_of_neg (by simpa using htime)]
      exact ih hrecords'

theorem mapM_reverse_eq_ok {f : Bytes × Bytes → Result CommitLogRecord}
    (h : rows.mapM f = .ok records) : rows.reverse.mapM f = .ok records.reverse := by
  rw [mapM_eq_ok_iff] at h ⊢
  rw [List.map_reverse, List.map_reverse, h]

theorem CommitLog.exists_latestInWindow (h : CommitLog C s current) (timestamp : ℤ)
    (first last : TxnId) :
    ∃ found, latestInWindow C timestamp (commitLogWindow s first last).reverse = .ok found ∧
      GreatestIn (CommittedBy C s timestamp ∩ Set.Icc first last) found := by
  obtain ⟨records, hrecords, -, hsorted, hmem⟩ := h.window first last
  exact ⟨_, latestInWindow_eq (mapM_reverse_eq_ok hrecords), greatestIn_window timestamp
    hsorted hmem⟩

end Windows

/-! ## Where the scan starts -/

section Bounds

variable {C : Codecs} {s : Store} {current : TxnId}

/-- The first LSN that a lookup reads, and everything retained is at or above it. -/
def StartsAt (C : Codecs) (s : Store) (earliest : TxnId) : Prop :=
  1 ≤ earliest ∧ ∀ record, Logged C s record →
    (earliest ≤ record.txnId ↔ record.txnId ∈ RetainedLsns s)

theorem CommitLog.retained_eq (h : CommitLog C s current)
    (hstart : StartsAt C s earliest) (timestamp : ℤ) :
    CommittedBy C s timestamp ∩ Set.Icc earliest current =
      CommittedBy C s timestamp ∩ RetainedLsns s := by
  ext lsn
  simp only [Set.mem_inter_iff, Set.mem_Icc]
  constructor
  · rintro ⟨⟨record, hlogged, rfl, htime⟩, hlow, -⟩
    exact ⟨⟨record, hlogged, rfl, htime⟩, (hstart.2 record hlogged).mp hlow⟩
  · rintro ⟨⟨record, hlogged, rfl, htime⟩, hretained⟩
    refine ⟨⟨record, hlogged, rfl, htime⟩, (hstart.2 record hlogged).mpr hretained, ?_⟩
    obtain ⟨bytes, hget, -⟩ := hlogged
    obtain ⟨record', hkey, -, -, hle⟩ := h.log _ _ hget
    exact encodeTxnId_inj.mp hkey ▸ hle

theorem Logged.id_pos (h : CommitLog C s current)
    (hlogged : Logged C s record) : 1 ≤ record.txnId := by
  obtain ⟨bytes, hget, -⟩ := hlogged
  obtain ⟨record', hkey, -, hpos, -⟩ := h.log _ _ hget
  exact encodeTxnId_inj.mp hkey ▸ hpos

theorem CommitLog.startsAt_floor (h : CommitLog C s current) {floor : TxnId}
    (hstored : readHistoryMeta s commitLogFloorKey = .ok (some floor)) :
    StartsAt C s (max floor 1) := by
  refine ⟨le_max_right _ _, fun record hlogged => ?_⟩
  rw [max_le_iff]
  constructor
  · rintro ⟨hle, -⟩ floor' hstored'
    cases hstored.symm.trans hstored'
    exact hle
  · exact fun hretained => ⟨hretained floor hstored, hlogged.id_pos h⟩

theorem startsAt_all (hstored : readHistoryMeta s commitLogFloorKey = .ok none)
    (hpos : 1 ≤ earliest) (hle : ∀ record, Logged C s record → earliest ≤ record.txnId) :
    StartsAt C s earliest := by
  refine ⟨hpos, fun record hlogged => ⟨fun _ floor hfloor => ?_, fun _ => hle record hlogged⟩⟩
  have hsome := Except.ok.inj (hstored.symm.trans hfloor)
  contradiction

theorem CommitLog.first_row (h : CommitLog C s current) :
    (range s commitLogTable [] [] = [] ∧ ∀ record, ¬ Logged C s record) ∨
    ∃ id bytes rows, range s commitLogTable [] [] = (encodeTxnId id, bytes) :: rows ∧ 1 ≤ id ∧
      ∀ record, Logged C s record → id ≤ record.txnId := by
  cases hrows : range s commitLogTable [] [] with
  | nil =>
    refine Or.inl ⟨rfl, ?_⟩
    rintro record ⟨bytes, hget, -⟩
    rw [range_all_eq_nil_iff.mp hrows] at hget
    contradiction
  | cons row rows =>
    obtain ⟨key, bytes⟩ := row
    have hmem : (key, bytes) ∈ range s commitLogTable [] [] := by simp [hrows]
    obtain ⟨record, rfl, -, hpos, -⟩ := h.log _ _ (mem_range.mp hmem).1
    refine Or.inr ⟨record.txnId, bytes, rows, rfl, hpos, ?_⟩
    rintro record' ⟨bytes', hget, -⟩
    exact le_of_first_row hrows (by simp [hget])

theorem CommitLog.exists_earliest (h : CommitLog C s current) :
    ∃ earliest, earliestCommitLsnIn s = .ok earliest ∧ StartsAt C s (max earliest 1) := by
  obtain ⟨stored, hstored⟩ := h.floor_row
  cases stored with
  | some floor =>
    exact ⟨floor, by rw [earliestCommitLsnIn, hstored]; rfl, h.startsAt_floor hstored⟩
  | none =>
    simp only [earliestCommitLsnIn, hstored, bind_eq_ok_iff, Except.ok.injEq, exists_eq_left']
    by_cases hone : (s.get commitLogTable (encodeTxnId 1)).isSome
    · refine ⟨1, by rw [if_pos hone]; rfl, startsAt_all hstored (le_max_right _ _) ?_⟩
      exact fun record hlogged => max_le (hlogged.id_pos h) (hlogged.id_pos h)
    · simp only [if_neg hone]
      rcases h.first_row with ⟨hrows, hnone⟩ | ⟨id, bytes, rows, hrows, hpos, hle⟩
      · refine ⟨1, by rw [hrows]; rfl, startsAt_all hstored (le_max_right _ _) ?_⟩
        exact fun record hlogged => absurd hlogged (hnone record)
      · refine ⟨id, by rw [hrows]; exact decodeTxnId_encodeTxnId id, ?_⟩
        rw [max_eq_left hpos]
        exact startsAt_all hstored hpos hle

theorem CommitLog.exists_latestCommitAtOrBefore (h : CommitLog C s current) (timestamp : ℤ) :
    ∃ found, latestCommitAtOrBefore C s timestamp = .ok found ∧
      GreatestIn (CommittedBy C s timestamp ∩ RetainedLsns s) found := by
  obtain ⟨earliest, hearliest, hstart⟩ := h.exists_earliest
  obtain ⟨stored, hstored, rfl⟩ := map_eq_ok_iff.mp h.current_row
  obtain ⟨found, hscan, hgreatest⟩ := exists_scanBackwards
    (fun first last => latestInWindow C timestamp (commitLogWindow s first last).reverse)
    hstart.1 (fun _ => ⟨by decide, le_rfl⟩)
      (fun _ first last _ => h.exists_latestInWindow timestamp first last)
    0 (Nat.lt_succ_self (stored.getD 0).toNat)
  refine ⟨found, ?_, h.retained_eq hstart timestamp ▸ hgreatest⟩
  simp only [latestCommitAtOrBefore, hearliest, hstored, bind, Except.bind]
  exact hscan

end Bounds

/-! ## The guarded lookup -/

/-- A budget that admits every single row of a log. -/
structure ReadBudget.AdmitsRows (budget : ReadBudget) (s : Store) : Prop where
  check : budget.check = .ok ()
  marker : budget.reserve 8 = .ok ()
  row : ∀ key bytes, s.get commitLogTable key = some bytes →
    budget.reserve (key.length + bytes.length) = .ok () ∧
      budget.reserve (jsonUnescapeWorkingBytes bytes) = .ok ()

/-- A budget that also admits the windows that it chooses. -/
structure TemporalBudget.AdmitsLog (budget : TemporalBudget) (s : Store) : Prop
    extends budget.toReadBudget.AdmitsRows s where
  window : ∀ round count, count ≤ budget.width round →
    budget.reserve (count * 4 * timeEntryBytes + 256) = .ok ()

theorem TemporalBudget.width_pos (budget : TemporalBudget) (round : ℕ) : 0 < budget.width round :=
  Nat.lt_of_lt_of_le Nat.zero_lt_one (le_max_left _ _)

theorem TemporalBudget.width_le (budget : TemporalBudget) (round : ℕ) : budget.width round ≤ 256 :=
  max_le (by decide) (min_le_right _ _)

section Visits

variable {σ α β : Type} {budget : ReadBudget} {s : Store}
variable {visit : Visit σ α} {visitor : Bytes → Bytes → Visit σ Bool} {step : σ → Bytes × Bytes → σ}

theorem Visit.run_bind_ok {next : α → Visit σ β} {state state' : σ} {a : α}
    (h : visit.run.run state = (.ok a, state')) :
    (visit >>= next).run.run state = (next a).run.run state' := by
  rw [ExceptT.run_bind, StateT.run_bind, h]
  rfl

theorem Visit.collect_eq {state state' : σ} {a : α}
    (h : visit.run.run state = (.ok a, state')) : visit.collect state = .ok state' := by
  rw [collect, h]

theorem run_visitEntries
    (hcheck : budget.check = .ok ()) {entries : List (Bytes × Bytes)}
    (hreserve : ∀ entry ∈ entries, budget.reserve (entry.1.length + entry.2.length) = .ok ())
    (hvisit : ∀ entry ∈ entries, ∀ state,
      (visitor entry.1 entry.2).run.run state = (.ok true, step state entry)) (state : σ) :
    (visitEntries budget visitor entries).run.run state = (.ok (), entries.foldl step state) := by
  induction entries generalizing state with
  | nil =>
    rw [visitEntries, hcheck]
    rfl
  | cons entry entries ih =>
    rw [List.forall_mem_cons] at hreserve hvisit
    obtain ⟨key, value⟩ := entry
    rw [visitEntries, hcheck, hreserve.1]
    exact (Visit.run_bind_ok (hvisit.1 state)).trans (ih hreserve.2 hvisit.2 _)

theorem collect_visitRange
    (hcheck : budget.check = .ok ()) {t : String} {start stop : Bytes}
    (hreserve : ∀ entry ∈ range s t start stop,
      budget.reserve (entry.1.length + entry.2.length) = .ok ())
    (hvisit : ∀ entry ∈ range s t start stop, ∀ state,
      (visitor entry.1 entry.2).run.run state = (.ok true, step state entry)) (state : σ) :
    Visit.collect (visitRange budget s t start stop visitor) state =
      .ok ((range s t start stop).foldl step state) := by
  refine Visit.collect_eq (a := ()) ?_
  rw [visitRange, hcheck]
  exact Visit.run_bind_ok (run_visitEntries hcheck hreserve hvisit state)

end Visits

section Guarded

variable {C : Codecs} {budget : ReadBudget} {s : Store} {current : TxnId}

theorem metadataLsn_eq (h : budget.AdmitsRows s) {key : Bytes} {stored : Option TxnId}
    (hstored : readHistoryMeta s key = .ok stored) : metadataLsn budget s key = .ok stored := by
  rw [metadataLsn, visitGet]
  cases hget : s.get txnMetaTable key with
  | none =>
    rw [readHistoryMeta, hget] at hstored
    cases hstored
    rw [h.check]
    rfl
  | some bytes =>
    rw [readHistoryMeta, hget] at hstored
    obtain ⟨lsn, hlsn, rfl⟩ := map_eq_ok_iff.mp hstored
    obtain rfl := decodeTxnId_eq_ok_iff.mp hlsn
    have hreserve : budget.reserve (encodeTxnId lsn).length = .ok () :=
      h.marker
    simp only [h.check, Option.elim_some, hreserve, hlsn]
    rfl

theorem CommitLog.exists_guardedEarliest (h : CommitLog C s current)
    (hadmits : budget.AdmitsRows s) :
    ∃ earliest, guardedEarliest budget s = .ok earliest ∧ StartsAt C s earliest := by
  obtain ⟨stored, hstored⟩ := h.floor_row
  simp only [guardedEarliest, metadataLsn_eq hadmits hstored, bind_eq_ok_iff, Except.ok.injEq,
    exists_eq_left']
  cases stored with
  | some floor => exact ⟨_, rfl, h.startsAt_floor hstored⟩
  | none =>
    simp only [bind_eq_ok_iff, pure_eq_ok_iff]
    rcases h.first_row with ⟨hrows, hnone⟩ | ⟨id, bytes, rows, hrows, hpos, hle⟩
    · refine ⟨1, ⟨none, ?_, rfl⟩, startsAt_all hstored le_rfl fun record hlogged =>
        absurd hlogged (hnone record)⟩
      rw [visitRange, hrows, visitEntries, hadmits.check]
      rfl
    · have hmem : (encodeTxnId id, bytes) ∈ range s commitLogTable [] [] := by simp [hrows]
      refine ⟨id, ⟨some id, ?_, ?_⟩, startsAt_all hstored hpos hle⟩
      · rw [visitRange, hrows, visitEntries, hadmits.check,
          (hadmits.row _ _ (mem_range.mp hmem).1).1]
        simp only [decodeTxnId_encodeTxnId]
        rfl
      · rw [Option.getD_some, max_eq_left hpos]

theorem decodeCommitMetadata_eq (h : budget.AdmitsRows s) {key : Bytes}
    (hget : s.get commitLogTable key = some bytes)
    (hrecord : decodeCommitLogRecord C bytes = .ok record) :
    decodeCommitMetadata C budget bytes = .ok (record.txnId, record.committedAt) := by
  rw [decodeCommitLogRecord] at hrecord
  rw [decodeCommitMetadata, h.check]
  split at hrecord
  · rename_i hmagic
    simp only [decodeBinaryExact, bind_eq_ok_iff, mapError_eq_ok_iff, guard_eq_ok_iff,
      pure_eq_ok_iff] at hrecord
    obtain ⟨⟨record', trailing⟩, htake, htrailing, rfl⟩ := hrecord
    have hempty : trailing.isEmpty = true := by simpa using htrailing
    simp only [if_pos hmagic, htake, Except.mapError, bind, Except.bind, hempty, if_true]
    rfl
  · rename_i hmagic
    rw [mapError_eq_ok_iff] at hrecord
    simp only [if_neg hmagic, (h.row _ _ hget).2, hrecord, Except.mapError, bind, Except.bind]
    rfl

def timeEntry (C : Codecs) (row : Bytes × Bytes) : TxnId × ℤ :=
  match decodeCommitLogRecord C row.2 with
  | .ok record => (record.txnId, record.committedAt)
  | .error _ => (0, 0)

theorem CommitLog.run_visitCommitTime (h : CommitLog C s current) (hadmits : budget.AdmitsRows s)
    {row : Bytes × Bytes} (hget : s.get commitLogTable row.1 = some row.2)
    (times : List (TxnId × ℤ)) :
    (visitCommitTime C budget row.1 row.2).run.run times =
      (.ok true, times ++ [timeEntry C row]) := by
  obtain ⟨record, hkey, hdecoded, -⟩ := h.log _ _ hget
  rw [visitCommitTime, timeEntry, decodeCommitMetadata_eq hadmits hget hdecoded, ← hkey,
    decodeTxnId_encodeTxnId, hdecoded]
  refine (Visit.run_bind_ok rfl).trans ((Visit.run_bind_ok rfl).trans ?_)
  rw [if_neg (not_not.mpr rfl)]
  rfl

theorem map_timeEntry
    (hrecords : rows.mapM (fun row => decodeCommitLogRecord C row.2) = .ok records) :
    rows.map (timeEntry C) = records.map fun record => (record.txnId, record.committedAt) := by
  induction rows generalizing records with
  | nil =>
    cases hrecords
    rfl
  | cons row rows ih =>
    rw [List.mapM_cons] at hrecords
    simp only [bind_eq_ok_iff, pure_eq_ok_iff] at hrecords
    obtain ⟨record, hrecord, records, htail, rfl⟩ := hrecords
    rw [List.map_cons, List.map_cons, ih htail, timeEntry, hrecord]

theorem CommitLog.exists_guardedWindow (h : CommitLog C s current) (hadmits : budget.AdmitsRows s)
    (timestamp : ℤ)
    (hreserve : budget.reserve ((last.toNat - first.toNat + 1) * 4 * timeEntryBytes + 256) =
    .ok ()) : ∃ found, guardedWindow C budget s timestamp first last = .ok found ∧
      GreatestIn (CommittedBy C s timestamp ∩ Set.Icc first last) found := by
  obtain ⟨records, hrecords, -, hsorted, hmem⟩ := h.window first last
  refine ⟨_, ?_, greatestIn_window timestamp hsorted hmem⟩
  have htimes : Visit.collect (visitRange budget s commitLogTable (encodeTxnId first)
      ((checkedSucc last).elim [] encodeTxnId) (visitCommitTime C budget)) [] =
        .ok ((commitLogWindow s first last).foldl (fun times row => times ++ [timeEntry C row])
          []) :=
    collect_visitRange hadmits.check
      (fun row hrow => (hadmits.row _ _ (mem_range.mp hrow).1).1)
      (fun row hrow => h.run_visitCommitTime hadmits (mem_range.mp hrow).1) []
  rw [List.foldl_append_eq_append, List.nil_append, ← List.flatMap_def, ← List.map_eq_flatMap,
    map_timeEntry hrecords] at htimes
  simp only [guardedWindow, hadmits.check, hreserve, htimes, bind, Except.bind,
    ← List.map_reverse, List.find?_map, Option.map_map]
  rfl

theorem CommitLog.exists_latestCommit (h : CommitLog C s current) (budget : TemporalBudget)
    (hadmits : budget.AdmitsLog s) (timestamp : ℤ) :
    ∃ found, latestCommit C budget s timestamp = .ok found ∧
      GreatestIn (CommittedBy C s timestamp ∩ RetainedLsns s) found := by
  obtain ⟨earliest, hearliest, hstart⟩ := h.exists_guardedEarliest hadmits.toAdmitsRows
  obtain ⟨stored, hstored, rfl⟩ := map_eq_ok_iff.mp h.current_row
  obtain ⟨found, hscan, hgreatest⟩ := exists_scanBackwards
    (guardedWindow C budget.toReadBudget s timestamp) hstart.1
    (fun round => ⟨budget.width_pos round, budget.width_le round⟩)
    (fun round first last hcount => h.exists_guardedWindow hadmits.toAdmitsRows timestamp
      (hadmits.window round _ hcount))
    0 (Nat.lt_succ_self (stored.getD 0).toNat)
  refine ⟨found, ?_, h.retained_eq hstart timestamp ▸ hgreatest⟩
  simp only [latestCommit, hearliest, metadataLsn_eq hadmits.toAdmitsRows hstored, bind,
    Except.bind]
  exact hscan

/-- Both lookups of a timestamp return the greatest retained LSN committed by then. -/
theorem timestamp_lookup_exact (h : CommitLog C s current) (timestamp : ℤ) :
    ∃ found, GreatestIn (CommittedBy C s timestamp ∩ RetainedLsns s) found ∧
      latestCommitAtOrBefore C s timestamp = .ok found ∧
      ∀ budget : TemporalBudget, budget.AdmitsLog s →
        latestCommit C budget s timestamp = .ok found := by
  obtain ⟨found, hfound, hgreatest⟩ := h.exists_latestCommitAtOrBefore timestamp
  refine ⟨found, hgreatest, hfound, fun budget hadmits => ?_⟩
  obtain ⟨found', hfound', hgreatest'⟩ := h.exists_latestCommit budget hadmits timestamp
  rw [hfound', hgreatest'.unique hgreatest]

theorem CommitLog.put (h : CommitLog C s current)
    (hdecoded : decodeCommitLogRecord C bytes = .ok record) (hpos : 1 ≤ record.txnId)
    (hle : record.txnId ≤ current) :
    CommitLog C (s.put commitLogTable (encodeTxnId record.txnId) bytes) current where
  current_row := by
    rw [readHistoryMeta, Tables.get_put_of_ne fun h => absurd h (by decide)]
    exact h.current_row
  floor_row := by
    rw [readHistoryMeta, Tables.get_put_of_ne fun h => absurd h (by decide)]
    exact h.floor_row
  log key bytes' hget := by
    rw [Tables.get_put] at hget
    split at hget
    · rename_i hkey
      cases hget
      exact ⟨record, hkey.2, hdecoded, hpos, hle⟩
    · exact h.log key bytes' hget

private def timedRecord (lsn : TxnId) (time : ℤ) : CommitLogRecord := ⟨lsn, time, none, []⟩

private def timedBytes (lsn : TxnId) (time : ℤ) : Bytes :=
  (encodeCommitLogRecord wireCodecs (timedRecord lsn time)).toOption.getD []

/-- Four commits are left of seven hundred, and the clock stepped back twice. -/
private def gappedLog : Store :=
  [(3, 20), (300, 90), (600, 10), (700, 70)].foldl
    (fun s entry => s.put commitLogTable (encodeTxnId entry.1) (timedBytes entry.1 entry.2))
    ((Tables.empty.put txnMetaTable currentTxnIdKey (encodeTxnId 700)).put
      txnMetaTable commitLogFloorKey (encodeTxnId 3))

private def openBudget : TemporalBudget := ⟨⟨.ok (), fun _ => .ok ()⟩, fun round => 128 * round⟩

private theorem commitLog_gappedLog : CommitLog wireCodecs gappedLog 700 := by
  have hempty : CommitLog wireCodecs ((Tables.empty.put txnMetaTable currentTxnIdKey
      (encodeTxnId 700)).put txnMetaTable commitLogFloorKey (encodeTxnId 3)) 700 :=
    ⟨by decide +kernel, ⟨some 3, by decide +kernel⟩, fun key bytes hget => by
      rw [Tables.get_put_of_ne fun h => absurd h (by decide),
        Tables.get_put_of_ne fun h => absurd h (by decide)] at hget
      simp at hget⟩
  have hdecoded : ∀ entry ∈ ([(3, 20), (300, 90), (600, 10), (700, 70)] : List (TxnId × ℤ)),
      decodeCommitLogRecord wireCodecs (timedBytes entry.1 entry.2) =
        .ok (timedRecord entry.1 entry.2) ∧ 1 ≤ entry.1 ∧ entry.1 ≤ 700 := by
    decide +kernel
  rw [gappedLog]
  generalize (Tables.empty.put txnMetaTable currentTxnIdKey (encodeTxnId 700)).put
    txnMetaTable commitLogFloorKey (encodeTxnId 3) = s at hempty ⊢
  generalize ([(3, 20), (300, 90), (600, 10), (700, 70)] : List (TxnId × ℤ)) = entries
    at hdecoded ⊢
  induction entries generalizing s with
  | nil => exact hempty
  | cons entry entries ih =>
    rw [List.forall_mem_cons] at hdecoded
    obtain ⟨⟨hrecord, hpos, hle⟩, hentries⟩ := hdecoded
    exact ih _ (hempty.put hrecord hpos hle) hentries

/-- The last commit came too late, the one before it did not. -/
theorem timestamp_lookup_exact_sample :
    latestCommitAtOrBefore wireCodecs gappedLog 60 = .ok (some 600) ∧
      latestCommit wireCodecs openBudget gappedLog 60 = .ok (some 600) := by
  obtain ⟨found, -, hplain, hguarded⟩ := timestamp_lookup_exact commitLog_gappedLog 60
  have hfound : latestCommitAtOrBefore wireCodecs gappedLog 60 = .ok (some 600) := by decide +kernel
  cases hplain.symm.trans hfound
  exact ⟨hplain, hguarded openBudget ⟨⟨rfl, rfl, fun _ _ _ => ⟨rfl, rfl⟩⟩, fun _ _ _ => rfl⟩⟩

end Guarded

end MultiDb
