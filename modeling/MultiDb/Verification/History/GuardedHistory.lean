import MultiDb.Verification.Documents.ValueMemory
import MultiDb.Verification.History.SystemVersions
import MultiDb.Verification.Storage.Visits

/-!
# The guarded listing

The guarded listing returns the rows of the plain listing, or an error of its budget.
-/

namespace MultiDb

open Shared

variable {versions : List TableVersion}

/-- An error of a listing that its budget has raised. -/
def TemporalBudget.Rejects (budget : TemporalBudget) (error : HistoryError) : Prop :=
  ∃ cause, error = .ofStorage cause ∧ budget.toReadBudget.Rejects cause

section Calls

variable {budget : TemporalBudget} {α β ε' : Type} {rel : β → α → Prop}

theorem follows_liftHistory {x : Result α} {y : Except ε' β}
    (h : Follows budget.toReadBudget.Rejects rel x y) :
    Follows budget.Rejects rel (liftHistory x) y where
  sound a ha := h.sound a (mapError_eq_ok_iff.mp ha)
  complete b hb := by
    rcases h.complete b hb with ⟨a, rfl⟩ | ⟨e, rfl, hrejects⟩
    · exact .inl ⟨a, rfl⟩
    · exact .inr ⟨.ofStorage e, rfl, e, rfl, hrejects⟩

theorem follows_call {call : Result Unit} {next : Unit → HistoryResult α} {y : Except ε' β}
    (hcall : ∀ error, call = .error error → budget.toReadBudget.Rejects error)
    (h : Follows budget.Rejects rel (next ()) y) :
    Follows budget.Rejects rel (liftHistory call >>= next) y := by
  refine .check (fun e he => ?_) h
  cases call with
  | ok _ => contradiction
  | error error =>
    obtain rfl := Except.error.inj he
    exact ⟨error, rfl, hcall error rfl⟩

end Calls

section Reads

variable {C : RelCodecs} {budget : TemporalBudget} {s : Store} {schema : TableSchema}

theorem follows_decodeCommitMetadata {budget : ReadBudget} (C : Codecs) (bytes : Bytes) :
    Follows budget.Rejects (fun (record : CommitLogRecord) answer =>
        answer = (record.txnId, record.committedAt))
      (decodeCommitMetadata C budget bytes) (decodeCommitLogRecord C bytes) := by
  rw [decodeCommitMetadata, decodeCommitLogRecord]
  refine .check (fun _ => budget.rejects_check) ?_
  split
  · rw [decodeBinaryExact]
    cases C.commitLog.takeFromBytes (bytes.drop commitLogBinaryMagic.length) with
    | error e => exact .error
    | ok answer =>
      obtain ⟨record, trailing⟩ := answer
      cases trailing with
      | nil => exact .check (fun _ => budget.rejects_check) (.ok rfl)
      | cons => exact .error
  · refine .check (fun _ => budget.rejects_reserve) ?_
    cases C.legacyCommitLog bytes with
    | error e => exact .error
    | ok record => exact .check (fun _ => budget.rejects_check) (.ok rfl)

/-- When the commit at `lsn` was made, if the log still has it. -/
def commitTime (C : RelCodecs) (s : Store) (lsn : TxnId) : HistoryResult (Option ℤ) :=
  match s.get commitLogTable (encodeTxnId lsn) with
  | none => .ok none
  | some bytes => do
    let record ← liftHistory (decodeCommitLogRecord C.toCodecs bytes)
    if record.txnId ≠ lsn then
      .error (.ofStorage (.corruption "temporal commit record does not match its LSN"))
    else
      .ok (some record.committedAt)

def timeToMillis (lsn : TxnId) : Option ℤ → HistoryResult Int64
  | none => .error (.missingPoint lsn)
  | some time => systemTimeToMillis time

theorem commitMillis_eq (lsn : TxnId) :
    commitMillis C s lsn = commitTime C s lsn >>= timeToMillis lsn := by
  rw [commitMillis, commitTime]
  cases s.get commitLogTable (encodeTxnId lsn) with
  | none => rfl
  | some bytes =>
    simp only [bind_assoc]
    congr 1
    funext record
    split <;> rfl

/-- The guarded read of a commit time follows the plain one. -/
theorem follows_guardedMillis (lsn : TxnId) :
    Follows budget.Rejects Eq (guardedMillis C.toCodecs budget.toReadBudget s lsn)
      (commitMillis C s lsn) := by
  rw [guardedMillis, commitMillis_eq, commitTime]
  refine follows_call (fun _ => budget.rejects_reserve)
    (.bind (show Follows budget.Rejects Eq _ _ from follows_liftHistory (follows_visitGet ?_)) ?_)
  · cases s.get commitLogTable (encodeTxnId lsn) with
    | none => exact .ok rfl
    | some bytes =>
      rw [visitCommitPoint, Visit.exec_bind, Visit.exec_lift, bind_assoc]
      refine .bind (follows_decodeCommitMetadata C.toCodecs bytes).mapError_right ?_
      rintro record _ rfl
      rw [pure_bind]
      by_cases hid : record.txnId ≠ lsn
      · simp only [if_pos hid]
        exact .error
      · simp only [if_neg hid]
        exact .ok rfl
  · rintro time _ rfl
    cases time <;> exact .refl _

theorem follows_guardedRow (legacy : LegacyWalk C) (round : ℕ) (bytes : Bytes) :
    Follows budget.Rejects Eq (guardedRow legacy budget schema round bytes)
      (decodeTemporalRow C schema bytes) where
  sound row hrow := by
    obtain ⟨_, -, hrow⟩ := bind_eq_ok_iff.mp hrow
    split at hrow
    · simp only [bind_eq_ok_iff, pure_eq_ok_iff] at hrow
      obtain ⟨_, -, _, -, _, -, _, hdecoded, _, -, rfl⟩ := hrow
      exact ⟨_, hdecoded, rfl⟩
    · simp only [bind_eq_ok_iff, pure_eq_ok_iff] at hrow
      obtain ⟨_, -, _, -, _, hdecoded, _, -, rfl⟩ := hrow
      exact ⟨_, hdecoded, rfl⟩
  complete row hrow := by
    have hvalue : ∃ value, decodeValue C bytes = .ok value := by
      simp only [decodeTemporalRow, decodeRow, bind_eq_ok_iff, mapError_eq_ok_iff] at hrow
      obtain ⟨_, ⟨value, hvalue, -⟩, -⟩ := hrow
      exact ⟨value, hvalue⟩
    obtain ⟨value, hvalue⟩ := hvalue
    obtain ⟨bound, hbound⟩ := exists_valueDecodeMemoryBound legacy hvalue
      (budget.remainingBytes round)
    have hfollows : Follows budget.Rejects Eq (guardedRow legacy budget schema round bytes)
        (.ok row : HistoryResult Row) := by
      rw [guardedRow, hrow, hbound]
      refine follows_call (fun _ => budget.rejects_check) ?_
      split
      · exact follows_call (fun _ => budget.rejects_reserve)
          (follows_call (fun _ => budget.rejects_reserve)
            (follows_call (fun _ => budget.rejects_check) (.ok rfl)))
      · exact follows_call (fun _ => budget.rejects_reserve)
            (follows_call (fun _ => budget.rejects_check) (.ok rfl))
    exact hfollows.complete row rfl

end Reads

/-! ## Collecting the versions -/

def RowVersion.version (entry : RowVersion) : TableVersion :=
  ⟨entry.key, entry.lsn, entry.value⟩

/-- The version a row of the version table holds. -/
def readVersion (C : Codecs) (pfx : Bytes) (row : Bytes × Bytes) : Option TableVersion :=
  if row.1.length < pfx.length + 8 ∨ ¬ pfx.isPrefixOf row.1 then none
  else do
    let lsn ← (decodeTxnId (row.1.drop (row.1.length - 8))).toOption
    let record ← (decodeMvccRecord C row.2).toOption
    return ⟨(row.1.drop pfx.length).take (row.1.length - 8 - pfx.length), lsn, record.value⟩

section Collect

variable {C : Codecs} {budget : ReadBudget} {s : Store} {commits : List CommitLogRecord}
  {table : String} {pfx : Bytes}

theorem readVersion_eq {lk value : Bytes} {v : TxnId} {record : MvccRecord}
    (h : decodeMvccRecord C value = .ok record) :
    readVersion C pfx (pfx ++ lk ++ be64 v, value) = some ⟨lk, v, record.value⟩ := by
  obtain ⟨hform, hdrop, hkey⟩ := versionRow_parts pfx lk v
  have hlsn : decodeTxnId (be64 v) = .ok v := decodeTxnId_encodeTxnId v
  simp only [readVersion, if_neg hform, hdrop, hkey, hlsn, h]
  rfl

theorem borrowedMvcc_eq {value : Bytes} {record : MvccRecord}
    (h : decodeMvccRecord C value = .ok record) : borrowedMvcc C value = .ok record.value := by
  rw [decodeMvccRecord, decodeBinaryExact] at h
  simp only [bind_eq_ok_iff, mapError_eq_ok_iff, Prod.exists, guard_eq_ok_iff, pure_eq_ok_iff] at h
  obtain ⟨record', trailing, htake, hempty, rfl⟩ := h
  simp only [borrowedMvcc, htake, Except.mapError, bind, Except.bind, if_neg hempty]
  rfl

theorem follows_push (versions : RowVersions) (entry : RowVersion) :
    Follows budget.Rejects (fun (_ : Unit) versions' => versions'.entries =
    versions.entries ++ [entry])
      (versions.push budget entry) (.ok () : Result Unit) := by
  rw [RowVersions.push]
  split
  · exact .check (fun _ => budget.rejects_reserve) (.ok rfl)
  · exact .ok rfl

/-- The walk has collected the versions of the rows it has passed. -/
def Collected (C : Codecs) (pfx : Bytes) (done : List (Bytes × Bytes)) (versions : RowVersions) :
    Prop :=
  versions.entries.map RowVersion.version = done.filterMap (readVersion C pfx)

theorem follows_visitRowVersion {row : Bytes × Bytes}
    (hrow : ∀ lk v, row.1 = pfx ++ lk ++ be64 v → ∃ record, decodeMvccRecord C row.2 = .ok record)
    {done : List (Bytes × Bytes)} {versions : RowVersions} (hdone : Collected C pfx done versions) :
    Follows budget.Rejects
      (fun (_ : Unit) answer => answer.1 = true ∧ Collected C pfx (done ++ [row]) answer.2)
      ((visitRowVersion C budget pfx none row.1 row.2).exec versions) (.ok () : Result Unit) := by
  obtain ⟨row, value⟩ := row
  rw [visitRowVersion]
  refine follows_budget (fun _ => budget.rejects_check) ?_
  rcases versionRow_cases pfx row with hform | ⟨lk, v, rfl⟩
  · rw [if_pos hform]
    refine .ok ⟨rfl, ?_⟩
    have hskip : readVersion C pfx (row, value) = none := if_pos hform
    rw [Collected, List.filterMap_append, ← hdone, List.filterMap_cons_none hskip,
      List.filterMap_nil,
      List.append_nil]
  · obtain ⟨record, hrecord⟩ := hrow lk v rfl
    obtain ⟨hform, hdrop, hkey⟩ := versionRow_parts pfx lk v
    have hlsn : decodeTxnId (be64 v) = .ok v := decodeTxnId_encodeTxnId v
    simp only [if_neg hform, hdrop, hkey, hlsn, borrowedMvcc_eq hrecord]
    refine follows_budget (fun _ => budget.rejects_reserve) ?_
    rw [Visit.exec_bind, Visit.exec_get]
    change Follows _ _
      ((liftM (versions.push budget _) >>= _ : Visit RowVersions Bool).exec versions) _
    rw [Visit.exec_bind, Visit.exec_lift, bind_assoc]
    change Follows _ _ _ ((.ok () : Result Unit) >>= fun _ => .ok ())
    refine .bind (follows_push versions _) ?_
    rintro - versions' hpushed
    refine .ok ⟨rfl, ?_⟩
    rw [Collected, hpushed, List.map_append, hdone, List.filterMap_append, List.filterMap_cons_some
      (readVersion_eq hrecord)]
    rfl

/-- The order of the walk's sort. -/
def RowVersion.cmp : RowVersion → RowVersion → Ordering :=
  compareLex (compareOn RowVersion.key)
    (compareLex (compareOn RowVersion.lsn) (compareOn RowVersion.ordinal))

instance : Std.TransCmp RowVersion.cmp :=
  inferInstanceAs (Std.TransCmp (compareLex (compareOn RowVersion.key)
    (compareLex (compareOn RowVersion.lsn) (compareOn RowVersion.ordinal))))

instance : Std.Total fun a b => RowVersion.le a b = true where
  total a b := by
    change (RowVersion.cmp a b).isLE = true ∨ (RowVersion.cmp b a).isLE = true
    cases hcmp : RowVersion.cmp a b with
    | lt => exact .inl rfl
    | eq => exact .inl rfl
    | gt =>
      rw [Std.OrientedCmp.gt_iff_lt] at hcmp
      rw [hcmp]
      exact .inr rfl

instance : IsTrans RowVersion fun a b => RowVersion.le a b = true where
  trans a _ c hab hbc :=
    show (RowVersion.cmp a c).isLE = true from Std.TransCmp.isLE_trans hab hbc

theorem RowVersion.before_of_le {a b : RowVersion} (hle : RowVersion.le a b = true)
    (hne : ¬ (a.key = b.key ∧ a.lsn = b.lsn)) : a.version.Before b.version := by
  rw [RowVersion.le] at hle
  cases hkey : compare a.key b.key with
  | lt => exact .inl hkey
  | gt => simp [hkey] at hle
  | eq =>
    have hsame := Std.LawfulEqOrd.eq_of_compare hkey
    cases hlsn : compare a.lsn b.lsn with
    | lt => exact .inr ⟨hsame, Std.compare_eq_lt.mp hlsn⟩
    | eq => exact absurd ⟨hsame, Std.LawfulEqOrd.eq_of_compare hlsn⟩ hne
    | gt => simp [hkey, hlsn] at hle

/-- The guarded walk collects the same versions. -/
theorem FullHistory.retained_of_rows (h : FullHistory C s commits) {entries : List RowVersion}
    (hentries : entries.map RowVersion.version =
      (range s txnMvccTable (rowsPrefixBytes table) (rangeEnd (rowsPrefixBytes table))).filterMap
        (readVersion C (rowsPrefixBytes table))) :
    RetainedVersions commits table 0
      ((entries.insertionSort fun a b => RowVersion.le a b).map RowVersion.version) := by
  set pfx := rowsPrefixBytes table with hpfx
  set sorted := entries.insertionSort fun a b => RowVersion.le a b with hsort
  have hperm : sorted.Perm entries := List.perm_insertionSort _ _
  -- a row of the table is the version it was written for
  have hread : ∀ row ∈ range s txnMvccTable pfx (rangeEnd pfx), ∀ version,
      readVersion C pfx row = some version ↔
        row.1 = pfx ++ version.key ++ be64 version.lsn ∧
          CommittedVersion commits table version := by
    rintro ⟨row, value⟩ hrow version
    rcases versionRow_cases pfx row with hform | ⟨lk, v, rfl⟩
    · have hskip : readVersion C pfx (row, value) = none := if_pos hform
      rw [hskip]
      refine ⟨fun h => by contradiction, fun hversion => ?_⟩
      obtain rfl : row = pfx ++ version.key ++ be64 version.lsn := hversion.1
      exact absurd hform (versionRow_parts pfx version.key version.lsn).1
    · obtain ⟨x, hcommitted, hvalue⟩ := h.decodes (mem_range.mp hrow).1
      rw [readVersion_eq hvalue, Option.some_inj]
      constructor
      · rintro rfl
        exact ⟨rfl, hcommitted⟩
      · rintro ⟨hkey, hversion⟩
        obtain ⟨lk', v', x'⟩ := version
        obtain ⟨rfl, rfl⟩ := versionRow_inj hkey
        rw [h.value_unique hcommitted hversion]
  constructor
  · rw [List.pairwise_map]
    have hdistinct : sorted.Pairwise fun a b => ¬ (a.key = b.key ∧ a.lsn = b.lsn) := by
      rw [hperm.pairwise_iff fun {a b} hne heq => hne ⟨heq.1.symm, heq.2.symm⟩]
      have hrows : (entries.map RowVersion.version).Pairwise fun a b =>
          ¬ (a.key = b.key ∧ a.lsn = b.lsn) := by
        rw [hentries]
        have hsorted : (range s txnMvccTable pfx (rangeEnd pfx)).Pairwise fun a b =>
            compare a.1 b.1 = .lt := s.scan_sorted _ _
        refine List.pairwise_filterMap.mpr (hsorted.imp_of_mem ?_)
        intro row row' hrow hrow' hlt version hversion version' hversion' heq
        rw [((hread row hrow version).mp hversion).1, ((hread row' hrow' version').mp hversion').1,
          heq.1, heq.2] at hlt
        simp at hlt
      exact List.pairwise_map.mp hrows
    refine ((List.pairwise_insertionSort _ _).and hdistinct).imp fun hpair => ?_
    exact RowVersion.before_of_le hpair.1 hpair.2
  · intro version
    rw [(hperm.map RowVersion.version).mem_iff, hentries, List.mem_filterMap]
    constructor
    · rintro ⟨row, hrow, hversion⟩
      exact ⟨((hread row hrow version).mp hversion).2, UInt64.zero_le⟩
    · rintro ⟨hversion, -⟩
      obtain ⟨value, hmem, -⟩ := h.exists_row hversion
      exact ⟨_, hmem, (hread _ hmem version).mpr ⟨rfl, hversion⟩⟩

theorem FullHistory.follows_rowVersions (h : FullHistory C s commits) :
    Follows budget.Rejects (fun (_ : Unit) entries =>
        RetainedVersions commits table 0 (entries.map RowVersion.version))
      (rowVersions C budget s table none) (.ok () : Result Unit) := by
  rw [rowVersions, versionKey_table]
  refine .check (fun _ => budget.rejects_reserve) ?_
  change Follows _ _ (Visit.collect _ ({} : RowVersions) >>= _) ((.ok () : Result Unit) >>=
    fun _ => .ok ())
  refine .bind (follows_visitRange (fun done row hrow versions => follows_visitRowVersion ?_)
    (show Collected C (rowsPrefixBytes table) [] {} from rfl)) ?_
  · intro lk v heq
    obtain ⟨row, value⟩ := row
    subst heq
    obtain ⟨x, -, hvalue⟩ := h.decodes (mem_range.mp hrow).1
    exact ⟨_, hvalue⟩
  · rintro - versions hversions
    exact .check (fun _ => budget.rejects_check) (.ok (h.retained_of_rows hversions))

end Collect

/-! ## Listing -/

section Listing

variable {C : RelCodecs} {legacy : LegacyWalk C} {budget : TemporalBudget} {s : Store}
  {commits : List CommitLogRecord} {table : String} {schema : TableSchema}
  {retention : TemporalRetention} {minLsn : TxnId}

theorem nextLsn_eq_none {key : Bytes}
    (h : ∀ next ∈ versions, next.key ≠ key) : nextLsn key versions = none := by
  cases versions with
  | nil => rfl
  | cons next versions => simp [nextLsn, h next List.mem_cons_self]

theorem nextLsn_filter {version : TableVersion}
    (hsorted : (version :: versions).Pairwise TableVersion.Before) (hmin : minLsn ≤ version.lsn) :
    nextLsn version.key (versions.filter fun next => minLsn ≤ next.lsn) =
      nextLsn version.key versions := by
  rw [List.pairwise_cons] at hsorted
  cases versions with
  | nil => rfl
  | cons next versions =>
    rcases hsorted.1 next List.mem_cons_self with hlt | ⟨hkey, hlt⟩
    · -- all later versions are of later keys
      have hkeys : ∀ later ∈ next :: versions, later.key ≠ version.key := by
        intro later hlater heq
        rcases List.mem_cons.mp hlater with rfl | hlater
        · simp [heq] at hlt
        · rcases (List.pairwise_cons.mp hsorted.2).1 later hlater with hlt' | ⟨hkey, -⟩
          · rw [heq, ← Std.OrientedCmp.gt_iff_lt, hlt] at hlt'
            contradiction
          · simp [hkey, heq] at hlt
      rw [nextLsn_eq_none hkeys, nextLsn_eq_none fun later hlater =>
        hkeys later (List.mem_of_mem_filter hlater)]
    · have hkept : minLsn ≤ next.lsn := hmin.trans hlt.le
      rw [List.filter_cons_of_pos (by simpa using hkept)]
      rfl

theorem nextLsn_map (key : Bytes) (versions : List RowVersion) :
    nextLsn key (versions.map RowVersion.version) =
      (versions.head?.filter fun next => next.key = key).map RowVersion.lsn := by
  cases versions with
  | nil => rfl
  | cons next versions =>
    by_cases hkey : next.key = key
    · simp [nextLsn, RowVersion.version, Option.filter_some, hkey]
    · simp [nextLsn, RowVersion.version, Option.filter_some, hkey]

/-- The guarded listing follows the plain one, version by version. -/
theorem follows_listGuarded {fuel : ℕ} {versions : List RowVersion}
    (hsorted : (versions.map RowVersion.version).Pairwise TableVersion.Before)
    (hfuel : versions.length ≤ fuel) {listing : Listing} (hfresh : Fresh C s listing.timestamps) :
    Follows budget.Rejects (Extends C s listing)
      (listGuarded legacy budget s schema 0 minLsn fuel versions listing)
      (listRows C s schema
        ((versions.map RowVersion.version).filter fun version => minLsn ≤ version.lsn)) := by
  induction fuel generalizing versions listing with
  | zero =>
    obtain rfl := List.length_eq_zero_iff.mp (Nat.le_zero.mp hfuel)
    exact .ok ⟨(List.append_nil _).symm, hfresh⟩
  | succ fuel ih =>
    cases versions with
    | nil => exact .ok ⟨(List.append_nil _).symm, hfresh⟩
    | cons first versions =>
      have hcopy : lastCopy first versions = (first, versions) := by
        cases versions with
        | nil => rfl
        | cons next versions =>
          refine if_neg fun hsame => ?_
          rcases (List.pairwise_cons.mp hsorted).1 next.version (by simp) with hlt | ⟨-, hlt⟩
          · simp [RowVersion.version, hsame.1] at hlt
          · exact absurd hsame.2 (show first.lsn < next.lsn from hlt).ne'
      have hzero : ¬ first.lsn < 0 := not_lt.mpr UInt64.zero_le
      rw [List.map_cons] at hsorted ⊢
      have hrest := (List.pairwise_cons.mp hsorted).2
      rw [List.length_cons, Nat.succ_le_succ_iff] at hfuel
      rw [listGuarded]
      refine follows_call (fun _ => budget.rejects_check) ?_
      simp only [hcopy, if_neg hzero]
      by_cases hmin : first.lsn < minLsn
      · rw [if_pos hmin, List.filter_cons_of_neg (by
          rw [decide_eq_true_eq]
          exact not_le.mpr hmin)]
        exact ih hrest hfuel hfresh
      · rw [if_neg hmin, List.filter_cons_of_pos (by
          rw [decide_eq_true_eq]
          exact not_lt.mp hmin)]
        obtain ⟨key, value, lsn, ordinal⟩ := first
        cases value with
        | none => exact ih hrest hfuel hfresh
        | some bytes =>
          have hboundary : ∀ lsn timestamps, Fresh C s timestamps →
              Follows budget.Rejects (ReadsPoint C s)
                (guardedBoundary C.toCodecs budget.toReadBudget s lsn timestamps)
                (pointOf C s lsn) := fun lsn timestamps hfresh =>
            follows_boundaryWith hfresh (follows_guardedMillis lsn)
          have hnext : nextLsn key ((versions.map RowVersion.version).filter fun version =>
              minLsn ≤ version.lsn) =
                (versions.head?.filter fun next => next.key = key).map RowVersion.lsn := by
            exact (nextLsn_filter hsorted (not_lt.mp hmin)).trans (nextLsn_map key versions)
          change Follows _ _ _ (listRows C s schema (⟨key, lsn, some bytes⟩ :: _))
          rw [listRows_row, hnext]
          refine .bind (follows_guardedRow legacy _ bytes) ?_
          rintro row _ rfl
          refine follows_call (fun _ => budget.rejects_reserve) ?_
          refine .bind (hboundary lsn _ hfresh) ?_
          rintro start ⟨_, timestamps⟩ ⟨rfl, hfresh⟩
          refine .bind (follows_nextBoundary hfresh (fun lsn => hboundary lsn _ hfresh) _) ?_
          rintro stop ⟨_, timestamps⟩ ⟨rfl, hfresh⟩
          refine (ih hrest hfuel hfresh).map_right ?_
          rintro rows listing' ⟨hrows, hfresh⟩
          exact ⟨by rw [hrows, List.append_assoc]; rfl, hfresh⟩

theorem follows_metadataLsn {budget : ReadBudget} (key : Bytes) :
    Follows budget.Rejects Eq (metadataLsn budget s key) (readHistoryMeta s key) := by
  refine follows_visitGet ?_
  rw [readHistoryMeta]
  cases s.get txnMetaTable key with
  | none => exact .ok rfl
  | some bytes =>
    cases hlsn : decodeTxnId bytes with
    | error e =>
      simp only [hlsn]
      exact .error
    | ok lsn =>
      simp only [hlsn]
      exact .ok rfl

theorem follows_guardedHorizon (lsn : TxnId) :
    Follows budget.Rejects Eq (guardedHorizon budget.toReadBudget s lsn)
    (retainedHorizon s lsn) := by
  rw [guardedHorizon, retainedHorizon]
  refine .bind (show Follows budget.Rejects Eq _ _ from
    follows_liftHistory (follows_metadataLsn historyHorizonKey).mapError_right) ?_
  rintro horizon _ rfl
  exact .refl _

theorem RetainedVersions.unique {versions versions' : List TableVersion}
    (h : RetainedVersions commits table minLsn versions)
    (h' : RetainedVersions commits table minLsn versions') : versions = versions' :=
  h.sorted.eq_of_mem_iff h'.sorted fun version => (h.mem version).trans (h'.mem version).symm

theorem RetainedVersions.filter (h : RetainedVersions commits table 0 versions) (minLsn : TxnId) :
    RetainedVersions commits table minLsn
      (versions.filter fun version => minLsn ≤ version.lsn) where
  sorted := h.sorted.filter _
  mem version := by
    rw [List.mem_filter, h.mem, decide_eq_true_eq]
    exact and_congr_left fun _ => and_iff_left UInt64.zero_le

/-- The guarded listing answers like the plain one unless the budget refuses. -/
theorem FullHistory.follows_guarded (h : FullHistory C.toCodecs s commits) (hempty : HorizonAt s 0)
    (legacy : LegacyWalk C) (budget : TemporalBudget) :
    Follows budget.Rejects Eq (historyRowsForTableGuarded legacy budget s table schema retention)
      (historyRowsForTable C s table schema retention) := by
  by_cases hkeep : retention.keepHistory = true
  · obtain ⟨versions, hversions, hplain⟩ := h.historyRows hempty hkeep table schema
    refine .of_common ?_ hplain
    have hvalid : validateRetention retention retention.minLsn = .ok () := by
      simp [validateRetention, hkeep]
    have hhorizon : Follows budget.Rejects Eq
        (guardedHorizon budget.toReadBudget s retention.minLsn) (.ok 0 : HistoryResult TxnId) := by
      rw [← retainedHorizon_empty hempty retention.minLsn]
      exact follows_guardedHorizon _
    have hentries : Follows budget.Rejects _
        (liftHistory (rowVersions C.toCodecs budget.toReadBudget s table none))
        (.ok () : HistoryResult Unit) :=
      (follows_liftHistory h.follows_rowVersions).mapError_right (f := HistoryError.ofStorage)
    rw [historyRowsForTableGuarded, hvalid]
    -- each read of the guarded listing adds nothing to the rows
    refine .bind hhorizon (g := fun _ => listRows C s schema versions) ?_
    rintro _ _ rfl
    refine .bind hentries (g := fun _ => listRows C s schema versions) ?_
    rintro - entries hentries
    refine .bind hhorizon.returned (g := fun _ => listRows C s schema versions) ?_
    rintro _ _ ⟨rfl, hzero⟩
    cases hzero
    rw [← bind_pure (listRows C s schema versions),
      hversions.unique (hentries.filter retention.minLsn)]
    refine .bind (follows_listGuarded hentries.sorted le_rfl (fresh_empty C s)) ?_
    rintro rows listing ⟨hrows, -⟩
    refine follows_call (fun _ => budget.rejects_check) (.ok ?_)
    rw [hrows]
    rfl
  · have hinvalid : validateRetention retention retention.minLsn =
        .error (.unsupported "history retention is disabled for this temporal table") := by
      simp [validateRetention, hkeep]
    rw [historyRowsForTableGuarded, historyRowsForTable, hinvalid]
    exact .error

end Listing

end MultiDb
