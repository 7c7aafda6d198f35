import MultiDb.Verification.History.Pins
import MultiDb.Verification.History.RetainedLog

/-!
# Stores that garbage collection can read

Every row that a batch decodes is well formed, so a batch never fails.  The log may have gaps.
-/

namespace MultiDb

open Shared

variable {C : Codecs} {s s' : Store} {plan : HistoryGcBatchPlan} {walk : GcWalk}

/-- The rows of writes whose version key can be made. -/
def Addressed (writes : List CommitLogWrite) : Prop :=
  ∀ write ∈ writes, ∃ vk, versionKey write.table write.key = .ok vk

/-- What collection relies on: the log decodes, and none of it lies below the floor. -/
structure GcStore (C : Codecs) (s : Store) : Prop where
  log : ∀ key bytes, s.get commitLogTable key = some bytes → ∃ record : CommitLogRecord,
    encodeTxnId record.txnId = key ∧ 1 ≤ record.txnId ∧
      decodeCommitLogRecord C bytes = .ok record ∧ Addressed record.writes
  floor : ∀ floor, readHistoryMeta s commitLogFloorKey = .ok (some floor) →
    ∀ id, s.get commitLogTable (encodeTxnId id) ≠ none → floor ≤ id
  progress : ∀ key ∈ gcMetaKeys, ∃ lsn, readHistoryMeta s key = .ok lsn
  versions : ∀ row value, s.get txnMvccTable row = some value →
    ∃ record, decodeMvccRecord C value = .ok record
  tokens : ∀ vk bytes, s.get txnVersionsTable vk = some bytes → ∃ id, decodeTxnId bytes = .ok id

theorem gcStore_empty (C : Codecs) : GcStore C .empty where
  log := by simp
  floor := by simp
  progress key _ := ⟨none, by rw [readHistoryMeta, Tables.get_empty]⟩
  versions := by simp
  tokens := by simp

/-- The log floor is not past the last commit. -/
def FloorReached (s : Store) : Prop :=
  ∃ current, currentTxnIdFrom s = .ok current ∧
    ∀ floor, readHistoryMeta s commitLogFloorKey = .ok (some floor) →
      floor.toNat ≤ max 1 current.toNat

theorem floorReached_empty : FloorReached .empty :=
  ⟨0, rfl, fun floor h => by simp [readHistoryMeta] at h⟩

section Commit

variable {writes : WriteSet} {id : TxnId}

theorem CommitEffect.gcMeta (h : CommitEffect C s writes id s') (hmeta : LeavesMeta writes)
    {key : Bytes} (hkey : key ∈ gcMetaKeys) : readHistoryMeta s' key = readHistoryMeta s key := by
  have hplain : key ≠ currentTxnIdKey ∧ key ≠ lockFormatKey := by
    revert key
    decide
  apply readHistoryMeta_congr
  have hbook : ¬ Bookkeeping txnMetaTable key := by
    rintro (hmem | ⟨-, heq⟩)
    · exact absurd hmem (by decide)
    · exact hplain.1 heq
  rw [h.row _ _ hbook]
  cases hget : writes.get txnMetaTable key with
  | none => rfl
  | some v => exact absurd (hmeta key v hget) hplain.2

/-- A commit keeps what collection relies on. -/
theorem GcStore.commit (h : GcStore C s) (hfloor : FloorReached s) (hmeta : LeavesMeta writes)
    (heffect : CommitEffect C s writes id s') : GcStore C s' ∧ FloorReached s' := by
  obtain ⟨record, bytes, rfl, hwrites, -, hbytes, hlog⟩ := heffect.log
  obtain ⟨current, hcurrent, hnext⟩ := heffect.next
  obtain ⟨current', hcurrent', hreached⟩ := hfloor
  cases hcurrent.symm.trans hcurrent'
  have hkept := heffect.gcMeta hmeta (show commitLogFloorKey ∈ gcMetaKeys by simp [gcMetaKeys])
  refine ⟨⟨?_, ?_, ?_, ?_, ?_⟩, record.txnId, currentTxnIdFrom_of_get heffect.current, ?_⟩
  · intro key bytes' hget
    rw [hlog] at hget
    split at hget
    · rename_i hkey
      cases hget
      refine ⟨record, hkey, ?_, decodeCommitLogRecord_of_encode hbytes, ?_⟩
      · rw [UInt64.le_iff_toNat_le, hnext]
        exact Nat.le_add_left _ _
      · intro write hwrite
        exact heffect.address _ _ _ (mem_commitLogWrites.mp (hwrites ▸ hwrite))
    · exact h.log key bytes' hget
  · intro floor hstored other hget
    rw [hkept] at hstored
    rw [hlog] at hget
    split at hget
    · rename_i hkey
      obtain rfl := encodeTxnId_inj.mp hkey
      have := hreached floor hstored
      rw [UInt64.le_iff_toNat_le]
      omega
    · exact h.floor floor hstored other hget
  · intro key hkey
    rw [heffect.gcMeta hmeta hkey]
    exact h.progress key hkey
  · intro row value hget
    by_cases hwritten : ∃ t k v, writes.get t k = some v ∧ mvccKey t k record.txnId = .ok row
    · obtain ⟨t, k, v, hput, hrow⟩ := hwritten
      obtain ⟨encoded, hencoded, hstored⟩ := heffect.mvcc_written t k v row hput hrow
      cases hstored.symm.trans hget
      exact ⟨_, decodeMvccRecord_of_encode hencoded⟩
    · rw [heffect.mvcc_kept row fun t k v hput hrow => hwritten ⟨t, k, v, hput, hrow⟩] at hget
      exact h.versions row value hget
  · intro vk bytes' hget
    by_cases hwritten : ∃ t k v, writes.get t k = some v ∧ versionKey t k = .ok vk
    · obtain ⟨t, k, v, hput, hvk⟩ := hwritten
      rw [heffect.version_written t k v vk hput hvk] at hget
      cases hget
      exact ⟨_, decodeTxnId_encodeTxnId _⟩
    · rw [heffect.version_kept vk fun t k v hput hvk => hwritten ⟨t, k, v, hput, hvk⟩] at hget
      exact h.tokens vk bytes' hget
  · intro floor hstored
    rw [hkept] at hstored
    have := hreached floor hstored
    omega

end Commit

theorem GcStore.earliest (h : GcStore C s) : ∃ floor, earliestCommitLsnIn s = .ok floor ∧
    ∀ id, s.get commitLogTable (encodeTxnId id) ≠ none → floor ≤ id := by
  have hpos : ∀ id, s.get commitLogTable (encodeTxnId id) ≠ none → 1 ≤ id := by
    intro id hget
    obtain ⟨bytes, hbytes⟩ := Option.ne_none_iff_exists'.mp hget
    obtain ⟨record, hkey, hone, -⟩ := h.log _ _ hbytes
    exact encodeTxnId_inj.mp hkey ▸ hone
  obtain ⟨stored, hstored⟩ := h.progress commitLogFloorKey (by simp [gcMetaKeys])
  simp only [earliestCommitLsnIn, hstored, bind_eq_ok_iff, Except.ok.injEq, exists_eq_left']
  cases stored with
  | some floor => exact ⟨floor, rfl, h.floor floor hstored⟩
  | none =>
    by_cases hfirst : (s.get commitLogTable (encodeTxnId 1)).isSome
    · exact ⟨1, by rw [if_pos hfirst]; rfl, hpos⟩
    · simp only [if_neg hfirst]
      cases hrows : range s commitLogTable [] [] with
      | nil => exact ⟨1, rfl, hpos⟩
      | cons row rows =>
        obtain ⟨key, bytes⟩ := row
        have hmem : (key, bytes) ∈ range s commitLogTable [] [] := by simp [hrows]
        obtain ⟨record, rfl, -⟩ := h.log key bytes (mem_range.mp hmem).1
        exact ⟨record.txnId, decodeTxnId_encodeTxnId _, fun id hget => le_of_first_row hrows hget⟩

theorem GcStore.exists_state (h : GcStore C s) : ∃ state, readHistoryGcState s = .ok state ∧
    ∀ id, s.get commitLogTable (encodeTxnId id) ≠ none → state.commitLogFloor ≤ id := by
  obtain ⟨cursor, hcursor⟩ := h.progress mvccGcCursorKey (by simp [gcMetaKeys])
  obtain ⟨horizon, hhorizon⟩ := h.progress historyHorizonKey (by simp [gcMetaKeys])
  obtain ⟨floor, hfloor, hbelow⟩ := h.earliest
  refine ⟨⟨cursor.getD 0, horizon.getD 0, floor⟩, ?_, hbelow⟩
  simp only [readHistoryGcState, hcursor, hhorizon, hfloor, bind, Except.bind]
  rfl

/-! ## The walk -/

def GcWalk.Addressed (walk : GcWalk) : Prop :=
  ∀ t k lsn, walk.latest.get t k = some lsn → ∃ vk, versionKey t k = .ok vk

theorem GcWalk.Addressed.visit (h : walk.Addressed) {record : CommitLogRecord}
    (hrecord : MultiDb.Addressed record.writes) (lsn : TxnId) (size : ℕ) :
    (walk.visit lsn record size).Addressed := by
  refine List.foldlRecOn (motive := fun latest : Tables String Bytes TxnId =>
    ∀ t k v, latest.get t k = some v → ∃ vk, versionKey t k = .ok vk) _ _ h ?_
  intro latest hlatest write hwrite t k v hv
  rw [Tables.get_put] at hv
  split at hv
  · rename_i heq
    obtain ⟨rfl, rfl⟩ := heq
    exact hrecord write hwrite
  · exact hlatest t k v hv

/-- A row of a window: its id is above the position, and it holds the record of this id. -/
structure WindowRow (C : Codecs) (processed : TxnId) (row : Bytes × Bytes)
    (record : CommitLogRecord) : Prop where
  key : row.1 = encodeTxnId record.txnId
  above : processed < record.txnId
  decoded : decodeCommitLogRecord C row.2 = .ok record
  addressed : Addressed record.writes

theorem exists_walkWindow (plan : HistoryGcBatchPlan) {rows : List (Bytes × Bytes)}
    (hsorted : rows.Pairwise fun a b => compare a.1 b.1 = .lt)
    (hrows : ∀ row ∈ rows, ∃ record, WindowRow C walk.processed row record) (h : walk.Addressed) :
    ∃ walk' stop, walkWindow C plan rows walk = .ok (walk', stop) ∧ walk'.Addressed ∧
      (stop = true → walk.processed < walk'.processed) := by
  induction rows generalizing walk with
  | nil => exact ⟨walk, false, rfl, h, by simp⟩
  | cons row rows ih =>
    obtain ⟨key, value⟩ := row
    obtain ⟨record, hrow⟩ := hrows _ List.mem_cons_self
    obtain rfl : key = encodeTxnId record.txnId := hrow.key
    have hvisit := h.visit hrow.addressed record.txnId value.length
    have habove : walk.processed < (walk.visit record.txnId record value.length).processed :=
      hrow.above
    simp only [walkWindow, decodeTxnId_encodeTxnId, hrow.decoded, bind, Except.bind, ne_eq,
      not_true_eq_false, if_false]
    split
    · exact ⟨_, true, rfl, hvisit, fun _ => habove⟩
    · have hrest : ∀ row' ∈ rows, ∃ record', WindowRow C record.txnId row' record' := by
        intro row' hmem
        obtain ⟨record', hrow'⟩ := hrows row' (List.mem_cons_of_mem _ hmem)
        refine ⟨record', hrow'.key, ?_, hrow'.decoded, hrow'.addressed⟩
        have hlt := (List.pairwise_cons.mp hsorted).1 row' hmem
        rw [hrow'.key, encodeTxnId, encodeTxnId, compare_be64, Std.compare_eq_lt] at hlt
        exact hlt
      obtain ⟨walk', stop, hrun, haddressed, hlater⟩ :=
        ih (List.pairwise_cons.mp hsorted).2 hrest hvisit
      exact ⟨walk', stop, hrun, haddressed, fun hstop => habove.trans (hlater hstop)⟩

theorem GcStore.windowRow (h : GcStore C s) {processed watermark last : TxnId}
    (hlt : processed < watermark) {row : Bytes × Bytes}
    (hrow : row ∈ range s commitLogTable (encodeTxnId (saturatingAdd processed 1))
      (encodeTxnId (saturatingAdd last 1))) : ∃ record, WindowRow C processed row record := by
  obtain ⟨hget, hrange⟩ := mem_range.mp hrow
  obtain ⟨record, hkey, -, hdecoded, haddressed⟩ := h.log _ _ hget
  refine ⟨record, hkey.symm, ?_, hdecoded, haddressed⟩
  rw [← hkey] at hrange
  have hfirst := (keyInRange_encodeTxnId.mp hrange).1
  rw [UInt64.le_iff_toNat_le, toNat_saturatingAdd] at hfirst
  rw [UInt64.lt_iff_toNat_lt] at hlt ⊢
  have := watermark.toNat_lt
  omega

theorem lt_windowLast
    (h : walk.processed < plan.watermark) : walk.processed < windowLast plan walk := by
  refine lt_min ?_ h
  rw [UInt64.lt_iff_toNat_lt] at h ⊢
  rw [toNat_saturatingAdd, toNat_saturatingAdd]
  have := plan.watermark.toNat_lt
  omega

/-- The walk over the log goes through. -/
theorem GcStore.exists_walkWindows (h : GcStore C s) (plan : HistoryGcBatchPlan) (windows : ℕ)
    (walk : GcWalk) (haddressed : walk.Addressed) :
    ∃ walk', walkWindows C s plan windows walk = .ok walk' ∧ walk'.Addressed ∧
      walk.processed ≤ walk'.processed ∧
      (0 < windows → walk.processed < plan.watermark → walk.processed < walk'.processed) := by
  induction windows generalizing walk with
  | zero => exact ⟨walk, rfl, haddressed, le_rfl, by simp⟩
  | succ windows ih =>
    by_cases hlt : walk.processed < plan.watermark
    · obtain ⟨walk₁, stop, hwindow, haddressed₁, hstop⟩ := exists_walkWindow plan
        (s.scan_sorted _ _) (fun row hrow => h.windowRow hlt hrow) haddressed
      simp only [walkWindows, if_pos hlt, bind_eq_ok_iff]
      cases stop with
      | true => exact ⟨walk₁, ⟨_, hwindow, rfl⟩, haddressed₁, (hstop rfl).le, fun _ _ => hstop rfl⟩
      | false =>
        have hlast := lt_windowLast hlt
        obtain ⟨walk', hrun, haddressed', hle, -⟩ :=
          ih { walk₁ with processed := windowLast plan walk } haddressed₁
        exact ⟨walk', ⟨_, hwindow, hrun⟩, haddressed', hlast.le.trans hle,
          fun _ _ => hlast.trans_le hle⟩
    · refine ⟨walk, ?_, haddressed, le_rfl, fun _ hlt' => absurd hlt' hlt⟩
      rw [walkWindows, if_neg hlt]

theorem GcStore.exists_collectProcessedWrites (h : GcStore C s)
    {cursor : TxnId} (hlt : cursor < plan.watermark) :
    ∃ walk, collectProcessedWrites C s cursor plan = .ok walk ∧ walk.Addressed ∧
      cursor < walk.processed ∧ walk.processed ≤ plan.watermark := by
  obtain ⟨walk, hrun, haddressed, -, hmoves⟩ := h.exists_walkWindows plan (max plan.maxWindows 1)
    { processed := cursor } fun t k lsn hget => by simp at hget
  exact ⟨walk, hrun, haddressed, hmoves (by omega) hlt,
    (collectProcessedWrites_bounded hrun).2 hlt.le⟩

theorem exists_splitVersions {vk : Bytes} {rows : List (Bytes × Bytes)}
    (h : ∀ row ∈ rows, ∃ v, row.1 = vk ++ be64 v) : ∃ split, splitVersions vk rows = .ok split := by
  refine exists_foldlM_eq_ok (fun row hmem state => ?_) _
  obtain ⟨key, value⟩ := row
  obtain ⟨v, hv⟩ := h (key, value) hmem
  obtain rfl : key = vk ++ be64 v := hv
  have hdecode : decodeTxnId ((vk ++ be64 v).drop vk.length) = .ok v := by
    rw [List.drop_left]
    exact decodeTxnId_encodeTxnId v
  simp only [hdecode, bind, Except.bind]
  exact ⟨_, rfl⟩

theorem GcStore.exists_isDeadTombstone (h : GcStore C s) {t : String} {k vk row value : Bytes}
    (hvk : versionKey t k = .ok vk) (hget : s.get txnMvccTable row = some value) (version : TxnId) :
    ∃ dead, isDeadTombstone C s t k version value = .ok dead := by
  obtain ⟨record, hrecord⟩ := h.versions row value hget
  obtain ⟨last, hlast⟩ : ∃ last, lastKeyVersion s t k = .ok last := by
    simp only [lastKeyVersion, hvk, bind, Except.bind]
    cases htoken : s.get txnVersionsTable vk with
    | none => exact ⟨0, rfl⟩
    | some bytes => exact h.tokens vk bytes htoken
  simp only [isDeadTombstone, hrecord, hlast, bind, Except.bind]
  split <;> exact ⟨_, rfl⟩

theorem GcStore.exists_pruneKeyVersions (h : GcStore C s) {t : String} {k vk : Bytes}
    (hvk : versionKey t k = .ok vk) (newest : TxnId) (write : Store) :
    ∃ result, pruneKeyVersions C s write t k newest = .ok result := by
  obtain ⟨stop, hstop⟩ : ∃ stop, versionsEnd t k vk newest = .ok stop := by
    rw [versionsEnd]
    split
    · exact ⟨_, exists_mvccKey hvk _⟩
    · exact ⟨_, rfl⟩
  have hversions : ∀ row ∈ versionRows s vk (vk ++ be64 0) stop, ∃ v, row.1 = vk ++ be64 v := by
    intro row hmem
    obtain ⟨v, hv, -⟩ := mem_versionRows.mp hmem
    exact ⟨v, hv⟩
  obtain ⟨split, hsplit⟩ := exists_splitVersions hversions
  simp only [pruneKeyVersions, hvk, exists_mvccKey hvk, hstop, hsplit, bind, Except.bind]
  obtain ⟨older, kept⟩ := split
  rcases splitVersions_eq_ok hsplit with ⟨-, -, rfl⟩ | ⟨init, v, row, value, hrows, -, rfl, -⟩
  · exact ⟨_, rfl⟩
  · have hmem : (row, value) ∈ versionRows s vk (vk ++ be64 0) stop := by simp [hrows]
    obtain ⟨-, -, hget, -⟩ := mem_versionRows.mp hmem
    obtain ⟨dead, hdead⟩ := h.exists_isDeadTombstone hvk hget v
    simp only [hdead]
    split
    · exact ⟨_, rfl⟩
    · cases dead <;> exact ⟨_, rfl⟩

theorem GcStore.exists_pruneMvccBatch (h : GcStore C s)
    (outcome : HistoryGcBatchOutcome) (hlt : outcome.mvccCursor < plan.watermark) :
    ∃ outcome' s', pruneMvccBatch C s plan outcome = .ok (outcome', s') ∧
      outcome.mvccCursor < outcome'.mvccCursor ∧ outcome'.mvccCursor ≤ plan.watermark := by
  obtain ⟨walk, hwalk, haddressed, habove, hbelow⟩ := h.exists_collectProcessedWrites hlt
  have hentry : ∀ entry ∈ walk.latest.entries, ∀ state : UInt64 × Store,
      ∃ state', pruneEntry C s state entry = .ok state' := by
    intro entry hmem state
    obtain ⟨vk, hvk⟩ := haddressed _ _ _ (Tables.mem_entries.mp hmem)
    obtain ⟨result, hresult⟩ := h.exists_pruneKeyVersions hvk entry.2 state.2
    exact ⟨_, by rw [pruneEntry, hresult]; rfl⟩
  obtain ⟨pruned, hpruned⟩ := exists_foldlM_eq_ok hentry (outcome.mvccVersionsPruned, s)
  simp only [pruneMvccBatch, hwalk, hpruned, bind, Except.bind]
  exact ⟨_, _, rfl, habove, hbelow⟩

end MultiDb
