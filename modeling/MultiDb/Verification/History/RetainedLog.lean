import MultiDb.Model.Changefeed
import MultiDb.Verification.DistTxn.Writers
import MultiDb.Verification.History.Gc

/-!
# The retained commit log

The log holds the records of a run from its floor on, so a window reads a slice of them.
-/

namespace MultiDb

open Shared

variable {C : Codecs} {s s' : Store} {records : List CommitLogRecord} {floor : TxnId}
  {plan : HistoryGcBatchPlan} {record : CommitLogRecord} {a b : ℕ} {bytes : Bytes}
variable {id target floor' : TxnId} {outcome outcome' : HistoryGcBatchOutcome}

/-- The record with id `n` is the `n`th one. -/
def Numbered (records : List CommitLogRecord) : Prop :=
  ∀ i record, records[i]? = some record → record.txnId.toNat = i + 1

namespace Numbered

theorem append_singleton (h : Numbered records)
    (hid : record.txnId.toNat = records.length + 1) : Numbered (records ++ [record]) := by
  intro i record' hi
  rw [List.getElem?_append] at hi
  split at hi
  · exact h i record' hi
  · rw [List.getElem?_singleton] at hi
    split at hi
    · cases hi
      omega
    · contradiction

theorem eq_of_id (h : Numbered records) {r r' : CommitLogRecord} (hr : r ∈ records)
    (hr' : r' ∈ records) (hid : r.txnId = r'.txnId) : r = r' := by
  obtain ⟨i, hi⟩ := List.mem_iff_getElem?.mp hr
  obtain ⟨j, hj⟩ := List.mem_iff_getElem?.mp hr'
  have hri := h i r hi
  have hrj := h j r' hj
  obtain rfl : i = j := by
    rw [hid] at hri
    omega
  exact Option.some.inj (hi.symm.trans hj)

end Numbered

/-! ## The retained log -/

/-- The floor a truncation has recorded; the log of a new database starts at one. -/
def FloorAt (s : Store) (floor : TxnId) : Prop :=
  (readHistoryMeta s commitLogFloorKey).map (·.getD 1) = .ok floor

/-- `records` are the commits behind the store; its log holds those from `floor` on. -/
structure RetainedLog (C : Codecs) (s : Store) (records : List CommitLogRecord)
    (floor : TxnId) : Prop where
  numbered : Numbered records
  current : ∃ current, currentTxnIdFrom s = .ok current ∧ current.toNat = records.length
  stored : FloorAt s floor
  floor_pos : 0 < floor.toNat
  floor_le : floor.toNat ≤ max 1 records.length
  encoded : ∀ record ∈ records, ∃ bytes, encodeCommitLogRecord C record = .ok bytes
  log : ∀ key bytes, s.get commitLogTable key = some bytes ↔
    ∃ record ∈ records, floor ≤ record.txnId ∧ encodeTxnId record.txnId = key ∧
      encodeCommitLogRecord C record = .ok bytes

theorem retainedLog_nil (hmeta : ∀ key, s.get txnMetaTable key = none)
    (hlog : ∀ key, s.get commitLogTable key = none) : RetainedLog C s [] 1 where
  numbered := by simp [Numbered]
  current := ⟨0, by rw [currentTxnIdFrom, hmeta], rfl⟩
  stored := by rw [FloorAt, readHistoryMeta, hmeta]; rfl
  floor_pos := by decide
  floor_le := by decide
  encoded := by simp
  log key bytes := by simp [hlog]

namespace RetainedLog

theorem current_eq (h : RetainedLog C s records floor) {current : TxnId}
    (hcurrent : currentTxnIdFrom s = .ok current) : current.toNat = records.length := by
  obtain ⟨current', hcurrent', hlen⟩ := h.current
  rw [Except.ok.inj (hcurrent.symm.trans hcurrent'), hlen]

theorem exists_id (h : RetainedLog C s records floor) {key bytes : Bytes}
    (hget : s.get commitLogTable key = some bytes) : ∃ id : TxnId, key = encodeTxnId id := by
  obtain ⟨record, -, -, hkey, -⟩ := (h.log key bytes).mp hget
  exact ⟨record.txnId, hkey.symm⟩

theorem get_id (h : RetainedLog C s records floor) :
    s.get commitLogTable (encodeTxnId id) = some bytes ↔
      floor ≤ id ∧ ∃ record ∈ records, record.txnId = id ∧
        encodeCommitLogRecord C record = .ok bytes := by
  rw [h.log]
  constructor
  · rintro ⟨record, hrecord, hfloor, hkey, hbytes⟩
    obtain rfl := encodeTxnId_inj.mp hkey
    exact ⟨hfloor, record, hrecord, rfl, hbytes⟩
  · rintro ⟨hfloor, record, hrecord, rfl, hbytes⟩
    exact ⟨record, hrecord, hfloor, rfl, hbytes⟩

/-- A commit appends its record to the log. -/
theorem append (h : RetainedLog C s records floor)
    (hid : record.txnId.toNat = records.length + 1)
    (hbytes : encodeCommitLogRecord C record = .ok bytes)
    (hcurrent : s'.get txnMetaTable currentTxnIdKey = some (encodeTxnId record.txnId))
    (hfloor : s'.get txnMetaTable commitLogFloorKey = s.get txnMetaTable commitLogFloorKey)
    (hlog : ∀ key, s'.get commitLogTable key =
      if encodeTxnId record.txnId = key then some bytes else s.get commitLogTable key) :
    RetainedLog C s' (records ++ [record]) floor := by
  have hle := h.floor_le
  constructor
  case numbered => exact h.numbered.append_singleton hid
  case current =>
    refine ⟨record.txnId, currentTxnIdFrom_of_get hcurrent, ?_⟩
    rw [List.length_append, List.length_singleton, hid]
  case stored =>
    rw [FloorAt, readHistoryMeta_congr hfloor]
    exact h.stored
  case floor_pos => exact h.floor_pos
  case floor_le =>
    rw [List.length_append, List.length_singleton]
    omega
  case encoded =>
    intro record' hrecord'
    rcases List.mem_append.mp hrecord' with hold | hnew
    · exact h.encoded record' hold
    · obtain rfl := List.mem_singleton.mp hnew
      exact ⟨bytes, hbytes⟩
  case log =>
    intro key bytes'
    have hfloor : floor ≤ record.txnId := by
      rw [UInt64.le_iff_toNat_le]
      omega
    rw [hlog]
    split
    · rename_i hkey
      subst hkey
      constructor
      · rintro hbytes'
        cases hbytes'
        exact ⟨record, by simp, hfloor, rfl, hbytes⟩
      · rintro ⟨record', hrecord', -, hkey, hbytes'⟩
        have heq := (h.numbered.append_singleton hid).eq_of_id hrecord'
          (List.mem_append_right _ (List.mem_singleton_self record)) (encodeTxnId_inj.mp hkey)
        rw [heq, hbytes] at hbytes'
        rw [Except.ok.inj hbytes']
    · rename_i hkey
      rw [h.log]
      constructor
      · rintro ⟨record', hrecord', hrest⟩
        exact ⟨record', List.mem_append_left _ hrecord', hrest⟩
      · rintro ⟨record', hrecord', hfloor', hkey', hbytes'⟩
        rcases List.mem_append.mp hrecord' with hold | hnew
        · exact ⟨record', hold, hfloor', hkey', hbytes'⟩
        · obtain rfl := List.mem_singleton.mp hnew
          exact absurd hkey' hkey

theorem commit (h : RetainedLog C s records floor) {writes : WriteSet}
    (hmeta : LeavesMeta writes) (heffect : CommitEffect C s writes id s') :
    ∃ record, record.txnId = id ∧ record.writes = commitLogWrites writes ∧
      applyCommitRecordInTxn C s record = .ok s' ∧
      RetainedLog C s' (records ++ [record]) floor := by
  obtain ⟨record, bytes, rfl, hwrites, happly, hbytes, hlog⟩ := heffect.log
  obtain ⟨current, hcurrent, hid⟩ := heffect.next
  rw [h.current_eq hcurrent] at hid
  refine ⟨record, rfl, hwrites, happly, h.append hid hbytes heffect.current ?_ hlog⟩
  rw [heffect.row _ _ (by decide)]
  cases hget : writes.get txnMetaTable commitLogFloorKey with
  | none => rfl
  | some v => exact absurd (hmeta _ v hget) (by decide)

theorem earliest (h : RetainedLog C s records floor) : earliestCommitLsnIn s = .ok floor := by
  obtain ⟨stored, hstored, hfloor⟩ := map_eq_ok_iff.mp h.stored
  rw [earliestCommitLsnIn, hstored]
  cases stored with
  | some f =>
    obtain rfl : f = floor := hfloor
    rfl
  | none =>
    obtain rfl : 1 = floor := hfloor
    cases records with
    | nil =>
      have hempty : ∀ key, s.get commitLogTable key = none := by
        intro key
        rw [Option.eq_none_iff_forall_ne_some]
        intro bytes hget
        simpa using (h.log key bytes).mp hget
      simp [bind, Except.bind, hempty, range_all_eq_nil_iff.mpr hempty, pure, Except.pure]
    | cons record rest =>
      obtain ⟨bytes, hbytes⟩ := h.encoded record List.mem_cons_self
      have hid : record.txnId = 1 := by
        rw [← UInt64.toNat_inj, h.numbered 0 record rfl]
        rfl
      have hget : s.get commitLogTable (encodeTxnId 1) = some bytes :=
        h.get_id.mpr ⟨le_rfl, record, List.mem_cons_self, hid, hbytes⟩
      simp [bind, Except.bind, hget, pure, Except.pure]

end RetainedLog

/-! ## Truncation -/

theorem keyInRange_encodeTxnId {start stop : TxnId} :
    keyInRange (encodeTxnId start) (encodeTxnId stop) (encodeTxnId id) = true ↔
      start ≤ id ∧ id < stop := by
  have hnonempty : (be64 stop).isEmpty = false := by
    rw [List.isEmpty_eq_false_iff]
    exact List.ne_nil_of_length_eq_add_one (length_be64 _)
  simp only [keyInRange, encodeTxnId, compare_be64, hnonempty, Bool.false_or, Bool.and_eq_true,
    Std.isLE_compare, Ordering.isLT_iff_eq_lt, Std.compare_eq_lt]

theorem le_of_first_row {other : TxnId} {rows : List (Bytes × Bytes)}
    (hrows : range s commitLogTable [] [] = (encodeTxnId id, bytes) :: rows)
    (hget : s.get commitLogTable (encodeTxnId other) ≠ none) : id ≤ other := by
  obtain ⟨bytes', hbytes'⟩ := Option.ne_none_iff_exists'.mp hget
  have hmem : (encodeTxnId other, bytes') ∈ range s commitLogTable [] [] :=
    mem_range.mpr ⟨hbytes', keyInRange_nil_nil _⟩
  have hsorted : (range s commitLogTable [] []).Pairwise fun a b => compare a.1 b.1 = .lt :=
    s.scan_sorted _ _
  rw [hrows] at hmem hsorted
  rcases List.mem_cons.mp hmem with heq | hlater
  · exact (encodeTxnId_inj.mp (Prod.mk.inj heq).1).ge
  · have hlt := (List.pairwise_cons.mp hsorted).1 _ hlater
    rw [encodeTxnId, encodeTxnId, compare_be64, Std.compare_eq_lt] at hlt
    exact hlt.le

/-- Truncation cuts the log from its front. -/
theorem truncateWindows_spec {windows : ℕ}
    {floor : TxnId} {deleted deleted' size size' : ℕ} {write write' : Store}
    (hle : floor ≤ target)
    (h : truncateWindows s plan target windows (floor, deleted, size, write) =
      (floor', deleted', size', write')) :
    floor ≤ floor' ∧ floor' ≤ target ∧ ∀ id,
      (floor ≤ id → id < floor' → s.get commitLogTable (encodeTxnId id) ≠ none →
        write'.get commitLogTable (encodeTxnId id) = none) ∧
      (¬ (floor ≤ id ∧ id < floor') →
        write'.get commitLogTable (encodeTxnId id) = write.get commitLogTable
          (encodeTxnId id)) := by
  induction windows generalizing floor deleted size write with
  | zero =>
    obtain ⟨rfl, -, -, rfl⟩ := h
    exact ⟨le_rfl, hle, fun id => ⟨fun hge hlt => absurd hge hlt.not_ge, fun _ => rfl⟩⟩
  | succ windows ih =>
    rw [truncateWindows] at h
    split at h
    · rename_i hgo
      let stop := min (saturatingAdd floor (max 1 (min (plan.maxWrites - deleted) gcCommitWindow)))
        target
      have hstop : floor ≤ stop := by
        refine le_min ?_ hle
        rw [UInt64.le_iff_toNat_le, toNat_saturatingAdd]
        have := floor.toNat_lt
        omega
      obtain ⟨hfloor, htarget, hrows⟩ := ih (min_le_right _ _) h
      refine ⟨hstop.trans hfloor, htarget, fun id => ?_⟩
      have hdelete := Tables.get_foldl_delete Prod.fst commitLogTable (encodeTxnId id)
        (range s commitLogTable (encodeTxnId floor) (encodeTxnId stop)) write
      have hmem : (∃ row ∈ range s commitLogTable (encodeTxnId floor) (encodeTxnId stop),
          row.1 = encodeTxnId id) ↔
            s.get commitLogTable (encodeTxnId id) ≠ none ∧ floor ≤ id ∧ id < stop := by
        constructor
        · rintro ⟨⟨key, value⟩, hrow, rfl⟩
          obtain ⟨hget, hrange⟩ := mem_range.mp hrow
          exact ⟨by simp [hget], keyInRange_encodeTxnId.mp hrange⟩
        · rintro ⟨hget, hrange⟩
          obtain ⟨value, hvalue⟩ := Option.ne_none_iff_exists'.mp hget
          exact ⟨_, mem_range.mpr ⟨hvalue, keyInRange_encodeTxnId.mpr hrange⟩, rfl⟩
      have hkeep : ¬ (floor ≤ id ∧ id < stop) → _ := fun hnot =>
        hdelete.2 fun row hrow heq => hnot (hmem.mp ⟨row, hrow, heq⟩).2
      constructor
      · intro hge hlt hget
        by_cases hid : id < stop
        · rw [(hrows id).2 fun hlater => absurd hid hlater.1.not_gt]
          exact hdelete.1 (hmem.mpr ⟨hget, hge, hid⟩)
        · exact (hrows id).1 (not_lt.mp hid) hlt hget
      · intro hnot
        rw [(hrows id).2 fun hlater => hnot ⟨hstop.trans hlater.1, hlater.2⟩]
        exact hkeep fun hpassed => hnot ⟨hpassed.1, hpassed.2.trans_le hfloor⟩
    · obtain ⟨rfl, -, -, rfl⟩ := h
      exact ⟨le_rfl, hle, fun id => ⟨fun hge hlt => absurd hge hlt.not_ge, fun _ => rfl⟩⟩

theorem truncateWindows_sub (s : Store) (plan : HistoryGcBatchPlan) (target : TxnId)
    {key bytes : Bytes} (windows : ℕ) (state : TxnId × ℕ × ℕ × Store)
    (h : (truncateWindows s plan target windows state).2.2.2.get commitLogTable key = some bytes) :
    state.2.2.2.get commitLogTable key = some bytes := by
  induction windows generalizing state with
  | zero => exact h
  | succ windows ih =>
    obtain ⟨floor, deleted, size, write⟩ := state
    rw [truncateWindows] at h
    split at h
    · have hget := ih _ h
      have hdelete := Tables.get_foldl_delete Prod.fst commitLogTable key
        (range s commitLogTable (encodeTxnId floor) (encodeTxnId (min
          (saturatingAdd floor (max 1 (min (plan.maxWrites - deleted) gcCommitWindow))) target)))
        write
      by_cases hpassed : ∃ row ∈ range s commitLogTable (encodeTxnId floor) (encodeTxnId (min
          (saturatingAdd floor (max 1 (min (plan.maxWrites - deleted) gcCommitWindow))) target)),
          row.1 = key
      · rw [hdelete.1 hpassed] at hget
        contradiction
      · rw [hdelete.2 fun row hrow heq => hpassed ⟨row, hrow, heq⟩] at hget
        exact hget
    · exact h

theorem pruneMvccBatch_log
    (h : pruneMvccBatch C s plan outcome = .ok (outcome', s')) :
    s'.get txnMetaTable commitLogFloorKey = s.get txnMetaTable commitLogFloorKey ∧
      ∀ key, s'.get commitLogTable key = s.get commitLogTable key := by
  simp only [pruneMvccBatch, bind_eq_ok_iff, pure_eq_ok_iff, Prod.mk.injEq] at h
  obtain ⟨walk, -, ⟨pruned, write⟩, hloop, -, rfl⟩ := h
  constructor
  · rw [Tables.get_put_of_ne (fun _ => by decide), Tables.get_put_of_ne (fun _ => by decide)]
    exact pruneEntries_frame hloop (by decide) _
  · intro key
    rw [Tables.get_put_of_ne (fun h => absurd h (by decide)),
      Tables.get_put_of_ne (fun h => absurd h (by decide))]
    exact pruneEntries_frame hloop (by decide) _

namespace RetainedLog

theorem congr (h : RetainedLog C s records floor)
    (hcurrent : s'.get txnMetaTable currentTxnIdKey = s.get txnMetaTable currentTxnIdKey)
    (hfloor : s'.get txnMetaTable commitLogFloorKey = s.get txnMetaTable commitLogFloorKey)
    (hlog : ∀ key, s'.get commitLogTable key = s.get commitLogTable key) :
    RetainedLog C s' records floor where
  numbered := h.numbered
  current := by rw [currentTxnIdFrom, hcurrent]; exact h.current
  stored := by rw [FloorAt, readHistoryMeta_congr hfloor]; exact h.stored
  floor_pos := h.floor_pos
  floor_le := h.floor_le
  encoded := h.encoded
  log key bytes := by rw [hlog, h.log]

theorem truncate (h : RetainedLog C s records floor) (hle : floor ≤ floor')
    (hlast : floor'.toNat ≤ records.length)
    (hcurrent : s'.get txnMetaTable currentTxnIdKey = s.get txnMetaTable currentTxnIdKey)
    (hfloor : s'.get txnMetaTable commitLogFloorKey = some (encodeTxnId floor'))
    (hlog : ∀ key bytes, s'.get commitLogTable key = some bytes ↔
      s.get commitLogTable key = some bytes ∧ ∃ id, floor' ≤ id ∧ encodeTxnId id = key) :
    RetainedLog C s' records floor' where
  numbered := h.numbered
  current := by rw [currentTxnIdFrom, hcurrent]; exact h.current
  stored := by rw [FloorAt, readHistoryMeta_of_get hfloor]; rfl
  floor_pos := h.floor_pos.trans_le (UInt64.le_iff_toNat_le.mp hle)
  floor_le := le_max_of_le_right hlast
  encoded := h.encoded
  log key bytes := by
    rw [hlog, h.log]
    constructor
    · rintro ⟨⟨record, hrecord, -, rfl, hbytes⟩, id, hid, hkey⟩
      exact ⟨record, hrecord, encodeTxnId_inj.mp hkey ▸ hid, rfl, hbytes⟩
    · rintro ⟨record, hrecord, hid, hkey, hbytes⟩
      exact ⟨⟨record, hrecord, hle.trans hid, hkey, hbytes⟩, _, hid, hkey⟩

/-- A truncating batch moves the floor and keeps the rest. -/
theorem truncateBatch (h : RetainedLog C s records floor) {state : HistoryGcState}
    (hwatermark : plan.watermark.toNat ≤ records.length) (hstate : readHistoryGcState s = .ok state)
    (htarget : plan.floorTarget state.mvccCursor = some target)
    (hlt : state.commitLogFloor < target) (houtcome : outcome.commitLogFloor = state.commitLogFloor)
    (htruncate : truncateCommitLogBatch s plan target outcome = (outcome', s')) :
    ∃ floor', floor ≤ floor' ∧ RetainedLog C s' records floor' := by
  obtain rfl : state.commitLogFloor = floor := by
    simp only [readHistoryGcState, bind_eq_ok_iff, pure_eq_ok_iff] at hstate
    obtain ⟨_, -, _, -, _, hearliest, rfl⟩ := hstate
    exact Except.ok.inj (hearliest.symm.trans h.earliest)
  have htop : target ≤ plan.watermark := by
    obtain ⟨limit, -, rfl⟩ := Option.map_eq_some_iff.mp htarget
    exact (min_le_left _ _).trans (min_le_right _ _)
  rw [truncateCommitLogBatch, houtcome] at htruncate
  rcases hrun : truncateWindows s plan target (max plan.maxWindows 1)
    (state.commitLogFloor, 0, 0, s) with ⟨floor', deleted, size, write⟩
  simp only [hrun] at htruncate
  cases htruncate
  obtain ⟨hle, hbelow, hrows⟩ := truncateWindows_spec hlt.le hrun
  refine ⟨floor', hle, h.truncate hle ?_ ?_ (Tables.get_put_self _ _ _ _) fun key bytes => ?_⟩
  · have := UInt64.le_iff_toNat_le.mp (hbelow.trans htop)
    omega
  · rw [Tables.get_put_of_ne fun _ => by decide]
    have hframe : (truncateWindows s plan target (max plan.maxWindows 1)
        (state.commitLogFloor, 0, 0, s)).2.2.2.get txnMetaTable currentTxnIdKey = _ :=
      truncateWindows_frame (by decide) _ _ _
    rwa [hrun] at hframe
  · rw [Tables.get_put_of_ne fun heq => absurd heq (by decide)]
    constructor
    · intro hget
      have hold : s.get commitLogTable key = some bytes := by
        refine truncateWindows_sub s plan target (max plan.maxWindows 1)
          (state.commitLogFloor, 0, 0, s) ?_
        rw [hrun]
        exact hget
      obtain ⟨id, rfl⟩ := h.exists_id hold
      refine ⟨hold, id, ?_, rfl⟩
      by_contra hpassed
      rw [(hrows id).1 (h.get_id.mp hold).1 (not_le.mp hpassed) (by simp [hold])] at hget
      contradiction
    · rintro ⟨hold, id, hid, rfl⟩
      rw [(hrows id).2 fun hpassed => absurd hpassed.2 hid.not_gt]
      exact hold

end RetainedLog

/-! ## Windows -/

theorem keyInRange_window {first last : TxnId} :
    keyInRange (encodeTxnId first) ((checkedSucc last).elim [] encodeTxnId) (encodeTxnId id) =
      true ↔ first ≤ id ∧ id ≤ last := by
  cases hsucc : checkedSucc last with
  | some next =>
    rw [Option.elim_some, keyInRange_encodeTxnId, UInt64.lt_iff_toNat_lt,
      checkedSucc_eq_some_iff.mp hsucc, UInt64.le_iff_toNat_le (a := id), Nat.lt_succ_iff]
  | none =>
    have hlast : id ≤ last := by
      rw [checkedSucc] at hsucc
      split at hsucc
      · contradiction
      · have := id.toNat_lt
        rw [UInt64.le_iff_toNat_le]
        omega
    simp [keyInRange, encodeTxnId, compare_be64, Std.isLE_compare, hlast]

end MultiDb
