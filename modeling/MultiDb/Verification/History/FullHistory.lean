import MultiDb.Verification.Cdc.LoggedRuns
import MultiDb.Verification.History.GcRuns

/-!
# Full history

While the history horizon is empty nothing has been pruned or truncated: the commit log and
the version table hold every commit of the run.
-/

namespace MultiDb

open Shared

variable {w' : PinWorld}

/-- The commits a run adds to the log. -/
def PinWorld.commits (C : Codecs) : PinWorld → List PinWorld.Step → List CommitLogRecord
  | _, [] => []
  | w, step :: steps =>
    newCommit C w.store (w.step C step).store ++ PinWorld.commits C (w.step C step) steps

variable {C : Codecs} {s s' : Store} {commits : List CommitLogRecord}

/-- A write of a commit, with its row of the version table. -/
def Committed (C : Codecs) (commits : List CommitLogRecord) (row value : Bytes) : Prop :=
  ∃ record ∈ commits, ∃ write ∈ record.writes,
    mvccKey write.table write.key record.txnId = .ok row ∧
      encodeMvccRecord C { value := write.value } = .ok value

/-- The store keeps every commit and every version of the run. -/
structure FullHistory (C : Codecs) (s : Store) (commits : List CommitLogRecord) : Prop where
  log : RetainedLog C s commits 1
  versions : ∀ row value, s.get txnMvccTable row = some value ↔ Committed C commits row value
  encoded : ∀ record ∈ commits, ∀ write ∈ record.writes, ∃ row value,
    mvccKey write.table write.key record.txnId = .ok row ∧
      encodeMvccRecord C { value := write.value } = .ok value

section Commit

variable {writes : WriteSet} {id : TxnId} {record : CommitLogRecord}

/-- A commit adds its versions and no others. -/
theorem CommitEffect.committed (h : CommitEffect C s writes id s')
    (hlog : RetainedLog C s commits 1) (hid : record.txnId = id)
    (hwrites : record.writes = commitLogWrites writes)
    (hversions : ∀ row value, s.get txnMvccTable row = some value ↔ Committed C commits row value)
    (row value : Bytes) :
    s'.get txnMvccTable row = some value ↔ Committed C (commits ++ [record]) row value := by
  have hnew : ∀ write ∈ record.writes, mvccKey write.table write.key id = .ok row →
      ∃ bytes, encodeMvccRecord C { value := write.value } = .ok bytes ∧
        s'.get txnMvccTable row = some bytes := by
    intro write hwrite hkey
    rw [hwrites, mem_commitLogWrites] at hwrite
    exact h.mvcc_written _ _ _ _ hwrite hkey
  constructor
  · intro hget
    by_cases hwritten : ∃ write ∈ record.writes, mvccKey write.table write.key id = .ok row
    · obtain ⟨write, hwrite, hkey⟩ := hwritten
      obtain ⟨bytes, hbytes, hrow⟩ := hnew write hwrite hkey
      cases hrow.symm.trans hget
      exact ⟨record, by simp, write, hwrite, hid ▸ hkey, hbytes⟩
    · rw [h.mvcc_kept row fun t k v hv hkey => hwritten ⟨⟨t, k, v⟩, ?_, hkey⟩, hversions] at hget
      · obtain ⟨old, hold, rest⟩ := hget
        exact ⟨old, List.mem_append_left _ hold, rest⟩
      · rw [hwrites]
        exact mem_commitLogWrites.mpr hv
  · rintro ⟨old, hmem, write, hwrite, hkey, hbytes⟩
    rcases List.mem_append.mp hmem with hold | hlast
    · rw [h.mvcc_eq, hversions]
      · exact ⟨old, hold, write, hwrite, hkey, hbytes⟩
      · intro vk heq
        obtain ⟨vk', -, rfl⟩ := mvccKey_eq_ok_iff.mp hkey
        have hsame : old.txnId = id := be64_inj.mp (List.append_inj' heq (by simp)).2
        obtain ⟨current, hcurrent, hnext⟩ := h.next
        obtain ⟨i, hi⟩ := List.mem_iff_getElem?.mp hold
        have hnumber := hlog.numbered i old hi
        have hlt := (List.getElem?_eq_some_iff.mp hi).1
        have hlen := hlog.current_eq hcurrent
        rw [hsame] at hnumber
        omega
    · obtain rfl := List.mem_singleton.mp hlast
      obtain ⟨bytes, hbytes', hrow⟩ := hnew write hwrite (hid ▸ hkey)
      rw [hrow, Except.ok.inj (hbytes'.symm.trans hbytes)]

theorem CommitEffect.meta_eq (h : CommitEffect C s writes id s') (hmeta : LeavesMeta writes)
    {key : Bytes} (hkey : key ∈ gcMetaKeys) : s'.get txnMetaTable key = s.get txnMetaTable key := by
  have hplain : ∀ key ∈ gcMetaKeys, ¬ Bookkeeping txnMetaTable key ∧ key ≠ lockFormatKey := by
    decide
  rw [h.row _ _ (hplain key hkey).1]
  cases hget : writes.get txnMetaTable key with
  | none => rfl
  | some v => exact absurd (hmeta _ v hget) (hplain key hkey).2

end Commit

/-! ## Runs -/

/-- The cursor of the pruned commits is at or below the horizon. -/
def CursorBelow (s : Store) : Prop :=
  ∃ cursor horizon, (readHistoryMeta s mvccGcCursorKey).map (·.getD 0) = .ok cursor ∧
    HorizonAt s horizon ∧ cursor ≤ horizon

theorem CursorBelow.congr (h : CursorBelow s)
    (hmeta : ∀ key ∈ [mvccGcCursorKey, historyHorizonKey],
      s'.get txnMetaTable key = s.get txnMetaTable key) : CursorBelow s' := by
  obtain ⟨cursor, horizon, hcursor, hhorizon, hle⟩ := h
  refine ⟨cursor, horizon, ?_, ?_, hle⟩
  · rw [readHistoryMeta_congr (hmeta _ (by simp)), hcursor]
  · rw [HorizonAt, readHistoryMeta_congr (hmeta _ (by simp)), hhorizon]

/-- The log of a run, and all of its history until a batch has moved the horizon. -/
structure HistoryInv (C : Codecs) (w : PinWorld) (commits : List CommitLogRecord) : Prop where
  log : ∃ floor, RetainedLog C w.store commits floor
  watermark : ∀ run, w.gc = some run → run.plan.watermark.toNat ≤ commits.length
  cursor : CursorBelow w.store
  full : HorizonAt w.store 0 → FullHistory C w.store commits

theorem historyInv_init (C : Codecs) : HistoryInv C {} [] := by
  have hlog : RetainedLog C .empty [] 1 :=
    retainedLog_nil (fun _ => Tables.get_empty _ _) fun _ => Tables.get_empty _ _
  refine ⟨⟨1, hlog⟩, by simp, ⟨0, 0, rfl, rfl, le_rfl⟩, fun _ => ⟨hlog, ?_, by simp⟩⟩
  simp [Committed]

section Step

variable {w : PinWorld}

theorem HistoryInv.congr (h : HistoryInv C w commits) (hstore : w'.store = w.store)
    (hgc : ∀ run, w'.gc = some run → run.plan.watermark.toNat ≤ commits.length) :
    HistoryInv C w' commits :=
  ⟨hstore ▸ h.log, hgc, hstore ▸ h.cursor, hstore ▸ h.full⟩

theorem newCommit_of_same {floor floor' : TxnId} (h : RetainedLog C s commits floor)
    (h' : RetainedLog C s' commits floor') : newCommit C s s' = [] := by
  obtain ⟨current, hcurrent, hlen⟩ := h.current
  obtain ⟨current', hcurrent', hlen'⟩ := h'.current
  obtain rfl : current = current' := UInt64.toNat_inj.mp (hlen.trans hlen'.symm)
  rw [newCommit, hcurrent, hcurrent', if_pos rfl]

theorem HistoryInv.quiet (h : HistoryInv C w commits) (h' : HistoryInv C w' commits) :
    HistoryInv C w' (commits ++ newCommit C w.store w'.store) := by
  obtain ⟨floor, hlog⟩ := h.log
  obtain ⟨floor', hlog'⟩ := h'.log
  rw [newCommit_of_same hlog hlog', List.append_nil]
  exact h'

/-- A commit adds one record and its versions. -/
theorem HistoryInv.commit {writes : WriteSet} {id : TxnId} (h : HistoryInv C w commits)
    (hmeta : LeavesMeta writes) (heffect : CommitEffect C w.store writes id w'.store)
    (hgc : w'.gc = w.gc) : HistoryInv C w' (commits ++ newCommit C w.store w'.store) := by
  obtain ⟨floor, hlog⟩ := h.log
  obtain ⟨record, hid, hwrites, -, hlog'⟩ := hlog.commit hmeta heffect
  rw [newCommit_append hlog hlog']
  refine ⟨⟨floor, hlog'⟩, fun run hrun => ?_, h.cursor.congr fun key hkey =>
    heffect.meta_eq hmeta (List.mem_append_left [commitLogFloorKey] hkey),
    fun hempty => ?_⟩
  · have hold := h.watermark run (hgc ▸ hrun)
    rw [List.length_append]
    omega
  · obtain ⟨hall, hversions, hencoded⟩ := h.full ((heffect.horizonAt_iff hmeta).mp hempty)
    obtain ⟨record', -, -, -, hall'⟩ := hall.commit hmeta heffect
    obtain rfl : record' = record := List.singleton_inj.mp
      ((newCommit_append hall hall').symm.trans (newCommit_append hlog hlog'))
    refine ⟨hall', heffect.committed hall hid hwrites hversions, fun old hmem write hwrite => ?_⟩
    rcases List.mem_append.mp hmem with hold | hlast
    · exact hencoded old hold write hwrite
    · obtain rfl := List.mem_singleton.mp hlast
      rw [hwrites, mem_commitLogWrites] at hwrite
      obtain ⟨vk, hvk⟩ := heffect.address _ _ _ hwrite
      have hrow : mvccKey write.table write.key id = .ok (vk ++ be64 id) :=
        mvccKey_eq_ok_iff.mpr ⟨vk, hvk, rfl⟩
      obtain ⟨bytes, hbytes, -⟩ := heffect.mvcc_written _ _ _ _ hwrite hrow
      exact ⟨_, bytes, hid ▸ hrow, hbytes⟩

/-- A prune keeps the cursor below the horizon, which only grows. -/
theorem CursorBelow.prune {plan : HistoryGcBatchPlan} {outcome outcome' : HistoryGcBatchOutcome}
    (h : pruneMvccBatch C s plan outcome = .ok (outcome', s')) :
    CursorBelow s' ∧ outcome.historyHorizon ≤ outcome'.historyHorizon := by
  have hstored := (pruneMvccBatch_effect h).stored
  simp only [pruneMvccBatch, bind_eq_ok_iff, pure_eq_ok_iff, Prod.mk.injEq] at h
  obtain ⟨walk, -, ⟨pruned, write⟩, -, rfl, rfl⟩ := h
  refine ⟨⟨walk.processed, _, ?_, hstored, le_max_right _ _⟩, le_max_left _ _⟩
  apply congrArg (Except.map (·.getD 0)) (readHistoryMeta_of_get _)
  rw [Tables.get_put_of_ne (fun _ => by decide), Tables.get_put_self]

/-- With the horizon at zero a prune deletes nothing. -/
theorem FullHistory.prune (h : FullHistory C s commits) (heffect : GcEffect C s s' 0)
    (hlog : RetainedLog C s' commits 1) : FullHistory C s' commits := by
  refine ⟨hlog, fun row value => ⟨fun hget => ?_, fun hcommitted => ?_⟩, h.encoded⟩
  · exact (h.versions row value).mp (heffect.versions row value hget)
  · have hget := (h.versions row value).mpr hcommitted
    obtain ⟨record, hrecord, write, hwrite, hkey, hbytes⟩ := hcommitted
    obtain ⟨vk, hvk, rfl⟩ := mvccKey_eq_ok_iff.mp hkey
    rcases heffect.chain _ _ _ hvk with hsame | ⟨newest, hnewest, hpruned⟩
    · have hchain := congrFun hsame record.txnId
      rw [chainOf, chainOf, hget] at hchain
      cases hget' : s'.get txnMvccTable (vk ++ be64 record.txnId) with
      | none =>
        rw [hget'] at hchain
        contradiction
      | some value' => rw [← heffect.versions _ _ hget', hget]
    · -- no commit has the id zero
      have hpresent := hpruned.present
      rw [chainOf, ne_eq, Option.map_eq_none_iff, ← ne_eq, Option.ne_none_iff_exists'] at hpresent
      obtain ⟨bytes, hzero⟩ := hpresent
      obtain ⟨record', hrecord', write', -, hkey', -⟩ := (h.versions _ _).mp hzero
      obtain ⟨vk', -, heq⟩ := mvccKey_eq_ok_iff.mp hkey'
      have hid : newest = record'.txnId := be64_inj.mp (List.append_inj' heq (by simp)).2
      obtain ⟨i, hi⟩ := List.mem_iff_getElem?.mp hrecord'
      have hnumber := h.log.numbered i record' hi
      rw [UInt64.le_iff_toNat_le, hid, UInt64.toNat_zero] at hnewest
      omega

theorem HistoryInv.batch (h : HistoryInv C w commits) {env : Env} {plan : HistoryGcBatchPlan}
    {outcome : HistoryGcBatchOutcome} (hwatermark : plan.watermark.toNat ≤ commits.length)
    (hbatch : maintenanceGc C env w.store plan = .ok (outcome, s')) :
    (∃ floor, RetainedLog C s' commits floor) ∧ CursorBelow s' ∧
      (HorizonAt s' 0 → FullHistory C s' commits) := by
  obtain ⟨floor, hlog⟩ := h.log
  have hcurrent : s'.get txnMetaTable currentTxnIdKey = w.store.get txnMetaTable currentTxnIdKey :=
    (maintenanceGc_effect hbatch).frame _ _ (by decide) (by decide) fun _ => by decide
  obtain ⟨state, outcome', write, hstate, hstage, -, hresult⟩ := maintenanceGc_cases hbatch
  rcases hresult with rfl | ⟨-, rfl⟩
  · rcases gcHistoryStage_cases hstage with
      ⟨-, hprune⟩ | ⟨target, htarget, hlt, htruncate⟩ | ⟨-, rfl⟩
    · obtain ⟨hfloor, hrows⟩ := pruneMvccBatch_log hprune
      obtain ⟨hcursor, hle⟩ := CursorBelow.prune hprune
      have heffect := pruneMvccBatch_effect hprune
      refine ⟨⟨floor, hlog.congr hcurrent hfloor hrows⟩, hcursor, fun hempty => ?_⟩
      have hzero : outcome'.historyHorizon = 0 := Except.ok.inj (heffect.stored.symm.trans hempty)
      rw [hzero] at hle heffect
      have hstate' := readHistoryGcState_horizon hstate
      rw [show state.historyHorizon = 0 from le_antisymm hle UInt64.zero_le] at hstate'
      have hfull := h.full hstate'
      exact hfull.prune heffect (hfull.log.congr hcurrent hfloor hrows)
    · have hkept : ∀ key ∈ [mvccGcCursorKey, historyHorizonKey],
          s'.get txnMetaTable key = w.store.get txnMetaTable key := by
        intro key hkey
        cases htruncate
        rw [Tables.get_put_of_ne, truncateWindows_frame (by decide)]
        rintro - rfl
        revert hkey
        decide
      obtain ⟨floor', -, hlog'⟩ := hlog.truncateBatch hwatermark hstate htarget hlt rfl htruncate
      refine ⟨⟨floor', hlog'⟩, h.cursor.congr hkept, fun hempty => ?_⟩
      -- the target of a truncation is at most one above the cursor
      rw [HorizonAt, readHistoryMeta_congr (hkept _ (by simp))] at hempty
      obtain ⟨hcursor, -, hearliest⟩ := readHistoryGcState_eq_ok_iff.mp hstate
      obtain ⟨cursor, horizon, hcursor', hhorizon, hle⟩ := h.cursor
      cases hcursor.symm.trans hcursor'
      cases hhorizon.symm.trans hempty
      cases hearliest.symm.trans hlog.earliest
      obtain ⟨limit, -, rfl⟩ := Option.map_eq_some_iff.mp htarget
      have htop : state.commitLogFloor < saturatingAdd state.mvccCursor 1 :=
        lt_of_lt_of_le hlt (min_le_right _ _)
      have hpos := hlog.floor_pos
      rw [UInt64.lt_iff_toNat_lt, toNat_saturatingAdd] at htop
      rw [UInt64.le_iff_toNat_le, UInt64.toNat_zero] at hle
      omega
    · exact ⟨h.log, h.cursor, h.full⟩
  · exact ⟨h.log, h.cursor, h.full⟩

theorem HistoryInv.step (h : HistoryInv C w commits) (step : PinWorld.Step) :
    HistoryInv C (w.step C step) (commits ++ newCommit C w.store (w.step C step).store) := by
  cases w.storeEffect C step with
  | @write env call hstep hstore hgc =>
    rcases WriterCall.writerStep C w.store (env, call) with hsame | ⟨writes, id, hmeta, heffect⟩
    · exact h.quiet (h.congr (hstore.trans hsame) (hgc ▸ h.watermark))
    · exact h.commit hmeta (hstore ▸ heffect) hgc
  | idle hstore hgc => exact h.quiet (h.congr hstore (hgc ▸ h.watermark))
  | gcStart hplan hstore =>
    refine h.quiet (h.congr hstore fun run hrun => ?_)
    obtain ⟨floor, hlog⟩ := h.log
    rw [hrun] at hplan
    obtain ⟨current, hcurrent, hle⟩ := planHistoryGc_watermark hplan
    rw [← hlog.current_eq hcurrent]
    exact UInt64.le_iff_toNat_le.mp (le_min_iff.mp hle).1
  | @gcBatch env run hrun hstore hgc =>
    obtain ⟨hbatch, hrest⟩ := GcRun.step_cases C env w.store run
    have hgc : ∀ run', (w.step C step).gc = some run' →
        run'.plan.watermark.toNat ≤ commits.length := fun run' hrun' => by
      rw [hrest run' (hgc ▸ hrun')]
      exact h.watermark run hrun
    rcases hbatch with hsame | ⟨outcome, hbatch⟩
    · exact h.quiet (h.congr (hstore.trans hsame) hgc)
    · obtain ⟨hlog, hcursor, hfull⟩ := h.batch (h.watermark run hrun) hbatch
      exact h.quiet ⟨hstore ▸ hlog, hgc, hstore ▸ hcursor, hstore ▸ hfull⟩

/-- After any run the store holds all of the run's commits. -/
theorem HistoryInv.run (h : HistoryInv C w commits) (steps : List PinWorld.Step) :
    HistoryInv C (steps.foldl (PinWorld.step C) w) (commits ++ w.commits C steps) := by
  induction steps generalizing w commits with
  | nil =>
    rw [PinWorld.commits, List.append_nil]
    exact h
  | cons step steps ih =>
    rw [PinWorld.commits, ← List.append_assoc]
    exact ih (h.step step)

theorem fullHistory_run (C : Codecs) (steps : List PinWorld.Step)
    (hempty : HorizonAt (PinWorld.run C steps).store 0) :
    FullHistory C (PinWorld.run C steps).store (PinWorld.commits C {} steps) :=
  ((historyInv_init C).run steps).full hempty

end Step

end MultiDb
