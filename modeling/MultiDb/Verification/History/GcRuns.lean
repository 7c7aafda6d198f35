import MultiDb.Verification.History.GcStore

/-!
# Garbage collection finishes

A batch that changes anything moves the cursor towards the watermark or the floor of the
commit log towards its target.
-/

namespace MultiDb

open Shared

variable {C : Codecs} {s s' : Store} {w : PinWorld}
variable {target floor : TxnId} {env : Env}

theorem truncateWindows_advances {plan : HistoryGcBatchPlan} {floor' : TxnId}
    {windows deleted' size' : ℕ} {write write' : Store} (hlt : floor < target)
    (hwindows : 0 < windows) (hwrites : 0 < plan.maxWrites) (hbytes : 0 < plan.maxRecordBytes)
    (h : truncateWindows s plan target windows (floor, 0, 0, write) =
      (floor', deleted', size', write')) : floor < floor' := by
  obtain ⟨windows, rfl⟩ := Nat.exists_eq_add_one.mpr hwindows
  rw [truncateWindows, if_pos ⟨hlt, hwrites, hbytes⟩] at h
  obtain ⟨hle, -, -⟩ := truncateWindows_spec (min_le_right _ _) h
  refine lt_of_lt_of_le (lt_min ?_ hlt) hle
  rw [UInt64.lt_iff_toNat_lt] at hlt ⊢
  rw [toNat_saturatingAdd]
  have := target.toNat_lt
  omega

def HistoryGcBatchOutcome.state (outcome : HistoryGcBatchOutcome) : HistoryGcState :=
  ⟨outcome.mvccCursor, outcome.historyHorizon, outcome.commitLogFloor⟩

/-- What one batch can do: prune versions, cut the log, or nothing. -/
inductive BatchEffect (plan : HistoryGcBatchPlan) (s : Store) (state : HistoryGcState)
    (outcome : HistoryGcBatchOutcome) (s' : Store) : Prop
  | prune (hbelow : state.mvccCursor < plan.watermark)
      (hmoves : state.mvccCursor < outcome.mvccCursor)
      (hreached : outcome.mvccCursor ≤ plan.watermark)
      (hfloor : outcome.commitLogFloor = state.commitLogFloor)
      (hrow : s'.get txnMetaTable commitLogFloorKey = s.get txnMetaTable commitLogFloorKey)
      (hlog : ∀ key, s'.get commitLogTable key = s.get commitLogTable key)
      (hchanged : outcome.changed = true)
  | truncate (target : TxnId) (hreached : plan.watermark ≤ state.mvccCursor)
      (hcursor : outcome.mvccCursor = state.mvccCursor)
      (htarget : plan.floorTarget state.mvccCursor = some target)
      (hmoves : 0 < plan.maxWrites → 0 < plan.maxRecordBytes →
        state.commitLogFloor < outcome.commitLogFloor)
      (hbelow : outcome.commitLogFloor ≤ target)
      (hlog : ∀ id, outcome.commitLogFloor ≤ id →
        s'.get commitLogTable (encodeTxnId id) = s.get commitLogTable (encodeTxnId id))
      (hchanged : outcome.changed = true)
  | idle (hreached : plan.watermark ≤ state.mvccCursor)
      (htarget : ∀ target, plan.floorTarget state.mvccCursor = some target →
        target ≤ state.commitLogFloor)
      (hsame : outcome.state = state) (hstore : s' = s) (hchanged : outcome.changed = false)

theorem earliestCommitLsnIn_congr
    (hfloor : s'.get txnMetaTable commitLogFloorKey = s.get txnMetaTable commitLogFloorKey)
    (hlog : ∀ key, s'.get commitLogTable key = s.get commitLogTable key) :
    earliestCommitLsnIn s' = earliestCommitLsnIn s := by
  have hrange : range s' commitLogTable [] [] = range s commitLogTable [] [] :=
    Tables.scan_congr fun key _ => hlog key
  rw [earliestCommitLsnIn, earliestCommitLsnIn, readHistoryMeta_congr hfloor, hlog, hrange]

theorem readHistoryGcState_eq_ok_iff {state : HistoryGcState} :
    readHistoryGcState s = .ok state ↔
      (readHistoryMeta s mvccGcCursorKey).map (·.getD 0) = .ok state.mvccCursor ∧
        (readHistoryMeta s historyHorizonKey).map (·.getD 0) = .ok state.historyHorizon ∧
        earliestCommitLsnIn s = .ok state.commitLogFloor := by
  cases state
  simp only [readHistoryGcState, bind_eq_ok_iff, pure_eq_ok_iff, HistoryGcState.mk.injEq]
  cases readHistoryMeta s mvccGcCursorKey <;> cases readHistoryMeta s historyHorizonKey <;>
    cases earliestCommitLsnIn s <;> simp [Except.map]
  tauto

section Stage

variable {plan : HistoryGcBatchPlan} {state : HistoryGcState} {outcome : HistoryGcBatchOutcome}

variable {start : HistoryGcBatchOutcome}

/-- A prune goes through and moves the cursor. -/
theorem GcStore.prune (h : GcStore C s) (hstate : readHistoryGcState s = .ok state) (hstart : start.state = state)
    (hprune : pruneMvccBatch C s plan start = .ok (outcome, s')) :
    GcStore C s' ∧ readHistoryGcState s' = .ok outcome.state ∧
      outcome.commitLogFloor = state.commitLogFloor ∧
      ∀ key, s'.get commitLogTable key = s.get commitLogTable key := by
  obtain ⟨hfloor, hlog⟩ := pruneMvccBatch_log hprune
  have heffect := pruneMvccBatch_effect hprune
  obtain ⟨-, -, hearliest⟩ := readHistoryGcState_eq_ok_iff.mp hstate
  simp only [pruneMvccBatch, bind_eq_ok_iff, pure_eq_ok_iff, Prod.mk.injEq] at hprune
  obtain ⟨walk, -, ⟨pruned, write⟩, -, rfl, rfl⟩ := hprune
  set s' := (write.put txnMetaTable mvccGcCursorKey (encodeTxnId walk.processed)).put txnMetaTable
    historyHorizonKey (encodeTxnId (max start.historyHorizon walk.processed)) with hs'
  have hcursor : readHistoryMeta s' mvccGcCursorKey = .ok (some walk.processed) := by
    apply readHistoryMeta_of_get
    rw [hs', Tables.get_put_of_ne (fun _ => by decide), Tables.get_put_self]
  have hhorizon : readHistoryMeta s' historyHorizonKey =
      .ok (some (max start.historyHorizon walk.processed)) :=
    readHistoryMeta_of_get (Tables.get_put_self _ _ _ _)
  subst hstart
  refine ⟨⟨?_, ?_, ?_, ?_, ?_⟩, ?_, rfl, hlog⟩
  · intro key bytes hget
    rw [hlog] at hget
    exact h.log key bytes hget
  · intro floor hstored id hget
    rw [readHistoryMeta_congr hfloor] at hstored
    rw [hlog] at hget
    exact h.floor floor hstored id hget
  · intro key hkey
    simp only [gcMetaKeys, List.mem_cons, List.not_mem_nil, or_false] at hkey
    rcases hkey with rfl | rfl | rfl
    · exact ⟨_, hcursor⟩
    · exact ⟨_, hhorizon⟩
    · rw [readHistoryMeta_congr hfloor]
      exact h.progress _ (by simp [gcMetaKeys])
  · intro row value hget
    exact h.versions row value (heffect.versions row value hget)
  · intro vk bytes hget
    rw [heffect.frame _ _ (by decide) (by decide) fun ht => absurd ht (by decide)] at hget
    exact h.tokens vk bytes hget
  · rw [readHistoryGcState_eq_ok_iff]
    refine ⟨by rw [hcursor]; rfl, by rw [hhorizon]; rfl, ?_⟩
    rw [earliestCommitLsnIn_congr hfloor hlog]
    exact hearliest

/-- A truncation goes through and moves the floor. -/
theorem GcStore.truncate (h : GcStore C s) (hstate : readHistoryGcState s = .ok state) (hstart : start.state = state)
    (hlt : state.commitLogFloor < target)
    (htruncate : truncateCommitLogBatch s plan target start = (outcome, s')) :
    GcStore C s' ∧ readHistoryGcState s' = .ok outcome.state ∧
      outcome.mvccCursor = state.mvccCursor ∧ outcome.commitLogFloor ≤ target ∧
      (0 < plan.maxWrites → 0 < plan.maxRecordBytes →
        state.commitLogFloor < outcome.commitLogFloor) ∧
      ∀ id, outcome.commitLogFloor ≤ id →
        s'.get commitLogTable (encodeTxnId id) = s.get commitLogTable (encodeTxnId id) := by
  obtain ⟨state', hstate', hbelow⟩ := h.exists_state
  cases hstate.symm.trans hstate'
  subst hstart
  rw [truncateCommitLogBatch] at htruncate
  rcases hrun : truncateWindows s plan target (max plan.maxWindows 1)
    (start.commitLogFloor, 0, 0, s) with ⟨floor', deleted, size, write⟩
  simp only [hrun] at htruncate
  cases htruncate
  obtain ⟨hle, htop, hrows⟩ := truncateWindows_spec hlt.le hrun
  have hframe : ∀ t k, t ≠ commitLogTable → write.get t k = s.get t k := by
    intro t k ht
    have hkept : (truncateWindows s plan target (max plan.maxWindows 1)
        (start.commitLogFloor, 0, 0, s)).2.2.2.get t k = s.get t k :=
      truncateWindows_frame ht k _ _
    rwa [hrun] at hkept
  have hlog : ∀ key, (write.put txnMetaTable commitLogFloorKey (encodeTxnId floor')).get
      commitLogTable key = write.get commitLogTable key :=
    fun key => Tables.get_put_of_ne fun heq => absurd heq (by decide)
  have hsub : ∀ key bytes, write.get commitLogTable key = some bytes →
      s.get commitLogTable key = some bytes := by
    intro key bytes hget
    apply truncateWindows_sub s plan target (max plan.maxWindows 1) (start.commitLogFloor, 0, 0, s)
    rw [hrun]
    exact hget
  have hmeta : ∀ key, key ≠ commitLogFloorKey →
      readHistoryMeta (write.put txnMetaTable commitLogFloorKey (encodeTxnId floor')) key =
        readHistoryMeta s key := by
    intro key hkey
    apply readHistoryMeta_congr
    rw [Tables.get_put_of_ne fun _ heq => hkey heq.symm, hframe _ _ (by decide)]
  have hstored : readHistoryMeta (write.put txnMetaTable commitLogFloorKey (encodeTxnId floor'))
      commitLogFloorKey = .ok (some floor') :=
    readHistoryMeta_of_get (Tables.get_put_self _ _ _ _)
  refine ⟨⟨?_, ?_, ?_, ?_, ?_⟩, ?_, rfl, htop, ?_, ?_⟩
  · intro key bytes hget
    rw [hlog] at hget
    exact h.log key bytes (hsub key bytes hget)
  · intro floor hfloor id hget
    cases hstored.symm.trans hfloor
    rw [hlog] at hget
    obtain ⟨bytes, hbytes⟩ := Option.ne_none_iff_exists'.mp hget
    have hold : s.get commitLogTable (encodeTxnId id) ≠ none := by
      rw [hsub _ _ hbytes]
      exact Option.some_ne_none bytes
    by_contra hpassed
    exact hget ((hrows id).1 (hbelow id hold) (not_le.mp hpassed) hold)
  · intro key hkey
    by_cases hfloor : key = commitLogFloorKey
    · subst hfloor
      exact ⟨_, hstored⟩
    · rw [hmeta key hfloor]
      exact h.progress key hkey
  · intro row value hget
    rw [Tables.get_put_of_ne fun heq => absurd heq (by decide), hframe _ _ (by decide)] at hget
    exact h.versions row value hget
  · intro vk bytes hget
    rw [Tables.get_put_of_ne fun heq => absurd heq (by decide), hframe _ _ (by decide)] at hget
    exact h.tokens vk bytes hget
  · obtain ⟨hcursor, hhorizon, -⟩ := readHistoryGcState_eq_ok_iff.mp hstate
    rw [readHistoryGcState_eq_ok_iff, hmeta _ (by decide), hmeta _ (by decide)]
    refine ⟨hcursor, hhorizon, ?_⟩
    rw [earliestCommitLsnIn, hstored]
    rfl
  · exact fun hwrites hbytes => truncateWindows_advances hlt (by omega) hwrites hbytes hrun
  · intro id hid
    rw [hlog, (hrows id).2 fun hpassed => absurd hpassed.2 hid.not_gt]

theorem GcStore.stage (h : GcStore C s) (hstate : readHistoryGcState s = .ok state)
    (plan : HistoryGcBatchPlan) (start : HistoryGcBatchOutcome) (hstart : start.state = state)
    (hfresh : start.changed = false) : ∃ outcome s', gcHistoryStage C s plan start =
    .ok (outcome, s') ∧
      GcStore C s' ∧ readHistoryGcState s' = .ok outcome.state ∧
      BatchEffect plan s state outcome s' := by
  have hcursor : start.mvccCursor = state.mvccCursor := by rw [← hstart]; rfl
  have hfloor : start.commitLogFloor = state.commitLogFloor := by rw [← hstart]; rfl
  rw [gcHistoryStage, hcursor, hfloor]
  by_cases hbelow : state.mvccCursor < plan.watermark
  · obtain ⟨outcome, s', hprune, hmoves, hreached⟩ :=
      h.exists_pruneMvccBatch start (hcursor ▸ hbelow)
    obtain ⟨hgc, hread, hkept, hlog⟩ := h.prune hstate hstart hprune
    rw [if_pos hbelow]
    exact ⟨outcome, s', hprune, hgc, hread, .prune hbelow (hcursor ▸ hmoves) hreached hkept
      (pruneMvccBatch_log hprune).1 hlog (changed_pruneMvccBatch hprune)⟩
  · have hreached := not_lt.mp hbelow
    simp only [if_neg hbelow]
    have hidle : (∀ target, plan.floorTarget state.mvccCursor = some target →
        target ≤ state.commitLogFloor) →
        ∃ outcome s', (.ok (start, s) : Result _) = .ok (outcome, s') ∧ GcStore C s' ∧
          readHistoryGcState s' = .ok outcome.state ∧ BatchEffect plan s state outcome s' :=
      fun htarget => ⟨start, s, rfl, h, hstart ▸ hstate, .idle hreached htarget hstart rfl hfresh⟩
    cases htarget : plan.floorTarget state.mvccCursor with
    | none => exact hidle (by simp [htarget])
    | some target =>
      by_cases hlt : state.commitLogFloor < target
      · simp only [if_pos hlt]
        rcases htruncate : truncateCommitLogBatch s plan target start with ⟨outcome, s'⟩
        obtain ⟨hgc, hread, hsame, htop, hmoves, hlog⟩ := h.truncate hstate hstart hlt htruncate
        refine ⟨outcome, s', rfl, hgc, hread,
          .truncate target hreached hsame htarget hmoves htop hlog ?_⟩
        rw [truncateCommitLogBatch] at htruncate
        rw [← (Prod.mk.inj htruncate).1]
      · simp only [if_neg hlt]
        refine hidle fun target' htarget' => ?_
        cases htarget.symm.trans htarget'
        exact not_lt.mp hlt

end Stage

/-! ## Batches -/

/-- The plan leaves nothing to collect. -/
def GcDone (plan : HistoryGcBatchPlan) (state : HistoryGcState) : Prop :=
  plan.watermark ≤ state.mvccCursor ∧
    ∀ target, plan.floorTarget state.mvccCursor = some target → target ≤ state.commitLogFloor

/-- One collection call goes through. -/
theorem GcStore.maintenanceGc (h : GcStore C s) (hbegin : env.beginWrite = .ok ())
    (hcommit : env.commit = .ok ()) (plan : HistoryGcBatchPlan) :
    ∃ state outcome s', readHistoryGcState s = .ok state ∧
      maintenanceGc C env s plan = .ok (outcome, s') ∧ GcStore C s' ∧
      readHistoryGcState s' = .ok outcome.state ∧ BatchEffect plan s state outcome s' ∧
      (outcome.done = true ↔ GcDone plan outcome.state) := by
  obtain ⟨state, hstate, -⟩ := h.exists_state
  obtain ⟨outcome, s', hstage, hgc, hread, heffect⟩ := h.stage hstate plan
    { mvccCursor := state.mvccCursor, historyHorizon := state.historyHorizon,
      commitLogFloor := state.commitLogFloor } rfl rfl
  let done := decide (outcome.mvccCursor ≥ plan.watermark) &&
    (plan.floorTarget outcome.mvccCursor).all fun target => decide (outcome.commitLogFloor ≥ target)
  have hbatch : gcHistoryBatch C s plan = .ok ({ outcome with done }, s') := by
    simp only [gcHistoryBatch, hstate, hstage, bind, Except.bind]
    rfl
  refine ⟨state, { outcome with done }, s', hstate, ?_, hgc, hread, ?_, ?_⟩
  · simp only [MultiDb.maintenanceGc, hbegin, hbatch, hcommit, bind, Except.bind]
    split
    · rfl
    · rename_i hunchanged
      cases heffect with
      | prune _ _ _ _ _ _ hchanged => exact absurd hchanged hunchanged
      | truncate _ _ _ _ _ _ _ hchanged => exact absurd hchanged hunchanged
      | idle _ _ _ hstore _ => rw [hstore]; rfl
  · cases heffect with
    | prune hbelow hmoves hreached hfloor hrow hlog hchanged =>
      exact .prune hbelow hmoves hreached hfloor hrow hlog hchanged
    | truncate target hreached hcursor htarget hmoves hbelow hlog hchanged =>
      exact .truncate target hreached hcursor htarget hmoves hbelow hlog hchanged
    | idle hreached htarget hsame hstore hchanged =>
      exact .idle hreached htarget hsame hstore hchanged
  · simp [done, GcDone, HistoryGcBatchOutcome.state, Option.all_eq_true]

/-! ## The loop -/

/-- A batch that changes anything moves the cursor or the floor, up to its target. -/
def Advances (plan : HistoryGcBatchPlan) (state : HistoryGcState)
    (outcome : HistoryGcBatchOutcome) : Prop :=
  outcome.changed = true →
    (state.mvccCursor < outcome.mvccCursor ∧ outcome.mvccCursor ≤ plan.watermark) ∨
    (state.commitLogFloor < outcome.commitLogFloor ∧
      ∃ target, plan.floorTarget outcome.mvccCursor = some target ∧ outcome.commitLogFloor ≤ target)

/-- Every outcome moves on from the one before it. -/
def AdvancesFrom (plan : HistoryGcBatchPlan) : HistoryGcState → List HistoryGcBatchOutcome → Prop
  | _, [] => True
  | state, outcome :: outcomes => Advances plan state outcome ∧
    AdvancesFrom plan outcome.state outcomes

/-- How far the plan still has to go. -/
def HistoryGcState.remaining (plan : HistoryGcBatchPlan) (state : HistoryGcState) : ℕ :=
  (plan.watermark.toNat - state.mvccCursor.toNat) + (2 ^ 64 - state.commitLogFloor.toNat)

/-- The records at or above the truncation target of the last cursor. -/
def KeepsLog (plan : HistoryGcBatchPlan) (cursor : TxnId) (s s' : Store) : Prop :=
  ∀ id bytes, s.get commitLogTable (encodeTxnId id) = some bytes →
    (∀ target, plan.floorTarget cursor = some target → target ≤ id) →
    s'.get commitLogTable (encodeTxnId id) = some bytes

section Loop

variable {plan : HistoryGcBatchPlan} {state : HistoryGcState} {outcome : HistoryGcBatchOutcome}

theorem BatchEffect.advances (h : BatchEffect plan s state outcome s')
    (hwrites : 0 < plan.maxWrites)
    (hbytes : 0 < plan.maxRecordBytes) : Advances plan state outcome := by
  intro hchanged
  cases h with
  | prune _ hmoves hreached _ _ _ _ => exact Or.inl ⟨hmoves, hreached⟩
  | truncate target _ hcursor htarget hmoves hbelow _ _ =>
    exact Or.inr ⟨hmoves hwrites hbytes, target, hcursor ▸ htarget, hbelow⟩
  | idle _ _ _ _ hunchanged =>
    rw [hunchanged] at hchanged
    contradiction

theorem BatchEffect.remaining_lt (h : BatchEffect plan s state outcome s')
    (hwrites : 0 < plan.maxWrites) (hbytes : 0 < plan.maxRecordBytes)
    (hchanged : outcome.changed = true) : outcome.state.remaining plan < state.remaining plan := by
  simp only [HistoryGcState.remaining, HistoryGcBatchOutcome.state]
  cases h with
  | prune hbelow hmoves _ hfloor _ _ _ =>
    rw [UInt64.lt_iff_toNat_lt] at hbelow hmoves
    rw [hfloor]
    omega
  | truncate target _ hcursor _ hmoves _ _ _ =>
    have hlt := UInt64.lt_iff_toNat_lt.mp (hmoves hwrites hbytes)
    have := outcome.commitLogFloor.toNat_lt
    rw [hcursor]
    omega
  | idle _ _ _ _ hunchanged =>
    rw [hunchanged] at hchanged
    contradiction

theorem BatchEffect.cursor (h : BatchEffect plan s state outcome s') :
    max outcome.mvccCursor plan.watermark = max state.mvccCursor plan.watermark := by
  cases h with
  | prune hbelow _ hreached _ _ _ _ => rw [max_eq_right hreached, max_eq_right hbelow.le]
  | truncate _ _ hcursor _ _ _ _ _ => rw [hcursor]
  | idle _ _ hsame _ _ => rw [← hsame]; rfl

theorem BatchEffect.keepsLog (h : BatchEffect plan s state outcome s') :
    KeepsLog plan (max state.mvccCursor plan.watermark) s s' := by
  intro id bytes hget htarget
  cases h with
  | prune _ _ _ _ _ hlog _ => rw [hlog, hget]
  | truncate target hreached _ hsome _ hbelow hlog _ =>
    rw [max_eq_left hreached] at htarget
    rw [hlog id (hbelow.trans (htarget target hsome)), hget]
  | idle _ _ _ hstore _ => rw [hstore, hget]

theorem KeepsLog.trans {cursor : TxnId} {s₁ s₂ s₃ : Store} (h : KeepsLog plan cursor s₁ s₂)
    (h' : KeepsLog plan cursor s₂ s₃) : KeepsLog plan cursor s₁ s₃ :=
  fun id bytes hget htarget => h' id bytes (h id bytes hget htarget) htarget

/-- Enough batches reach the end of the plan. -/
theorem GcStore.exists_run (h : GcStore C s) (hbegin : env.beginWrite = .ok ())
    (hcommit : env.commit = .ok ()) (hwrites : 0 < plan.maxWrites)
    (hbytes : 0 < plan.maxRecordBytes) (hstate : readHistoryGcState s = .ok state) :
    ∃ fuel outcomes last s', runHistoryGcBatches C env plan fuel s = .ok (some (outcomes, s')) ∧
      outcomes.getLast? = some last ∧ last.done = true ∧ AdvancesFrom plan state outcomes ∧
      last.mvccCursor = max state.mvccCursor plan.watermark ∧
      KeepsLog plan (max state.mvccCursor plan.watermark) s s' ∧ GcStore C s' ∧
      readHistoryGcState s' = .ok last.state := by
  induction hroom : state.remaining plan using Nat.strong_induction_on generalizing s state with
  | _ room ih =>
    obtain ⟨state', outcome, s₁, hstate', hbatch, hgc, hread, heffect, hdone⟩ :=
      h.maintenanceGc hbegin hcommit plan
    cases hstate.symm.trans hstate'
    by_cases hend : outcome.done = true
    · refine ⟨1, [outcome], outcome, s₁, ?_, rfl, hend,
        ⟨heffect.advances hwrites hbytes, trivial⟩, ?_, heffect.keepsLog, hgc, hread⟩
      · simp only [runHistoryGcBatches, hbatch, hend, bind, Except.bind, Bool.true_or, if_true]
        rfl
      · rw [← heffect.cursor]
        exact (max_eq_left (hdone.mp hend).1).symm
    · have hchanged : outcome.changed = true := by
        by_contra hunchanged
        cases heffect with
        | prune _ _ _ _ _ _ hchanged => exact hunchanged hchanged
        | truncate _ _ _ _ _ _ _ hchanged => exact hunchanged hchanged
        | idle hreached htarget hsame _ _ => exact hend (hdone.mpr (hsame ▸ ⟨hreached, htarget⟩))
      obtain ⟨fuel, outcomes, last, s', hrun, hlast, hlastDone, hadvances, hcursor, hlog,
        hgc', hread'⟩ :=
        ih _ (hroom ▸ heffect.remaining_lt hwrites hbytes hchanged) hgc hread rfl
      have hsame : max outcome.state.mvccCursor plan.watermark =
        max state.mvccCursor plan.watermark :=
        heffect.cursor
      rw [hsame] at hcursor hlog
      refine ⟨fuel + 1, outcome :: outcomes, last, s', ?_, ?_, hlastDone,
        ⟨heffect.advances hwrites hbytes, hadvances⟩, hcursor, heffect.keepsLog.trans hlog,
          hgc', hread'⟩
      · simp only [runHistoryGcBatches, hbatch, hend, hchanged, hrun, bind, Except.bind]
        rfl
      · rw [List.getLast?_cons, hlast]
        rfl

end Loop

/-! ## Runs -/

/-- A database whose runs of garbage collection were planned below the current id. -/
structure GcWorld (C : Codecs) (w : PinWorld) : Prop where
  store : GcStore C w.store
  floor : FloorReached w.store
  watermark : ∀ run, w.gc = some run → ∃ current, currentTxnIdFrom w.store = .ok current ∧
    run.plan.watermark ≤ current

theorem earliestCommitLsnIn_of_stored
    (h : readHistoryMeta s commitLogFloorKey = .ok (some floor)) :
    earliestCommitLsnIn s = .ok floor := by
  rw [earliestCommitLsnIn, h]
  rfl

theorem GcWorld.batch (h : GcWorld C w) {run : GcRun}
    (hrun : w.gc = some run) {outcome : HistoryGcBatchOutcome} {s' : Store}
    (hbatch : maintenanceGc C env w.store run.plan = .ok (outcome, s')) :
    GcStore C s' ∧ FloorReached s' ∧ currentTxnIdFrom s' = currentTxnIdFrom w.store := by
  have hcurrent : currentTxnIdFrom s' = currentTxnIdFrom w.store := by
    rw [currentTxnIdFrom, (maintenanceGc_effect hbatch).frame _ _ (by decide) (by decide)
      fun _ => by decide, currentTxnIdFrom]
  obtain ⟨current, hnow, hfloor⟩ := h.floor
  obtain ⟨state, outcome', write, hstate, hstage, -, hresult⟩ := maintenanceGc_cases hbatch
  obtain ⟨outcome'', s'', hstage', hgc, hread, heffect⟩ := h.store.stage hstate run.plan
    { mvccCursor := state.mvccCursor, historyHorizon := state.historyHorizon,
      commitLogFloor := state.commitLogFloor } rfl rfl
  cases hstage.symm.trans hstage'
  rcases hresult with rfl | ⟨-, rfl⟩
  · refine ⟨hgc, ⟨current, hcurrent.trans hnow, fun floor hstored => ?_⟩, hcurrent⟩
    obtain ⟨-, -, hearliest⟩ := readHistoryGcState_eq_ok_iff.mp hread
    have hreported := Except.ok.inj ((earliestCommitLsnIn_of_stored hstored).symm.trans hearliest)
    cases heffect with
    | prune _ _ _ _ hrow _ _ => exact hfloor floor (readHistoryMeta_congr hrow ▸ hstored)
    | truncate target _ _ htarget _ hbelow _ _ =>
      obtain ⟨current', hnow', hwatermark⟩ := h.watermark run hrun
      cases hnow.symm.trans hnow'
      obtain ⟨limit, -, rfl⟩ := Option.map_eq_some_iff.mp htarget
      have hle : floor ≤ current := by
        rw [hreported]
        exact (hbelow.trans ((min_le_left _ _).trans (min_le_right _ _))).trans hwatermark
      exact le_max_of_le_right (UInt64.le_iff_toNat_le.mp hle)
    | idle _ _ _ hstore _ => exact hfloor floor (hstore ▸ hstored)
  · exact ⟨h.store, h.floor, rfl⟩

/-- Each step keeps what collection relies on. -/
theorem GcWorld.step (h : GcWorld C w) (step : PinWorld.Step) : GcWorld C (w.step C step) := by
  cases w.storeEffect C step with
  | @write env call hstep hstore hgc =>
    rcases WriterCall.writerStep C w.store (env, call) with hsame | ⟨writes, id, hmeta, heffect⟩
    · rw [hsame] at hstore
      exact ⟨hstore ▸ h.store, hstore ▸ h.floor, by rw [hgc, hstore]; exact h.watermark⟩
    · rw [← hstore] at heffect
      obtain ⟨hgcStore, hfloor⟩ := h.store.commit h.floor hmeta heffect
      refine ⟨hgcStore, hfloor, fun run hrun => ?_⟩
      obtain ⟨current, hcurrent, hle⟩ := h.watermark run (hgc ▸ hrun)
      obtain ⟨current', hcurrent', hnext⟩ := heffect.next
      cases hcurrent.symm.trans hcurrent'
      refine ⟨id, currentTxnIdFrom_of_get heffect.current, ?_⟩
      rw [UInt64.le_iff_toNat_le] at hle ⊢
      omega
  | idle hstore hgc =>
    exact ⟨hstore ▸ h.store, hstore ▸ h.floor, by rw [hgc, hstore]; exact h.watermark⟩
  | gcStart hplan hstore =>
    refine ⟨hstore ▸ h.store, hstore ▸ h.floor, fun run hrun => ?_⟩
    rw [hrun] at hplan
    obtain ⟨current, hcurrent, hle⟩ := planHistoryGc_watermark hplan
    exact ⟨current, hstore ▸ hcurrent, (le_min_iff.mp hle).1⟩
  | @gcBatch env run hrun hstore hgc =>
    obtain ⟨hbatch, hrest⟩ := GcRun.step_cases C env w.store run
    rw [← hstore] at hbatch
    have hplan : ∀ run', (w.step C step).gc = some run' → run'.plan = run.plan :=
      fun run' hrun' => hrest run' (hgc ▸ hrun')
    obtain ⟨hgcStore, hfloor, hcurrent⟩ : GcStore C (w.step C step).store ∧
        FloorReached (w.step C step).store ∧
        currentTxnIdFrom (w.step C step).store = currentTxnIdFrom w.store := by
      rcases hbatch with hsame | ⟨outcome, hbatch⟩
      · rw [hsame]
        exact ⟨h.store, h.floor, rfl⟩
      · exact h.batch hrun hbatch
    refine ⟨hgcStore, hfloor, fun run' hrun' => ?_⟩
    rw [hplan run' hrun', hcurrent]
    exact h.watermark run hrun

theorem gcWorld_run (h : GcWorld C w) (steps : List PinWorld.Step) :
    GcWorld C (steps.foldl (PinWorld.step C) w) := by
  induction steps generalizing w with
  | nil => exact h
  | cons step steps ih => exact ih (h.step step)

/-- Repeated batches of a plan with positive budgets end with one that is done, every change moves
on, and the log still holds every record at or above the target. -/
theorem gc_batches_finish {s₀ : Store} (hstart : GcStore C s₀) (hreached : FloorReached s₀)
    (steps : List PinWorld.Step) {env : Env} (hbegin : env.beginWrite = .ok ())
    (hcommit : env.commit = .ok ()) {plan : HistoryGcBatchPlan} (hwrites : 0 < plan.maxWrites)
    (hbytes : 0 < plan.maxRecordBytes) :
    let s := (steps.foldl (PinWorld.step C) { store := s₀ }).store
    ∃ state fuel outcomes last s', readHistoryGcState s = .ok state ∧
      runHistoryGcBatches C env plan fuel s = .ok (some (outcomes, s')) ∧
      outcomes.getLast? = some last ∧ last.done = true ∧ AdvancesFrom plan state outcomes ∧
      last.mvccCursor = max state.mvccCursor plan.watermark ∧
      KeepsLog plan last.mvccCursor s s' ∧ readHistoryGcState s' = .ok last.state ∧
      ∀ id, s'.get commitLogTable (encodeTxnId id) ≠ none → last.commitLogFloor ≤ id := by
  intro s
  have hworld : GcWorld C { store := s₀ } := ⟨hstart, hreached, by simp⟩
  have hstore : GcStore C s := (gcWorld_run hworld steps).store
  obtain ⟨state, hstate, -⟩ := hstore.exists_state
  obtain ⟨fuel, outcomes, last, s', hrun, hlast, hdone, hadvances, hcursor, hlog, hend, hread⟩ :=
    hstore.exists_run hbegin hcommit hwrites hbytes hstate
  obtain ⟨state', hstate', hbelow⟩ := hend.exists_state
  cases hread.symm.trans hstate'
  exact ⟨state, fuel, outcomes, last, s', hstate, hrun, hlast, hdone, hadvances, hcursor,
    hcursor ▸ hlog, hread, hbelow⟩

/-- Two commits of one row, and a run of garbage collection up to the second. -/
def collectedSteps : List PinWorld.Step :=
  [.write epochEnv (.node (.proposeBatch [.put "t" [1] [7]])),
    .write epochEnv (.node (.proposeBatch [.put "t" [1] [8]])),
    .gcStart ⟨[], []⟩ ⟨false, 1, none, none, none⟩, .gcBatch epochEnv, .gcBatch epochEnv]

theorem gc_batches_finish_sample :
    let s := (PinWorld.run wireCodecs collectedSteps).store
    ∃ state fuel outcomes last s', readHistoryGcState s = .ok state ∧
      runHistoryGcBatches wireCodecs epochEnv (.new 2 1 (some 2)) fuel s =
        .ok (some (outcomes, s')) ∧
      outcomes.getLast? = some last ∧ last.done = true ∧
      last.mvccCursor = max state.mvccCursor 2 := by
  intro s
  obtain ⟨state, fuel, outcomes, last, s', hstate, hrun, hlast, hdone, -, hcursor, -⟩ :=
    gc_batches_finish (gcStore_empty wireCodecs) floorReached_empty collectedSteps
      (show epochEnv.beginWrite = .ok () from rfl) (show epochEnv.commit = .ok () from rfl)
      (show 0 < (HistoryGcBatchPlan.new 2 1 (some 2)).maxWrites by decide)
      (show 0 < (HistoryGcBatchPlan.new 2 1 (some 2)).maxRecordBytes by decide)
  exact ⟨state, fuel, outcomes, last, s', hstate, hrun, hlast, hdone, hcursor⟩

/-- The watermark of a run that keeps two commits, and the cursor it ends with. -/
def watermarkAndCursor (s : Store) : Option (TxnId × TxnId) :=
  match planHistoryGc s ⟨[], []⟩ ⟨false, 1, none, some 2, none⟩ {} with
  | .ok (some run) =>
    match runHistoryGcBatches wireCodecs epochEnv run.plan 1 s with
    | .ok (some (outcomes, _)) =>
      outcomes.getLast?.map fun last => (run.plan.watermark, last.mvccCursor)
    | _ => none
  | _ => none

/-- A later run may have a lower watermark; its cursor stays above it. -/
theorem cursor_above_watermark :
    watermarkAndCursor (PinWorld.run wireCodecs collectedSteps).store = some (1, 2) := by
  decide +kernel

end MultiDb
