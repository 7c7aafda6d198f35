import MultiDb.Verification.History.GcRuns
import MultiDb.Verification.History.SystemVersions

/-!
# Reads of the past

The version table ends with the rows of the store, so a later read at the id of a store returns
the rows of that store, until its history is pruned.
-/

namespace MultiDb

open Shared

variable {C : Codecs} {s s' s₀ : Store} {current lsn : TxnId}
variable {outcome : HistoryGcBatchOutcome} {plan : HistoryGcBatchPlan}

/-- Reads at the current id return the rows of the store. -/
structure CurrentRows (C : Codecs) (s : Store) (current : TxnId) : Prop where
  now : currentTxnIdFrom s = .ok current
  retained : ensureHistoryRetained s current = .ok ()
  below : ∀ vk v, chainOf C s vk v ≠ none → v ≤ current
  row : ∀ t k vk, t ∉ bookkeepingTables → t ≠ txnMetaTable → versionKey t k = .ok vk →
    asOf C s vk current = .ok (s.get t k)

/-- What can still be read at `lsn` is what was read before. -/
def Recalls (C : Codecs) (lsn : TxnId) (s s' : Store) : Prop :=
  ensureHistoryRetained s' lsn = .ok () →
    ensureHistoryRetained s lsn = .ok () ∧ SameReads C lsn s s'

/-- A later store, with the reads at the ids up to `current`. -/
def Continues (C : Codecs) (current : TxnId) (s s' : Store) : Prop :=
  ∃ current', CurrentRows C s' current' ∧ current ≤ current' ∧ ∀ lsn ≤ current, Recalls C lsn s s'

theorem CurrentRows.continues (h : CurrentRows C s current) : Continues C current s s :=
  ⟨current, h, le_rfl, fun lsn _ hretained => ⟨hretained, .refl C lsn s⟩⟩

theorem Recalls.trans (h : Recalls C lsn s₀ s) (h' : Recalls C lsn s s') : Recalls C lsn s₀ s' := by
  intro hretained
  obtain ⟨hretained, hreads'⟩ := h' hretained
  obtain ⟨hretained, hreads⟩ := h hretained
  exact ⟨hretained, hreads.trans hreads'⟩

section Commit

variable {writes : WriteSet} {id : TxnId} {t : String} {k vk : Bytes}

theorem CommitEffect.retained_iff (h : CommitEffect C s writes id s') (hmeta : LeavesMeta writes) :
    ensureHistoryRetained s' lsn = .ok () ↔ ensureHistoryRetained s lsn = .ok () := by
  simp only [ensureHistoryRetained_eq_ok_iff, h.horizonAt_iff hmeta]

theorem CommitEffect.chain_of_ne (h : CommitEffect C s writes id s') {v : TxnId} (hv : v ≠ id)
    (vk : Bytes) : chainOf C s' vk v = chainOf C s vk v := by
  rw [chainOf, h.mvcc_eq, chainOf]
  exact fun vk' heq => hv (be64_inj.mp (List.append_inj' heq (by simp)).2)

theorem CommitEffect.chain_of_written (h : CommitEffect C s writes id s') {value : Option Bytes}
    (hvk : versionKey t k = .ok vk) (hwrite : writes.get t k = some value) :
    chainOf C s' vk id = some (.ok value) := by
  obtain ⟨bytes, hencode, hget⟩ :=
    h.mvcc_written t k value _ hwrite (mvccKey_eq_ok_iff.mpr ⟨vk, hvk, rfl⟩)
  rw [chainOf, hget, Option.map_some, decodeMvccRecord_of_encode hencode]
  rfl

theorem CommitEffect.chain_of_unwritten (h : CommitEffect C s writes id s')
    (hvk : versionKey t k = .ok vk) (hnone : writes.get t k = none) :
    chainOf C s' vk = chainOf C s vk := by
  funext v
  rw [chainOf, h.mvcc_kept, chainOf]
  intro t' k' value hwrite hkey
  obtain ⟨rfl, rfl, -⟩ := mvccKey_inj hkey (mvccKey_eq_ok_iff.mpr ⟨vk, hvk, rfl⟩)
  rw [hnone] at hwrite
  contradiction

/-- A commit continues the history of the current rows. -/
theorem CurrentRows.commit (h : CurrentRows C s current) (hmeta : LeavesMeta writes)
    (heffect : CommitEffect C s writes id s') : Continues C current s s' := by
  have hlt : current < id := by
    obtain ⟨current', hcurrent', hid⟩ := heffect.next
    cases h.now.symm.trans hcurrent'
    rw [UInt64.lt_iff_toNat_lt]
    omega
  refine ⟨id, ?_, hlt.le, fun lsn hle hretained => ?_⟩
  · constructor
    case now => exact currentTxnIdFrom_of_get heffect.current
    case retained =>
      rw [heffect.retained_iff hmeta, ensureHistoryRetained_eq_ok_iff]
      obtain ⟨horizon, hhorizon, hle⟩ := ensureHistoryRetained_eq_ok_iff.mp h.retained
      exact ⟨horizon, hhorizon, hle.trans hlt.le⟩
    case below =>
      intro vk v hpresent
      by_cases hv : v = id
      · exact hv.le
      · rw [heffect.chain_of_ne hv] at hpresent
        exact (h.below vk v hpresent).trans hlt.le
    case row =>
      intro t k vk ht htmeta hvk
      apply asOf_eq_of_sees
      rw [heffect.row t k (by simp [Bookkeeping, ht, htmeta])]
      cases hwrite : writes.get t k with
      | some value =>
        have hchain := heffect.chain_of_written hvk hwrite
        exact Or.inl ⟨id, ⟨le_rfl, by simp [hchain], fun v hv _ => hv⟩, hchain⟩
      | none =>
        have hsees := sees_asOf C s vk current
        rw [h.row t k vk ht htmeta hvk] at hsees
        rw [heffect.chain_of_unwritten hvk hwrite]
        exact hsees.later hlt.le (h.below vk)
  · exact ⟨(heffect.retained_iff hmeta).mp hretained,
      heffect.sameReads hmeta (lt_of_le_of_lt hle hlt)⟩

end Commit

theorem historyHorizon_le_maintenanceGc {env : Env} (h : maintenanceGc C env s plan = .ok (outcome, s')) :
    ∃ old, HorizonAt s old ∧ old ≤ outcome.historyHorizon := by
  obtain ⟨state, outcome', write, hstate, hstage, hhorizon, -⟩ := maintenanceGc_cases h
  refine ⟨_, readHistoryGcState_horizon hstate, ?_⟩
  rw [hhorizon]
  rcases gcHistoryStage_cases hstage with ⟨-, hprune⟩ | ⟨target, -, -, htruncate⟩ | ⟨rfl, -⟩
  · simp only [pruneMvccBatch, bind_eq_ok_iff, pure_eq_ok_iff, Prod.mk.injEq] at hprune
    obtain ⟨walk, -, _, -, rfl, -⟩ := hprune
    exact le_max_left _ _
  · cases htruncate
    exact le_rfl
  · exact le_rfl

theorem CurrentRows.batch (h : CurrentRows C s current) {env : Env} (hplan : plan.watermark ≤ current)
    (hbatch : maintenanceGc C env s plan = .ok (outcome, s')) : Continues C current s s' := by
  have heffect := maintenanceGc_effect hbatch
  have hkeeps := heffect.keepsHistory
  obtain ⟨old, hold, hmono⟩ := historyHorizon_le_maintenanceGc hbatch
  have hhorizon : outcome.historyHorizon ≤ current := by
    obtain ⟨old', hold', hle⟩ := historyHorizon_maintenanceGc hbatch
    obtain ⟨horizon, hat, habove⟩ := ensureHistoryRetained_eq_ok_iff.mp h.retained
    cases hold'.symm.trans hat
    exact hle.trans (max_le habove hplan)
  refine ⟨current, ?_, le_rfl, fun lsn _ hretained => ?_⟩
  · constructor
    case now => rw [hkeeps.current, h.now]
    case retained => exact heffect.retained hhorizon
    case below =>
      intro vk v hpresent
      obtain ⟨value, hvalue⟩ := Option.ne_none_iff_exists'.mp hpresent
      obtain ⟨bytes, hget, -⟩ := Option.map_eq_some_iff.mp hvalue
      exact h.below vk v (by simp [chainOf, heffect.versions _ _ hget])
    case row =>
      intro t k vk ht htmeta hvk
      rw [heffect.asOf_eq hhorizon hvk, h.row t k vk ht htmeta hvk, hkeeps.base t k ht htmeta]
  · obtain ⟨horizon, hat, hle⟩ := ensureHistoryRetained_eq_ok_iff.mp hretained
    cases hkeeps.stored.symm.trans hat
    exact ⟨ensureHistoryRetained_eq_ok_iff.mpr ⟨old, hold, hmono.trans hle⟩,
      fun t k vk hvk => hkeeps.asOf t k vk hvk lsn hle,
      fun table rows => hkeeps.rows table lsn rows hle⟩

section Runs

variable {w : PinWorld}

theorem CurrentRows.step (h : CurrentRows C w.store current) (hw : GcWorld C w)
    (step : PinWorld.Step) : Continues C current w.store (w.step C step).store := by
  cases w.storeEffect C step with
  | @write env call hstep hstore hgc =>
    rw [hstore]
    rcases WriterCall.writerStep C w.store (env, call) with hsame | ⟨writes, id, hmeta, heffect⟩
    · rw [hsame]
      exact h.continues
    · exact h.commit hmeta heffect
  | idle hstore hgc => exact hstore ▸ h.continues
  | gcStart hplan hstore => exact hstore ▸ h.continues
  | @gcBatch env run hrun hstore hgc =>
    rw [hstore]
    obtain ⟨hsame | ⟨outcome, hbatch⟩, -⟩ := GcRun.step_cases C env w.store run
    · rw [hsame]
      exact h.continues
    · obtain ⟨current', hnow, hplan⟩ := hw.watermark run hrun
      cases h.now.symm.trans hnow
      exact h.batch hplan hbatch

/-- Any run continues the history of the current rows. -/
theorem CurrentRows.run (h : CurrentRows C w.store current) (hw : GcWorld C w)
    (steps : List PinWorld.Step) :
    Continues C current w.store (steps.foldl (PinWorld.step C) w).store := by
  induction steps generalizing w current with
  | nil => exact h.continues
  | cons step steps ih =>
    obtain ⟨next, hnext, hle, hstep⟩ := h.step hw step
    obtain ⟨last, hlast, hle', hrest⟩ := ih hnext (hw.step step)
    exact ⟨last, hlast, hle.trans hle', fun lsn hlsn =>
      (hstep lsn hlsn).trans (hrest lsn (hlsn.trans hle))⟩

end Runs

/-! ## Reads -/

/-- The rows of a relational table, in key order. -/
def tableRows (s : Store) (table : String) : List (Bytes × Bytes) :=
  range s relRowsTable (tablePrefixBytes table) (rangeEnd (tablePrefixBytes table))

theorem exists_visitVersion {pfx : Bytes} {row : Bytes × Bytes} {record : MvccRecord}
    (h : decodeMvccRecord C row.2 = .ok record)
    (byKey : Std.ExtTreeMap Bytes (TxnId × Option Bytes)) :
    ∃ byKey', visitVersion C pfx lsn byKey row = .ok byKey' := by
  obtain ⟨row, value⟩ := row
  rcases versionRow_cases pfx row with hform | ⟨lk, v, rfl⟩
  · exact ⟨byKey, if_pos hform⟩
  · rw [visitVersion_eq, h]
    split
    · exact ⟨byKey, rfl⟩
    · simp only [bind, Except.bind]
      split <;> exact ⟨_, rfl⟩

/-- Reading as of the current commit gives the current rows. -/
theorem CurrentRows.rowsAsOf (h : CurrentRows C s current) (hgc : GcStore C s) (table : String) :
    rowsAsOfLsn C s table current = .ok ((tableRows s table).map Prod.snd) := by
  have hvisit : ∀ row ∈ range s txnMvccTable (rowsPrefixBytes table)
      (rangeEnd (rowsPrefixBytes table)), ∀ byKey, ∃ byKey',
        visitVersion C (rowsPrefixBytes table) current byKey row = .ok byKey' := by
    intro row hrow byKey
    obtain ⟨record, hrecord⟩ := hgc.versions _ _ (mem_range.mp hrow).1
    exact exists_visitVersion hrecord byKey
  obtain ⟨byKey, hrun⟩ := exists_foldlM_eq_ok hvisit ∅
  have hvalue : ∀ lk, byKey[lk]?.bind (·.2) =
      s.get relRowsTable (tablePrefixBytes table ++ lk) := by
    intro lk
    have hrow := h.row _ _ _ (by decide) (by decide) (versionKey_rows table lk)
    rw [asOf_eq_byKey hrun] at hrow
    exact Except.ok.inj hrow
  -- both lists are in key order, so their members decide
  have hrows : byKey.toList.filterMap
      (fun entry => entry.2.2.map fun bytes => (tablePrefixBytes table ++ entry.1, bytes)) =
      tableRows s table := by
    refine eq_of_sorted_of_mem_iff ?_ (s.scan_sorted _ _) fun row => ?_
    · rw [List.pairwise_filterMap]
      refine Std.ExtTreeMap.ordered_keys_toList.imp fun {a b} hlt => ?_
      intro x hx y hy
      obtain ⟨_, -, rfl⟩ := Option.map_eq_some_iff.mp hx
      obtain ⟨_, -, rfl⟩ := Option.map_eq_some_iff.mp hy
      rw [compare_append_left]
      exact hlt
    · obtain ⟨key, bytes⟩ := row
      rw [tableRows, mem_range, keyInRange_rangeEnd_iff]
      simp only [List.mem_filterMap, Prod.exists, Std.ExtTreeMap.mem_toList_iff_getElem?_eq_some,
        Option.map_eq_some_iff, Prod.mk.injEq]
      constructor
      · rintro ⟨lk, v, x, hget, _, rfl, rfl, rfl⟩
        rw [← hvalue, hget]
        exact ⟨rfl, List.prefix_append _ _⟩
      · rintro ⟨hget, lk, rfl⟩
        rw [← hvalue, Option.bind_eq_some_iff] at hget
        obtain ⟨⟨v, x⟩, hget, rfl⟩ := hget
        exact ⟨lk, v, _, hget, bytes, rfl, rfl, rfl⟩
  simp only [rowsAsOfLsn, h.retained, versionKey_table, Except.mapError, hrun, ← hrows,
    List.map_filterMap, Option.map_map, Function.comp_def, Option.map_id', bind, Except.bind]
  rfl

theorem rowsAsOfLsnAcross_eq {checked rechecked : Store} {table : String} {rows : List Bytes}
    (h : rowsAsOfLsn C s table lsn = .ok rows) :
    rowsAsOfLsnAcross C checked s rechecked table lsn = (do
      ensureHistoryRetained checked lsn
      ensureHistoryRetained rechecked lsn
      return rows) := by
  simp only [rowsAsOfLsn, versionKey_table, bind_eq_ok_iff] at h
  obtain ⟨_, -, pfx, hpfx, byKey, hrun, hrows⟩ := h
  obtain rfl := pure_eq_ok_iff.mp hrows
  simp only [rowsAsOfLsnAcross, versionKey_table, hpfx, hrun, bind, Except.bind]

/-- A read at the LSN of an earlier store decodes, validates and sorts the rows that the table held
there, whatever commits, pins and garbage collection came since and come between its reads, or
fails because its history is gone; and the history is there while a pin of the LSN is held. -/
theorem rows_as_of_past (C : RelCodecs) (before first second third : List PinWorld.Step)
    (debug : Row → String) (table : String) (schema : TableSchema) :
    let past := PinWorld.run C.toCodecs before
    let checked := first.foldl (PinWorld.step C.toCodecs) past
    let scanned := second.foldl (PinWorld.step C.toCodecs) checked
    let rechecked := third.foldl (PinWorld.step C.toCodecs) scanned
    ∃ lsn, currentTxnIdFrom past.store = .ok lsn ∧
      temporalRowsAsOfAcross C debug checked.store scanned.store rechecked.store table schema lsn =
        (do
          (ensureHistoryRetained checked.store lsn).mapError .temporal
          (ensureHistoryRetained rechecked.store lsn).mapError .temporal
          let rows ← ((tableRows past.store table).map Prod.snd).mapM (decodeTemporalRow C schema)
          return rows.insertionSort fun left right => debug left ≤ debug right) ∧
      ∀ grantedAt, (lsn, .granted grantedAt) ∈ rechecked.pins →
        ensureHistoryRetained checked.store lsn = .ok () ∧
          ensureHistoryRetained rechecked.store lsn = .ok () := by
  intro past checked scanned rechecked
  have hinit : GcWorld C.toCodecs {} := ⟨gcStore_empty _, floorReached_empty, by simp⟩
  have hempty : CurrentRows C.toCodecs (PinWorld.store {}) 0 :=
    ⟨rfl, rfl, by simp [chainOf], fun t k vk _ _ _ => by
      rw [Tables.get_empty]
      exact asOf_eq_of_sees (Or.inr ⟨rfl, fun v _ => by simp [chainOf]⟩)⟩
  have hpast : GcWorld C.toCodecs past := gcWorld_run hinit before
  have hchecked : GcWorld C.toCodecs checked := gcWorld_run hpast first
  obtain ⟨lsn, hrows, -⟩ := hempty.run hinit before
  obtain ⟨current₁, hrows₁, hle₁, hfirst⟩ := hrows.run hpast first
  obtain ⟨current₂, hrows₂, hle₂, hsecond⟩ := hrows₁.run hchecked second
  obtain ⟨-, -, -, hthird⟩ := hrows₂.run (gcWorld_run hchecked second) third
  have hscanned := (hfirst lsn le_rfl).trans (hsecond lsn hle₁)
  have hrechecked := hthird lsn (hle₁.trans hle₂)
  refine ⟨lsn, hrows.now, ?_, fun grantedAt hheld => ?_⟩
  · rw [temporalRowsAsOfAcross]
    cases hretained : ensureHistoryRetained rechecked.store lsn with
    | ok =>
      obtain ⟨-, hreads⟩ := hscanned (hrechecked hretained).1
      have hread : rowsAsOfLsn C.toCodecs scanned.store table lsn = _ :=
        hreads.rows table _ (hrows.rowsAsOf hpast.store table)
      rw [rowsAsOfLsnAcross_eq hread, hretained]
      cases ensureHistoryRetained checked.store lsn <;> rfl
    | error error =>
      rw [rowsAsOfLsnAcross, versionKey_table, hretained]
      cases ensureHistoryRetained checked.store lsn <;> rfl
  · have hpins : PinInv C.toCodecs rechecked := by
      have hrun := PinInv.run C.toCodecs (before ++ first ++ second ++ third)
      rwa [PinWorld.run, List.foldl_append, List.foldl_append, List.foldl_append] at hrun
    have hretained := ensureHistoryRetained_eq_ok_iff.mpr (hpins.held lsn grantedAt hheld).above
    exact ⟨(hsecond lsn hle₁ (hrechecked hretained).1).1, hretained⟩

end MultiDb
