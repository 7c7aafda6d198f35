import MultiDb.Verification.Shard.ShardRows

/-!
# Scans over the shards agree

`range` sorts the owned rows of all shards; `scan_range_batches` and `guarded_range` merge
them row by row.
-/

namespace MultiDb

open Shared

variable {C : Codecs} {cfg : RouterConfig} {map : ShardMap} {c : Cluster} {t : String}
  {start stop : Bytes} {e : ReplError}

/-! ## The visitors -/

theorem visit_collectBatches (batches seen : List (List (Bytes × Bytes))) :
    collectBatches.visit batches seen = .ok (seen ++ batches) := by
  induction batches generalizing seen with
  | nil => simp [ScanVisitor.visit, pure, Except.pure]
  | cons batch batches ih =>
    have hrest := ih (seen ++ [batch])
    rw [List.append_assoc] at hrest
    exact hrest

theorem visitRows_collectRow (rows seen : List (Bytes × Bytes)) :
    visitRows collectRow rows seen = .ok (seen ++ rows) := by
  induction rows generalizing seen with
  | nil => simp [visitRows, pure, Except.pure]
  | cons row rows ih =>
    have hrest := ih (seen ++ [row])
    rw [List.append_assoc] at hrest
    exact hrest

theorem visit_scanBatches (batchRows : ℕ) (rows : List (Bytes × Bytes)) :
    ∃ batches, batches.flatten = rows ∧ collectBatches.visit
      (scanBatches (clampBatchRows batchRows) rows.length rows) [] = .ok batches := by
  have hsize : 0 < clampBatchRows batchRows := by
    rw [clampBatchRows]
    omega
  exact ⟨_, flatten_scanBatches hsize rows.length rows (Nat.le_refl _), visit_collectBatches _ []⟩

/-! ## The three paths -/

theorem shardFor_of_global (hglobal : isGlobalTable t = true) (key : Bytes) :
    map.shardFor C cfg t key = .ok cfg.globalShard := by
  simp [ShardMap.shardFor, ShardMap.route, hglobal, bind, Except.bind, pure, Except.pure]

/-- The rows of a routed range are sorted and stored on their shards. -/
theorem routedRange_rows {rows : List (Bytes × Bytes)}
    (h : Reads C c (routedRange C cfg map t start stop) (.ok rows)) :
    rows.Pairwise (fun a b => compare a.1 b.1 = .lt) ∧
    ∀ key value, (key, value) ∈ rows ↔ keyInRange start stop key = true ∧
      ∃ shard ∈ cfg.shards, map.shardFor C cfg t key = .ok shard ∧
        (c.stores shard).get t key = some value := by
  by_cases hglobal : isGlobalTable t
  · have hrange := reads_range (C := C) (c := c) cfg.globalShard t start stop
    rw [routedRange, if_pos hglobal] at h
    obtain ⟨-, rfl⟩ := singleNode_range_eq_ok_iff.mp (hrange.unique h)
    refine ⟨Tables.scan_sorted _ t _, fun key value => ?_⟩
    simp only [mem_range, shardFor_of_global hglobal, Except.ok.injEq]
    constructor
    · rintro ⟨hget, hin⟩
      exact ⟨hin, cfg.globalShard, cfg.global_mem, rfl, hget⟩
    · rintro ⟨hin, shard, -, rfl, hget⟩
      exact ⟨hget, hin⟩
  · rw [Bool.not_eq_true] at hglobal
    by_cases hall : AllOwned C cfg map c t start stop cfg.shards
    · obtain ⟨rows', hrange, hperm, hsorted⟩ := reads_routedRange_ok hglobal hall
      cases hrange.unique h
      refine ⟨hsorted, fun key value => ?_⟩
      rw [hperm.mem_iff, mem_allRows hall]
    · obtain ⟨e, he⟩ := reads_routedRange_error hglobal hall
      exact absurd (he.unique h) (by simp)

/-- The scans answer with the rows of the range. -/
theorem scans_of_routedRange {rows : List (Bytes × Bytes)}
    (h : Reads C c (routedRange C cfg map t start stop) (.ok rows)) (bounded : Bool)
    (batchRows : ℕ) {rounds : ℕ} (hrounds : rows.length < rounds) :
    (∃ batches, batches.flatten = rows ∧
    Reads C c (scanRangeBatches C cfg map bounded collectBatches
      t start stop batchRows rounds []) (.ok batches)) ∧
    Reads C c (guardedRange C cfg map collectRow t start stop rounds []) (.ok rows) := by
  obtain ⟨hbatches, hvisit⟩ : (∃ batches, batches.flatten = rows ∧ collectBatches.visit
      (scanBatches (clampBatchRows batchRows) rows.length rows) [] = .ok batches) ∧
      visitRows collectRow rows [] = .ok rows :=
    ⟨visit_scanBatches batchRows rows, visitRows_collectRow rows []⟩
  obtain ⟨batches, hflatten, hbatches⟩ := hbatches
  rw [scanRangeBatches, guardedRange]
  simp only [collectBatches, Bool.false_or]
  by_cases hempty : (!stop.isEmpty && (compare stop start).isLE) = true
  · obtain rfl : rows = [] := by
      refine List.eq_nil_iff_forall_not_mem.mpr fun row hrow => ?_
      have hin := ((routedRange_rows h).2 row.1 row.2).mp hrow
      rw [keyInRange_of_stop_le hempty] at hin
      exact absurd hin.1 (by simp)
    simp only [hempty, if_true]
    exact ⟨⟨[], rfl, reads_pure []⟩, reads_pure []⟩
  · simp only [hempty]
    by_cases hglobal : isGlobalTable t
    · have hrange := h
      rw [routedRange, if_pos hglobal] at hrange
      simp only [hglobal, if_true]
      refine ⟨⟨batches, hflatten, ?_⟩, hrange.bind (hvisit ▸ reads_compute _)⟩
      cases bounded with
      | false => exact h.bind (hbatches ▸ reads_compute _)
      | true => exact hrange.bind (hbatches ▸ reads_compute _)
    · rw [Bool.not_eq_true] at hglobal
      simp only [hglobal, Bool.false_eq_true, if_false]
      by_cases hall : AllOwned C cfg map c t start stop cfg.shards
      · obtain ⟨rows', hrange, hperm, hsorted⟩ := reads_routedRange_ok hglobal hall
        cases hrange.unique h
        obtain ⟨hguarded, merged, hmerged, hscan⟩ :=
          reads_scans_ok hglobal hall hperm hsorted hrounds (clampBatchRows batchRows)
        refine ⟨?_, hguarded⟩
        cases bounded with
        | false => exact ⟨batches, hflatten, h.bind (hbatches ▸ reads_compute _)⟩
        | true => exact ⟨merged, hmerged, hscan⟩
      · obtain ⟨e, he⟩ := reads_routedRange_error hglobal hall
        exact absurd (he.unique h) (by simp)

/-- The scans fail where the range fails. -/
theorem scans_of_routedRange_error (h : Reads C c (routedRange C cfg map t start stop) (.error e))
    (bounded : Bool) (batchRows rounds : ℕ) (hnonempty : stop = [] ∨ compare start stop = .lt) :
    (∃ e', Reads C c (scanRangeBatches C cfg map bounded collectBatches t start stop
    batchRows rounds
      []) (.error e')) ∧
    ∃ e', Reads C c (guardedRange C cfg map collectRow t start stop rounds []) (.error e') := by
  have hempty : ¬ (!stop.isEmpty && (compare stop start).isLE) = true := by
    rcases hnonempty with rfl | hlt
    · simp
    · rw [Std.OrientedCmp.gt_of_lt hlt]
      simp
  rw [scanRangeBatches, guardedRange]
  simp only [collectBatches, Bool.false_or, hempty]
  by_cases hglobal : isGlobalTable t
  · have hrange := h
    rw [routedRange, if_pos hglobal] at hrange
    simp only [hglobal, if_true]
    refine ⟨?_, e, hrange.bind_error⟩
    cases bounded with
    | false => exact ⟨e, h.bind_error⟩
    | true => exact ⟨e, hrange.bind_error⟩
  · rw [Bool.not_eq_true] at hglobal
    simp only [hglobal, Bool.false_eq_true, if_false]
    have hall : ¬ AllOwned C cfg map c t start stop cfg.shards := by
      intro hall
      obtain ⟨rows, hrows, -⟩ := reads_routedRange_ok hglobal hall
      exact absurd (hrows.unique h) (by simp)
    obtain ⟨hguarded, hscan⟩ :=
      reads_scans_error hglobal hall (clampBatchRows batchRows) rounds
    refine ⟨?_, hguarded⟩
    cases bounded with
    | false => exact ⟨e, h.bind_error⟩
    | true => exact hscan

theorem exists_routedRange
    (hfree : ∀ shard ∈ cfg.shards, hasRangeLocks (c.stores shard) t start stop = .ok false)
    (hrouted : ∀ shard ∈ cfg.shards, ∀ key, ((c.stores shard).get t key).isSome = true →
      keyInRange start stop key = true → ∃ owner, map.shardFor C cfg t key = .ok owner) :
    ∃ rows, Reads C c (routedRange C cfg map t start stop) (.ok rows) := by
  have hread : ∀ shard ∈ cfg.shards, SingleNode.range (c.stores shard) t start stop =
      .ok (range (c.stores shard) t start stop) := fun shard hshard =>
    singleNode_range_eq_ok_iff.mpr ⟨hfree shard hshard, rfl⟩
  by_cases hglobal : isGlobalTable t
  · refine ⟨range (c.stores cfg.globalShard) t start stop, ?_⟩
    rw [routedRange, if_pos hglobal, ← hread _ cfg.global_mem]
    exact reads_range cfg.globalShard t start stop
  · rw [Bool.not_eq_true] at hglobal
    have hall : AllOwned C cfg map c t start stop cfg.shards := by
      intro shard hshard
      refine ⟨_, bind_eq_ok_iff.mpr ⟨_, hread shard hshard, ownedRows_eq_ok_iff.mpr ⟨?_, rfl⟩⟩⟩
      intro row hrow
      obtain ⟨hget, hin⟩ := mem_range.mp hrow
      exact hrouted shard hshard row.1 (by rw [hget]; rfl) hin
    obtain ⟨rows, hrows, -⟩ := reads_routedRange_ok hglobal hall
    exact ⟨rows, hrows⟩

/-- The three range paths return the same rows: those of the range on the owner of their key, in
order.  They fail only on locked rows and rows that cannot be routed, and together. -/
theorem routedScans_agree (C : Codecs) (cfg : RouterConfig) (map : ShardMap) (c : Cluster)
    (t : String) (start stop : Bytes) (bounded : Bool) (batchRows : ℕ) :
    (∀ rows, Reads C c (routedRange C cfg map t start stop) (.ok rows) →
      rows.Pairwise (fun a b => compare a.1 b.1 = .lt) ∧
      (∀ key value, (key, value) ∈ rows ↔ keyInRange start stop key = true ∧
        ∃ shard ∈ cfg.shards, map.shardFor C cfg t key = .ok shard ∧
          (c.stores shard).get t key = some value) ∧
      ∀ rounds, rows.length < rounds →
        (∃ batches, batches.flatten = rows ∧ Reads C c (scanRangeBatches C cfg map bounded
          collectBatches t start stop batchRows rounds []) (.ok batches)) ∧
        Reads C c (guardedRange C cfg map collectRow t start stop rounds []) (.ok rows)) ∧
    (∀ e, Reads C c (routedRange C cfg map t start stop) (.error e) →
      stop = [] ∨ compare start stop = .lt → ∀ rounds,
        (∃ e', Reads C c (scanRangeBatches C cfg map bounded collectBatches t start stop batchRows
          rounds []) (.error e')) ∧
        ∃ e', Reads C c (guardedRange C cfg map collectRow t start stop rounds []) (.error e')) ∧
    ((∀ shard ∈ cfg.shards, hasRangeLocks (c.stores shard) t start stop = .ok false) →
      (∀ shard ∈ cfg.shards, ∀ key, ((c.stores shard).get t key).isSome = true →
        keyInRange start stop key = true → ∃ owner, map.shardFor C cfg t key = .ok owner) →
      ∃ rows, Reads C c (routedRange C cfg map t start stop) (.ok rows)) := by
  refine ⟨fun rows h => ?_, fun e h hnonempty rounds => ?_, exists_routedRange⟩
  · obtain ⟨hsorted, hmem⟩ := routedRange_rows h
    exact ⟨hsorted, hmem, fun rounds hrounds => scans_of_routedRange h bounded batchRows hrounds⟩
  · exact scans_of_routedRange_error h bounded batchRows rounds hnonempty

/-- Shard 2 owns the row `a`; shard 1 has a stale copy of it. -/
def staleCluster : Cluster where
  stores shard :=
    if shard = 1 then
      (Tables.empty.put "rows" (strBytes "a") [9]).put "rows" (strBytes "c") [1]
    else
      Tables.empty.put "rows" (strBytes "a") [2]

theorem twoPartitions_routes (C : Codecs) (t : String) (key : Bytes) :
    ∃ owner, twoPartitions.shardFor C twoShards t key = .ok owner := by
  by_cases hglobal : isGlobalTable t
  · exact ⟨_, shardFor_of_global hglobal key⟩
  · have hpartition : twoPartitions.route C t key =
        .ok (some (UInt32.ofNat ((stableHash C (canonicalRouteKey t key)).toNat % 2))) := by
      rw [ShardMap.route, if_neg hglobal]
      rfl
    rw [ShardMap.shardFor, hpartition]
    rcases Nat.mod_two_eq_zero_or_one (stableHash C (canonicalRouteKey t key)).toNat with h | h
    all_goals rw [h]
    · exact ⟨1, by decide⟩
    · exact ⟨2, by decide⟩

theorem routedScans_agree_sample : ∃ rows,
    Reads routerCodecs staleCluster (routedRange routerCodecs twoShards twoPartitions "rows" [] [])
      (.ok rows) ∧
    (∀ key value, (key, value) ∈ rows ↔ keyInRange [] [] key = true ∧
      ∃ shard ∈ twoShards.shards, twoPartitions.shardFor routerCodecs twoShards "rows" key =
        .ok shard ∧ (staleCluster.stores shard).get "rows" key = some value) ∧
    Reads routerCodecs staleCluster (guardedRange routerCodecs twoShards twoPartitions collectRow
      "rows" [] [] (rows.length + 1) []) (.ok rows) := by
  obtain ⟨hrows, -, hexists⟩ := routedScans_agree routerCodecs twoShards twoPartitions staleCluster
    "rows" [] [] true 2
  have hfree : twoShards.shards.all (fun shard =>
      hasRangeLocks (staleCluster.stores shard) "rows" [] [] == .ok false) = true := by
    decide +kernel
  obtain ⟨rows, hrange⟩ := hexists
    (fun shard hshard => eq_of_beq (List.all_eq_true.mp hfree shard hshard))
    fun _ _ key _ _ => twoPartitions_routes routerCodecs "rows" key
  obtain ⟨-, hmem, hscans⟩ := hrows rows hrange
  exact ⟨rows, hrange, hmem, (hscans _ (Nat.lt_succ_self _)).2⟩

end MultiDb
