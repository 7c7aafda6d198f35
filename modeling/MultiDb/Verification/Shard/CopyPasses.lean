import MultiDb.Verification.Shard.Batches
import MultiDb.Verification.Shard.Recovery

/-!
# Passes of a partition copy

What a batch of a pass does to the cluster is a parameter.
-/

namespace MultiDb

open Shared

variable {C : Codecs} {cfg : RouterConfig} {c c' : Cluster} {map : ShardMap}
  {partition : PartitionId} {source target : ShardId} {table : String} {rows : List (Bytes × Bytes)}
  {op : Bytes × Bytes → Op} {t : String}

theorem flatten_scanBatches {α : Type} {size : ℕ} (hsize : 0 < size) (fuel : ℕ) (rows : List α)
    (hfuel : rows.length ≤ fuel) : (scanBatches size fuel rows).flatten = rows := by
  induction fuel generalizing rows with
  | zero =>
    obtain rfl := List.length_eq_zero_iff.mp (Nat.le_zero.mp hfuel)
    rfl
  | succ fuel ih =>
    cases rows with
    | nil => rfl
    | cons row rows =>
      have hrest : ((row :: rows).drop size).length ≤ fuel := by
        rw [List.length_drop]
        simp only [List.length_cons] at hfuel ⊢
        omega
      rw [scanBatches, List.flatten_cons, ih _ hrest, List.take_append_drop]
      simp

/-- The row belongs to the partition. -/
def InPartition (C : Codecs) (map : ShardMap) (partition : PartitionId) (t : String) (k : Bytes) :
    Prop :=
  map.route C t k = .ok (some partition)

theorem public_of_inPartition {map : ShardMap} {partition : PartitionId} {k : Bytes}
    (h : InPartition C map partition t k) : tableIsReserved t = false := by
  rw [InPartition, ShardMap.route] at h
  split at h
  · simp at h
  · rename_i hglobal
    exact Bool.eq_false_iff.mpr hglobal

theorem partitionOps_eq_ok {map : ShardMap} {partition : PartitionId} {batch : List (Bytes × Bytes)}
    {ops : List Op} (h : partitionOps C map partition table op batch = .ok ops) :
    ∃ rows : List (Bytes × Bytes), ops = rows.map op ∧
      ∀ row, row ∈ rows ↔ row ∈ batch ∧ InPartition C map partition table row.1 := by
  obtain ⟨rows, hrows, hops⟩ := bind_eq_ok_iff.mp h
  refine ⟨rows, (pure_eq_ok_iff.mp hops).symm, fun row => ?_⟩
  rw [(filterM_eq_ok hrows).2.2 row]
  refine and_congr_right fun _ => ?_
  simp only [bind_eq_ok_iff, pure_eq_ok_iff, decide_eq_true_eq, InPartition]
  constructor
  · rintro ⟨found, hfound, rfl⟩
    exact hfound
  · exact fun hfound => ⟨_, hfound, rfl⟩

theorem get_opsToWriteSet_map
    (htable : ∀ row, (op row).table = table) (hkey : ∀ row, (op row).key = row.1) {k : Bytes}
    {v : Option Bytes} (h : (opsToWriteSet (rows.map op)).get t k = some v) :
    t = table ∧ ∃ row ∈ rows, row.1 = k ∧ (op row).value = v := by
  obtain ⟨o, ho, rfl, rfl, rfl⟩ := exists_op_of_get h
  obtain ⟨row, hrow, rfl⟩ := List.mem_map.mp ho
  exact ⟨htable row, row, hrow, (hkey row).symm, rfl⟩

theorem get_opsToWriteSet_pass {s : Store} (op : Bytes × Bytes → Op)
    (htable : ∀ row, (op row).table = table) (hkey : ∀ row, (op row).key = row.1)
    (hrows : ∀ row, row ∈ rows ↔ s.get table row.1 = some row.2 ∧
      InPartition C map partition table row.1) (k : Bytes) :
    (∀ value, InPartition C map partition table k → s.get table k = some value →
      (opsToWriteSet (rows.map op)).get table k = some (op (k, value)).value) ∧
    ((InPartition C map partition table k → s.get table k = none) →
      (opsToWriteSet (rows.map op)).get table k = none) := by
  constructor
  · intro value hin hvalue
    have hmem : op (k, value) ∈ rows.map op := List.mem_map_of_mem ((hrows _).mpr ⟨hvalue, hin⟩)
    obtain ⟨v, hv⟩ := exists_get_of_op hmem
    rw [htable, hkey] at hv
    obtain ⟨-, ⟨k, value'⟩, hrow, rfl, rfl⟩ := get_opsToWriteSet_map htable hkey hv
    have hvalue' := ((hrows _).mp hrow).1
    cases hvalue.symm.trans hvalue'
    exact hv
  · intro hnone
    by_contra hwritten
    obtain ⟨v, hv⟩ := Option.ne_none_iff_exists'.mp hwritten
    obtain ⟨-, row, hrow, rfl, -⟩ := get_opsToWriteSet_map htable hkey hv
    obtain ⟨hpresent, hin⟩ := (hrows row).mp hrow
    rw [hnone hin] at hpresent
    contradiction

theorem get_opsToWriteSet_other {s : Store} (op : Bytes × Bytes → Op)
    (htable : ∀ row, (op row).table = table) (hkey : ∀ row, (op row).key = row.1)
    (hrows : ∀ row, row ∈ rows ↔ s.get table row.1 = some row.2 ∧
      InPartition C map partition table row.1) {k : Bytes}
    (hother : t = table → ¬ InPartition C map partition t k) :
    (opsToWriteSet (rows.map op)).get t k = none := by
  by_contra hwritten
  obtain ⟨v, hv⟩ := Option.ne_none_iff_exists'.mp hwritten
  obtain ⟨rfl, row, hrow, rfl, -⟩ := get_opsToWriteSet_map htable hkey hv
  exact hother rfl ((hrows row).mp hrow).2

/-- After a delete pass and a copy pass the partition's rows are those of the origin. -/
theorem rows_of_passes {s s₁ s₂ origin : Store} {stale fresh : List (Bytes × Bytes)}
    (ht : tableIsReserved table = false)
    (hstale : ∀ row, row ∈ stale ↔ s.get table row.1 = some row.2 ∧
      InPartition C map partition table row.1)
    (hdelete : ∀ t k, tableIsReserved t = false → s₁.get t k =
      ((opsToWriteSet (stale.map fun row => .delete table row.1)).get t k).getD (s.get t k))
    (hfresh : ∀ row, row ∈ fresh ↔ origin.get table row.1 = some row.2 ∧
      InPartition C map partition table row.1)
    (hput : ∀ t k, tableIsReserved t = false → s₂.get t k =
      ((opsToWriteSet (fresh.map fun row => .put table row.1 row.2)).get t k).getD (s₁.get t k)) :
    (∀ k, InPartition C map partition table k → s₂.get table k = origin.get table k) ∧
    ∀ t k, tableIsReserved t = false → (t = table → ¬ InPartition C map partition t k) →
      s₂.get t k = s.get t k := by
  have hdeleted : ∀ k, InPartition C map partition table k → s₁.get table k = none := by
    intro k hin
    obtain ⟨hsome, hnone⟩ := get_opsToWriteSet_pass (fun row => .delete table row.1)
      (fun _ => rfl) (fun _ => rfl) hstale k
    rw [hdelete table k ht]
    cases hget : s.get table k with
    | some value => rw [hsome value hin hget]; rfl
    | none => rw [hnone fun _ => hget]; rfl
  constructor
  · intro k hin
    obtain ⟨hsome, hnone⟩ := get_opsToWriteSet_pass (fun row => .put table row.1 row.2)
      (fun _ => rfl) (fun _ => rfl) hfresh k
    rw [hput table k ht]
    cases hget : origin.get table k with
    | some value => rw [hsome value hin hget]; rfl
    | none => rw [hnone fun _ => hget]; exact hdeleted k hin
  · intro t k hpublic hout
    rw [hput t k hpublic, hdelete t k hpublic,
      get_opsToWriteSet_other (fun row => .put table row.1 row.2) (fun _ => rfl) (fun _ => rfl)
        hfresh hout,
      get_opsToWriteSet_other (fun row => .delete table row.1) (fun _ => rfl) (fun _ => rfl) hstale
        hout]
    rfl

section Pass

variable {ι : Type} {serve : ι → Cluster → (call : Call) → call.Reply × Cluster}
  {error : Cluster → Prop}

/-- `Copied ops` is what the operations `ops` on the target do to the cluster. -/
theorem always_copyPass {scanned : ShardId}
    (Copied : List Op → Cluster → Prop) (hstart : Copied [] c)
    (herror : ∀ ops c', Copied ops c' → error c')
    (hscan : Prog.Always serve (fun rows c' => c' = c ∧
      SingleNode.range (c.stores scanned) table [] [] = .ok rows) error
      (Router.ask scanned (.range table [] [])) c)
    (hbatch : ∀ (done rows : List (Bytes × Bytes)) c', Copied (done.map op) c' →
      (∀ row ∈ rows, InPartition C map partition table row.1) →
      Prog.Always serve (fun _ c'' => Copied ((done ++ rows).map op) c'') error
        (Router.ask target (.proposeBatch (rows.map op))) c') :
    Prog.Always serve (fun _ c' => ∃ rows : List (Bytes × Bytes), Copied (rows.map op) c' ∧
        SingleNode.range (c.stores scanned) table [] [] =
          .ok (range (c.stores scanned) table [] []) ∧
        ∀ row, row ∈ rows ↔ (c.stores scanned).get table row.1 = some row.2 ∧
          InPartition C map partition table row.1)
      error (copyPass C cfg map partition scanned target table op) c := by
  refine .bind (fun shard c' => shard = scanned ∧ c' = c)
    (always_compute (fun _ hs => ⟨(RouterConfig.shard_eq_ok_iff.mp hs).2, rfl⟩) (herror _ _ hstart))
      ?_
  rintro shard c₁ ⟨rfl, rfl⟩
  refine .bind _ hscan ?_
  rintro scan c₂ ⟨rfl, hrows⟩
  obtain ⟨-, rfl⟩ := singleNode_range_eq_ok_iff.mp hrows
  -- `done` are the rows of the partition among the scanned rows `seen`
  refine Prog.Always.mono (.forM (fun batches c' => ∃ done seen : List (Bytes × Bytes),
      Copied (done.map op) c' ∧ seen ++ batches.flatten = range (c₂.stores shard) table [] [] ∧
      ∀ row, row ∈ done ↔ row ∈ seen ∧ InPartition C map partition table row.1)
    ⟨[], [], hstart, flatten_scanBatches (by decide) _ _ le_rfl, by simp⟩ ?_) ?_ fun _ he => he
  · rintro batch batches c₃ ⟨done, seen, hcopied, hseen, hdone⟩
    refine .bind (fun ops c' => c' = c₃ ∧ ∃ rows : List (Bytes × Bytes), ops = rows.map op ∧
        ∀ row, row ∈ rows ↔ row ∈ batch ∧ InPartition C map partition table row.1)
      (always_compute (fun ops hops => ⟨rfl, partitionOps_eq_ok hops⟩) (herror _ _ hcopied)) ?_
    rintro ops c₄ ⟨rfl, rows, rfl, hrows⟩
    have hnext : ∀ c', Copied ((done ++ rows).map op) c' → ∃ done seen : List (Bytes × Bytes),
        Copied (done.map op) c' ∧
        seen ++ batches.flatten = range (c₂.stores shard) table [] [] ∧
        ∀ row, row ∈ done ↔ row ∈ seen ∧ InPartition C map partition table row.1 := by
      intro c' hc'
      refine ⟨done ++ rows, seen ++ batch, hc', ?_, fun row => ?_⟩
      · rw [List.append_assoc, ← hseen, List.flatten_cons]
      · rw [List.mem_append, List.mem_append, hdone, hrows, or_and_right]
    by_cases hempty : (rows.map op).isEmpty = true
    · rw [if_pos hempty]
      rw [List.isEmpty_iff] at hempty
      refine hnext c₄ ?_
      rw [List.map_append, hempty, List.append_nil]
      exact hcopied
    · rw [if_neg hempty]
      refine .bind (fun shard' c' => shard' = target ∧ c' = c₄)
        (always_compute (fun _ hs => ⟨(RouterConfig.shard_eq_ok_iff.mp hs).2, rfl⟩)
          (herror _ _ hcopied)) ?_
      rintro shard' c₅ ⟨rfl, rfl⟩
      exact (hbatch done rows _ hcopied fun row hrow => ((hrows row).mp hrow).2).mono
        (fun _ c' hc' => hnext c' hc') fun _ he => he
  · rintro _ c' ⟨done, seen, hcopied, hseen, hdone⟩
    refine ⟨done, hcopied, hrows, fun row => ?_⟩
    rw [List.flatten_nil, List.append_nil] at hseen
    rw [hdone, hseen]
    refine and_congr_left fun _ => ?_
    rw [mem_range, keyInRange_nil_nil, and_iff_left rfl]

theorem always_migrationTables (herror : error c)
    (hinventory : ∀ shard, Prog.Always serve (fun names c' => c' = c ∧
      SingleNode.registeredKeyspaces C (c.stores shard) = .ok names) error
      (Router.ask shard .registeredKeyspaces) c) :
    Prog.Always serve (fun tables c' => c' = c ∧ ∀ t, t ∈ tables ↔
        (Registered (c.stores source) t ∨ Registered (c.stores target) t) ∧
          tableIsReserved t = false)
      error (migrationTables cfg source target) c := by
  refine .bind (fun shard c' => shard = source ∧ c' = c)
    (always_compute (fun _ hs => ⟨(RouterConfig.shard_eq_ok_iff.mp hs).2, rfl⟩) herror) ?_
  rintro shard c₁ ⟨rfl, rfl⟩
  refine .bind _ (hinventory shard) ?_
  rintro sourceTables c₂ ⟨rfl, hsource⟩
  refine .bind (fun shard c' => shard = target ∧ c' = c₂)
    (always_compute (fun _ hs => ⟨(RouterConfig.shard_eq_ok_iff.mp hs).2, rfl⟩) herror) ?_
  rintro shard' c₃ ⟨rfl, rfl⟩
  refine .bind _ (hinventory shard') ?_
  rintro targetTables c₄ ⟨rfl, htarget⟩
  refine ⟨rfl, fun t => ?_⟩
  rw [Std.ExtTreeSet.mem_toList, Std.ExtTreeSet.mem_ofList]
  simp only [List.contains_iff_mem, List.mem_filter, List.mem_append,
    mem_registeredKeyspaces hsource, mem_registeredKeyspaces htarget, Bool.not_eq_true']
  have hglobal : isGlobalTable t = tableIsReserved t := rfl
  rw [hglobal, ← or_and_right]
  tauto

end Pass

end MultiDb
