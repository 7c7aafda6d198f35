import MultiDb.Verification.Shard.MigrationCopies

/-!
# Partition migrations

A migration fails when a row of its tables is locked on the source, so none of their rows is
in doubt when the partition moves.
-/

namespace MultiDb

open Shared

variable {C : Codecs} {cfg : RouterConfig} {c c' : Cluster} {table : String}

section Calls

variable {map : ShardMap} {committed : WriteSet} {ids : List TxnId} {partition : PartitionId}
  {source target : ShardId} {c₀ : Cluster} {known : Set Empty}

/-- Inventories and scans, copies of rows that the target does not own, and records. -/
inductive MigrationCall (C : Codecs) (cfg : RouterConfig) (map : ShardMap) (target : ShardId) :
    Call → Prop
  | registeredKeyspaces (shard : ShardId) :
      MigrationCall C cfg map target ⟨shard, .registeredKeyspaces⟩
  | range (shard : ShardId) (table : String) :
      MigrationCall C cfg map target ⟨shard, .range table [] []⟩
  | copy (ops : List Op) (hstray : ∀ t k v, (opsToWriteSet ops).get t k = some v →
      ∃ owner, map.shardFor C cfg t k = .ok owner ∧ owner ≠ target) :
      MigrationCall C cfg map target ⟨target, .proposeBatch ops⟩
  | record (key bytes : Bytes) : MigrationCall C cfg map target
      ⟨cfg.globalShard, .proposeAuthorizedBatch [.put shardMigrationsTable key bytes]⟩

abbrev Migrating (C : Codecs) (cfg : RouterConfig) (map : ShardMap) (target : ShardId)
    (known : Set Empty) {α : Type} (program : Router α) : Prop :=
  program.Honest (fun _ => MigrationCall C cfg map target) (fun _ _ => ∅) known fun _ _ => True

theorem migrating_setMigration (C : Codecs) (cfg : RouterConfig) (map : ShardMap)
    (target : ShardId) (known : Set Empty) (migration : ShardMigration) :
    Migrating C cfg map target known (setMigration C cfg migration) :=
  .seq trivial fun _ bytes _ => ⟨.record _ bytes, fun _ => trivial⟩

/-- A copy pass makes only the calls a migration may make. -/
theorem migrating_copyPass {scanned : ShardId} {table : String} {op : Bytes × Bytes → Op}
    (hsource : map.shardForPartition partition = .ok source) (hne : source ≠ target)
    (htable : ∀ row, (op row).table = table) (hkey : ∀ row, (op row).key = row.1) :
    Migrating C cfg map target known (copyPass C cfg map partition scanned target table op) := by
  refine .seq trivial fun _ shard _ => ?_
  refine .seq ⟨.range shard table, fun _ => trivial⟩ fun _ rows _ => ?_
  refine .forM fun batch _ known' _ => ?_
  refine .bind (fun _ result => ∀ ops, result = .ok ops →
      ∀ t k v, (opsToWriteSet ops).get t k = some v → InPartition C map partition t k)
    (fun ops hops t k v hget => ?_) (fun known' ops _ hops => ?_) fun _ _ _ _ => trivial
  · obtain ⟨rows, rfl, hrows⟩ := partitionOps_eq_ok hops
    obtain ⟨rfl, row, hrow, rfl, -⟩ := get_opsToWriteSet_map htable hkey hget
    exact ((hrows row).mp hrow).2
  · have hstray : ∀ t k v, (opsToWriteSet ops).get t k = some v →
        ∃ owner, map.shardFor C cfg t k = .ok owner ∧ owner ≠ target := by
      intro t k v hget
      refine ⟨source, ?_, hne⟩
      rw [ShardMap.shardFor, hops ops rfl t k v hget]
      exact hsource
    split
    · exact trivial
    · refine .bind (fun _ result => ∀ shard, result = .ok shard → shard = target)
        (fun shard hshard => (RouterConfig.shard_eq_ok_iff.mp hshard).2)
        (fun known' shard _ hshard => ?_) fun _ _ _ _ => trivial
      rw [hshard shard rfl]
      exact ⟨.copy ops hstray, fun _ => trivial⟩

theorem migrating_startMigration (known : Set Empty) :
    Migrating C cfg map target known (startMigration C cfg map partition target) := by
  refine .bind (fun _ result => ∀ shard, result = .ok shard → shard = target)
    (fun shard hshard => (RouterConfig.shard_eq_ok_iff.mp hshard).2) (fun _ shard _ hshard => ?_)
    fun _ _ _ _ => trivial
  rw [hshard shard rfl]
  refine .bind (fun _ result => ∀ source, result = .ok source →
      map.shardForPartition partition = .ok source) (fun source hsource => hsource)
    (fun _ source _ hsource => ?_) fun _ _ _ _ => trivial
  have hsource := hsource source rfl
  by_cases hsame : source = target
  · simp only [if_pos hsame]
    exact .seq (migrating_setMigration C cfg map target _ _) fun _ _ _ => trivial
  · simp only [if_neg hsame]
    refine .seq ?_ fun _ tables _ => .seq (migrating_setMigration C cfg map target _ _)
      fun _ _ _ => .seq ?_ ?_
    · refine .seq trivial fun _ shard _ => ?_
      refine .seq ⟨.registeredKeyspaces shard, fun _ => trivial⟩ fun _ _ _ => ?_
      refine .seq trivial fun _ shard' _ => ?_
      exact .seq ⟨.registeredKeyspaces shard', fun _ => trivial⟩ fun _ _ _ => trivial
    · refine .attempt (.forM fun table _ _ _ => ?_)
      refine .seq (migrating_copyPass hsource hsame (fun _ => rfl) fun _ => rfl) fun _ _ _ => ?_
      exact migrating_copyPass hsource hsame (fun _ => rfl) fun _ => rfl
    · intro _ result _
      cases result with
      | error e =>
        exact .seq (.attempt (migrating_setMigration C cfg map target _ _)) fun _ _ _ => trivial
      | ok _ => exact .seq (migrating_setMigration C cfg map target _ _) fun _ _ _ => trivial

/-! ## What a migration carries -/

/-- The invariant, and that transactions and their decisions are as they were. -/
structure Carries (C : Codecs) (cfg : RouterConfig) (map : ShardMap) (committed : WriteSet)
    (ids : List TxnId) (c c' : Cluster) : Prop where
  inv : RouterInv C cfg map committed none ids c'
  allocated : c'.allocated = c.allocated
  prepared : ∀ shard record,
    Prepared C (c'.stores shard) record ↔ Prepared C (c.stores shard) record
  durable : ∀ id d, Durable C (c'.stores cfg.globalShard) id d ↔
    Durable C (c.stores cfg.globalShard) id d

theorem Carries.refl (h : RouterInv C cfg map committed none ids c) :
    Carries C cfg map committed ids c c :=
  ⟨h, rfl, fun _ _ => Iff.rfl, fun _ _ => Iff.rfl⟩

theorem Carries.plain {shard : ShardId} {s' : Store} (h : Carries C cfg map committed ids c₀ c)
    (hinv : RouterInv C cfg map committed none ids c') (hallocated : c'.allocated = c.allocated)
    (hupdates : Updates c shard s' c') (hplain : PlainStep C (c.stores shard) s')
    (hcoordinator : ∀ k, s'.get distTxnCoordinatorTable k =
      (c.stores shard).get distTxnCoordinatorTable k) :
    Carries C cfg map committed ids c₀ c' := by
  refine ⟨hinv, hallocated.trans h.allocated, fun other record => ?_, fun id d => ?_⟩
  · rw [← h.prepared]
    exact hupdates.forall (P := fun other s => Prepared C s record ↔
      Prepared C (c.stores other) record) hplain.prepared_iff (fun _ _ => Iff.rfl) other
  · rw [← h.durable]
    exact hupdates.durable_iff hcoordinator

/-- A call of a migration keeps the rows of the other partitions. -/
theorem Carries.exec {env : Env} {call : Call} (h : Carries C cfg map committed ids c₀ c)
    (hcall : MigrationCall C cfg map target call) :
    Carries C cfg map committed ids c₀ (c.exec C env call).2 := by
  cases hcall with
  | registeredKeyspaces shard =>
    have hsame : c.exec C env ⟨shard, .registeredKeyspaces⟩ =
        (SingleNode.registeredKeyspaces C (c.stores shard), c) := Cluster.exec_same rfl rfl rfl
    rw [hsame]
    exact h
  | range shard table =>
    have hsame : c.exec C env ⟨shard, .range table [] []⟩ =
        (SingleNode.range (c.stores shard) table [] [], c) := Cluster.exec_same rfl rfl rfl
    rw [hsame]
    exact h
  | copy ops hstray =>
    cases hexec : c.exec C env ⟨target, .proposeBatch ops⟩ with
    | mk reply c' =>
      cases reply with
      | error e => exact Cluster.exec_error hexec ▸ h
      | ok answer =>
        obtain ⟨hcluster, hallocated, s', hresult, hupdates⟩ :=
          h.inv.cluster.exec_spec (.proposeBatch ops) trivial hexec
        have hwrites := (proposeBatch_commits (written_map_ok hresult)).writesRows
        refine h.plain ?_ hallocated hupdates hwrites.step.plain fun k =>
          hwrites.step.get_coordinator (by decide) k
        refine h.inv.write hcluster hupdates hwrites (fun t k v hv => ?_)
          (fun t k howner => ?_) fun _ _ _ => rfl
        · obtain ⟨owner, howner, -⟩ := hstray t k v hv
          exact ⟨owner, howner⟩
        · -- the target does not own the rows of the batch
          have hnone : (opsToWriteSet ops).get t k = none := by
            by_contra hwritten
            obtain ⟨v, hv⟩ := Option.ne_none_iff_exists'.mp hwritten
            obtain ⟨owner, howner', hne⟩ := hstray t k v hv
            exact hne (Except.ok.inj (howner'.symm.trans howner))
          rw [hnone, Option.none_or]
  | record key bytes =>
    cases hexec : c.exec C env ⟨cfg.globalShard, .proposeAuthorizedBatch
        [.put shardMigrationsTable key bytes]⟩ with
    | mk reply c' =>
      cases reply with
      | error e => exact Cluster.exec_error hexec ▸ h
      | ok answer =>
        obtain ⟨hcluster, hallocated, s', hresult, hupdates⟩ :=
          h.inv.cluster.exec_spec (.proposeAuthorizedBatch
            [.put shardMigrationsTable key bytes]) ⟨_, _, rfl⟩ hexec
        have hputs := putsRow_of_authorizedBatch (by decide) (written_map_ok hresult)
        exact h.plain (h.inv.puts hcluster hupdates (by decide) (by decide) hputs) hallocated
          hupdates hputs.plain fun k =>
            hputs.coordinator (by decide) fun heq => absurd heq (by decide)

theorem Migrating.ends {α : Type} {program : Router α}
    (h : Migrating C cfg map target known program) (hinv : Carries C cfg map committed ids c₀ c) :
    Ends C (fun _ c' => Carries C cfg map committed ids c₀ c')
      (fun c' => Carries C cfg map committed ids c₀ c') program c := by
  refine h.always hinv fun input c call hcall hc => ?_
  have hserve : serveCall C input c call = c.exec C input.env call := by
    cases hcall <;> rfl
  rw [hserve]
  exact hc.exec hcall

theorem Faulty.ends {α : Type} {ok : α → Cluster → Prop} {error : Cluster → Prop}
    {program : Router α} (h : Faulty C ok error program c) : Ends C ok error program c := by
  refine h.of_serves fun input c call => ?_
  obtain ⟨shard, request⟩ := call
  cases request with
  | finishDistTxn txnId decision => exact ⟨input, rfl⟩
  | _ => exact ⟨{ input with fault := none }, rfl⟩

end Calls

section Migration

variable {map map' : ShardMap} {committed : WriteSet} {ids : List TxnId}
  {partition : PartitionId} {source target : ShardId} {tables : List String}

theorem ends_startMigration (h : RouterInv C cfg map committed none ids c) :
    Ends C (fun migration c' => FaultyStart C cfg map partition target c migration c' ∧
        Carries C cfg map committed ids c c')
      (fun _ => True) (startMigration C cfg map partition target) c :=
  ((faulty_startMigration C cfg map partition target c).ends.and
    ((migrating_startMigration ∅).ends (.refl h))).mono (fun _ _ hc => hc)
    fun _ _ => trivial

theorem ShardMap.route_eq_of_partitions (hpartitions : map'.partitions = map.partitions)
    (t : String) (k : Bytes) : map'.route C t k = map.route C t k := by
  rw [ShardMap.route, ShardMap.route, ShardMap.partitionOf, ShardMap.partitionOf, hpartitions]

theorem reassignPartition_eq_ok (h : map.reassignPartition partition target = .ok map') :
    map'.partitions = map.partitions ∧ map'.placement[partition]? = some target ∧
      ∀ other ≠ partition, map'.placement[other]? = map.placement[other]? := by
  rw [ShardMap.reassignPartition] at h
  cases hplaced : map.placement[partition]? with
  | none => simp [hplaced] at h
  | some current =>
    rw [hplaced] at h
    by_cases hsame : current = target
    · simp only [if_pos hsame, Except.ok.injEq] at h
      rw [← h, hplaced, hsame]
      exact ⟨rfl, rfl, fun _ _ => rfl⟩
    · simp only [if_neg hsame] at h
      cases hversion : checkedSucc map.version with
      | none => simp [hversion] at h
      | some version =>
        simp only [hversion, Except.ok.injEq] at h
        rw [← h]
        refine ⟨rfl, by simp, fun other hother => ?_⟩
        simp [Std.ExtTreeMap.getElem?_insert, hother.symm]

/-- Only the moved partition changes its shard. -/
theorem shardFor_reassignPartition (C : Codecs) (cfg : RouterConfig)
    (h : map.reassignPartition partition target = .ok map') (t : String) (k : Bytes) :
    (InPartition C map partition t k → map'.shardFor C cfg t k = .ok target) ∧
    (¬ InPartition C map partition t k →
      map'.shardFor C cfg t k = map.shardFor C cfg t k) := by
  obtain ⟨hpartitions, hplaced, hothers⟩ := reassignPartition_eq_ok h
  rw [ShardMap.shardFor, ShardMap.shardFor, ShardMap.route_eq_of_partitions hpartitions]
  constructor
  · intro hin
    rw [hin]
    simp [bind, Except.bind, ShardMap.shardForPartition, hplaced]
  · intro hout
    cases hroute : map.route C t k with
    | error e => rfl
    | ok found =>
      cases found with
      | none => rfl
      | some other =>
        have hother : other ≠ partition := by
          rintro rfl
          exact hout hroute
        simp [bind, Except.bind, ShardMap.shardForPartition, hothers other hother]

/-! ## The moved partition -/

/-- No committed transaction is in doubt on rows of the partition in unregistered tables. -/
def MigrationGuard (C : Codecs) (cfg : RouterConfig) (map : ShardMap) (partition : PartitionId)
    (target : ShardId) (c : Cluster) : Prop :=
  ∀ source, map.shardForPartition partition = .ok source → source ≠ target →
    ∀ t k v, InPartition C map partition t k → InDoubt C cfg c source t k v →
      Registered (c.stores source) t ∨ Registered (c.stores target) t

/-- Under the guard, the moved rows are what the new map's readers should see. -/
theorem Carries.moved (h : Carries C cfg map committed ids c c')
    (hrows : MovedRows C cfg map partition source target c tables c')
    (hsource : map.shardForPartition partition = .ok source) (hne : source ≠ target)
    (hinv : RouterInv C cfg map committed none ids c)
    (htables : ∀ t, t ∈ tables ↔
      (Registered (c.stores source) t ∨ Registered (c.stores target) t) ∧
        tableIsReserved t = false)
    (hguard : MigrationGuard C cfg map partition target c)
    (hmap : map.reassignPartition partition target = .ok map') :
    RouterInv C cfg map' committed none ids c' := by
  have hmoved := fun t k => shardFor_reassignPartition C cfg hmap t k
  have howner : ∀ t k, InPartition C map partition t k →
      map.shardFor C cfg t k = .ok source := by
    intro t k hin
    rw [ShardMap.shardFor, hin]
    exact hsource
  -- a row of the partition is not in doubt: the copies would have met its lock
  have hdoubt : ∀ shard t k v, InPartition C map partition t k →
      ¬ InDoubt C cfg c shard t k v := by
    intro shard t k v hin hd
    obtain rfl : shard = source :=
      Except.ok.inj ((hinv.in_doubt shard t k v hd).1.symm.trans (howner t k hin))
    have hmem := (htables t).mpr
      ⟨hguard shard hsource hne t k v hin hd, public_of_inPartition hin⟩
    obtain ⟨record, hr, -, hrow⟩ := hd
    have hlocked : hasRangeLocks (c.stores shard) t [] [] = .ok true :=
      (hinv.cluster.locks shard).hasRangeLocks_eq_true_iff.mpr
        ⟨record, k, v, hr, hrow, by cases k <;> rfl, Or.inl rfl⟩
    rw [(hrows.free t hmem).1] at hlocked
    contradiction
  have hsame : ∀ shard t k v, InDoubt C cfg c' shard t k v ↔ InDoubt C cfg c shard t k v := by
    simp only [InDoubt, h.prepared, h.durable, implies_true]
  have hroutable : ∀ t k owner, map.shardFor C cfg t k = .ok owner →
      ∃ owner, map'.shardFor C cfg t k = .ok owner := by
    intro t k owner h
    by_cases hin : InPartition C map partition t k
    · exact ⟨target, (hmoved t k).1 hin⟩
    · exact ⟨owner, (hmoved t k).2 hin ▸ h⟩
  constructor
  case cluster => exact h.inv.cluster
  case inventoried => exact h.inv.inventoried
  case known => exact h.inv.known
  case decided => exact h.inv.decided
  case in_doubt =>
    intro shard t k v hd
    have hout : ¬ InPartition C map partition t k := fun hin =>
      hdoubt shard t k v hin ((hsame shard t k v).mp hd)
    rw [(hmoved t k).2 hout]
    exact h.inv.in_doubt shard t k v hd
  case settled =>
    intro shard t k ht hown hnone
    by_cases hin : InPartition C map partition t k
    · rw [(hmoved t k).1 hin] at hown
      cases hown
      rw [← hinv.settled source t k ht (howner t k hin) fun v => hdoubt source t k v hin]
      by_cases hmem : t ∈ tables
      · exact hrows.copied t hmem k hin
      · -- neither shard has a row of an unregistered table
        have habsent : ∀ shard, (Registered (c.stores shard) t → t ∈ tables) →
            (c.stores shard).get t k = none := by
          intro shard hregistered
          by_contra hrow
          exact hmem (hregistered (hinv.inventoried shard t k ht hrow))
        rw [hrows.kept t k ht fun h => absurd h hmem,
          habsent target fun hr => (htables t).mpr ⟨Or.inr hr, ht⟩,
          habsent source fun hr => (htables t).mpr ⟨Or.inl hr, ht⟩]
    · rw [(hmoved t k).2 hin] at hown
      exact h.inv.settled shard t k ht hown hnone
  case routed =>
    intro shard t k ht hrow
    obtain ⟨owner, hown⟩ := h.inv.routed shard t k ht hrow
    exact hroutable t k owner hown
  case committed_row =>
    intro t k v hget
    obtain ⟨ht, hlock, owner, hown⟩ := h.inv.committed_row t k v hget
    exact ⟨ht, hlock, hroutable t k owner hown⟩

/-- The map places partitions on configured shards only. -/
def Placed (cfg : RouterConfig) (map : ShardMap) : Prop :=
  ∀ (partition : PartitionId) (shard : ShardId), map.placement[partition]? = some shard →
    shard ∈ cfg.shards

theorem placed_of_accepts (h : cfg.accepts map = true) : Placed cfg map := by
  intro partition shard hplaced
  rw [RouterConfig.accepts, List.all_eq_true] at h
  have hmem := Std.ExtTreeMap.mem_toList_iff_getElem?_eq_some.mpr hplaced
  exact of_decide_eq_true (h _ hmem)

theorem Placed.reassignPartition (h : Placed cfg map) (htarget : target ∈ cfg.shards)
    (hmap : map.reassignPartition partition target = .ok map') : Placed cfg map' := by
  obtain ⟨-, hplaced, hothers⟩ := reassignPartition_eq_ok hmap
  intro other shard hother
  by_cases heq : other = partition
  · rw [heq, hplaced, Option.some.injEq] at hother
    exact hother ▸ htarget
  · rw [hothers other heq] at hother
    exact h other shard hother

/-- A migration that succeeds keeps the invariant for its placement. -/
theorem ends_migratePartition (h : RouterInv C cfg map committed none ids c)
    (hplaced : Placed cfg map) (hguard : MigrationGuard C cfg map partition target c) :
    Ends C (fun result c' => ∀ migration map', result = (.ok migration, map') →
        RouterInv C cfg map' committed none ids c' ∧ Placed cfg map' ∧
          c'.allocated = c.allocated)
      (fun _ => True) (migratePartition C cfg map partition target) c := by
  refine .bind (fun result c' => ∀ migration, result = .ok migration →
      FaultyStart C cfg map partition target c migration c' ∧ Carries C cfg map committed ids c c')
    (.attempt ((ends_startMigration h).mono (fun migration c' hstarted _ heq => ?_)
      fun c' _ e _ heq => by contradiction)) ?_
  · exact Except.ok.inj heq ▸ hstarted
  intro result c₁ hstarted
  cases result with
  | error e =>
    intro migration map' heq
    exact absurd (Prod.mk.inj heq).1 (by simp)
  | ok migration =>
    obtain ⟨hstart, hcarries⟩ := hstarted migration rfl
    cases hstart with
    | placed hstate _ _ =>
      simp only [if_pos hstate]
      intro migration' map' heq
      cases heq
      exact ⟨hcarries.inv, hplaced, hcarries.allocated⟩
    | copied source tables hstate _ _ hsource hne htarget hrows htables =>
      have hnotDone : migration.state ≠ .done := by simp [hstate]
      simp only [if_neg hnotDone]
      cases hmap : map.reassignPartition partition target with
      | error e =>
        refine .bind (fun _ _ => True)
          (.attempt ((Prog.always_true _ _).mono (fun _ _ _ => trivial) fun _ _ _ => trivial))
          fun _ _ _ => ?_
        intro migration' map' heq
        exact absurd (Prod.mk.inj heq).1 (by simp)
      | ok placed =>
        have hmoved := hcarries.moved hrows hsource hne h htables hguard hmap
        have hset := (migrating_setMigration C cfg placed target ∅
          { migration with state := .done }).ends (.refl hmoved)
        refine .bind (fun _ c' => Carries C cfg placed committed ids c₁ c')
          (.attempt (hset.mono (fun _ _ hc' => hc') fun _ hc' _ => hc')) ?_
        intro result c₂ hc₂
        cases result with
        | error e =>
          intro migration' map' heq
          exact absurd (Prod.mk.inj heq).1 (by simp)
        | ok u =>
          intro migration' map' heq
          cases heq
          exact ⟨hc₂.inv, hplaced.reassignPartition htarget hmap,
            hc₂.allocated.trans hcarries.allocated⟩

end Migration

end MultiDb
