import MultiDb.Verification.Shard.Scans

/-!
# Migrations with failing calls

Every call of a migration may fail, before the shard has seen it or after it was served.
-/

namespace MultiDb

open Shared

variable {C : Codecs} {cfg : RouterConfig} {map placed : ShardMap} {partition : PartitionId}
  {source target shard : ShardId} {c c' c₁ c₂ : Cluster} {tables : List String} {t : String}
  {k : Bytes} {migration : ShardMigration} {inputs : ℕ → CallInput}

/-! ### Reads through a placement -/

/-- What a read through the map answers. -/
def readThrough (C : Codecs) (cfg : RouterConfig) (map : ShardMap) (c : Cluster) (t : String)
    (k : Bytes) : ReplResult (Option Bytes) := do
  let shard ← map.shardFor C cfg t k >>= cfg.shard
  SingleNode.read (c.stores shard) t k

theorem reads_routedRead_iff {result : ReplResult (Option Bytes)} :
    Reads C c (routedRead C cfg map t k) result ↔ readThrough C cfg map c t k = result := by
  have hread : Reads C c (routedRead C cfg map t k) (readThrough C cfg map c t k) := by
    rw [routedRead, readThrough]
    cases map.shardFor C cfg t k >>= cfg.shard with
    | error e => exact (reads_compute _).bind_error
    | ok shard => exact (reads_compute _).bind (reads_read shard t k)
  exact ⟨hread.unique, fun h => h ▸ hread⟩

theorem readThrough_of_owner
    (howner : map.shardFor C cfg t k = .ok shard) (hmem : shard ∈ cfg.shards) :
    readThrough C cfg map c t k = SingleNode.read (c.stores shard) t k := by
  simp [readThrough, howner, RouterConfig.shard, hmem, bind, Except.bind]

theorem KeepsOwned.readThrough_eq (h : KeepsOwned C cfg map c c')
    (ht : tableIsReserved t = false) : readThrough C cfg map c' t k =
    readThrough C cfg map c t k := by
  rw [readThrough, readThrough]
  cases howner : map.shardFor C cfg t k with
  | error e => rfl
  | ok owner =>
    have hread := (h.locks owner).read (h.rows owner t k ht howner)
    simp only [bind, Except.bind, RouterConfig.shard]
    split
    · rfl
    · rename_i shard heq
      obtain ⟨-, rfl⟩ := RouterConfig.shard_eq_ok_iff.mp heq
      exact hread

theorem MovedRows.readThrough_eq
    (h : MovedRows C cfg map partition source target c tables c') (htarget : target ∈ cfg.shards)
    (hmap : map.reassignPartition partition target = .ok placed)
    (hin : InPartition C map partition t k) (hmem : t ∈ tables) :
    readThrough C cfg placed c' t k = .ok ((c.stores source).get t k) := by
  have ht := public_of_inPartition hin
  have hfree : hasRangeLocks (c'.stores target) t [] [] = .ok false := by
    rw [(h.keeps.locks target).hasRangeLocks]
    exact (h.free t hmem).2
  rw [readThrough_of_owner ((shardFor_reassignPartition C cfg hmap t k).1 hin) htarget,
    read_of_unlocked ht hfree, h.copied t hmem k hin]

/-! ### The promise of a migration -/

/-- If a migration fails, placement and reads are as before; if it succeeds, the rows of the
partition are those of the old owner. -/
def OwnershipKept (C : Codecs) (cfg : RouterConfig) (map : ShardMap) (partition : PartitionId)
    (c : Cluster) (map' : ShardMap) (c' : Cluster) : ReplResult ShardMigration → Prop
  | .error _ => map' = map ∧ ∀ t k, InPartition C map partition t k →
      ∀ r, Reads C c (routedRead C cfg map t k) r → Reads C c' (routedRead C cfg map' t k) r
  | .ok migration =>
    (∀ t k v, tableIsReserved t = false → (InPartition C map partition t k →
        Registered (c.stores migration.source) t ∨ Registered (c.stores migration.target) t) →
      Reads C c (routedRead C cfg map t k) (.ok v) →
      Reads C c' (routedRead C cfg map' t k) (.ok v)) ∧
    (∀ t k, InPartition C map partition t k → migration.source ≠ migration.target →
      Registered (c.stores migration.target) t → (c.stores migration.source).get t k = none →
      Reads C c' (routedRead C cfg map' t k) (.ok none)) ∧
    ((∀ shard, Inventoried (c.stores shard)) → ∀ t k, InPartition C map partition t k →
      (c'.stores migration.target).get t k = (c.stores migration.source).get t k)

/-- The inputs of the calls after `startMigration`; the first of them is that of the last record. -/
def laterInputs (C : Codecs) (cfg : RouterConfig) (map : ShardMap) (partition : PartitionId)
    (target : ShardId) (inputs : ℕ → CallInput) (c : Cluster) : ℕ → CallInput :=
  fun n => inputs (n + (startMigration C cfg map partition target).used (serveFaulty C) inputs c)

/-- The record that is written after the placement has changed is accepted: it can be encoded, its
call has no fault, and the global shard commits it. -/
def DoneAccepted (C : Codecs) (cfg : RouterConfig) (map : ShardMap) (partition : PartitionId)
    (target : ShardId) (inputs : ℕ → CallInput) (c : Cluster) : Prop :=
  ∀ migration c₁ placed,
    (startMigration C cfg map partition target).run (serveFaulty C) inputs c = (.ok migration, c₁) →
    migration.state = .switching → map.reassignPartition partition target = .ok placed →
    let last := laterInputs C cfg map partition target inputs c 0
    ∃ bytes s', C.migration.toVec { migration with state := .done } = .ok bytes ∧
      last.fault = none ∧
      SingleNode.proposeAuthorizedBatch C last.env (c₁.stores cfg.globalShard)
        [.put shardMigrationsTable (beBytes 4 migration.partition.toNat) bytes] = .ok s'

theorem run_setMigration {bytes : Bytes} (hbytes : C.migration.toVec migration = .ok bytes) :
    (setMigration C cfg migration).run (serveFaulty C) inputs c =
      serveFaulty C (inputs 0) c ⟨cfg.globalShard, .proposeAuthorizedBatch
        [.put shardMigrationsTable (beBytes 4 migration.partition.toNat) bytes]⟩ := by
  rw [setMigration, hbytes]
  rfl

theorem run_setMigration_ok_iff :
    (∃ c', (setMigration C cfg migration).run (serveFaulty C) inputs c = (.ok (), c')) ↔
    ∃ bytes s', C.migration.toVec migration = .ok bytes ∧ (inputs 0).fault = none ∧
      SingleNode.proposeAuthorizedBatch C (inputs 0).env (c.stores cfg.globalShard)
        [.put shardMigrationsTable (beBytes 4 migration.partition.toNat) bytes] = .ok s' := by
  cases hbytes : C.migration.toVec migration with
  | error e => simp [setMigration, hbytes, Except.mapError, Prog.run_bind, Router.compute, Prog.run]
  | ok bytes =>
    rw [run_setMigration hbytes, serveFaulty]
    simp only [Except.ok.injEq, exists_and_left, exists_eq_left']
    cases (inputs 0).fault with
    | some fault => cases fault <;> simp
    | none =>
      simp only [Cluster.exec, Request.exec]
      cases SingleNode.proposeAuthorizedBatch C (inputs 0).env (c.stores cfg.globalShard)
          [.put shardMigrationsTable (beBytes 4 migration.partition.toNat) bytes] <;>
        simp [written, Except.map]

theorem KeepsOwned.ownershipKept (h : KeepsOwned C cfg map c c') (e : ReplError) :
    OwnershipKept C cfg map partition c map c' (.error e) := by
  refine ⟨rfl, fun t k hin r hread => ?_⟩
  rw [reads_routedRead_iff] at hread ⊢
  rw [h.readThrough_eq (public_of_inPartition hin), hread]

theorem SameRows.ownershipKept (h : SameRows c c')
    (hplaced : migration.source = migration.target) :
    OwnershipKept C cfg map partition c map c' (.ok migration) := by
  refine ⟨fun t k v ht _ hread => ?_, fun t k _ hne => absurd hplaced hne, fun _ t k hin => ?_⟩
  · rw [reads_routedRead_iff] at hread ⊢
    rw [h.keepsOwned.readThrough_eq ht, hread]
  · rw [h.rows _ t k (public_of_inPartition hin), hplaced]

theorem MovedRows.ownershipKept (h : MovedRows C cfg map partition source target c tables c')
    (hfrom : migration.source = source) (hto : migration.target = target)
    (hsource : map.shardForPartition partition = .ok source) (htarget : target ∈ cfg.shards)
    (hmap : map.reassignPartition partition target = .ok placed)
    (htables : ∀ t, t ∈ tables ↔
      (Registered (c.stores source) t ∨ Registered (c.stores target) t) ∧
        tableIsReserved t = false) :
    OwnershipKept C cfg map partition c placed c' (.ok migration) := by
  subst hfrom hto
  refine ⟨fun t k v ht hregistered hread => ?_, fun t k hin _ hregistered hnone => ?_,
    fun hinv t k hin => ?_⟩
  · rw [reads_routedRead_iff] at hread ⊢
    by_cases hin : InPartition C map partition t k
    · have hmem := (htables t).mpr ⟨hregistered hin, ht⟩
      have howner : map.shardFor C cfg t k = .ok migration.source := by
        rw [ShardMap.shardFor, hin]
        exact hsource
      have hshard : migration.source ∈ cfg.shards := by
        obtain ⟨shard, hshard, -⟩ := bind_eq_ok_iff.mp hread
        rw [howner] at hshard
        exact (RouterConfig.shard_eq_ok_iff.mp hshard).1
      have hread' : readThrough C cfg map c t k = .ok ((c.stores migration.source).get t k) := by
        rw [readThrough_of_owner howner hshard, read_of_unlocked ht (h.free t hmem).1]
      rw [h.readThrough_eq htarget hmap hin hmem, ← hread', hread]
    · have hsame := (shardFor_reassignPartition C cfg hmap t k).2 hin
      have hkeeps := h.keeps.readThrough_eq ht (k := k)
      rw [← hread, ← hkeeps, readThrough, readThrough, hsame]
  · rw [reads_routedRead_iff, h.readThrough_eq htarget hmap hin
      ((htables t).mpr ⟨Or.inr hregistered, public_of_inPartition hin⟩), hnone]
  · have ht := public_of_inPartition hin
    by_cases hmem : t ∈ tables
    · exact h.copied t hmem k hin
    · -- neither shard has a row of a table that is in no inventory
      have habsent : ∀ shard, (Registered (c.stores shard) t → t ∈ tables) →
          (c.stores shard).get t k = none := by
        intro shard hregistered
        by_contra hrow
        exact hmem (hregistered (hinv shard t k ht hrow))
      rw [h.kept t k ht fun hmem' => absurd hmem' hmem,
        habsent _ fun hr => (htables t).mpr ⟨Or.inr hr, ht⟩,
        habsent _ fun hr => (htables t).mpr ⟨Or.inl hr, ht⟩]

theorem reassignPartition_ne
    (hsource : map.shardForPartition partition = .ok source) (hne : source ≠ target)
    (hmap : map.reassignPartition partition target = .ok placed) : placed ≠ map := by
  rintro rfl
  have hplaced := (reassignPartition_eq_ok hmap).2.1
  rw [ShardMap.shardForPartition, hplaced] at hsource
  exact hne (Except.ok.inj hsource).symm

/-! ### Runs -/

theorem run_migratePartition_failed {e : ReplError}
    (h : (startMigration C cfg map partition target).run (serveFaulty C) inputs c =
    (.error e, c₁)) : (migratePartition C cfg map partition target).run (serveFaulty C) inputs c =
      (.ok (.error e, map), c₁) := by
  rw [migratePartition, Prog.run_bind, Prog.run_attempt, h]
  rfl

theorem run_migratePartition_placed
    (h : (startMigration C cfg map partition target).run (serveFaulty C) inputs c =
      (.ok migration, c₁)) (hstate : migration.state = .done) :
    (migratePartition C cfg map partition target).run (serveFaulty C) inputs c =
      (.ok (.ok migration, map), c₁) := by
  rw [migratePartition, Prog.run_bind, Prog.run_attempt, h]
  simp only [hstate, if_true]
  rfl

theorem run_migratePartition_refused {e : ReplError}
    (h : (startMigration C cfg map partition target).run (serveFaulty C) inputs c =
      (.ok migration, c₁)) (hstate : migration.state = .switching)
    (hmap : map.reassignPartition partition target = .error e) :
    (migratePartition C cfg map partition target).run (serveFaulty C) inputs c =
      (.ok (.error e, map), ((setMigration C cfg { migration with state := .aborted }).run
        (serveFaulty C) (laterInputs C cfg map partition target inputs c) c₁).2) := by
  rw [migratePartition, Prog.run_bind, Prog.run_attempt, Prog.used_attempt, h]
  simp only [hstate, hmap, reduceCtorEq, if_false]
  rw [Prog.run_bind, Prog.run_attempt]
  rfl

theorem run_migratePartition_switched
    (h : (startMigration C cfg map partition target).run (serveFaulty C) inputs c =
      (.ok migration, c₁)) (hstate : migration.state = .switching)
    (hmap : map.reassignPartition partition target = .ok placed) {r : ReplResult Unit}
    (hdone : (setMigration C cfg { migration with state := .done }).run (serveFaulty C)
      (laterInputs C cfg map partition target inputs c) c₁ = (r, c₂)) :
    (migratePartition C cfg map partition target).run (serveFaulty C) inputs c =
      (.ok (r.map fun _ => { migration with state := .done }, placed), c₂) := by
  unfold laterInputs at hdone
  rw [migratePartition, Prog.run_bind, Prog.run_attempt, Prog.used_attempt, h]
  simp only [hstate, hmap, reduceCtorEq, if_false]
  rw [Prog.run_bind, Prog.run_attempt, hdone]
  cases r <;> rfl

theorem sameRows_of_setMigration (C : Codecs) (cfg : RouterConfig) (migration : ShardMigration)
    (inputs : ℕ → CallInput) (c : Cluster) :
    SameRows c ((setMigration C cfg migration).run (serveFaulty C) inputs c).2 := by
  obtain ⟨hok, herror⟩ := (faulty_setMigration (C := C) (c := c) cfg migration).run inputs
  cases hrun : (setMigration C cfg migration).run (serveFaulty C) inputs c with
  | mk r c' =>
    cases r with
    | ok u => exact hok u c' hrun
    | error e => exact herror e c' hrun

/-- A migration keeps its promise exactly when its last record is accepted. -/
theorem migratePartition_ownership (C : Codecs) (cfg : RouterConfig) (map : ShardMap)
    (partition : PartitionId) (target : ShardId) (inputs : ℕ → CallInput) (c : Cluster) :
    ∃ result map' c', (migratePartition C cfg map partition target).run (serveFaulty C) inputs c =
        (.ok (result, map'), c') ∧
      (OwnershipKept C cfg map partition c map' c' result ↔
        DoneAccepted C cfg map partition target inputs c) := by
  obtain ⟨hok, herror⟩ := (faulty_startMigration C cfg map partition target c).run inputs
  cases hrun : (startMigration C cfg map partition target).run (serveFaulty C) inputs c with
  | mk started c₁ =>
    cases started with
    | error e =>
      refine ⟨_, _, _, run_migratePartition_failed hrun, fun _ migration c₂ placed hstart => ?_,
        fun _ => (herror e c₁ hrun).ownershipKept e⟩
      rw [hrun] at hstart
      exact absurd (Prod.mk.inj hstart).1 (by simp)
    | ok migration =>
      have hstarted : ∀ migration' c₂, (startMigration C cfg map partition target).run
          (serveFaulty C) inputs c = (.ok migration', c₂) → migration' = migration ∧ c₂ = c₁ := by
        intro migration' c₂ hstart
        obtain ⟨heq, rfl⟩ := Prod.mk.inj (hrun.symm.trans hstart)
        exact ⟨(Except.ok.inj heq).symm, rfl⟩
      cases hok migration c₁ hrun with
      | placed hstate hsame hplaced =>
        refine ⟨_, _, _, run_migratePartition_placed hrun hstate,
          fun _ migration' c₂ placed hstart hswitching => ?_,
          fun _ => hsame.ownershipKept hplaced⟩
        obtain ⟨rfl, rfl⟩ := hstarted migration' c₂ hstart
        rw [hstate] at hswitching
        contradiction
      | copied source tables hstate hfrom hto hsource hne htarget hmoved htables =>
        cases hmap : map.reassignPartition partition target with
        | error e =>
          have hsame := sameRows_of_setMigration C cfg
            { migration with state := .aborted }
            (laterInputs C cfg map partition target inputs c) c₁
          refine ⟨_, _, _, run_migratePartition_refused hrun hstate hmap,
            fun _ migration' c₂ placed _ _ hplaced => ?_,
            fun _ => (hmoved.keeps.trans hsame.keepsOwned).ownershipKept e⟩
          rw [hmap] at hplaced
          contradiction
        | ok placed =>
          have hsame := sameRows_of_setMigration C cfg
            { migration with state := .done }
            (laterInputs C cfg map partition target inputs c) c₁
          cases hdone : (setMigration C cfg { migration with state := .done }).run
              (serveFaulty C) (laterInputs C cfg map partition target inputs c) c₁ with
          | mk r c₂ =>
            rw [hdone] at hsame
            refine ⟨_, _, _, run_migratePartition_switched hrun hstate hmap hdone, ?_⟩
            cases r with
            | ok u =>
              refine ⟨fun _ migration' c₃ placed' hstart _ _ => ?_, fun _ => ?_⟩
              · obtain ⟨rfl, rfl⟩ := hstarted migration' c₃ hstart
                exact run_setMigration_ok_iff.mp ⟨c₂, hdone⟩
              · exact (hmoved.sameRows hsame).ownershipKept hfrom hto hsource htarget hmap
                  htables
            | error e =>
              refine ⟨fun hkept => ?_, fun haccepted => ?_⟩
              · exact absurd hkept.1 (reassignPartition_ne hsource hne hmap)
              · obtain ⟨c₃, hc₃⟩ := run_setMigration_ok_iff.mpr
                  (haccepted migration c₁ placed hrun hstate hmap)
                rw [hdone] at hc₃
                exact absurd (Prod.mk.inj hc₃).1 (by simp)

def lastRecordLost : ℕ → CallInput := fun n =>
  { env := epochEnv, fault := if n = 4 then some (.lost (.transport "unreachable")) else none }

def movedAndFailed :
    ReplResult (ReplResult ShardMigration × ShardMap) × Cluster → Bool
  | (.ok (.error _, map'), _) => map'.placement[(1 : PartitionId)]? = some 1
  | _ => false

theorem movedAndFailed_eq_true
    {outcome : ReplResult (ReplResult ShardMigration × ShardMap) × Cluster}
    (h : movedAndFailed outcome = true) : ∃ e map' c', outcome = (.ok (.error e, map'), c') ∧
      map'.placement[(1 : PartitionId)]? = some 1 := by
  unfold movedAndFailed at h
  split at h
  · exact ⟨_, _, _, rfl, of_decide_eq_true h⟩
  · contradiction

theorem movedAndFailed_sample : movedAndFailed ((migratePartition routerCodecs twoShards
    twoPartitions 1 1).run (serveFaulty routerCodecs) lastRecordLost .empty) = true := by
  decide +kernel

/-- The last record gets lost: the caller sees an error, and the partition has a new owner. -/
theorem partition_moved_by_failed_migration :
    ¬ ∀ (C : Codecs) (cfg : RouterConfig) (map : ShardMap) (partition : PartitionId)
      (target : ShardId) (inputs : ℕ → CallInput) (c c' : Cluster)
      (result : ReplResult ShardMigration) (map' : ShardMap),
      (migratePartition C cfg map partition target).run (serveFaulty C) inputs c =
        (.ok (result, map'), c') →
      OwnershipKept C cfg map partition c map' c' result := by
  intro hkept
  obtain ⟨e, map', c', hrun, hmoved⟩ := movedAndFailed_eq_true movedAndFailed_sample
  obtain ⟨rfl, -⟩ := hkept _ _ _ _ _ _ _ _ _ _ hrun
  exact absurd hmoved (by decide)

end MultiDb
