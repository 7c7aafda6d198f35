import Mathlib.Data.List.TakeWhile
import MultiDb.Verification.Shard.Migration
import MultiDb.Verification.Txn.Replay

/-!
# Committed writes through a router

The runs are those whose migrations meet `MigrationGuard`: a migration does not see the locks
of a table that is in neither inventory.
-/

namespace MultiDb

open Shared

variable {C : Codecs} {cfg : RouterConfig} {map : ShardMap} {committed : WriteSet}
  {ids : List TxnId} {c : Cluster} {rows : List (Bytes × Bytes)} {t : String} {st st' : RouterState}
  {shard : ShardId} {k : Bytes}

theorem mem_of_mem_dedupByKey {row : Bytes × Bytes} (h : row ∈ dedupByKey rows) : row ∈ rows := by
  induction rows with
  | nil => exact h
  | cons first rows ih =>
    rcases List.mem_cons.mp h with rfl | h
    · exact List.mem_cons_self
    · exact List.mem_cons_of_mem _ (ih ((List.dropWhile_suffix _).mem h))

theorem mem_dedupByKey {row : Bytes × Bytes} (hkeys : ∀ a ∈ rows, ∀ b ∈ rows, a.1 = b.1 → a = b) :
    row ∈ dedupByKey rows ↔ row ∈ rows := by
  refine ⟨mem_of_mem_dedupByKey, fun hrow => ?_⟩
  induction rows with
  | nil => exact hrow
  | cons first rows ih =>
    rcases List.mem_cons.mp hrow with rfl | hrest
    · exact List.mem_cons_self
    · by_cases hkey : row.1 = first.1
      · rw [hkeys row hrow first List.mem_cons_self hkey]
        exact List.mem_cons_self
      · have hmem := ih (fun a ha b hb => hkeys a (List.mem_cons_of_mem _ ha) b
          (List.mem_cons_of_mem _ hb)) hrest
        refine List.mem_cons_of_mem _ ?_
        rw [← List.takeWhile_append_dropWhile (p := fun other => other.1 = first.1)
          (l := dedupByKey rows)] at hmem
        refine (List.mem_append.mp hmem).resolve_left fun hdropped => hkey ?_
        simpa using List.mem_takeWhile_imp hdropped

theorem exists_ownedRows (shard : ShardId)
    (hrouted : ∀ row ∈ rows, ∃ owner, map.shardFor C cfg t row.1 = .ok owner) :
    ∃ owned, ownedRows C cfg map shard t rows = .ok owned ∧
      ∀ row, row ∈ owned ↔ row ∈ rows ∧ map.shardFor C cfg t row.1 = .ok shard := by
  have htests : ∀ row ∈ rows, ∃ b : Bool,
      (do return (← map.shardFor C cfg t row.1) = shard : ReplResult Bool) = .ok b := by
    intro row hrow
    obtain ⟨owner, howner⟩ := hrouted row hrow
    exact ⟨owner = shard, by rw [howner]; rfl⟩
  obtain ⟨owned, howned⟩ := exists_filterM_eq_ok htests
  refine ⟨owned, howned, fun row => ?_⟩
  rw [(filterM_eq_ok howned).2.2 row]
  refine and_congr_right fun hrow => ?_
  simp only [bind_eq_ok_iff, pure_eq_ok_iff, decide_eq_true_eq]
  constructor
  · rintro ⟨owner, howner, rfl⟩
    exact howner
  · exact fun howner => ⟨shard, howner, rfl⟩

section Recovered

variable (h : RouterInv C cfg map committed none ids c) (hplaced : Placed cfg map)
  (hresolved : Resolved C cfg c)

include hplaced in
theorem Placed.owner_mem (howner : map.shardFor C cfg t k = .ok shard) : shard ∈ cfg.shards := by
  rw [ShardMap.shardFor, bind_eq_ok_iff] at howner
  obtain ⟨found, -, howner⟩ := howner
  cases found with
  | none =>
    obtain rfl := pure_eq_ok_iff.mp howner
    exact cfg.global_mem
  | some partition =>
    simp only [ShardMap.shardForPartition] at howner
    split at howner
    · rename_i shard' hshard
      obtain rfl := Except.ok.inj howner
      exact hplaced partition shard' hshard
    · contradiction

include h hplaced hresolved in
theorem RouterInv.get_owner
    (ht : tableIsReserved t = false) (howner : map.shardFor C cfg t k = .ok shard) :
    (c.stores shard).get t k = (committed.get t k).join :=
  h.settled shard t k ht howner fun _ ⟨record, hr, _⟩ =>
    hresolved shard (hplaced.owner_mem howner) record hr

include h hresolved in
theorem RouterInv.unlocked (hmem : shard ∈ cfg.shards) (lock : Bytes) :
    (c.stores shard).get locksTable lock = none :=
  (h.cluster.locks shard).unlocked (hresolved shard hmem) lock

include h hplaced hresolved in
theorem RouterInv.ends_routedRead {v : Option Bytes} (hget : committed.get t k = some v) :
    Ends C (fun answer _ => answer = v) (fun _ => False) (routedRead C cfg map t k) c := by
  obtain ⟨ht, ⟨lock, hlock⟩, owner, howner⟩ := h.committed_row t k v hget
  have hmem := hplaced.owner_mem howner
  have hread := (h.cluster.locks owner).read_eq hlock (h.unlocked hresolved hmem lock)
  rw [h.get_owner hplaced hresolved ht howner, hget] at hread
  refine .bind (fun shard c' => shard = owner ∧ c' = c) ?_ ?_
  · rw [howner]
    simp [RouterConfig.shard, hmem, Router.compute, Prog.Always, bind, Except.bind]
  · rintro shard c' ⟨rfl, rfl⟩
    exact ends_answered (.read t k) (fun _ _ _ => rfl) (fun _ => by rw [Request.exec, hread]; rfl)
      rfl rfl rfl

include h hplaced hresolved in
theorem RouterInv.ends_routedRange {v : Option Bytes}
    (hget : committed.get t k = some v) (start stop : Bytes) :
    Ends C (fun rows _ => ∀ key value, (key, value) ∈ rows ↔
        committed.get t key = some (some value) ∧ keyInRange start stop key = true)
      (fun _ => False) (routedRange C cfg map t start stop) c := by
  obtain ⟨ht, ⟨lock, hlock⟩, -⟩ := h.committed_row t k v hget
  have hglobal : isGlobalTable t = false := ht
  rw [routedRange, hglobal]
  simp only [Bool.false_eq_true, if_false]
  refine .bind (fun rows c' => ∀ key value, (key, value) ∈ rows ↔
      committed.get t key = some (some value) ∧ keyInRange start stop key = true) ?_ ?_
  · -- the shards visited so far have contributed the rows that they own
    refine Prog.Always.mono
      (.foldlM (fun left rows c' => c' = c ∧ ∃ done, done ++ left = cfg.shards ∧
        ∀ row, row ∈ rows ↔ ∃ shard ∈ done, row ∈ range (c.stores shard) t start stop ∧
          map.shardFor C cfg t row.1 = .ok shard) ⟨rfl, [], rfl, by simp⟩ ?_) ?_ fun _ he => he
    · rintro shard left rows c' ⟨rfl, done, hdone, hrows⟩
      have hmem : shard ∈ cfg.shards := hdone ▸ List.mem_append_right _ List.mem_cons_self
      have hscan := (h.cluster.locks shard).range_eq hlock (h.unlocked hresolved hmem) start stop
      refine .bind (fun found c'' => c'' = c' ∧ found = range (c'.stores shard) t start stop)
        (ends_answered (.range t start stop) (fun _ _ _ => rfl)
          (fun _ => by rw [Request.exec, hscan]) rfl rfl ⟨rfl, rfl⟩) ?_
      rintro found c₂ ⟨rfl, rfl⟩
      have hrouted : ∀ row ∈ range (c₂.stores shard) t start stop,
          ∃ owner, map.shardFor C cfg t row.1 = .ok owner := fun row hrow =>
        h.routed shard t row.1 ht (by simp [(mem_range.mp hrow).1])
      obtain ⟨owned, howned, hmemOwned⟩ := exists_ownedRows shard hrouted
      refine .bind (fun owned' c'' => c'' = c₂ ∧ owned' = owned) ?_ ?_
      · rw [howned]
        exact ⟨rfl, rfl⟩
      · rintro owned' c₃ ⟨rfl, rfl⟩
        refine ⟨rfl, done ++ [shard], by simpa using hdone, fun row => ?_⟩
        rw [List.mem_append, hrows, hmemOwned]
        simp only [List.mem_append, List.mem_singleton, or_and_right, exists_or, exists_eq_left]
    · rintro rows c' ⟨rfl, done, hdone, hrows⟩ key value
      rw [List.append_nil] at hdone
      rw [hrows, hdone]
      constructor
      · rintro ⟨shard, -, hrow, howner⟩
        obtain ⟨hvalue, hin⟩ := mem_range.mp hrow
        rw [h.get_owner hplaced hresolved ht howner, Option.join_eq_some_iff] at hvalue
        exact ⟨hvalue, hin⟩
      · rintro ⟨hvalue, hin⟩
        obtain ⟨-, -, owner, howner⟩ := h.committed_row t key _ hvalue
        refine ⟨owner, hplaced.owner_mem howner, mem_range.mpr ⟨?_, hin⟩, howner⟩
        rw [h.get_owner hplaced hresolved ht howner, hvalue]
        rfl
  · intro rows c' hrows key value
    refine (mem_dedupByKey ?_).trans (List.mem_mergeSort.trans (hrows key value))
    rintro ⟨key, value⟩ ha ⟨key', value'⟩ hb (rfl : key = key')
    have ha := ((hrows _ _).mp (List.mem_mergeSort.mp ha)).1
    have hb := ((hrows _ _).mp (List.mem_mergeSort.mp hb)).1
    rw [ha, Option.some.injEq, Option.some.injEq] at hb
    rw [hb]

end Recovered

/-! ## Runs -/

/-- A migration starts only under `MigrationGuard`. -/
def StepGuard (C : Codecs) (cfg : RouterConfig) (st : RouterState) (step : RouterStep) : Prop :=
  match step.op with
  | .migrate partition target => MigrationGuard C cfg st.map partition target st.cluster
  | _ => True

/-- Every migration of the run starts under its guard. -/
def GuardedRun (C : Codecs) (cfg : RouterConfig) : RouterState → List RouterStep → Prop
  | _, [] => True
  | st, step :: steps => StepGuard C cfg st step ∧
      ∀ st', st.step C cfg step = some st' → GuardedRun C cfg st' steps

/-- Reads and scans through the router return the committed writes. -/
def ReadsCommitted (C : Codecs) (cfg : RouterConfig) (st : RouterState) (c : Cluster) : Prop :=
  ∀ t k v, st.committed.get t k = some v → ∀ inputs,
    ((routedRead C cfg st.map t k).run (serveCall C) inputs c).1 = .ok v ∧
    ∀ start stop, ∃ rows,
      ((routedRange C cfg st.map t start stop).run (serveCall C) inputs c).1 = .ok rows ∧
      ∀ value, (k, value) ∈ rows ↔ v = some value ∧ keyInRange start stop k = true

/-- The invariant of a router between its operations. -/
structure RouterState.Inv (C : Codecs) (cfg : RouterConfig) (st : RouterState) : Prop where
  router : RouterInv C cfg st.map st.committed none st.cluster.allocated st.cluster
  placed : Placed cfg st.map

/-- Each operation keeps the invariant. -/
theorem RouterState.Inv.step {step : RouterStep} (h : st.Inv C cfg)
    (hguard : StepGuard C cfg st step) (hstep : st.step C cfg step = some st') : st'.Inv C cfg := by
  cases hop : step.op with
  | batch decidedAtMs ops =>
    have hends := (ends_proposeBatch h.router decidedAtMs ops).run step.inputs
    simp only [RouterState.step, hop] at hstep
    cases hrun : (proposeBatch C cfg st.map decidedAtMs ops).run (serveCall C) step.inputs
        st.cluster with
    | mk result c' =>
      have hkeeps : BatchKeeps C cfg st.map st.committed ops st.cluster result.isOk c' := by
        cases result with
        | ok u => exact hends.1 u c' hrun
        | error e => exact hends.2 e c' hrun
      rw [hrun] at hstep
      obtain ⟨outcome, houtcome, rfl⟩ := Option.map_eq_some_iff.mp hstep
      exact ⟨hkeeps outcome houtcome, h.placed⟩
  | migrate partition target =>
    simp only [StepGuard, hop] at hguard
    have hends := (ends_migratePartition h.router h.placed hguard).run step.inputs
    simp only [RouterState.step, hop] at hstep
    split at hstep
    · rename_i migration map' c' hrun
      cases hstep
      obtain ⟨hinv, hplaced, hallocated⟩ := hends.1 _ _ hrun migration map' rfl
      exact ⟨hallocated ▸ hinv, hplaced⟩
    · contradiction
  | recover =>
    have hends := (ends_recoverDistTxns h.router).run step.inputs
    simp only [RouterState.step, hop] at hstep
    cases hstep
    cases hrun : (recoverDistTxns C cfg).run (serveCall C) step.inputs st.cluster with
    | mk result c' =>
      cases result with
      | ok u =>
        obtain ⟨hinv, hallocated, -⟩ := hends.1 u c' hrun
        exact ⟨by rw [hallocated]; exact hinv, h.placed⟩
      | error e =>
        obtain ⟨hinv, hallocated⟩ := hends.2 e c' hrun
        exact ⟨by rw [hallocated]; exact hinv, h.placed⟩

theorem RouterState.Inv.run {steps : List RouterStep} (h : st.Inv C cfg)
    (hguard : GuardedRun C cfg st steps) (hrun : st.run C cfg steps = some st') :
    st'.Inv C cfg := by
  induction steps generalizing st with
  | nil =>
    cases hrun
    exact h
  | cons step steps ih =>
    rw [RouterState.run, List.foldlM_cons, Option.bind_eq_bind, Option.bind_eq_some_iff] at hrun
    obtain ⟨st₁, hstep, hrun⟩ := hrun
    exact ih (h.step hguard.1 hstep) (hguard.2 st₁ hstep) hrun

/-- A resolved router reads what was committed. -/
theorem RouterInv.readsCommitted {st : RouterState} {ids : List TxnId}
    (h : RouterInv C cfg st.map st.committed none ids c) (hplaced : Placed cfg st.map)
    (hresolved : Resolved C cfg c) : ReadsCommitted C cfg st c := by
  intro t k v hget inputs
  constructor
  · obtain ⟨hok, herror⟩ := (h.ends_routedRead hplaced hresolved hget).run inputs
    cases hrun : (routedRead C cfg st.map t k).run (serveCall C) inputs c with
    | mk result c' =>
      cases result with
      | ok answer => rw [hok answer c' hrun]
      | error e => exact (herror e c' hrun).elim
  · intro start stop
    obtain ⟨hok, herror⟩ := (h.ends_routedRange hplaced hresolved hget start stop).run inputs
    cases hrun : (routedRange C cfg st.map t start stop).run (serveCall C) inputs c with
    | mk result c' =>
      cases result with
      | ok rows =>
        refine ⟨rows, rfl, fun value => ?_⟩
        rw [hok rows c' hrun k value, hget, Option.some.injEq]
      | error e => exact (herror e c' hrun).elim

/-! ## Two shards -/

def twoShards : RouterConfig where
  shards := [1, 2]
  globalShard := 1
  sorted := by decide
  global_mem := by decide

def twoPartitions : ShardMap where
  version := 1
  partitions := 2
  placement := .ofList [((0 : PartitionId), (1 : ShardId)), (1, 2)]

/-- The rows of the sample batch: `c` is in the first partition and `a` in the second. -/
def sampleOps : List Op :=
  [.put "rows" (strBytes "c") [1], .put "rows" (strBytes "a") [2]]

def samplePrepared (op : Op) : PreparedTxnRecord where
  version := 1
  txnId := 1
  ops := [op]
  preparedAtMs := 0
  deadlineMs := 30000
  retryCount := 0

def samplePreparedJson (key value : String) : Bytes :=
  strBytes ("\x7b\"version\":1,\"txn_id\":1,\"ops\":[\x7b\"Put\":\x7b\"table\":\"rows\",\"key\":[" ++
    key ++ "],\"value\":[" ++ value ++ "]\x7d\x7d],\"prepared_at_ms\":0,\"deadline_ms\":30000," ++
    "\"retry_count\":0\x7d")

def sampleMigration (state : MigrationState) : ShardMigration where
  partition := 1
  source := 2
  target := 1
  state := state

def sampleMigrationJson (state : String) : Bytes :=
  strBytes ("\x7b\"partition\":1,\"from\":2,\"to\":1,\"state\":\"" ++ state ++ "\"\x7d")

def routerCodecs : Codecs where
  mvcc := wireMvcc
  commitLog := wireCommitLog
  legacyCommitLog := fun _ => .error ""
  hlc := wireHlc
  prepared := .ofTable
    [(samplePrepared (.put "rows" (strBytes "c") [1]), samplePreparedJson "99" "1"),
      (samplePrepared (.put "rows" (strBytes "a") [2]), samplePreparedJson "97" "2")] (by decide)
  decision := .ofTable
    [({ version := 1, txnId := 1, decision := .commit, decidedAtMs := 0, deadlineMs := 30000,
        retryCount := 0 },
      strBytes ("\x7b\"version\":1,\"txn_id\":1,\"decision\":\"Commit\",\"decided_at_ms\":0," ++
        "\"deadline_ms\":30000,\"retry_count\":0\x7d"))] (by decide)
  finished := .ofTable
    [({ version := 1, txnId := 1, decision := .commit, finishedAtMs := 0 },
      strBytes "\x7b\"version\":1,\"txn_id\":1,\"decision\":\"Commit\",\"finished_at_ms\":0\x7d")]
    (by decide)
  migration := .ofTable
    [(sampleMigration .copying, sampleMigrationJson "Copying"),
      (sampleMigration .switching, sampleMigrationJson "Switching"),
      (sampleMigration .done, sampleMigrationJson "Done")] (by decide)
  utf8Error := fun _ => ""
  blake3 key :=
    if key = strBytes "a" then
      [0x17, 0x76, 0x2f, 0xdd, 0xd9, 0x69, 0xa4, 0x53, 0x92, 0x5d, 0x65, 0x71, 0x7a, 0xc3, 0xee,
        0xa2, 0x13, 0x20, 0xb6, 0x6b, 0x54, 0x34, 0x2f, 0xde, 0x15, 0x12, 0x8d, 0x6c, 0xaf, 0x21,
        0x21, 0x5f]
    else if key = strBytes "c" then
      [0xea, 0x7a, 0xa1, 0xfc, 0x9e, 0xfd, 0xbe, 0x10, 0x6d, 0xbb, 0x70, 0x36, 0x9a, 0x75, 0xe9,
        0x67, 0x1f, 0xa2, 0x9d, 0x52, 0xbd, 0x55, 0x53, 0x67, 0x11, 0xbf, 0x19, 0x74, 0x77, 0xb8,
        0xf0, 0x21]
    else []

def answered : ℕ → CallInput := fun _ => { env := epochEnv }

def finishesLost : ℕ → CallInput := fun _ =>
  { env := epochEnv, fault := some (.lost .conflict) }

def sampleBatch (inputs : ℕ → CallInput) : RouterStep :=
  { op := .batch 0 sampleOps, inputs }

def sampleMove : RouterStep :=
  { op := .migrate 1 1, inputs := answered }

theorem twoShards_accepts : twoShards.accepts twoPartitions = true := by
  decide

theorem map_of_sampleBatch {inputs : ℕ → CallInput}
    (h : st.step C cfg (sampleBatch inputs) = some st') : st'.map = st.map := by
  obtain ⟨outcome, -, rfl⟩ := Option.map_eq_some_iff.mp h
  rfl

theorem migrationGuard_of_no_participants {partition : PartitionId} {source target : ShardId}
    (hsource : map.shardForPartition partition = .ok source)
    (hempty : range (c.stores source) distTxnParticipantTable [] [] = []) :
    MigrationGuard C cfg map partition target c := by
  rintro source' hsource' - t k v - ⟨record, ⟨bytes, hget, -⟩, -⟩
  cases hsource.symm.trans hsource'
  rw [range_all_eq_nil_iff.mp hempty] at hget
  contradiction

/-- After a recovery rows read back their last committed write, if migrations meet their guard. -/
theorem readsCommitted_runRouter (C : Codecs) (cfg : RouterConfig) (map : ShardMap)
    (steps : List RouterStep) (st : RouterState) (inputs : ℕ → CallInput) (c : Cluster)
    (hmap : cfg.accepts map = true)
    (hrun : (RouterState.init map).run C cfg steps = some st)
    (hguard : GuardedRun C cfg (.init map) steps)
    (hrecover : (recoverDistTxns C cfg).run (serveCall C) inputs st.cluster = (.ok (), c)) :
    ReadsCommitted C cfg st c := by
  have hinit : (RouterState.init map).Inv C cfg :=
    ⟨routerInv_init C cfg map, placed_of_accepts hmap⟩
  have hinv := hinit.run hguard hrun
  obtain ⟨hrouter, -, hresolved⟩ :=
    ((ends_recoverDistTxns hinv.router).run inputs).1 () c hrecover
  exact hrouter.readsCommitted hinv.placed hresolved

def recovered (st : RouterState) : Option Cluster :=
  match (recoverDistTxns routerCodecs twoShards).run (serveCall routerCodecs) answered
    st.cluster with
  | (.ok _, c) => some c
  | _ => none

theorem recovered_eq_some {st : RouterState} {c : Cluster} (h : recovered st = some c) :
    (recoverDistTxns routerCodecs twoShards).run (serveCall routerCodecs) answered st.cluster =
      (.ok (), c) := by
  rw [recovered] at h
  split at h
  · rename_i u c' hrecover
    rw [hrecover, Option.some.inj h]
  · contradiction

def movedAndRecovered : Option Cluster :=
  ((RouterState.init twoPartitions).step routerCodecs twoShards (sampleBatch answered)).bind
    fun st =>
    if range (st.cluster.stores 2) distTxnParticipantTable [] [] = [] then
      (st.step routerCodecs twoShards sampleMove).bind recovered
    else none

/-- With lost finishes, a migration and a recovery: whether the row `a` is lost. -/
def losesCommittedRow (st : RouterState) (c : Cluster) : Bool :=
  st.committed.get "rows" (strBytes "a") = some (some [(2 : UInt8)]) &&
    ((routedRead routerCodecs twoShards st.map "rows" (strBytes "a")).run (serveCall routerCodecs)
      answered c).1.toOption = some none

set_option maxRecDepth 20000 in
theorem sampleRuns : (movedAndRecovered.isSome &&
    ((RouterState.init twoPartitions).run routerCodecs twoShards
      [sampleBatch finishesLost, sampleMove]).any fun st =>
        (recovered st).any fun c => losesCommittedRow st c) = true := by
  decide +kernel

theorem readsCommitted_runRouter_moved : ∃ st c,
    (RouterState.init twoPartitions).run routerCodecs twoShards [sampleBatch answered, sampleMove] =
      some st ∧
    (recoverDistTxns routerCodecs twoShards).run (serveCall routerCodecs) answered st.cluster =
      (.ok (), c) ∧
    ReadsCommitted routerCodecs twoShards st c := by
  obtain ⟨c, hresult⟩ := Option.isSome_iff_exists.mp (Bool.and_eq_true_iff.mp sampleRuns).1
  obtain ⟨st₁, hbatch, hresult⟩ := Option.bind_eq_some_iff.mp hresult
  split at hresult
  · rename_i hempty
    obtain ⟨st₂, hmove, hresult⟩ := Option.bind_eq_some_iff.mp hresult
    have hrecover := recovered_eq_some hresult
    have hrun : (RouterState.init twoPartitions).run routerCodecs twoShards
        [sampleBatch answered, sampleMove] = some st₂ := by
      simp only [RouterState.run, List.foldlM_cons, hbatch, Option.bind_eq_bind, Option.bind_some,
        hmove]
      rfl
    have hguard : GuardedRun routerCodecs twoShards (.init twoPartitions)
        [sampleBatch answered, sampleMove] := by
      refine ⟨trivial, fun st hst => ⟨?_, fun _ _ => trivial⟩⟩
      cases hst.symm.trans hbatch
      refine migrationGuard_of_no_participants ?_ hempty
      rw [map_of_sampleBatch hst]
      rfl
    exact ⟨st₂, c, hrun, hrecover,
      readsCommitted_runRouter _ _ _ _ _ _ _ twoShards_accepts hrun hguard hrecover⟩
  · cases hresult

/-- A transaction is in doubt on a row that no inventory has, and the recovery applies it to the old
shard. -/
theorem committed_row_lost_by_migration :
    ¬ ∀ (C : Codecs) (cfg : RouterConfig) (map : ShardMap) (steps : List RouterStep)
      (st : RouterState) (inputs : ℕ → CallInput) (c : Cluster), cfg.accepts map = true →
      (RouterState.init map).run C cfg steps = some st →
      (recoverDistTxns C cfg).run (serveCall C) inputs st.cluster = (.ok (), c) →
      ReadsCommitted C cfg st c := by
  intro hreads
  obtain ⟨st, hrun, hlost⟩ := (Option.any_eq_true _ _).mp (Bool.and_eq_true_iff.mp sampleRuns).2
  obtain ⟨c, hrecover, hlost⟩ := (Option.any_eq_true _ _).mp hlost
  simp only [losesCommittedRow, Bool.and_eq_true, decide_eq_true_eq] at hlost
  obtain ⟨hcommitted, hread⟩ := hlost
  have hreads := hreads _ _ _ _ st answered c twoShards_accepts hrun (recovered_eq_some hrecover)
  rw [(hreads _ _ _ hcommitted answered).1] at hread
  exact absurd (Option.some.inj hread) (by simp)

end MultiDb
