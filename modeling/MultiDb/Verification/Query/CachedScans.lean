import MultiDb.Verification.Query.BatchCache

/-!
# Cached scans over whole runs

The stores of a run are ordered by the token of the row table, so a fill that sees one token
before and after its scan files the rows of that token.
-/

namespace MultiDb

open Shared

variable {t : String}

/-- The store, the cache and the scans that run against them. -/
structure ScanWorld (σ β : Type) where
  store : Store
  cache : BatchCache σ β
  scans : List (ScanRequest σ × ScanStage σ β)

/-- Writes and the steps of scans, interleaved. -/
inductive ScanWorld.Step (σ β : Type)
  | write (env : Env) (call : WriterCall)
  | scan (request : ScanRequest σ)
  | advance (i : ℕ) (env : ScanEnv β)

namespace ScanWorld

variable {σ β : Type} [DecidableEq σ] (C : RelCodecs) (A : Arrow σ β)

def init (performance : PerformanceConfig) : ScanWorld σ β :=
  { store := .empty, cache := .new performance, scans := [] }

/-- One step; an advance moves one scan to its next stage. -/
def step (w : ScanWorld σ β) : Step σ β → ScanWorld σ β
  | .write env call => { w with store := WriterCall.step C.toCodecs w.store (env, call) }
  | .scan request => { w with scans := w.scans ++ [(request, .started)] }
  | .advance i env =>
    match w.scans[i]? with
    | none => w
    | some (request, stage) =>
      let (stage, cache) := scanStep C A env w.store w.cache request stage
      { w with cache, scans := w.scans.set i (request, stage) }

def run (performance : PerformanceConfig) (steps : List (Step σ β)) : ScanWorld σ β :=
  steps.foldl (step C A) (init performance)

end ScanWorld

/-! ## The stores of a run -/

variable {σ β : Type} [DecidableEq σ] {C : RelCodecs} {A : Arrow σ β}
  {performance : PerformanceConfig} {steps : List (ScanWorld.Step σ β)} {p q : Store}

/-- The run has passed through this store. -/
def Passed (C : RelCodecs) (A : Arrow σ β) (performance : PerformanceConfig)
    (steps : List (ScanWorld.Step σ β)) (p : Store) : Prop :=
  ∃ before after, steps = before ++ after ∧ p = (ScanWorld.run C A performance before).store

theorem ScanWorld.run_append (before after : List (ScanWorld.Step σ β)) :
    ScanWorld.run C A performance (before ++ after) =
      after.foldl (ScanWorld.step C A) (ScanWorld.run C A performance before) :=
  List.foldl_append

theorem store_step (w : ScanWorld σ β) (step : ScanWorld.Step σ β) :
    (w.step C A step).store = w.store ∨
      ∃ call, (w.step C A step).store = WriterCall.step C.toCodecs w.store call := by
  cases step with
  | write env call => exact Or.inr ⟨(env, call), rfl⟩
  | scan request => exact Or.inl rfl
  | advance i env =>
    rw [ScanWorld.step]
    cases w.scans[i]? <;> exact Or.inl rfl

theorem VersionInv.foldl (after : List (ScanWorld.Step σ β)) {w : ScanWorld σ β}
    (hinv : VersionInv w.store) :
    VersionInv (after.foldl (ScanWorld.step C A) w).store ∧ ∀ t, tableIsReserved t = false →
      Precedes t w.store (after.foldl (ScanWorld.step C A) w).store := by
  induction after generalizing w with
  | nil => exact ⟨hinv, fun t ht => hinv.precedes_self ht⟩
  | cons step after ih =>
    have hstep : VersionInv (w.step C A step).store ∧ ∀ t, tableIsReserved t = false →
        Precedes t w.store (w.step C A step).store := by
      rcases store_step (C := C) (A := A) w step with heq | ⟨call, heq⟩
      · rw [heq]
        exact ⟨hinv, fun t ht => hinv.precedes_self ht⟩
      · rw [heq]
        exact hinv.step call
    obtain ⟨hinv', hafter⟩ := ih hstep.1
    exact ⟨hinv', fun t ht => (hstep.2 t ht).trans (hafter t ht)⟩

theorem versionInv_run (C : RelCodecs) (A : Arrow σ β) (performance : PerformanceConfig)
    (steps : List (ScanWorld.Step σ β)) : VersionInv (ScanWorld.run C A performance steps).store :=
  (VersionInv.foldl steps (w := ScanWorld.init performance) versionInv_empty).1

theorem passed_last : Passed C A performance steps (ScanWorld.run C A performance steps).store :=
  ⟨steps, [], (List.append_nil steps).symm, rfl⟩

theorem Passed.append (h : Passed C A performance steps p)
    (more : List (ScanWorld.Step σ β)) : Passed C A performance (steps ++ more) p := by
  obtain ⟨before, after, rfl, rfl⟩ := h
  exact ⟨before, after ++ more, List.append_assoc _ _ _, rfl⟩

theorem Passed.precedes_last (h : Passed C A performance steps p) (ht : tableIsReserved t = false) :
    Precedes t p (ScanWorld.run C A performance steps).store := by
  obtain ⟨before, after, rfl, rfl⟩ := h
  rw [ScanWorld.run_append]
  exact (VersionInv.foldl after (versionInv_run C A performance before)).2 t ht

/-- Any two stores a run passes are ordered by its commits. -/
theorem Passed.total (hp : Passed C A performance steps p) (hq : Passed C A performance steps q)
    (ht : tableIsReserved t = false) : Precedes t p q ∨ Precedes t q p := by
  obtain ⟨before, after, hsteps, rfl⟩ := hp
  obtain ⟨before', after', hsteps', rfl⟩ := hq
  rcases List.append_eq_append_iff.mp (hsteps.symm.trans hsteps') with
    ⟨middle, rfl, -⟩ | ⟨middle, rfl, -⟩
  · left
    exact Passed.precedes_last ⟨before, middle, rfl, rfl⟩ ht
  · right
    exact Passed.precedes_last ⟨before', middle, rfl, rfl⟩ ht

theorem Passed.rows_eq (hp : Passed C A performance steps p) (hq : Passed C A performance steps q)
    {v : TxnId} (hpv : readTableDataVersionFrom p t = .ok (some v))
    (hqv : readTableDataVersionFrom q t = .ok (some v)) (k : Bytes) : p.get t k = q.get t k := by
  obtain ⟨ht, -, hpv⟩ := readTableDataVersionFrom_eq_some_iff.mp hpv
  obtain ⟨-, -, hqv⟩ := readTableDataVersionFrom_eq_some_iff.mp hqv
  rcases hp.total hq ht with h | h
  · exact h.rows_eq hpv hqv k
  · exact (h.rows_eq hqv hpv k).symm

/-- The version of the rows table at this store. -/
def RowsAt (s : Store) (v : TxnId) : Prop :=
  readTableDataVersionFrom s relRowsTable = .ok (some v)

theorem rowsDataVersion_eq_ok {s : Store} {v : TxnId} :
    rowsDataVersion s = .ok (some v) ↔ RowsAt s v :=
  mapError_eq_ok_iff

theorem ScanEnv.read_eq_ok {α : Type} {env : ScanEnv β} {x : QueryResult α} {a : α}
    (h : env.read x = .ok a) : x = .ok a := by
  rw [ScanEnv.read] at h
  split at h
  · contradiction
  · exact h

omit [DecidableEq σ] in
theorem scanRecordBatches_congr {key : BatchKey σ} {batches : List β} {v : TxnId}
    (hrows : ∀ k, p.get relRowsTable k = q.get relRowsTable k) (hq : RowsAt q v)
    (h : scanRecordBatches C A p key = .ok batches) :
    scanRecordBatches C A q key = .ok batches := by
  obtain ⟨rows, hrange, h⟩ := bind_eq_ok_iff.mp h
  have hsame : range p relRowsTable (tablePrefixBytes key.table)
      (rangeEnd (tablePrefixBytes key.table)) = range q relRowsTable (tablePrefixBytes key.table)
      (rangeEnd (tablePrefixBytes key.table)) := Tables.scan_congr fun k _ => hrows k
  obtain ⟨_, -, heq⟩ := bind_eq_ok_iff.mp (mapError_eq_ok_iff.mp hrange)
  obtain rfl := pure_eq_ok_iff.mp heq
  rw [scanRecordBatches, range_of_dataVersion hq, ← hsame]
  exact h

/-! ## The invariant -/

/-- Batches that a scan returns in a passed store with the token of the key. -/
def Filed (C : RelCodecs) (A : Arrow σ β) (performance : PerformanceConfig)
    (steps : List (ScanWorld.Step σ β)) (key : BatchKey σ) (batches : List β) : Prop :=
  ∃ p, Passed C A performance steps p ∧ RowsAt p key.version ∧
    scanRecordBatches C A p key = .ok batches

def ScanStage.key : ScanStage σ β → Option (BatchKey σ)
  | .versioned key _ => some key
  | .missed key => some key
  | .filled key _ => some key
  | .unmoved key _ => some key
  | .hit key _ _ => some key
  | _ => none

/-- What a scan has established when it reaches a stage. -/
def StageInv (C : RelCodecs) (A : Arrow σ β) (performance : PerformanceConfig)
    (steps : List (ScanWorld.Step σ β)) : ScanStage σ β → Prop
  | .versioned key readAt => Passed C A performance steps readAt ∧ RowsAt readAt key.version
  | .missed key => ∃ p, Passed C A performance steps p ∧ RowsAt p key.version
  | .filled key batches => ∃ p q, Passed C A performance steps p ∧ Passed C A performance steps q ∧
      Precedes relRowsTable p q ∧ RowsAt p key.version ∧ scanRecordBatches C A q key = .ok batches
  | .unmoved key batches => Filed C A performance steps key batches
  | .hit key readAt batches => Passed C A performance steps readAt ∧
      RowsAt readAt key.version ∧ scanRecordBatches C A readAt key = .ok batches
  | _ => True

/-- What holds of the cache and of the scans after these steps. -/
structure CacheInv (C : RelCodecs) (A : Arrow σ β) (performance : PerformanceConfig)
    (steps : List (ScanWorld.Step σ β)) (w : ScanWorld σ β) : Prop where
  limits : w.cache.maxBytes = (BatchCache.new performance : BatchCache σ β).maxBytes ∧
    w.cache.maxEntries = (BatchCache.new performance : BatchCache σ β).maxEntries
  bounded : w.cache.Bounded
  entries : ∀ value ∈ w.cache.entries.values,
    Filed C A performance steps value.1 value.2.batches
  scans : ∀ scan ∈ w.scans, StageInv C A performance steps scan.2
  keys : ∀ scan ∈ w.scans, ∀ key, scan.2.key = some key → key = scan.1.key key.version

theorem Filed.append {key : BatchKey σ} {batches : List β}
    (h : Filed C A performance steps key batches) (more : List (ScanWorld.Step σ β)) :
    Filed C A performance (steps ++ more) key batches := by
  obtain ⟨p, hp, hrest⟩ := h
  exact ⟨p, hp.append more, hrest⟩

theorem StageInv.append {stage : ScanStage σ β} (h : StageInv C A performance steps stage)
    (more : List (ScanWorld.Step σ β)) : StageInv C A performance (steps ++ more) stage := by
  cases stage with
  | versioned key readAt => exact ⟨h.1.append more, h.2⟩
  | missed key =>
    obtain ⟨p, hp, hrest⟩ := h
    exact ⟨p, hp.append more, hrest⟩
  | filled key batches =>
    obtain ⟨p, q, hp, hq, hrest⟩ := h
    exact ⟨p, q, hp.append more, hq.append more, hrest⟩
  | unmoved key batches => exact Filed.append h more
  | hit key readAt batches => exact ⟨h.1.append more, h.2⟩
  | _ => trivial

theorem Filed.scan_eq {key : BatchKey σ} {batches : List β}
    (h : Filed C A performance steps key batches) (hq : Passed C A performance steps q)
    (hqv : RowsAt q key.version) : scanRecordBatches C A q key = .ok batches := by
  obtain ⟨p, hp, hpv, hscan⟩ := h
  exact scanRecordBatches_congr (hp.rows_eq hq hpv hqv) hqv hscan

theorem filed_of_unmoved {key : BatchKey σ} {batches : List β} {s : Store}
    (h : StageInv C A performance steps (.filled key batches))
    (hlast : s = (ScanWorld.run C A performance steps).store) (hs : RowsAt s key.version) :
    Filed C A performance steps key batches := by
  obtain ⟨p, q, hp, hq, hpq, hpv, hscan⟩ := h
  have hqs : Precedes relRowsTable q s := hlast ▸ hq.precedes_last (by decide)
  obtain ⟨-, -, hpv'⟩ := readTableDataVersionFrom_eq_some_iff.mp hpv
  obtain ⟨-, -, hsv'⟩ := readTableDataVersionFrom_eq_some_iff.mp hs
  -- the token of the filled store lies between two equal tokens
  have hqv : storedDataVersion q relRowsTable = .ok key.version := by
    obtain ⟨v, w, hv, hw, hle, -⟩ := hpq
    obtain ⟨w', x, hw', hx, hle', -⟩ := hqs
    cases hpv'.symm.trans hv
    cases hsv'.symm.trans hx
    cases hw.symm.trans hw'
    rw [hw, UInt64.toNat_inj.mp (Nat.le_antisymm hle' hle)]
  have hpassed : Passed C A performance steps s := hlast ▸ passed_last
  exact ⟨s, hpassed, hs, scanRecordBatches_congr (hqs.rows_eq hqv hsv') hs hscan⟩

/-- The outcome of a step: the cache is bounded and filed, and so is the stage. -/
structure StepInv (C : RelCodecs) (A : Arrow σ β) (performance : PerformanceConfig)
    (steps : List (ScanWorld.Step σ β)) (c : BatchCache σ β)
    (r : ScanStage σ β × BatchCache σ β) : Prop where
  limits : r.2.maxBytes = c.maxBytes ∧ r.2.maxEntries = c.maxEntries
  bounded : r.2.Bounded
  entries : ∀ value ∈ r.2.entries.values, Filed C A performance steps value.1 value.2.batches
  stage : StageInv C A performance steps r.1

section Step

variable {w : ScanWorld σ β} {c : BatchCache σ β}

theorem StepInv.same {stage : ScanStage σ β} (hinv : CacheInv C A performance steps w)
    (h : StageInv C A performance steps stage) :
    StepInv C A performance steps w.cache (stage, w.cache) :=
  ⟨⟨rfl, rfl⟩, hinv.bounded, hinv.entries, h⟩

theorem StepInv.looks {key : BatchKey σ} {r : QueryResult (Option (List β)) × BatchCache σ β}
    (hlooks : Looks w.cache key r) (hinv : CacheInv C A performance steps w)
    {stage : ScanStage σ β} (h : StageInv C A performance steps stage) :
    StepInv C A performance steps w.cache (stage, r.2) := by
  refine ⟨⟨hlooks.maxBytes, hlooks.maxEntries⟩, hlooks.bounded hinv.bounded, ?_, h⟩
  intro value hvalue
  obtain ⟨old, hold, hkey, hbatches⟩ := hlooks.mem hvalue
  rw [← hkey, ← hbatches]
  exact hinv.entries old hold

theorem limits_insert (key : BatchKey σ) (batches : List β) (picks : ℕ → ℕ) :
    (c.insert A key batches picks).maxBytes = c.maxBytes ∧
      (c.insert A key batches picks).maxEntries = c.maxEntries := by
  rw [BatchCache.insert]
  by_cases hskip : c.maxBytes < A.weight key batches ∨ c.maxEntries = 0 <;> simp [hskip]

theorem key_scanStep {env : ScanEnv β} {s : Store} {request : ScanRequest σ} {stage : ScanStage σ β}
    {key : BatchKey σ} (hold : ∀ key, stage.key = some key → key = request.key key.version)
    (h : (scanStep C A env s c request stage).1.key = some key) :
    key = request.key key.version := by
  cases stage with
  | started =>
    rw [scanStep] at h
    split at h
    · contradiction
    · split at h
      · contradiction
      · contradiction
      · cases h
        rfl
  | uncached =>
    rw [scanStep] at h
    split at h <;> contradiction
  | versioned key' readAt =>
    rw [scanStep] at h
    split at h
    · contradiction
    · exact hold key h
    · exact hold key h
  | missed key' =>
    rw [scanStep] at h
    split at h
    · contradiction
    · exact hold key h
  | filled key' batches =>
    rw [scanStep] at h
    split at h
    · contradiction
    · split at h
      · exact hold key h
      · contradiction
  | unmoved key' batches => contradiction
  | hit key' readAt batches => exact hold key h
  | scanned batches => contradiction
  | failed error => contradiction

/-- Each stage of a scan establishes what the next one needs. -/
theorem CacheInv.scanStep (hinv : CacheInv C A performance steps w)
    (hw : w = ScanWorld.run C A performance steps) (env : ScanEnv β) (request : ScanRequest σ)
    {stage : ScanStage σ β} (hstage : StageInv C A performance steps stage) :
    StepInv C A performance steps w.cache
      (scanStep C A env w.store w.cache request stage) := by
  have hpassed : Passed C A performance steps w.store := hw ▸ passed_last
  cases stage with
  | started =>
    rw [MultiDb.scanStep]
    split
    · exact .same hinv trivial
    · split
      · exact .same hinv trivial
      · exact .same hinv trivial
      · rename_i version hread
        exact .same hinv ⟨hpassed, rowsDataVersion_eq_ok.mp (ScanEnv.read_eq_ok hread)⟩
  | uncached =>
    rw [MultiDb.scanStep]
    split <;> exact .same hinv trivial
  | versioned key readAt =>
    rw [MultiDb.scanStep]
    have hlooks := looks_get w.cache key env.charge
    obtain ⟨hreadAt, hversion⟩ := hstage
    split
    · rename_i error cache hget
      rw [hget] at hlooks
      exact StepInv.looks hlooks hinv trivial
    · rename_i batches cache hget
      rw [hget] at hlooks
      obtain ⟨entry, hentry, rfl⟩ := hlooks.found batches rfl
      exact StepInv.looks hlooks hinv
        ⟨hreadAt, hversion, (hinv.entries _ hentry).scan_eq hreadAt hversion⟩
    · rename_i cache hget
      rw [hget] at hlooks
      exact StepInv.looks hlooks hinv ⟨readAt, hreadAt, hversion⟩
  | missed key =>
    rw [MultiDb.scanStep]
    obtain ⟨p, hp, hversion⟩ := hstage
    split
    · exact .same hinv trivial
    · rename_i batches hread
      have hprecedes : Precedes relRowsTable p w.store := hw ▸ hp.precedes_last (by decide)
      exact .same hinv
        ⟨p, w.store, hp, hpassed, hprecedes, hversion, ScanEnv.read_eq_ok hread⟩
  | filled key batches =>
    rw [MultiDb.scanStep]
    split
    · exact .same hinv trivial
    · rename_i version hread
      split
      · rename_i heq
        subst heq
        have hversion := rowsDataVersion_eq_ok.mp (ScanEnv.read_eq_ok hread)
        exact .same hinv (filed_of_unmoved hstage (congrArg ScanWorld.store hw) hversion)
      · exact .same hinv trivial
  | unmoved key batches =>
    rw [MultiDb.scanStep]
    refine ⟨limits_insert key batches env.picks, hinv.bounded.insert key batches env.picks, ?_,
      trivial⟩
    intro value hvalue
    rcases mem_values_insert hinv.bounded hvalue with ⟨hkey, hbatches⟩ | hold
    · rw [hkey, hbatches]
      exact hstage
    · exact hinv.entries value hold
  | hit key readAt batches => exact .same hinv hstage
  | scanned batches => exact .same hinv hstage
  | failed error => exact .same hinv hstage

end Step

/-! ## Runs -/

theorem cacheInv_init (C : RelCodecs) (A : Arrow σ β) (performance : PerformanceConfig) :
    CacheInv C A performance [] (ScanWorld.init performance) where
  limits := ⟨rfl, rfl⟩
  bounded := bounded_new performance
  entries := by simp [ScanWorld.init, BatchCache.new]
  scans := by simp [ScanWorld.init]
  keys := by simp [ScanWorld.init]

theorem CacheInv.append {w : ScanWorld σ β} (h : CacheInv C A performance steps w)
    (more : List (ScanWorld.Step σ β)) : CacheInv C A performance (steps ++ more) w where
  limits := h.limits
  bounded := h.bounded
  entries value hvalue := (h.entries value hvalue).append more
  scans scan hscan := (h.scans scan hscan).append more
  keys := h.keys

theorem CacheInv.step {w : ScanWorld σ β} (hinv : CacheInv C A performance steps w)
    (hw : w = ScanWorld.run C A performance steps) (step : ScanWorld.Step σ β) :
    CacheInv C A performance steps (w.step C A step) := by
  cases step with
  | write env call => exact ⟨hinv.limits, hinv.bounded, hinv.entries, hinv.scans, hinv.keys⟩
  | scan request =>
    refine ⟨hinv.limits, hinv.bounded, hinv.entries, fun scan hscan => ?_,
      fun scan hscan key hkey => ?_⟩
    · rcases List.mem_append.mp hscan with hold | hnew
      · exact hinv.scans scan hold
      · rw [List.mem_singleton.mp hnew]
        trivial
    · rcases List.mem_append.mp hscan with hold | hnew
      · exact hinv.keys scan hold key hkey
      · rw [List.mem_singleton.mp hnew] at hkey
        contradiction
  | advance i env =>
    rw [ScanWorld.step]
    cases hi : w.scans[i]? with
    | none => exact hinv
    | some scan =>
      obtain ⟨request, stage⟩ := scan
      have hstage := hinv.scans _ (List.mem_of_getElem? hi)
      have hkeys := hinv.keys _ (List.mem_of_getElem? hi)
      have hstep := hinv.scanStep hw env request hstage
      refine ⟨?_, hstep.bounded, hstep.entries, fun scan hscan => ?_,
        fun scan hscan key hkey => ?_⟩
      · rw [hstep.limits.1, hstep.limits.2]
        exact hinv.limits
      · rcases List.mem_or_eq_of_mem_set hscan with hold | rfl
        · exact hinv.scans scan hold
        · exact hstep.stage
      · rcases List.mem_or_eq_of_mem_set hscan with hold | rfl
        · exact hinv.keys scan hold key hkey
        · exact key_scanStep hkeys hkey

theorem cacheInv_run (C : RelCodecs) (A : Arrow σ β) (performance : PerformanceConfig)
    (steps : List (ScanWorld.Step σ β)) :
    CacheInv C A performance steps (ScanWorld.run C A performance steps) := by
  induction steps using List.reverseRecOn with
  | nil => exact cacheInv_init C A performance
  | append_singleton steps step ih =>
    rw [ScanWorld.run_append]
    exact (ih.step rfl step).append [step]

/-- What data-version tokens promise a cache, in every run of writers and readers. -/
structure CachingSound (C : RelCodecs) (A : Arrow σ β) (performance : PerformanceConfig)
    (steps : List (ScanWorld.Step σ β)) (w : ScanWorld σ β) : Prop where
  /-- One token of a public table means the same rows. -/
  tokens : ∀ p q t v, Passed C A performance steps p → Passed C A performance steps q →
    tableIsReserved t = false → readTableDataVersionFrom p t = .ok (some v) →
    readTableDataVersionFrom q t = .ok (some v) → ∀ k, p.get t k = q.get t k
  /-- A cached scan is a fresh scan of the store its token was read in. -/
  hits : ∀ request key readAt batches, (request, .hit key readAt batches) ∈ w.scans →
    key = request.key key.version ∧ Passed C A performance steps readAt ∧
      readTableDataVersionFrom readAt relRowsTable = .ok (some key.version) ∧
      scanRecordBatches C A readAt key = .ok batches
  /-- The cache is within its limits, and its counter is exact. -/
  entries_le : w.cache.entries.values.length ≤
    (BatchCache.new performance : BatchCache σ β).maxEntries
  bytes_le : w.cache.entries.bytes ≤ (BatchCache.new performance : BatchCache σ β).maxBytes
  bytes_eq : w.cache.entries.bytes = (w.cache.entries.values.map fun value => value.2.bytes).sum

/-- Data-version tokens are sound for caching, whatever the interleaving. -/
theorem dataVersions_sound_for_caching (C : RelCodecs) (A : Arrow σ β)
    (performance : PerformanceConfig) (steps : List (ScanWorld.Step σ β)) :
    CachingSound C A performance steps (ScanWorld.run C A performance steps) := by
  have hinv := cacheInv_run C A performance steps
  constructor
  case tokens =>
    intro p q t v hp hq _ hpv hqv k
    exact hp.rows_eq hq hpv hqv k
  case hits =>
    intro request key readAt batches hscan
    exact ⟨hinv.keys _ hscan key rfl, hinv.scans _ hscan⟩
  case entries_le =>
    rw [← hinv.limits.2]
    exact hinv.bounded.length_le
  case bytes_le =>
    rw [← hinv.limits.1]
    exact hinv.bounded.bytes_le
  case bytes_eq => exact hinv.bounded.counted.bytes

private def countArrow : Arrow Unit ℕ where
  projectSchema schema _ := schema
  hasNoFields _ := true
  countBatch _ rows := .ok rows
  rowsToRecordBatch _ rows := .ok rows.length
  weight _ batches := batches.length + 1

private def secondScanHits : Bool :=
  let steps := .scan ⟨"users", (), none, 8⟩ :: List.replicate 5 (.advance 0 {}) ++
    [.scan ⟨"users", (), none, 8⟩, .advance 1 {}, .advance 1 {}]
  let w := ScanWorld.run { wireCodecs with legacyValue := fun _ => .error "" } countArrow
    ⟨true, 4, 64⟩ steps
  match w.scans.map Prod.snd with
  | [.scanned first, .hit _ _ second] => first = second
  | _ => false

-- the second reader is served from what the first one filed
example : secondScanHits = true := by decide +kernel

end MultiDb
