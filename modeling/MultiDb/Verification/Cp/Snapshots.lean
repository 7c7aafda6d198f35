import MultiDb.Model.WireRecords
import MultiDb.Verification.Cp.Mirror

/-!
# Snapshots and log replay

A snapshot carries the mirrored rows of the node that builds it, and neither its transaction
ids nor its row versions.
-/

namespace MultiDb

open Shared Tables

variable {C : CpCodecs} {s t : Store}
variable {r : Store}

theorem current_eq_of_response {env env' : ApplyEnv} {entry : CpEntry} {r : ReplApplyResponse}
    {s' t' : Store} {current current' : TxnId} (h : applyOne C env s entry = .ok (r, t))
    (h' : applyOne C env' s' entry = .ok (r, t')) (hcurrent : currentTxnIdFrom s = .ok current)
    (hcurrent' : currentTxnIdFrom s' = .ok current') : current = current' := by
  -- an answer that commits is one above the current id, every other answer is the id itself
  have hmeta : ∀ {env s t logId membership conflict current},
      commitMetadata C env s logId membership conflict = .ok (r, t) →
      currentTxnIdFrom s = .ok current → current = r.txnId ∧ r.conflict = conflict := by
    intro env s t logId membership conflict current h hcurrent
    obtain ⟨hid, hconflict, -⟩ := commitMetadata_metadata h
    rw [hcurrent] at hid
    exact ⟨Except.ok.inj hid, hconflict⟩
  have hcommand : ∀ {env s t logId command current},
      CommandOutcome C env s logId command r t → currentTxnIdFrom s = .ok current →
      (r.conflict = true ∧ r.txnId.toNat = current.toNat) ∨
        (r.conflict = false ∧ r.txnId.toNat = current.toNat + 1) := by
    intro env s t logId command current h hcurrent
    cases h with
    | condition _ h => exact Or.inl (by simp [hmeta h hcurrent])
    | writeSet _ _ h => exact Or.inl (by simp [hmeta h hcurrent])
    | conflict _ _ _ _ h => exact Or.inl (by simp [hmeta h hcurrent])
    | committed _ _ _ h =>
      obtain ⟨current', hcurrent', hnext⟩ := commitCommand_next h
      rw [hcurrent] at hcurrent'
      cases hcurrent'
      exact Or.inr ⟨rfl, hnext⟩
  cases hpayload : entry.payload with
  | blank =>
    simp only [applyOne, hpayload, applyMetadataOnly, bind_eq_ok_iff] at h h'
    obtain ⟨_, -, h⟩ := h
    obtain ⟨_, -, h'⟩ := h'
    rw [(hmeta h hcurrent).1, (hmeta h' hcurrent').1]
  | membership membership =>
    simp only [applyOne, hpayload, applyMetadataOnly, bind_eq_ok_iff] at h h'
    obtain ⟨_, -, h⟩ := h
    obtain ⟨_, -, h'⟩ := h'
    rw [(hmeta h hcurrent).1, (hmeta h' hcurrent').1]
  | normal command =>
    simp only [applyOne, hpayload] at h h'
    rw [← UInt64.toNat_inj]
    rcases hcommand (applyCommand_outcome h) hcurrent with ⟨hc, hid⟩ | ⟨hc, hid⟩
    · rcases hcommand (applyCommand_outcome h') hcurrent' with ⟨hc', hid'⟩ | ⟨hc', hid'⟩
      · omega
      · simp [hc] at hc'
    · rcases hcommand (applyCommand_outcome h') hcurrent' with ⟨hc', hid'⟩ | ⟨hc', hid'⟩
      · simp [hc] at hc'
      · omega

theorem applyEntries_split {run : List (ApplyEnv × CpEntry)} {rs : List ReplApplyResponse}
    (h : applyEntries C s run = .ok (rs, t)) (i : ℕ) :
    ∃ s', applyEntries C s (run.take i) = .ok (rs.take i, s') ∧
      applyEntries C s' (run.drop i) = .ok (rs.drop i, t) := by
  induction run generalizing s rs i with
  | nil =>
    simp only [applyEntries, Except.ok.injEq, Prod.mk.injEq] at h
    obtain ⟨rfl, rfl⟩ := h
    exact ⟨s, by simp [applyEntries], by simp [applyEntries]⟩
  | cons step run ih =>
    cases i with
    | zero => exact ⟨s, rfl, h⟩
    | succ i =>
      simp only [applyEntries, bind_eq_ok_iff, pure_eq_ok_iff, Prod.mk.injEq] at h
      obtain ⟨⟨r, s₁⟩, hone, ⟨rest, s₂⟩, hrest, rfl, rfl⟩ := h
      obtain ⟨s', htake, hdrop⟩ := ih hrest i
      refine ⟨s', ?_, hdrop⟩
      simp [applyEntries, hone, htake, bind, Except.bind, pure, Except.pure]

theorem mirroredRow_eq_ok_iff {mk v v' k : Bytes} {table : String} :
    mirroredRow C (mk, v') = .ok (table, k, v) ↔
      decodeMirrorKey C mk = .ok (table, k) ∧ v' = v := by
  rw [mirroredRow]
  cases hdecode : decodeMirrorKey C mk with
  | error e => simp [bind, Except.bind]
  | ok decoded =>
    obtain ⟨table', k'⟩ := decoded
    simp [bind, Except.bind, pure, Except.pure, and_assoc]

theorem mem_mirroredRows {rows : List (String × Bytes × Bytes)}
    (h : mirroredRows C s = .ok rows) {table : String} {k v : Bytes} :
    (table, k, v) ∈ rows ↔
      decodeMirrorKey C (mirrorKey table k) = .ok (table, k) ∧
        s.get raftMirrorTable (mirrorKey table k) = some v := by
  rw [mirroredRows] at h
  rw [mem_of_mapM_eq_ok h]
  constructor
  · rintro ⟨⟨mk, v'⟩, hmem, hrow⟩
    obtain ⟨hdecode, rfl⟩ := mirroredRow_eq_ok_iff.mp hrow
    rw [mirrorKey_of_decode hdecode]
    exact ⟨hdecode, (mem_range.mp hmem).1⟩
  · rintro ⟨hdecode, hget⟩
    exact ⟨(mirrorKey table k, v), mem_range.mpr ⟨hget, keyInRange_nil_nil _⟩,
      mirroredRow_eq_ok_iff.mpr ⟨hdecode, rfl⟩⟩

/-- Installing rows writes each of them once. -/
theorem get_foldl_installRow {rows : List (String × Bytes × Bytes)} {table : String} {k v : Bytes}
    (htable : table ≠ raftMirrorTable) (hsame : ∀ v', (table, k, v') ∈ rows → v' = v) (s : Store) :
    ((∃ v', (table, k, v') ∈ rows) → (rows.foldl installRow s).get table k = some v) ∧
    ((∀ v', (table, k, v') ∉ rows) → (rows.foldl installRow s).get table k = s.get table k) := by
  have hrow : ∀ (row : String × Bytes × Bytes) (s : Store), (installRow s row).get table k =
      if row.1 = table ∧ row.2.1 = k then some row.2.2 else s.get table k := by
    intro row s
    rw [installRow, get_put_of_ne fun heq => absurd heq.symm htable, get_put]
  have hobserve := foldl_observe (f := installRow) (fun s : Store => s.get table k)
    (fun row => row.1 = table ∧ row.2.1 = k) (some v) s
    (by
      rintro ⟨table', k', v'⟩ hmem s ⟨rfl, rfl⟩
      rw [hrow, if_pos ⟨rfl, rfl⟩, hsame v' hmem])
    (by
      intro row _ s hne
      rw [hrow, if_neg hne])
  constructor
  · rintro ⟨v', hmem⟩
    exact hobserve.1 ⟨_, hmem, rfl, rfl⟩
  · intro hnone
    apply hobserve.2
    rintro ⟨table', k', v'⟩ hmem ⟨rfl, rfl⟩
    exact hnone v' hmem

/-! ## Installing -/

/-- The tables that hold the snapshot and the log position of a node. -/
def snapshotTables : List String :=
  [raftStateTable, raftSnapshotTable]

/-- Builder and installer agree off the snapshot's own tables. -/
theorem installSnapshot_agree {env env' : Env} {pid : ℕ} {snapshotMeta : SnapshotMeta}
    {data : Bytes} {s' : Store}
    (hbuild : buildSnapshot C env pid s = .ok ((snapshotMeta, data), s'))
    (hinstall : installSnapshot C env' .empty snapshotMeta data = .ok r) :
    AgreeOff [raftSnapshotTable] s' s ∧ ∃ rows, mirroredRows C s = .ok rows ∧
      AgreeOff snapshotTables r (rows.foldl installRow .empty) := by
  simp only [buildSnapshot, bind_eq_ok_iff, pure_eq_ok_iff, Prod.mk.injEq] at hbuild
  obtain ⟨⟨applied, membership⟩, -, rows, hrows, data', hdata, _, -, metaBytes, -, _, -,
    ⟨rfl, rfl⟩, rfl⟩ := hbuild
  have hsnapshot : raftSnapshotTable ∈ [raftSnapshotTable] := List.mem_singleton_self _
  refine ⟨((AgreeOff.refl _ s).put_hidden hsnapshot _ _).put_hidden hsnapshot _ _, rows, hrows, ?_⟩
  have hdecoded : decodeIo C.snapshot data' = .ok { applied, membership, rows } := by
    rw [decodeIo, C.snapshot.from_toVec (mapError_eq_ok_iff.mp hdata)]
    rfl
  have hclear : clearMirroredState C .empty = .ok .empty := by
    rw [clearMirroredState, range_all_eq_nil_iff.mpr fun _ => get_empty _ _]
    rfl
  simp only [installSnapshot, hdecoded, hclear, bind_eq_ok_iff, pure_eq_ok_iff,
    Except.ok.injEq, exists_eq_left'] at hinstall
  obtain ⟨_, -, s₁, hs₁, membershipBytes, -, metaBytes', -, _, -, rfl⟩ := hinstall
  have hstate : raftStateTable ∈ snapshotTables := by decide
  have hshot : raftSnapshotTable ∈ snapshotTables := by decide
  have hs₁' : AgreeOff snapshotTables s₁ (rows.foldl installRow .empty) := by
    cases applied with
    | none =>
      cases hs₁
      intro table htable k
      rw [get_delete, if_neg]
      rintro ⟨rfl, -⟩
      exact htable hstate
    | some logId =>
      simp only [writeOptionalLogId, bind_eq_ok_iff, pure_eq_ok_iff] at hs₁
      obtain ⟨bytes, -, rfl⟩ := hs₁
      exact (AgreeOff.refl _ _).put_hidden hstate _ _
  refine (((?_ : AgreeOff _ _ _).put_hidden hstate _ _).put_hidden hshot _ _).put_hidden hshot _ _
  cases applied with
  | none => exact hs₁'
  | some logId => exact hs₁'.put_hidden hstate _ _

/-- An installed store holds the rows of the builder. -/
theorem get_installed (hmirror : MirrorInv s) {rows : List (String × Bytes × Bytes)}
    (hrows : mirroredRows C s = .ok rows)
    (hagree : AgreeOff snapshotTables r (rows.foldl installRow .empty)) {table : String} {k : Bytes}
    (hbase : BaseRow table k) : r.get table k = s.get table k := by
  have hraft : ∀ t ∈ raftTables, table ≠ t := by
    rintro t ht rfl
    exact hbase.1 (Or.inr ht)
  have hvisible : table ∉ snapshotTables := by
    intro hmem
    have hsub : ∀ t ∈ snapshotTables, t ∈ raftTables := by decide
    exact hbase.1 (Or.inr (hsub table hmem))
  have hmem : ∀ v, (table, k, v) ∈ rows ↔ s.get table k = some v := by
    intro v
    rw [mem_mirroredRows hrows, hmirror.copy table k hbase]
    exact and_iff_right (decodeMirrorKey_mirrorKey C hbase.2 k)
  have hname := hraft raftMirrorTable (by decide)
  rw [hagree table hvisible]
  cases hget : s.get table k with
  | none =>
    have hnone : ∀ v', (table, k, v') ∉ rows := by
      intro v' hv'
      rw [hmem, hget] at hv'
      contradiction
    rw [(get_foldl_installRow (v := []) hname (fun v' hv' => absurd hv' (hnone v')) _).2 hnone,
      get_empty]
  | some v =>
    have hsame : ∀ v', (table, k, v') ∈ rows → v' = v := by
      intro v' hv'
      rw [hmem, hget] at hv'
      exact (Option.some.inj hv').symm
    exact (get_foldl_installRow hname hsame _).1 ⟨v, (hmem v).mpr hget⟩

theorem currentTxnIdFrom_installed (hmirror : MirrorInv s) {rows : List (String × Bytes × Bytes)}
    (hrows : mirroredRows C s = .ok rows)
    (hagree : AgreeOff snapshotTables r (rows.foldl installRow .empty)) :
    currentTxnIdFrom r = .ok 0 := by
  have hnone : ∀ v', (txnMetaTable, currentTxnIdKey, v') ∉ rows := by
    intro v' hmem
    obtain ⟨table, k, hrow, hkey⟩ := hmirror.origin _ _ ((mem_mirroredRows hrows).mp hmem).2
    obtain ⟨rfl, rfl⟩ := mirrorKey_inj (t := txnMetaTable) (by decide) hkey.symm
    exact hrow (by decide)
  have hget : r.get txnMetaTable currentTxnIdKey = none := by
    rw [hagree _ (by decide), (get_foldl_installRow (v := []) (by decide)
      (fun v' hv' => absurd hv' (hnone v')) _).2 hnone, get_empty]
  rw [currentTxnIdFrom, hget]

/-! ## Runs with a snapshot -/

/-- One node builds a snapshot behind `i` entries, one installs it, and one replays the log. -/
structure SnapshotRun (C : CpCodecs) (log : List CpEntry) (i : ℕ) where
  before : List (ApplyEnv × CpEntry)
  before_entries : before.map Prod.snd = log.take i
  beforeResponses : List ReplApplyResponse
  builder : Store
  before_run : applyEntries C .empty before = .ok (beforeResponses, builder)
  buildEnv : Env
  pid : ℕ
  snapshotMeta : SnapshotMeta
  data : Bytes
  built : Store
  build : buildSnapshot C buildEnv pid builder = .ok ((snapshotMeta, data), built)
  installEnv : Env
  installed : Store
  install : installSnapshot C installEnv .empty snapshotMeta data = .ok installed
  later : List (ApplyEnv × CpEntry)
  later_entries : later.map Prod.snd = log.drop i
  laterResponses : List ReplApplyResponse
  follower : Store
  later_run : applyEntries C installed later = .ok (laterResponses, follower)
  whole : List (ApplyEnv × CpEntry)
  whole_entries : whole.map Prod.snd = log
  wholeResponses : List ReplApplyResponse
  leader : Store
  whole_run : applyEntries C .empty whole = .ok (wholeResponses, leader)

/-- The two nodes answer every later entry alike and end with the same base rows. -/
def SnapshotRun.Equivalent {C : CpCodecs} {log : List CpEntry} {i : ℕ} (run : SnapshotRun C log i) :
    Prop :=
  run.wholeResponses.drop i = run.laterResponses ∧
    ∀ table k, BaseRow table k → run.leader.get table k = run.follower.get table k

/-- The entry reads and writes rows of commands only. -/
def CpEntry.Proposed (entry : CpEntry) : Prop :=
  entry.LeavesNode ∧ entry.ReadsOff (clockTables ++ snapshotTables)

theorem hides_nodeTables : Hides (clockTables ++ snapshotTables) where
  hlc := by decide
  log := by decide
  visible := by decide

theorem visible_of_baseRow {table : String} {k : Bytes} (h : BaseRow table k) :
    table ∉ clockTables ++ snapshotTables := by
  intro hmem
  have hsub : ∀ t ∈ clockTables ++ snapshotTables, t ∈ bookkeepingTables ∨ t ∈ raftTables := by
    decide
  rcases hsub table hmem with hbook | hraft
  · exact h.1 (Or.inl (Or.inl hbook))
  · exact h.1 (Or.inr hraft)

section Run

variable {log : List CpEntry} {i : ℕ} (run : SnapshotRun C log i)

theorem SnapshotRun.drop_entries : (run.whole.drop i).map Prod.snd = run.later.map Prod.snd := by
  rw [List.map_drop, run.whole_entries, run.later_entries]

variable (hlog : ∀ entry ∈ log, entry.Proposed)

include hlog

theorem SnapshotRun.before_leaves : ∀ step ∈ run.before, step.2.LeavesNode := by
  intro step hstep
  have hmem : step.2 ∈ run.before.map Prod.snd := List.mem_map_of_mem hstep
  rw [run.before_entries] at hmem
  exact (hlog _ (List.mem_of_mem_take hmem)).1

theorem SnapshotRun.mirrorInv : MirrorInv run.builder :=
  applyEntries_invariant (fun hinv heffect => hinv.entry heffect) (run.before_leaves hlog)
    mirrorInv_empty run.before_run

theorem SnapshotRun.counted : Counted run.builder :=
  applyEntries_invariant (fun hinv heffect => hinv.entry heffect) (run.before_leaves hlog)
    counted_empty run.before_run

/-- The node that applies the whole log passes a store that agrees with the builder's. -/
theorem SnapshotRun.exists_middle : ∃ middle, AgreeOff clockTables middle run.builder ∧
    applyEntries C middle (run.whole.drop i) = .ok (run.wholeResponses.drop i, run.leader) := by
  obtain ⟨middle, htake, hdrop⟩ := applyEntries_split run.whole_run i
  refine ⟨middle, ?_, hdrop⟩
  have hentries : (run.whole.take i).map Prod.snd = run.before.map Prod.snd := by
    rw [List.map_take, run.whole_entries, run.before_entries]
  have hreads : ∀ step ∈ run.whole.take i, step.2.ReadsOff clockTables := by
    intro step hstep
    have hmem : step.2 ∈ run.whole.map Prod.snd := List.mem_map_of_mem (List.mem_of_mem_take hstep)
    rw [run.whole_entries] at hmem
    have hoff := (hlog _ hmem).2
    rw [CpEntry.ReadsOff] at hoff ⊢
    split
    · next command hcommand =>
        simp only [hcommand] at hoff
        intro condition hcondition hclock
        exact hoff condition hcondition (List.mem_append_left _ hclock)
    · trivial
  exact (applyEntries_agree hides_clockTables hentries hreads (.refl _ _) htake run.before_run).2

theorem SnapshotRun.equivalent_of_zero (hzero : currentTxnIdFrom run.builder = .ok 0) :
    run.Equivalent := by
  obtain ⟨middle, hmiddle, hdrop⟩ := run.exists_middle hlog
  obtain ⟨-, rows, hrows, hinstalled⟩ := installSnapshot_agree run.build run.install
  have hempty : AgreeOff [raftStateTable] run.builder .empty := by
    rcases run.counted hlog with ⟨hempty, -⟩ | ⟨current, hcurrent, hne⟩
    · exact hempty
    · rw [hzero] at hcurrent
      exact absurd (Except.ok.inj hcurrent).symm hne
  have hnil : rows = [] := by
    rw [mirroredRows, range_all_eq_nil_iff.mpr fun k => (hempty _ (by decide) k).trans
      (get_empty _ _)]
      at hrows
    exact (pure_eq_ok_iff.mp hrows).symm
  rw [hnil] at hinstalled
  have hagree : AgreeOff (clockTables ++ snapshotTables) middle run.installed :=
    ((hmiddle.mono (by decide)).trans (hempty.mono (by decide))).trans
      (hinstalled.mono (by decide)).symm
  have hreads : ∀ step ∈ run.whole.drop i, step.2.ReadsOff (clockTables ++ snapshotTables) := by
    intro step hstep
    have hmem : step.2 ∈ run.whole.map Prod.snd := List.mem_map_of_mem (List.mem_of_mem_drop hstep)
    rw [run.whole_entries] at hmem
    exact (hlog _ hmem).2
  obtain ⟨hresponses, hrows⟩ := applyEntries_agree hides_nodeTables (run.drop_entries) hreads
    hagree hdrop run.later_run
  exact ⟨hresponses, fun table k hbase => hrows table (visible_of_baseRow hbase) k⟩

theorem SnapshotRun.equivalent_of_length (hlength : log.length ≤ i) : run.Equivalent := by
  obtain ⟨middle, hmiddle, hdrop⟩ := run.exists_middle hlog
  obtain ⟨-, rows, hrows, hinstalled⟩ := installSnapshot_agree run.build run.install
  have hlater : run.later = [] := by
    have hnil := run.later_entries
    rwa [List.drop_of_length_le hlength, List.map_eq_nil_iff] at hnil
  have hwhole : run.whole.drop i = [] := by
    have hnil := run.drop_entries
    rwa [hlater, List.map_nil, List.map_eq_nil_iff] at hnil
  have hfollower := run.later_run
  rw [hlater] at hfollower
  rw [hwhole] at hdrop
  simp only [applyEntries, Except.ok.injEq, Prod.mk.injEq] at hdrop hfollower
  refine ⟨hdrop.1.symm.trans hfollower.1, ?_⟩
  intro table k hbase
  rw [← hdrop.2, ← hfollower.2, get_installed (run.mirrorInv hlog) hrows hinstalled hbase]
  exact hmiddle table (fun hmem => visible_of_baseRow hbase (List.mem_append_left _ hmem)) k

/-- A response to a later entry shows the missing transaction ids. -/
theorem SnapshotRun.zero_of_equivalent (hequiv : run.Equivalent) (hlength : ¬ log.length ≤ i) :
    currentTxnIdFrom run.builder = .ok 0 := by
  obtain ⟨middle, hmiddle, hdrop⟩ := run.exists_middle hlog
  obtain ⟨-, rows, hrows, hinstalled⟩ := installSnapshot_agree run.build run.install
  have hzero := currentTxnIdFrom_installed (run.mirrorInv hlog) hrows hinstalled
  have hsame : currentTxnIdFrom middle = currentTxnIdFrom run.builder :=
    currentTxnIdFrom_congr hmiddle hides_clockTables
  obtain ⟨current, hcurrent⟩ : ∃ current, currentTxnIdFrom run.builder = .ok current := by
    rcases run.counted hlog with ⟨-, hcurrent⟩ | ⟨current, hcurrent, -⟩
    · exact ⟨0, hcurrent⟩
    · exact ⟨current, hcurrent⟩
  have hlater := run.later_run
  have hentries := run.drop_entries
  rw [hequiv.1] at hdrop
  cases hrest : run.later with
  | nil =>
    have hlen := congrArg List.length run.later_entries
    rw [hrest, List.map_nil, List.length_nil, List.length_drop] at hlen
    omega
  | cons step rest =>
    cases hwhole : run.whole.drop i with
    | nil => simp [hrest, hwhole] at hentries
    | cons step' rest' =>
      simp only [hrest, hwhole, List.map_cons, List.cons.injEq] at hentries
      rw [hrest] at hlater
      rw [hwhole] at hdrop
      simp only [applyEntries, bind_eq_ok_iff, pure_eq_ok_iff, Prod.mk.injEq] at hlater hdrop
      obtain ⟨⟨r, s₁⟩, hone, ⟨rs, s₂⟩, -, hr, -⟩ := hlater
      obtain ⟨⟨r', s₁'⟩, hone', ⟨rs', s₂'⟩, -, hr', -⟩ := hdrop
      obtain ⟨rfl, -⟩ := List.cons.inj (hr.trans hr'.symm)
      rw [hentries.1] at hone'
      have heq := current_eq_of_response hone' hone (hsame.trans hcurrent) hzero
      rw [hcurrent, heq]

end Run

/-- Snapshots and replay agree exactly when nothing precedes the snapshot or nothing follows it. -/
theorem snapshotRun_equivalent_iff {C : CpCodecs} {log : List CpEntry} {i : ℕ}
    (run : SnapshotRun C log i) (hlog : ∀ entry ∈ log, entry.Proposed) :
    run.Equivalent ↔ log.length ≤ i ∨ currentTxnIdFrom run.builder = .ok 0 := by
  constructor
  · intro hequiv
    by_cases hlength : log.length ≤ i
    · exact Or.inl hlength
    · exact Or.inr (run.zero_of_equivalent hlog hequiv hlength)
  · rintro (hlength | hzero)
    · exact run.equivalent_of_length hlog hlength
    · exact run.equivalent_of_zero hlog hzero

def logIdText (index : String) : String :=
  "\x7b\"leader_id\":\x7b\"term\":1,\"node_id\":1\x7d,\"index\":" ++ index ++ "\x7d"

def membershipText : String :=
  "\x7b\"log_id\":null,\"membership\":\x7b\"configs\":[],\"nodes\":\x7b\x7d\x7d\x7d"

def snapshotText (applied rows : String) : String :=
  "\x7b\"applied\":" ++ applied ++ ",\"membership\":" ++ membershipText ++ ",\"rows\":" ++
    rows ++ "\x7d"

def snapshotMetaText (lastLogId snapshotId : String) : String :=
  "\x7b\"last_log_id\":" ++ lastLogId ++ ",\"last_membership\":" ++ membershipText ++
    ",\"snapshot_id\":\"" ++ snapshotId ++ "\"\x7d"

def sampleLogId (index : UInt64) : LogId :=
  { term := 1, node := 1, index }

def sampleCpCodecs : CpCodecs where
  toCodecs := wireCodecs
  logId := .ofTable [(sampleLogId 0, strBytes (logIdText "0")),
    (sampleLogId 1, strBytes (logIdText "1")), (sampleLogId 2, strBytes (logIdText "2"))]
      (by decide)
  membership := .ofTable [({}, strBytes membershipText)] (by decide)
  snapshot := .ofTable
    [({ applied := none, membership := {}, rows := [] }, strBytes (snapshotText "null" "[]")),
      ({ applied := some (sampleLogId 1), membership := {}, rows := [("t", [1], [3])] },
        strBytes (snapshotText (logIdText "1") "[[\"t\",[1],[3]]]"))] (by decide)
  snapshotMeta := .ofTable
    [({ lastLogId := none, lastMembership := {}, snapshotId := "cp-1-94" },
        strBytes (snapshotMetaText "null" "cp-1-94")),
      ({ lastLogId := some (sampleLogId 1), lastMembership := {}, snapshotId := "cp-1-149" },
        strBytes (snapshotMetaText (logIdText "1") "cp-1-149"))] (by decide)

/-- Two commits of one row, then a transaction that read it between them. -/
def sampleEntries : List CpEntry :=
  [{ logId := sampleLogId 0, payload := .normal (.batch [.put "t" [1] [2]]) },
    { logId := sampleLogId 1, payload := .normal (.batch [.put "t" [1] [3]]) },
    { logId := sampleLogId 2,
      payload := .normal (.txnCommit 1 [("t", [1], some [4])] none) }]

def sampleApplyEnv : ApplyEnv where
  write := { committedAt := 0, tickedAt := 0 }
  retry := { committedAt := 0, tickedAt := 0 }
  commit_ne_conflict := by decide

def sampleSteps (entries : List CpEntry) : List (ApplyEnv × CpEntry) :=
  entries.map fun entry => (sampleApplyEnv, entry)

theorem sampleSteps_entries (entries : List CpEntry) :
    (sampleSteps entries).map Prod.snd = entries := by
  rw [sampleSteps, List.map_map]
  exact List.map_id entries

/-- The row on the node with the log and on the node with the snapshot. -/
def sampleRun (entries : List CpEntry) (i : ℕ) : Result (Option Bytes × Option Bytes) := do
  let (_, builder) ← applyEntries sampleCpCodecs .empty (sampleSteps (entries.take i))
  let ((snapshotMeta, data), _) ← buildSnapshot sampleCpCodecs sampleApplyEnv.write 1 builder
  let installed ← installSnapshot sampleCpCodecs sampleApplyEnv.write .empty snapshotMeta data
  let (_, follower) ← applyEntries sampleCpCodecs installed (sampleSteps (entries.drop i))
  let (_, leader) ← applyEntries sampleCpCodecs .empty (sampleSteps entries)
  return (leader.get "t" [1], follower.get "t" [1])

theorem exists_snapshotRun {entries : List CpEntry} {i : ℕ} {row row' : Option Bytes}
    (h : sampleRun entries i = .ok (row, row')) :
    ∃ run : SnapshotRun sampleCpCodecs entries i,
      run.leader.get "t" [1] = row ∧ run.follower.get "t" [1] = row' := by
  simp only [sampleRun, bind_eq_ok_iff, pure_eq_ok_iff, Prod.mk.injEq] at h
  obtain ⟨⟨rs, builder⟩, hbefore, ⟨⟨snapshotMeta, data⟩, built⟩, hbuild, installed, hinstall,
    ⟨rs', follower⟩, hlater, ⟨rs'', leader⟩, hwhole, hrow, hrow'⟩ := h
  exact ⟨⟨_, sampleSteps_entries _, rs, builder, hbefore, _, 1, snapshotMeta, data, built, hbuild,
    _, installed, hinstall, _, sampleSteps_entries _, rs', follower, hlater, _,
    sampleSteps_entries _, rs'', leader, hwhole⟩, hrow, hrow'⟩

theorem proposed_sampleEntries : ∀ entry ∈ sampleEntries, entry.Proposed := by
  intro entry hentry
  simp only [sampleEntries, List.mem_cons, List.not_mem_nil, or_false] at hentry
  have hrow : ¬ NodeRow "t" [1] := by decide
  rcases hentry with rfl | rfl | rfl
  · exact ⟨by simpa [CpEntry.LeavesNode, Op.table, Op.key] using hrow,
      by simp [CpEntry.ReadsOff, ReplCommand.conditions]⟩
  · exact ⟨by simpa [CpEntry.LeavesNode, Op.table, Op.key] using hrow,
      by simp [CpEntry.ReadsOff, ReplCommand.conditions]⟩
  · exact ⟨by simpa [CpEntry.LeavesNode] using hrow,
      by simp [CpEntry.ReadsOff, ReplCommand.conditions]⟩

set_option maxRecDepth 20000 in
theorem sampleRun_rows : sampleRun (sampleEntries.take 1) 0 = .ok (some [2], some [2]) ∧
    sampleRun (sampleEntries.take 2) 2 = .ok (some [3], some [3]) ∧
    sampleRun sampleEntries 2 = .ok (some [3], some [4]) := by
  decide +kernel

/-- A snapshot of an empty store with an entry after it, and one with a row and nothing after it. -/
theorem snapshotRun_equivalent_iff_sample :
    (∃ run : SnapshotRun sampleCpCodecs (sampleEntries.take 1) 0,
      run.follower.get "t" [1] = some [2] ∧ run.Equivalent) ∧
    ∃ run : SnapshotRun sampleCpCodecs (sampleEntries.take 2) 2,
      run.follower.get "t" [1] = some [3] ∧ run.Equivalent := by
  have hlog : ∀ n, ∀ entry ∈ sampleEntries.take n, entry.Proposed := fun n entry hentry =>
    proposed_sampleEntries entry (List.mem_of_mem_take hentry)
  obtain ⟨run, -, hfollower⟩ := exists_snapshotRun sampleRun_rows.1
  obtain ⟨run', -, hfollower'⟩ := exists_snapshotRun sampleRun_rows.2.1
  have hbefore : run.before = [] := by simpa using run.before_entries
  have hzero : currentTxnIdFrom run.builder = .ok 0 := by
    have hrun := run.before_run
    rw [hbefore] at hrun
    simp only [applyEntries, Except.ok.injEq, Prod.mk.injEq] at hrun
    rw [← hrun.2]
    rfl
  exact ⟨⟨run, hfollower, (snapshotRun_equivalent_iff run (hlog 1)).mpr (Or.inr hzero)⟩,
    run', hfollower', (snapshotRun_equivalent_iff run' (hlog 2)).mpr (Or.inl le_rfl)⟩

/-- The transaction conflicts on the node with the log only. -/
theorem txnCommit_diverges_after_snapshot :
    ∃ run : SnapshotRun sampleCpCodecs sampleEntries 2, BaseRow "t" [1] ∧
      run.leader.get "t" [1] = some [3] ∧ run.follower.get "t" [1] = some [4] ∧
      ¬ run.Equivalent := by
  obtain ⟨run, hleader, hfollower⟩ := exists_snapshotRun sampleRun_rows.2.2
  have hbase : BaseRow "t" [1] := ⟨by decide, by decide⟩
  refine ⟨run, hbase, hleader, hfollower, ?_⟩
  intro hequiv
  have hrow := hequiv.2 "t" [1] hbase
  rw [hleader, hfollower] at hrow
  exact absurd hrow (by decide)

end MultiDb
