import MultiDb.Verification.History.AsOf
import MultiDb.Verification.Txn.Replay

/-!
# Garbage collection keeps every readable snapshot

Every commit that a batch prunes is at or below the new horizon, so reads at or above the
horizon see what they saw before.
-/

namespace MultiDb

open Shared

variable {C : Codecs} {plan : HistoryGcBatchPlan} {outcome outcome' : HistoryGcBatchOutcome}
  {t : String} {walk : GcWalk} {k vk : Bytes}
variable {lsn horizon : TxnId} {value key : Bytes} {s' : Store} {env : Env}

theorem toNat_saturatingAdd (a : UInt64) (n : ℕ) :
    (saturatingAdd a n).toNat = min (a.toNat + n) (2 ^ 64 - 1) := by
  rw [saturatingAdd]
  split
  · rename_i h
    rw [UInt64.toNat_ofNat', Nat.mod_eq_of_lt h]
    omega
  · rename_i h
    rw [UInt64.toNat_ofNat']
    omega

/-- Every row met so far was last processed at or below the walk's position. -/
def GcWalk.Bounded (walk : GcWalk) : Prop :=
  ∀ t k lsn, walk.latest.get t k = some lsn → lsn ≤ walk.processed

theorem GcWalk.Bounded.visit (h : walk.Bounded) (hlsn : walk.processed ≤ lsn)
    (record : CommitLogRecord) (size : ℕ) : (walk.visit lsn record size).Bounded := by
  refine List.foldlRecOn (motive := fun latest : Tables String Bytes TxnId =>
    ∀ t k v, latest.get t k = some v → v ≤ lsn) _ _ (fun t k v hv => (h t k v hv).trans hlsn) ?_
  intro latest hlatest write _ t k v hv
  rw [Tables.get_put] at hv
  split at hv
  · exact (Option.some.inj hv).ge
  · exact hlatest t k v hv

variable {walk' : GcWalk}

theorem walkWindow_bounded {rows : List (Bytes × Bytes)} {walk : GcWalk} {stop : Bool}
    {last : TxnId} (hrun : walkWindow C plan rows walk = .ok (walk', stop))
    (hsorted : rows.Pairwise fun a b => compare a.1 b.1 = .lt)
    (hrows : ∀ row ∈ rows, ∀ lsn, row.1 = encodeTxnId lsn → walk.processed ≤ lsn ∧ lsn ≤ last)
    (hlast : walk.processed ≤ last) (h : walk.Bounded) :
    walk'.Bounded ∧ walk'.processed ≤ last := by
  induction rows generalizing walk with
  | nil =>
    cases hrun
    exact ⟨h, hlast⟩
  | cons row rows ih =>
    obtain ⟨key, value⟩ := row
    simp only [walkWindow, bind_eq_ok_iff, guard_eq_ok_iff] at hrun
    obtain ⟨lsn, hlsn, record, -, -, hrun⟩ := hrun
    obtain rfl := decodeTxnId_eq_ok_iff.mp hlsn
    obtain ⟨hle, hlsnLast⟩ := hrows _ List.mem_cons_self lsn rfl
    have hvisit := h.visit hle record value.length
    split at hrun
    · cases hrun
      exact ⟨hvisit, hlsnLast⟩
    · refine ih hrun (List.pairwise_cons.mp hsorted).2 ?_ hlsnLast hvisit
      -- the rows that follow have larger ids
      intro row hrow lsn' hkey
      have hlt := (List.pairwise_cons.mp hsorted).1 row hrow
      rw [hkey, encodeTxnId, encodeTxnId, compare_be64, Std.compare_eq_lt] at hlt
      exact ⟨hlt.le, (hrows row (List.mem_cons_of_mem _ hrow) lsn' hkey).2⟩

theorem le_windowLast
    (h : walk.processed < plan.watermark) : walk.processed ≤ windowLast plan walk := by
  refine le_min ?_ h.le
  rw [UInt64.le_iff_toNat_le, toNat_saturatingAdd, toNat_saturatingAdd]
  have := walk.processed.toNat_lt
  omega

theorem window_bounds {s : Store} {processed last : TxnId} {row : Bytes × Bytes}
    (hrow : row ∈ range s commitLogTable (encodeTxnId (saturatingAdd processed 1))
      (encodeTxnId (saturatingAdd last 1)))
    (hkey : row.1 = encodeTxnId lsn) : processed ≤ lsn ∧ lsn ≤ last := by
  obtain ⟨key, value⟩ := row
  subst hkey
  have hrange := (mem_range.mp hrow).2
  have hnonempty : (be64 (saturatingAdd last 1)).isEmpty = false := by
    rw [List.isEmpty_eq_false_iff]
    exact List.ne_nil_of_length_eq_add_one (length_be64 _)
  simp only [keyInRange, encodeTxnId, compare_be64, hnonempty, Bool.false_or, Bool.and_eq_true,
    Std.isLE_compare, Ordering.isLT_iff_eq_lt, Std.compare_eq_lt] at hrange
  rw [UInt64.le_iff_toNat_le, UInt64.lt_iff_toNat_lt, toNat_saturatingAdd,
    toNat_saturatingAdd] at hrange
  have hlsn := lsn.toNat_lt
  constructor <;> rw [UInt64.le_iff_toNat_le] <;> omega

/-- The walk stays between its start and the watermark. -/
theorem walkWindows_bounded {s : Store} {windows : ℕ} {walk : GcWalk}
    (hrun : walkWindows C s plan windows walk = .ok walk') (h : walk.Bounded) :
    walk'.Bounded ∧ (walk.processed ≤ plan.watermark → walk'.processed ≤ plan.watermark) := by
  induction windows generalizing walk with
  | zero =>
    cases hrun
    exact ⟨h, fun hle => hle⟩
  | succ windows ih =>
    rw [walkWindows] at hrun
    split at hrun
    · rename_i hlt
      simp only [bind_eq_ok_iff] at hrun
      obtain ⟨⟨walk₁, stop⟩, hwindow, hrun⟩ := hrun
      obtain ⟨hbounded, hlast⟩ := walkWindow_bounded hwindow (s.scan_sorted _ _)
        (fun row hrow lsn hkey => window_bounds hrow hkey) (le_windowLast hlt) h
      have hwatermark : windowLast plan walk ≤ plan.watermark := min_le_right _ _
      cases stop with
      | true =>
        obtain rfl := pure_eq_ok_iff.mp hrun
        exact ⟨hbounded, fun _ => hlast.trans hwatermark⟩
      | false =>
        obtain ⟨hbounded', hle⟩ :=
          ih hrun fun t k lsn hget => (hbounded t k lsn hget).trans hlast
        exact ⟨hbounded', fun _ => hle hwatermark⟩
    · cases hrun
      exact ⟨h, fun hle => hle⟩

theorem collectProcessedWrites_bounded {s : Store} {cursor : TxnId}
    (hrun : collectProcessedWrites C s cursor plan = .ok walk) :
    walk.Bounded ∧ (cursor ≤ plan.watermark → walk.processed ≤ plan.watermark) :=
  walkWindows_bounded hrun fun t k lsn hget => by simp at hget

/-! ## Pruning -/

/-- The progress rows of garbage collection in `__txn_meta`. -/
def gcMetaKeys : List Bytes :=
  [mvccGcCursorKey, historyHorizonKey, commitLogFloorKey]

/-- What a committed batch may do to the store, with its new horizon. -/
structure GcEffect (C : Codecs) (s s' : Store) (horizon : TxnId) : Prop where
  /-- A row's versions are kept, or pruned below a version at or below the horizon. -/
  chain : ∀ t k vk, versionKey t k = .ok vk → chainOf C s' vk = chainOf C s vk ∨
    ∃ newest ≤ horizon, PrunedBelow (.ok none) (chainOf C s vk) (chainOf C s' vk) newest
  versions : ∀ row value, s'.get txnMvccTable row = some value →
    s.get txnMvccTable row = some value
  /-- Outside the MVCC table, the commit log and the progress rows nothing changes. -/
  frame : ∀ t k, t ≠ txnMvccTable → t ≠ commitLogTable → (t = txnMetaTable → k ∉ gcMetaKeys) →
    s'.get t k = s.get t k
  stored : (readHistoryMeta s' historyHorizonKey).map (·.getD 0) = .ok horizon

section Prune

variable {s : Store} {latest : Tables String Bytes TxnId} {state state' : UInt64 × Store}

theorem pruneEntry_spec {entry : (String × Bytes) × TxnId}
    (h : pruneEntry C s state entry = .ok state') :
    ∃ vk, versionKey entry.1.1 entry.1.2 = .ok vk ∧
      DeletesVersions vk (Prunes C s entry.1.1 entry.1.2 vk entry.2) state.2 state'.2 := by
  simp only [pruneEntry, bind_eq_ok_iff, pure_eq_ok_iff] at h
  obtain ⟨⟨n, write⟩, hprune, rfl⟩ := h
  exact pruneKeyVersions_spec hprune

/-- A prune deletes the versions below the newest one it has seen. -/
theorem pruneEntries_version (hrun : latest.entries.foldlM (pruneEntry C s) state = .ok state')
    (hvk : versionKey t k = .ok vk) (v : TxnId) :
    (∀ newest, latest.get t k = some newest → Prunes C s t k vk newest v →
      state'.2.get txnMvccTable (vk ++ be64 v) = none) ∧
    ((∀ newest, latest.get t k = some newest → ¬ Prunes C s t k vk newest v) →
      state'.2.get txnMvccTable (vk ++ be64 v) = state.2.get txnMvccTable (vk ++ be64 v)) := by
  have hloop := foldlM_observe (fun state : UInt64 × Store =>
      state.2.get txnMvccTable (vk ++ be64 v))
    (fun entry => entry.1 = (t, k) ∧ Prunes C s t k vk entry.2 v) none hrun ?_ ?_
  · constructor
    · intro newest hget hprunes
      exact hloop.1 ⟨((t, k), newest), Tables.mem_entries.mpr hget, rfl, hprunes⟩
    · intro hnone
      refine hloop.2 ?_
      rintro ⟨_, newest⟩ hmem ⟨rfl, hprunes⟩
      exact hnone newest (Tables.mem_entries.mp hmem) hprunes
  · rintro ⟨_, newest⟩ - state₀ state₁ hstep ⟨rfl, hprunes⟩
    obtain ⟨vk', hvk', hdeletes⟩ := pruneEntry_spec hstep
    obtain rfl : vk' = vk := by simpa [hvk'] using hvk
    exact hdeletes.deleted v hprunes
  · rintro ⟨⟨t', k'⟩, newest⟩ - state₀ state₁ hstep hother
    obtain ⟨vk', hvk', hdeletes⟩ := pruneEntry_spec hstep
    refine hdeletes.kept _ _ fun _ w hw heq => hother ?_
    -- the same version row belongs to the same row
    obtain ⟨rfl, hv⟩ := List.append_inj' heq (by simp)
    obtain rfl := be64_inj.mp hv
    obtain ⟨rfl, rfl⟩ := versionKey_inj hvk' hvk
    exact ⟨rfl, hw⟩

theorem pruneEntries_frame (hrun : latest.entries.foldlM (pruneEntry C s) state = .ok state')
    (ht : t ≠ txnMvccTable) (k : Bytes) : state'.2.get t k = state.2.get t k := by
  refine foldlM_induction (fun state₁ => state₁.2.get t k = state.2.get t k) ?_ hrun rfl
  intro entry _ state₀ state₁ hstate hstep
  obtain ⟨vk, -, hdeletes⟩ := pruneEntry_spec hstep
  rw [hdeletes.kept t k fun h => absurd h ht, hstate]

theorem pruneEntries_versions (hrun : latest.entries.foldlM (pruneEntry C s) state = .ok state')
    {row : Bytes} (h : state'.2.get txnMvccTable row = some value) :
    state.2.get txnMvccTable row = some value := by
  refine foldlM_induction (fun state₁ => state₁.2.get txnMvccTable row = some value →
    state.2.get txnMvccTable row = some value) ?_ hrun id h
  intro entry _ state₀ state₁ hstate hstep hget
  obtain ⟨vk, -, hdeletes⟩ := pruneEntry_spec hstep
  by_cases hdeleted : ∃ v, Prunes C s entry.1.1 entry.1.2 vk entry.2 v ∧ row = vk ++ be64 v
  · obtain ⟨v, hv, rfl⟩ := hdeleted
    rw [hdeletes.deleted v hv] at hget
    contradiction
  · rw [hdeletes.kept _ _ fun _ v hv heq => hdeleted ⟨v, hv, heq⟩] at hget
    exact hstate hget

end Prune

theorem prunedBelow_of_prunes {s : Store} {newest : TxnId}
    (hpresent : s.get txnMvccTable (vk ++ be64 newest) ≠ none)
    (hpruned : ∀ v, Prunes C s t k vk newest v → s'.get txnMvccTable (vk ++ be64 v) = none)
    (hkept : ∀ v, ¬ Prunes C s t k vk newest v →
      s'.get txnMvccTable (vk ++ be64 v) = s.get txnMvccTable (vk ++ be64 v)) :
    PrunedBelow (.ok none) (chainOf C s vk) (chainOf C s' vk) newest := by
  obtain ⟨value, hvalue⟩ := Option.ne_none_iff_exists'.mp hpresent
  have hchain : ∀ v, ¬ Prunes C s t k vk newest v → chainOf C s' vk v = chainOf C s vk v :=
    fun v hv => by rw [chainOf, hkept v hv, chainOf]
  have hgone : ∀ v, Prunes C s t k vk newest v → chainOf C s' vk v = none :=
    fun v hv => by rw [chainOf, hpruned v hv, Option.map_none]
  constructor
  case present => simp [chainOf, hvalue]
  case above =>
    intro v hlt
    refine hchain v ?_
    rintro ⟨_, -, -, hlt' | ⟨rfl, -⟩⟩
    · exact hlt'.not_gt hlt
    · exact lt_irrefl _ hlt
  case below =>
    intro v _
    by_cases hv : Prunes C s t k vk newest v
    · exact Or.inl (hgone v hv)
    · exact Or.inr (hchain v hv)
  case at_newest =>
    by_cases hv : Prunes C s t k vk newest newest
    · refine Or.inr ⟨?_, fun w hw => ?_⟩
      · obtain ⟨value', hvalue', -, hlt | ⟨-, hdecode, -⟩⟩ := hv
        · exact absurd hlt (lt_irrefl _)
        · rw [chainOf, hvalue', Option.map_some, hdecode]
          rfl
      · rcases lt_or_eq_of_le hw with hlt | rfl
        · by_cases hnone : s.get txnMvccTable (vk ++ be64 w) = none
          · rw [hchain w fun hprunes => hprunes.choose_spec.2.1 hnone, chainOf, hnone,
              Option.map_none]
          · exact hgone w ⟨value, hvalue, hnone, Or.inl hlt⟩
        · exact hgone w hv
    · exact Or.inl (hchain newest hv)

/-- A pruned row reads the same from the horizon on. -/
theorem pruneEntries_chain {s write : Store} {n n' : UInt64}
    (hrun : walk.latest.entries.foldlM (pruneEntry C s) (n, s) = .ok (n', write))
    (hbounded : walk.Bounded) (hvk : versionKey t k = .ok vk) :
    chainOf C write vk = chainOf C s vk ∨
      ∃ newest ≤ walk.processed,
        PrunedBelow (.ok none) (chainOf C s vk) (chainOf C write vk) newest := by
  have hversion := pruneEntries_version hrun hvk
  have hsame : (∀ newest v, walk.latest.get t k = some newest → ¬ Prunes C s t k vk newest v) →
      chainOf C write vk = chainOf C s vk := by
    intro hnone
    funext v
    rw [chainOf, (hversion v).2 fun newest => hnone newest v, chainOf]
  cases hlatest : walk.latest.get t k with
  | none => exact Or.inl (hsame (by simp [hlatest]))
  | some newest =>
    by_cases hnone : s.get txnMvccTable (vk ++ be64 newest) = none
    · refine Or.inl (hsame ?_)
      rintro newest' v hnewest ⟨value, hvalue, -⟩
      cases hlatest.symm.trans hnewest
      rw [hnone] at hvalue
      contradiction
    · refine Or.inr ⟨newest, hbounded t k newest hlatest, ?_⟩
      apply prunedBelow_of_prunes (t := t) (k := k) hnone
      · exact fun v hv => (hversion v).1 newest hlatest hv
      · intro v hv
        refine (hversion v).2 fun newest' hnewest => ?_
        cases hlatest.symm.trans hnewest
        exact hv

theorem readHistoryMeta_of_get {s : Store}
    (h : s.get txnMetaTable key = some (encodeTxnId lsn)) :
    readHistoryMeta s key = .ok (some lsn) := by
  rw [readHistoryMeta, h]
  simp [decodeTxnId_encodeTxnId, Functor.map, Except.map]

theorem readHistoryMeta_congr {s : Store}
    (h : s'.get txnMetaTable key = s.get txnMetaTable key) :
    readHistoryMeta s' key = readHistoryMeta s key := by
  rw [readHistoryMeta, h, readHistoryMeta]

theorem chainOf_congr {s : Store} (h : ∀ row, s'.get txnMvccTable row = s.get txnMvccTable row)
    (vk : Bytes) : chainOf C s' vk = chainOf C s vk := by
  funext v
  rw [chainOf, h, chainOf]

theorem get_put_gcMeta {s : Store} {k : Bytes} (hkey : key ∈ gcMetaKeys)
    (h : t = txnMetaTable → k ∉ gcMetaKeys) :
    (s.put txnMetaTable key value).get t k = s.get t k := by
  apply Tables.get_put_of_ne
  rintro rfl rfl
  exact h rfl hkey

/-- A prune keeps the history above the new horizon. -/
theorem pruneMvccBatch_effect {s : Store}
    (h : pruneMvccBatch C s plan outcome = .ok (outcome', s')) :
    GcEffect C s s' outcome'.historyHorizon := by
  simp only [pruneMvccBatch, bind_eq_ok_iff, pure_eq_ok_iff, Prod.mk.injEq] at h
  obtain ⟨walk, hwalk, ⟨pruned, write⟩, hloop, rfl, rfl⟩ := h
  have hmeta : ∀ t k, (t = txnMetaTable → k ∉ gcMetaKeys) →
      ((write.put txnMetaTable mvccGcCursorKey (encodeTxnId walk.processed)).put txnMetaTable
        historyHorizonKey (encodeTxnId (max outcome.historyHorizon walk.processed))).get t k =
      write.get t k := by
    intro t k h
    rw [get_put_gcMeta (by simp [gcMetaKeys]) h, get_put_gcMeta (by simp [gcMetaKeys]) h]
  have hmvcc := fun row => hmeta txnMvccTable row fun ht => absurd ht (by decide)
  constructor
  case chain =>
    intro t k vk hvk
    rw [chainOf_congr hmvcc]
    refine (pruneEntries_chain hloop (collectProcessedWrites_bounded hwalk).1 hvk).imp_right ?_
    rintro ⟨newest, hle, hpruned⟩
    exact ⟨newest, hle.trans (le_max_right _ _), hpruned⟩
  case versions =>
    intro row value hget
    rw [hmvcc] at hget
    exact pruneEntries_versions hloop hget
  case frame =>
    intro t k hne _ hk
    rw [hmeta t k hk]
    exact pruneEntries_frame hloop hne k
  case stored =>
    rw [readHistoryMeta_of_get (Tables.get_put_self _ _ _ _)]
    rfl

/-! ## Batches -/

theorem truncateWindows_frame {s : Store} {target : TxnId} (ht : t ≠ commitLogTable) (k : Bytes)
    (windows : ℕ) (state : TxnId × ℕ × ℕ × Store) :
    (truncateWindows s plan target windows state).2.2.2.get t k = state.2.2.2.get t k := by
  induction windows generalizing state with
  | zero => rfl
  | succ windows ih =>
    obtain ⟨floor, deleted, deletedBytes, write⟩ := state
    rw [truncateWindows]
    split
    · rw [ih]
      exact Tables.get_foldl_delete_of_ne _ ht.symm _ _ _
    · rfl

theorem GcEffect.of_frame {s : Store}
    (hframe : ∀ t k, t ≠ commitLogTable → (t = txnMetaTable → k ≠ commitLogFloorKey) →
      s'.get t k = s.get t k)
    (hstored : (readHistoryMeta s historyHorizonKey).map (·.getD 0) = .ok horizon) :
    GcEffect C s s' horizon := by
  have hmvcc : ∀ row, s'.get txnMvccTable row = s.get txnMvccTable row := fun row =>
    hframe _ _ (by decide) fun h => absurd h (by decide)
  constructor
  case chain => exact fun t k vk _ => Or.inl (chainOf_congr hmvcc vk)
  case versions =>
    intro row value hget
    rwa [hmvcc] at hget
  case frame =>
    intro t k _ hlog hmeta
    refine hframe t k hlog fun ht hk => hmeta ht ?_
    simp [hk, gcMetaKeys]
  case stored =>
    rw [readHistoryMeta_congr (hframe _ _ (by decide) fun _ => by decide), hstored]

/-- A batch prunes, truncates or does nothing. -/
theorem gcHistoryStage_cases {s : Store}
    (h : gcHistoryStage C s plan outcome = .ok (outcome', s')) :
    (outcome.mvccCursor < plan.watermark ∧
      pruneMvccBatch C s plan outcome = .ok (outcome', s')) ∨
    (∃ target, plan.floorTarget outcome.mvccCursor = some target ∧
      outcome.commitLogFloor < target ∧
      truncateCommitLogBatch s plan target outcome = (outcome', s')) ∨
    (outcome' = outcome ∧ s' = s) := by
  rw [gcHistoryStage] at h
  split at h
  · rename_i hcursor
    exact Or.inl ⟨hcursor, h⟩
  · split at h
    · rename_i target htarget
      split at h
      · rename_i hfloor
        exact Or.inr (Or.inl ⟨target, htarget, hfloor, Except.ok.inj h⟩)
      · cases h
        exact Or.inr (Or.inr ⟨rfl, rfl⟩)
    · cases h
      exact Or.inr (Or.inr ⟨rfl, rfl⟩)

theorem changed_pruneMvccBatch {s : Store}
    (h : pruneMvccBatch C s plan outcome = .ok (outcome', s')) : outcome'.changed = true := by
  simp only [pruneMvccBatch, bind_eq_ok_iff, pure_eq_ok_iff, Prod.mk.injEq] at h
  obtain ⟨_, -, _, -, rfl, -⟩ := h
  rfl

theorem gcHistoryStage_effect {s : Store}
    (hstored : (readHistoryMeta s historyHorizonKey).map (·.getD 0) = .ok outcome.historyHorizon)
    (h : gcHistoryStage C s plan outcome = .ok (outcome', s')) :
    GcEffect C s s' outcome'.historyHorizon ∧
      (outcome'.changed = false → s' = s) := by
  rcases gcHistoryStage_cases h with ⟨-, hprune⟩ | ⟨target, -, -, htruncate⟩ | ⟨rfl, rfl⟩
  · refine ⟨pruneMvccBatch_effect hprune, fun hunchanged => ?_⟩
    rw [changed_pruneMvccBatch hprune] at hunchanged
    contradiction
  · cases htruncate
    refine ⟨.of_frame (fun t k hlog hmeta => ?_) hstored, fun hunchanged => ?_⟩
    · rw [Tables.get_put_of_ne fun ht hk => hmeta ht.symm hk.symm, truncateWindows_frame hlog]
    · contradiction
  · exact ⟨.of_frame (fun _ _ _ _ => rfl) hstored, fun _ => rfl⟩

theorem maintenanceGc_cases {s : Store}
    {outcome : HistoryGcBatchOutcome} (h : maintenanceGc C env s plan = .ok (outcome, s')) :
    ∃ state outcome' write, readHistoryGcState s = .ok state ∧
      gcHistoryStage C s plan
        { mvccCursor := state.mvccCursor, historyHorizon := state.historyHorizon,
          commitLogFloor := state.commitLogFloor } = .ok (outcome', write) ∧
      outcome.historyHorizon = outcome'.historyHorizon ∧
      (s' = write ∨ outcome'.changed = false ∧ s' = s) := by
  simp only [maintenanceGc, gcHistoryBatch, bind_eq_ok_iff, pure_eq_ok_iff] at h
  obtain ⟨_, -, _, ⟨state, hstate, ⟨outcome', write⟩, hstage, rfl⟩, h⟩ := h
  refine ⟨state, outcome', write, hstate, hstage, ?_⟩
  split at h
  · simp only [bind_eq_ok_iff, pure_eq_ok_iff, Prod.mk.injEq] at h
    obtain ⟨_, -, rfl, rfl⟩ := h
    exact ⟨rfl, Or.inl rfl⟩
  · rename_i hchanged
    cases h
    exact ⟨rfl, Or.inr ⟨by simpa using hchanged, rfl⟩⟩

theorem readHistoryGcState_horizon {s : Store} {state : HistoryGcState}
    (h : readHistoryGcState s = .ok state) :
    (readHistoryMeta s historyHorizonKey).map (·.getD 0) = .ok state.historyHorizon := by
  simp only [readHistoryGcState, bind_eq_ok_iff, pure_eq_ok_iff] at h
  obtain ⟨_, -, horizon, hhorizon, _, -, rfl⟩ := h
  rw [hhorizon]
  rfl

theorem maintenanceGc_effect {s : Store}
    {outcome : HistoryGcBatchOutcome} (h : maintenanceGc C env s plan = .ok (outcome, s')) :
    GcEffect C s s' outcome.historyHorizon := by
  obtain ⟨state, outcome', write, hstate, hstage, hhorizon, hresult⟩ := maintenanceGc_cases h
  obtain ⟨heffect, hunchanged⟩ :=
    gcHistoryStage_effect (readHistoryGcState_horizon hstate) hstage
  rw [hhorizon]
  rcases hresult with rfl | ⟨hchanged, rfl⟩
  · exact heffect
  · rw [hunchanged hchanged] at heffect
    exact heffect

theorem historyHorizon_maintenanceGc {s : Store}
    {outcome : HistoryGcBatchOutcome} (h : maintenanceGc C env s plan = .ok (outcome, s')) :
    ∃ old, (readHistoryMeta s historyHorizonKey).map (·.getD 0) = .ok old ∧
      outcome.historyHorizon ≤ max old plan.watermark := by
  obtain ⟨state, outcome', write, hstate, hstage, hhorizon, -⟩ := maintenanceGc_cases h
  refine ⟨_, readHistoryGcState_horizon hstate, ?_⟩
  rw [hhorizon]
  rcases gcHistoryStage_cases hstage with ⟨hcursor, hprune⟩ | ⟨target, -, -, htruncate⟩ | ⟨rfl, -⟩
  · simp only [pruneMvccBatch, bind_eq_ok_iff, pure_eq_ok_iff, Prod.mk.injEq] at hprune
    obtain ⟨walk, hwalk, _, -, rfl, -⟩ := hprune
    exact max_le_max_left _ ((collectProcessedWrites_bounded hwalk).2 hcursor.le)
  · cases htruncate
    exact le_max_left _ _
  · exact le_max_left _ _

/-! ## History -/

/-- The history at and above the horizon and the current state are as before the batch. -/
structure KeepsHistory (C : Codecs) (s s' : Store) (horizon : TxnId) : Prop where
  /-- The horizon is the one later reads are checked against. -/
  stored : (readHistoryMeta s' historyHorizonKey).map (·.getD 0) = .ok horizon
  /-- Every row has the same value at every readable id. -/
  asOf : ∀ t k vk, versionKey t k = .ok vk → ∀ lsn, horizon ≤ lsn →
    asOf C s' vk lsn = asOf C s vk lsn
  /-- Every table read in the past returns the same rows. -/
  rows : ∀ table lsn rows, horizon ≤ lsn → rowsAsOfLsn C s table lsn = .ok rows →
    rowsAsOfLsn C s' table lsn = .ok rows
  base : ∀ t k, t ∉ bookkeepingTables → t ≠ txnMetaTable → s'.get t k = s.get t k
  versions : ∀ k, s'.get txnVersionsTable k = s.get txnVersionsTable k
  current : currentTxnIdFrom s' = currentTxnIdFrom s

theorem GcEffect.asOf_eq {s : Store} (h : GcEffect C s s' horizon)
    (hlsn : horizon ≤ lsn) (hvk : versionKey t k = .ok vk) :
    asOf C s' vk lsn = asOf C s vk lsn := by
  rcases h.chain t k vk hvk with hsame | ⟨newest, hnewest, hpruned⟩
  · apply asOf_eq_of_sees
    rw [hsame]
    exact sees_asOf C s vk lsn
  · exact asOf_eq_of_sees (hpruned.sees (hnewest.trans hlsn) (sees_asOf C s vk lsn))

theorem GcEffect.retained {s : Store} (h : GcEffect C s s' horizon)
    (hlsn : horizon ≤ lsn) : ensureHistoryRetained s' lsn = .ok () := by
  obtain ⟨stored, hmeta, hstored⟩ := map_eq_ok_iff.mp h.stored
  rw [ensureHistoryRetained, hmeta]
  have : ¬ lsn < stored.getD 0 := not_lt.mpr (hstored ▸ hlsn)
  simp [Except.mapError, bind, Except.bind, this]
  rfl

theorem GcEffect.keepsHistory {s : Store} (h : GcEffect C s s' horizon) :
    KeepsHistory C s s' horizon where
  stored := h.stored
  asOf _ _ _ hvk _ hlsn := h.asOf_eq hlsn hvk
  rows _ _ _ hlsn := rowsAsOfLsn_of_asOf (fun _ _ hget => Or.inl (h.versions _ _ hget))
    (fun _ _ => h.asOf_eq hlsn) (h.retained hlsn)
  base t k ht hmeta := by
    refine h.frame t k ?_ ?_ fun htmeta => absurd htmeta hmeta
    · rintro rfl
      exact ht (by simp [bookkeepingTables])
    · rintro rfl
      exact ht (by simp [bookkeepingTables])
  versions k := h.frame _ _ (by decide) (by decide) fun ht => absurd ht (by decide)
  current := by
    rw [currentTxnIdFrom, h.frame _ _ (by decide) (by decide) fun _ => by decide,
      currentTxnIdFrom]

/-- A commit, or one batch of garbage collection. -/
inductive HistoryCall
  | commit (call : LiveCall)
  | gc (plan : HistoryGcBatchPlan)

def HistoryCall.step (C : Codecs) (s : Store) : Env × HistoryCall → Store
  | (env, commit call) => LiveCall.step C s (env, call)
  | (env, gc plan) =>
    match maintenanceGc C env s plan with
    | .error _ => s
    | .ok (_, s') => s'

/-- The store after a list of calls. -/
def runHistory (C : Codecs) (calls : List (Env × HistoryCall)) : Store :=
  calls.foldl (HistoryCall.step C) .empty

/-- A batch of collection that returns keeps the history above its horizon. -/
def GcKeepsHistory (C : Codecs) (s : Store) : Result (HistoryGcBatchOutcome × Store) → Prop
  | .error _ => True
  | .ok (outcome, s') => KeepsHistory C s s' outcome.historyHorizon

/-- A batch under any plan keeps every snapshot at or above its horizon readable and leaves the
current state alone. -/
theorem gcKeepsHistory_runHistory (C : Codecs) (calls : List (Env × HistoryCall)) (env : Env)
    (plan : HistoryGcBatchPlan) :
    GcKeepsHistory C (runHistory C calls) (maintenanceGc C env (runHistory C calls) plan) := by
  cases hbatch : maintenanceGc C env (runHistory C calls) plan with
  | error e => trivial
  | ok result => exact (maintenanceGc_effect hbatch).keepsHistory

end MultiDb
