import MultiDb.Verification.Txn.Apply

/-!
# The effect of a commit

A successful commit is described once, row by row.
-/

namespace MultiDb

open Shared

variable {C : Codecs} {t : String}

/-- The rows that only the commit path itself maintains. -/
def Bookkeeping (t : String) (k : Bytes) : Prop :=
  t ∈ bookkeepingTables ∨ t = txnMetaTable ∧ k = currentTxnIdKey

instance (t : String) (k : Bytes) : Decidable (Bookkeeping t k) :=
  inferInstanceAs (Decidable (_ ∨ _))

/-- Write sets that leave the bookkeeping rows alone. -/
def CleanWrites (writes : WriteSet) : Prop :=
  ∀ t k v, writes.get t k = some v → ¬ Bookkeeping t k

theorem tableIsReserved_of_bookkeeping {k : Bytes} (h : Bookkeeping t k) :
    tableIsReserved t = true := by
  have hall : ∀ t ∈ txnMetaTable :: bookkeepingTables, tableIsReserved t = true := by decide
  rcases h with h | ⟨rfl, -⟩
  · exact hall t (List.mem_cons_of_mem _ h)
  · exact hall _ List.mem_cons_self

theorem PublicWrites.clean {writes : WriteSet} (h : PublicWrites writes) : CleanWrites writes := by
  intro t k v hget hbook
  have := h t k v hget
  rw [tableIsReserved_of_bookkeeping hbook] at this
  contradiction

theorem validateSnapshot_eq_ok_iff {s : Store} {snapshotId : TxnId} {writes : WriteSet} :
    validateSnapshot s snapshotId writes = .ok () ↔ ∀ t k v, writes.get t k = some v →
      ∃ version, lastKeyVersion s t k = .ok version ∧ version ≤ snapshotId := by
  simp only [validateSnapshot, List.forM_eq_forM, forM_eq_ok_iff, bind_eq_ok_iff,
    guard_eq_ok_iff, pure_eq_ok_iff, and_true, gt_iff_lt, UInt64.not_lt]
  exact Tables.forall_mem_entries (P := fun t k _ =>
    ∃ version, lastKeyVersion s t k = .ok version ∧ version ≤ snapshotId)

/-- The record a commit logs. -/
def commitRecord (env : Env) (id : TxnId) (writes : WriteSet) (hlc : HlcTimestamp) :
    CommitLogRecord :=
  commitLogRecordWithClockAndHlc id writes env.committedAt hlc

/-- The steps a commit that succeeds has made. -/
structure CommitSteps (C : Codecs) (env : Env) (s : Store) (snapshotId : TxnId)
    (writes : WriteSet) (id : TxnId) (s' : Store) : Prop where
  locks : validateWriteLocks C s writes = .ok ()
  snapshot : ∀ t k v, writes.get t k = some v →
    ∃ version, lastKeyVersion s t k = .ok version ∧ version ≤ snapshotId
  next : ∃ current, currentTxnIdFrom s = .ok current ∧ id.toNat = current.toNat + 1
  applied : ∃ hlc, applyCommitRecordInTxn C s (commitRecord env id writes hlc) = .ok s'

/-- What a call that asks for `writes` does: nothing if they are empty, otherwise one commit. -/
def CommitsWrites (C : Codecs) (env : Env) (s : Store) (writes : WriteSet) (s' : Store) : Prop :=
  writes.entries.isEmpty = true ∧ s' = s ∨
    writes.entries.isEmpty = false ∧ ∃ snapshotId id, CommitSteps C env s snapshotId writes id s'

theorem commitPlain_steps {env : Env} {s s' : Store} {snapshotId id : TxnId} {writes : WriteSet}
    (h : commitPlain C env s snapshotId writes = .ok (id, s')) :
    CommitSteps C env s snapshotId writes id s' := by
  simp only [commitPlain, commitWriteSetInTxnWithExtraAuthorized, bind_eq_ok_iff,
    Except.ok.injEq, exists_eq_left'] at h
  obtain ⟨_, hlocks, _, hsnapshot, current, hcurrent, h⟩ := h
  cases hnext : checkedSucc current with
  | none => simp [hnext] at h
  | some next =>
    simp only [hnext, bind_eq_ok_iff, pure_eq_ok_iff, Prod.mk.injEq] at h
    obtain ⟨hlc, -, s₁, happly, s₂, hs₂, _, -, rfl, rfl⟩ := h
    cases hs₂
    exact ⟨hlocks, validateSnapshot_eq_ok_iff.mp hsnapshot,
      ⟨current, hcurrent, checkedSucc_eq_some_iff.mp hnext⟩, ⟨hlc, happly⟩⟩

theorem commitPlain_of_preflight {env : Env} {s : Store} {snapshotId : TxnId} {writes : WriteSet}
    {validateReads : Store → Result Unit} {result : TxnId × Store}
    (h : commitWriteSetWithPreflight C env s snapshotId writes validateReads = .ok result) :
    PublicWrites writes ∧ validateReads s = .ok () ∧
      commitPlain C env s snapshotId writes = .ok result := by
  simp only [commitWriteSetWithPreflight, commitPlain, commitWriteSetInTxnWithExtraAuthorized,
    bind_eq_ok_iff, pure_eq_ok_iff, Except.ok.injEq, exists_eq_left'] at h ⊢
  obtain ⟨_, -, _, hpublic, _, hlocks, _, hsnapshot, _, ⟨_, hreads, rfl⟩, h⟩ := h
  exact ⟨validatePublicWriteSet_eq_ok_iff.mp hpublic, hreads, _, hlocks, _, hsnapshot, h⟩

section Entry

variable {env : Env} {s s' : Store} {snapshotId id : TxnId} {writes : WriteSet}

theorem commitWriteSetAuthorized_cases
    (h : commitWriteSetAuthorized C env s snapshotId writes = .ok (id, s')) :
    (writes.entries.isEmpty = true ∧ s' = s) ∨
    (writes.entries.isEmpty = false ∧ CommitSteps C env s snapshotId writes id s') := by
  simp only [commitWriteSetAuthorized] at h
  cases hempty : writes.entries.isEmpty with
  | true =>
    simp only [hempty, if_true, pure_eq_ok_iff, Prod.mk.injEq] at h
    exact Or.inl ⟨rfl, h.2.symm⟩
  | false =>
    simp only [hempty, Bool.false_eq_true, if_false, bind_eq_ok_iff] at h
    obtain ⟨_, -, h⟩ := h
    exact Or.inr ⟨rfl, commitPlain_steps h⟩

theorem commitWriteSetAtCurrentAuthorized_cases
    (h : commitWriteSetAtCurrentAuthorized C env s writes = .ok (id, s')) :
    (writes.entries.isEmpty = true ∧ s' = s) ∨
    (writes.entries.isEmpty = false ∧ ∃ current, currentTxnIdFrom s = .ok current ∧
      CommitSteps C env s current writes id s') := by
  simp only [commitWriteSetAtCurrentAuthorized] at h
  cases hempty : writes.entries.isEmpty with
  | true =>
    simp only [hempty, if_true, bind_eq_ok_iff, pure_eq_ok_iff, Prod.mk.injEq] at h
    obtain ⟨_, -, -, rfl⟩ := h
    exact Or.inl ⟨rfl, rfl⟩
  | false =>
    simp only [hempty, Bool.false_eq_true, if_false, bind_eq_ok_iff] at h
    obtain ⟨_, -, current, hcurrent, h⟩ := h
    exact Or.inr ⟨rfl, current, hcurrent, commitPlain_steps h⟩

end Entry

/-! ## The effect of a commit -/

/-- The store `s'` after the commit of `writes` as transaction `id`, row by row. -/
structure CommitEffect (C : Codecs) (s : Store) (writes : WriteSet) (id : TxnId) (s' : Store) :
    Prop where
  /-- Plain rows hold what the write set left in them. -/
  row : ∀ t k, ¬ Bookkeeping t k → s'.get t k = (writes.get t k).getD (s.get t k)
  current : s'.get txnMetaTable currentTxnIdKey = some (encodeTxnId id)
  address : ∀ t k v, writes.get t k = some v → ∃ vk, versionKey t k = .ok vk
  version_written : ∀ t k v vk, writes.get t k = some v → versionKey t k = .ok vk →
    s'.get txnVersionsTable vk = some (encodeTxnId id)
  version_kept : ∀ vk, (∀ t k v, writes.get t k = some v → versionKey t k ≠ .ok vk) →
    s'.get txnVersionsTable vk = s.get txnVersionsTable vk
  mvcc_written : ∀ t k v mk, writes.get t k = some v → mvccKey t k id = .ok mk →
    ∃ bytes, encodeMvccRecord C { value := v } = .ok bytes ∧ s'.get txnMvccTable mk = some bytes
  mvcc_kept : ∀ mk, (∀ t k v, writes.get t k = some v → mvccKey t k id ≠ .ok mk) →
    s'.get txnMvccTable mk = s.get txnMvccTable mk
  /-- The commit applies its record, which is the new row of the log. -/
  log : ∃ record bytes, record.txnId = id ∧ record.writes = commitLogWrites writes ∧
    applyCommitRecordInTxn C s record = .ok s' ∧
    encodeCommitLogRecord C record = .ok bytes ∧
    ∀ k, s'.get commitLogTable k =
      if encodeTxnId id = k then some bytes else s.get commitLogTable k
  /-- Every written table is in the keyspace registry, which only grows. -/
  registered : ∀ t k v, writes.get t k = some v →
    s'.get keyspaceRegistryTable (strBytes t) = some keyspacePresentValue
  registry_kept : ∀ name, s.get keyspaceRegistryTable name ≠ none →
    s'.get keyspaceRegistryTable name ≠ none
  next : ∃ current, currentTxnIdFrom s = .ok current ∧ id.toNat = current.toNat + 1
  /-- The data-version token of a public table moves with its rows. -/
  token_written : ∀ t k v, writes.get t k = some v → tableIsReserved t = false →
    s'.get tableDataVersionTable (strBytes t) = some (encodeTxnId id)
  token_kept : ∀ t, (∀ k, writes.get t k = none) →
    s'.get tableDataVersionTable (strBytes t) = s.get tableDataVersionTable (strBytes t)

section Effect

variable {s s' s₁ : Store} {record : CommitLogRecord} {log : Bytes} {writes : WriteSet}

private theorem clean_table (hclean : CleanWrites writes)
    (ht : t ∈ bookkeepingTables) : ∀ w ∈ commitLogWrites writes, w.table ≠ t := by
  rintro w hw rfl
  exact hclean w.table w.key w.value (mem_commitLogWrites.mp hw) (Or.inl ht)

private theorem AppliedRecord.get_plain (h : AppliedRecord C s s₁ s' record log)
    (hwrites : record.writes = commitLogWrites writes) {k : Bytes}
    (hrow : ¬ Bookkeeping t k) : s'.get t k = (writes.get t k).getD (s.get t k) := by
  rw [h.get_row (fun ht => hrow (Or.inl ht)), hwrites, lastWrite_commitLogWrites,
    Tables.get_put_of_ne fun ht hk => hrow (Or.inr ⟨ht.symm, hk.symm⟩)]

theorem AppliedRecord.get_current (h : AppliedRecord C s s₁ s' record log)
    (hwrites : record.writes = commitLogWrites writes)
    (hclean : writes.get txnMetaTable currentTxnIdKey = none) :
    s'.get txnMetaTable currentTxnIdKey = some (encodeTxnId record.txnId) := by
  rw [h.get_row (by decide), hwrites, lastWrite_commitLogWrites, Tables.get_put_self, hclean]
  rfl

theorem AppliedRecord.get_log (h : AppliedRecord C s s₁ s' record log)
    (hwrites : ∀ w ∈ record.writes, w.table ≠ commitLogTable) (k : Bytes) :
    s'.get commitLogTable k =
      if encodeTxnId record.txnId = k then some log else s.get commitLogTable k := by
  rw [h.log_row, get_applyWrites h.writes (by decide) (by decide),
    lastWrite_of_not_written fun w hw ht => absurd ht (hwrites w hw),
    Tables.get_put_of_ne fun ht => absurd ht (by decide)]

private theorem AppliedRecord.get_version (h : AppliedRecord C s s₁ s' record log)
    (hwrites : record.writes = commitLogWrites writes) (hclean : CleanWrites writes) (vk : Bytes) :
    (∀ t k v, writes.get t k = some v → versionKey t k = .ok vk →
      s'.get txnVersionsTable vk = some (encodeTxnId record.txnId)) ∧
    ((∀ t k v, writes.get t k = some v → versionKey t k ≠ .ok vk) →
      s'.get txnVersionsTable vk = s.get txnVersionsTable vk) := by
  have hloop := get_applyWrites_versions h.writes
    (hwrites ▸ clean_table hclean (by decide)) vk
  rw [h.frame _ _ (by decide)]
  constructor
  · intro t k v hget hvk
    exact hloop.1 ⟨⟨t, k, v⟩, hwrites ▸ mem_commitLogWrites.mpr hget, hvk⟩
  · intro hno
    rw [hloop.2 fun w hw => hno w.table w.key w.value (mem_commitLogWrites.mp (hwrites ▸ hw)),
      Tables.get_put_of_ne fun ht => absurd ht (by decide)]

private theorem AppliedRecord.get_mvcc (h : AppliedRecord C s s₁ s' record log)
    (hwrites : record.writes = commitLogWrites writes) (hclean : CleanWrites writes) :
    (∀ t k v mk, writes.get t k = some v → mvccKey t k record.txnId = .ok mk →
      ∃ bytes, encodeMvccRecord C { value := v } = .ok bytes ∧
        s'.get txnMvccTable mk = some bytes) ∧
    ∀ mk, (∀ t k v, writes.get t k = some v → mvccKey t k record.txnId ≠ .ok mk) →
      s'.get txnMvccTable mk = s.get txnMvccTable mk := by
  have htables : ∀ w ∈ record.writes, w.table ≠ txnMvccTable :=
    hwrites ▸ clean_table hclean (by decide)
  constructor
  · intro t k v mk hget hmk
    have hmem : ⟨t, k, v⟩ ∈ record.writes := hwrites ▸ mem_commitLogWrites.mpr hget
    obtain ⟨_, bytes, -, hbytes⟩ := exists_encoding_of_applyWrites h.writes hmem
    -- a write set holds one value per row, so every write at this key has this encoding
    have hval : ∀ w ∈ record.writes, mvccKey w.table w.key record.txnId = .ok mk →
        encodeMvccRecord C { value := w.value } = .ok bytes := by
      intro w hw hmk'
      obtain ⟨rfl, rfl, -⟩ := mvccKey_inj hmk' hmk
      have hw' := mem_commitLogWrites.mp (hwrites ▸ hw)
      rw [Option.some.inj (hw'.symm.trans hget)]
      exact hbytes
    refine ⟨bytes, hbytes, ?_⟩
    rw [h.frame _ _ (by decide)]
    exact (get_applyWrites_mvcc h.writes htables bytes hval).1 ⟨_, hmem, hmk⟩
  · intro mk hno
    have hno' : ∀ w ∈ record.writes, mvccKey w.table w.key record.txnId ≠ .ok mk :=
      fun w hw => hno w.table w.key w.value (mem_commitLogWrites.mp (hwrites ▸ hw))
    rw [h.frame _ _ (by decide), (get_applyWrites_mvcc h.writes htables []
        fun w hw hmk => absurd hmk (hno' w hw)).2 hno',
      Tables.get_put_of_ne fun ht => absurd ht (by decide)]

private theorem AppliedRecord.get_registry (h : AppliedRecord C s s₁ s' record log)
    (hwrites : record.writes = commitLogWrites writes) (hclean : CleanWrites writes) :
    (∀ t k v, writes.get t k = some v →
      s'.get keyspaceRegistryTable (strBytes t) = some keyspacePresentValue) ∧
    ∀ name, s.get keyspaceRegistryTable name ≠ none →
      s'.get keyspaceRegistryTable name ≠ none := by
  constructor
  · intro t k v hget
    refine h.registered t (mem_keyspacesForCommit ?_)
    rw [hwrites]
    exact List.mem_map.mpr ⟨⟨t, k, v⟩, mem_commitLogWrites.mpr hget, rfl⟩
  · intro name hpresent
    by_cases hnamed : ∃ table ∈ keyspacesForCommit (record.writes.map (·.table)),
        strBytes table = name
    · obtain ⟨table, htable, rfl⟩ := hnamed
      simp [h.registered table htable]
    · have htables : ∀ w ∈ record.writes, w.table ≠ keyspaceRegistryTable :=
        hwrites ▸ clean_table hclean (by decide)
      rw [h.unregistered name fun table htable heq => hnamed ⟨table, htable, heq⟩,
        get_applyWrites h.writes (by decide) (by decide),
        lastWrite_of_not_written fun w hw ht => absurd ht (htables w hw),
        Tables.get_put_of_ne fun ht => absurd ht (by decide)]
      exact hpresent

private theorem AppliedRecord.get_token (h : AppliedRecord C s s₁ s' record log)
    (hwrites : record.writes = commitLogWrites writes) (hclean : CleanWrites writes) (t : String) :
    (∀ k v, writes.get t k = some v → tableIsReserved t = false →
      s'.get tableDataVersionTable (strBytes t) = some (encodeTxnId record.txnId)) ∧
    ((∀ k, writes.get t k = none) →
      s'.get tableDataVersionTable (strBytes t) = s.get tableDataVersionTable (strBytes t)) := by
  constructor
  · intro k v hget ht
    refine h.token t (mem_publicTables.mpr ⟨ht, ⟨t, k, v⟩, ?_, rfl⟩)
    exact hwrites ▸ mem_commitLogWrites.mpr hget
  · intro hnone
    have htables : ∀ w ∈ record.writes, w.table ≠ tableDataVersionTable :=
      hwrites ▸ clean_table hclean (by decide)
    rw [h.token_kept, get_applyWrites h.writes (by decide) (by decide),
      lastWrite_of_not_written fun w hw ht => absurd ht (htables w hw),
      Tables.get_put_of_ne fun ht => absurd ht (by decide)]
    intro table htable heq
    obtain ⟨-, w, hw, rfl⟩ := mem_publicTables.mp htable
    have hget := mem_commitLogWrites.mp (hwrites ▸ hw)
    rw [strBytes_inj.mp heq, hnone] at hget
    contradiction

end Effect

/-- The effect of a commit on every row. -/
theorem CommitSteps.effect {env : Env} {s s' : Store} {snapshotId id : TxnId} {writes : WriteSet}
    (h : CommitSteps C env s snapshotId writes id s') (hclean : CleanWrites writes) :
    CommitEffect C s writes id s' := by
  obtain ⟨hlc, happly⟩ := h.applied
  obtain ⟨s₁, log, happlied⟩ := exists_appliedRecord happly
  have hmvcc := happlied.get_mvcc rfl hclean
  refine ⟨fun t k => happlied.get_plain rfl, happlied.get_current rfl ?_, ?_,
    fun t k v vk => (happlied.get_version rfl hclean vk).1 t k v,
    fun vk => (happlied.get_version rfl hclean vk).2, hmvcc.1, hmvcc.2,
    ⟨_, log, rfl, rfl, happly, happlied.encoded, happlied.get_log (clean_table hclean (by decide))⟩,
    (happlied.get_registry rfl hclean).1, (happlied.get_registry rfl hclean).2, h.next,
    fun t => (happlied.get_token rfl hclean t).1, fun t => (happlied.get_token rfl hclean t).2⟩
  · by_contra hne
    obtain ⟨v, hv⟩ := Option.ne_none_iff_exists'.mp hne
    exact hclean _ _ v hv (Or.inr ⟨rfl, rfl⟩)
  · intro t k v hget
    have hmem : ⟨t, k, v⟩ ∈ commitLogWrites writes := mem_commitLogWrites.mpr hget
    obtain ⟨vk, -, hvk, -⟩ := exists_encoding_of_applyWrites happlied.writes hmem
    exact ⟨vk, hvk⟩

end MultiDb
