import MultiDb.Verification.Txn.Equations

/-!
# What applying a commit record does to each row

The value of every row after `applyCommitRecordInTxn`.
-/

namespace MultiDb

open Shared

variable {C : Codecs} {t : String}
variable {write : CommitLogWrite} {record : CommitLogRecord} {table : String}

/-- The value the last write of the row leaves. -/
def lastWrite (writes : List CommitLogWrite) (t : String) (k : Bytes) (old : Option Bytes) :
    Option Bytes :=
  writes.foldl (fun v write => if (write.table, write.key) = (t, k) then write.value else v) old

theorem lastWrite_of_not_written {writes : List CommitLogWrite} {k : Bytes}
    (h : ∀ write ∈ writes, write.table = t → write.key ≠ k) (old : Option Bytes) :
    lastWrite writes t k old = old := by
  refine List.foldlRecOn (motive := fun v => v = old) _ _ rfl ?_
  rintro v rfl write hmem
  exact if_neg fun heq => h write hmem (Prod.mk.inj heq).1 (Prod.mk.inj heq).2

theorem lastWrite_commitLogWrites (writes : WriteSet) (t : String) (k : Bytes)
    (old : Option Bytes) :
    lastWrite (commitLogWrites writes) t k old = (writes.get t k).getD old := by
  rw [lastWrite, commitLogWrites, List.foldl_map]
  simpa using writes.foldl_entries t k id old

theorem mem_commitLogWrites {writes : WriteSet} :
    write ∈ commitLogWrites writes ↔ writes.get write.table write.key = some write.value := by
  rw [commitLogWrites, List.mem_map]
  constructor
  · rintro ⟨⟨⟨t, k⟩, v⟩, hmem, rfl⟩
    exact Tables.mem_entries.mp hmem
  · intro h
    exact ⟨((write.table, write.key), write.value), Tables.mem_entries.mpr h, rfl⟩

theorem applyWrite_eq_ok_iff {id : TxnId} {s s' : Store} :
    applyWrite C id s write = .ok s' ↔ ∃ mk bytes vk,
      mvccKey write.table write.key id = .ok mk ∧
      encodeMvccRecord C { value := write.value } = .ok bytes ∧
      versionKey write.table write.key = .ok vk ∧
      s' = ((s.put txnMvccTable mk bytes).set write.table write.key write.value).put
        txnVersionsTable vk (encodeTxnId id) := by
  simp only [applyWrite, bind_eq_ok_iff, pure_eq_ok_iff, @eq_comm _ s']
  constructor
  · rintro ⟨mk, hmk, bytes, hbytes, vk, hvk, rfl⟩
    exact ⟨mk, bytes, vk, hmk, hbytes, hvk, rfl⟩
  · rintro ⟨mk, bytes, vk, hmk, hbytes, hvk, rfl⟩
    exact ⟨mk, hmk, bytes, hbytes, vk, hvk, rfl⟩

section Writes

variable {id : TxnId} {s s' : Store} {writes : List CommitLogWrite}

theorem get_applyWrites (hrun : writes.foldlM (applyWrite C id) s = .ok s')
    (hmvcc : t ≠ txnMvccTable) (hversions : t ≠ txnVersionsTable) (k : Bytes) :
    s'.get t k = lastWrite writes t k (s.get t k) := by
  induction writes generalizing s with
  | nil =>
    rw [List.foldlM_nil, pure_eq_ok_iff] at hrun
    rw [hrun]
    rfl
  | cons write writes ih =>
    obtain ⟨s₁, hstep, hrest⟩ := foldlM_cons_eq_ok_iff.mp hrun
    obtain ⟨mk, bytes, vk, -, -, -, rfl⟩ := applyWrite_eq_ok_iff.mp hstep
    rw [ih hrest, Tables.get_put_of_ne fun h => absurd h.symm hversions, Tables.get_set,
      Tables.get_put_of_ne fun h => absurd h.symm hmvcc]
    simp only [lastWrite, List.foldl_cons, Prod.mk.injEq]

theorem get_applyWrites_versions (hrun : writes.foldlM (applyWrite C id) s = .ok s')
    (hclean : ∀ w ∈ writes, w.table ≠ txnVersionsTable) (vk : Bytes) :
    ((∃ w ∈ writes, versionKey w.table w.key = .ok vk) →
      s'.get txnVersionsTable vk = some (encodeTxnId id)) ∧
    ((∀ w ∈ writes, versionKey w.table w.key ≠ .ok vk) →
      s'.get txnVersionsTable vk = s.get txnVersionsTable vk) := by
  refine foldlM_observe (fun s₀ => s₀.get txnVersionsTable vk)
    (fun w => versionKey w.table w.key = .ok vk) _ hrun ?_ ?_
  · intro w hw s₀ s₁ hstep hvk
    obtain ⟨mk, bytes, vk', -, -, hvk', rfl⟩ := applyWrite_eq_ok_iff.mp hstep
    obtain rfl : vk' = vk := by simpa [hvk'] using hvk
    exact Tables.get_put_self _ _ _ _
  · intro w hw s₀ s₁ hstep hvk
    obtain ⟨mk, bytes, vk', -, -, hvk', rfl⟩ := applyWrite_eq_ok_iff.mp hstep
    have hne : vk' ≠ vk := by
      rintro rfl
      exact hvk hvk'
    rw [Tables.get_put_of_ne fun _ => hne, Tables.get_set, if_neg fun h => hclean w hw h.1,
      Tables.get_put_of_ne fun h => absurd h (by decide)]

theorem get_applyWrites_mvcc (hrun : writes.foldlM (applyWrite C id) s = .ok s')
    (hclean : ∀ w ∈ writes, w.table ≠ txnMvccTable) {mk : Bytes} (bytes : Bytes)
    (hval : ∀ w ∈ writes, mvccKey w.table w.key id = .ok mk →
      encodeMvccRecord C { value := w.value } = .ok bytes) :
    ((∃ w ∈ writes, mvccKey w.table w.key id = .ok mk) →
      s'.get txnMvccTable mk = some bytes) ∧
    ((∀ w ∈ writes, mvccKey w.table w.key id ≠ .ok mk) →
      s'.get txnMvccTable mk = s.get txnMvccTable mk) := by
  -- the row is put first; the row and version writes that follow are elsewhere
  have hafter : ∀ w ∈ writes, ∀ (s₀ : Store) vk,
      ((s₀.set w.table w.key w.value).put txnVersionsTable vk (encodeTxnId id)).get
        txnMvccTable mk = s₀.get txnMvccTable mk := by
    intro w hw s₀ vk
    rw [Tables.get_put_of_ne fun h => absurd h (by decide), Tables.get_set,
      if_neg fun h => hclean w hw h.1]
  refine foldlM_observe (fun s₀ => s₀.get txnMvccTable mk)
    (fun w => mvccKey w.table w.key id = .ok mk) _ hrun ?_ ?_
  · intro w hw s₀ s₁ hstep hmk
    obtain ⟨mk', bytes', vk, hmk', hbytes', -, rfl⟩ := applyWrite_eq_ok_iff.mp hstep
    obtain rfl : mk' = mk := by simpa [hmk'] using hmk
    obtain rfl : bytes' = bytes := by simpa [hbytes'] using hval w hw hmk
    rw [hafter w hw, Tables.get_put_self]
  · intro w hw s₀ s₁ hstep hmk
    obtain ⟨mk', bytes', vk, hmk', -, -, rfl⟩ := applyWrite_eq_ok_iff.mp hstep
    have hne : mk' ≠ mk := by
      rintro rfl
      exact hmk hmk'
    rw [hafter w hw, Tables.get_put_of_ne fun _ => hne]

theorem exists_encoding_of_applyWrites (hrun : writes.foldlM (applyWrite C id) s = .ok s')
    {w : CommitLogWrite} (hw : w ∈ writes) :
    ∃ vk bytes, versionKey w.table w.key = .ok vk ∧
      encodeMvccRecord C { value := w.value } = .ok bytes := by
  obtain ⟨s₀, s₁, hstep⟩ := foldlM_mem hrun hw
  obtain ⟨_, bytes, vk, -, hbytes, hvk, -⟩ := applyWrite_eq_ok_iff.mp hstep
  exact ⟨vk, bytes, hvk, hbytes⟩

end Writes

/-- The store `s'` after a record, through the store `s₁` after its writes. -/
structure AppliedRecord (C : Codecs) (s s₁ s' : Store) (record : CommitLogRecord) (log : Bytes) :
    Prop where
  writes : record.writes.foldlM (applyWrite C record.txnId)
    (s.put txnMetaTable currentTxnIdKey (encodeTxnId record.txnId)) = .ok s₁
  encoded : encodeCommitLogRecord C record = .ok log
  frame : ∀ t k, t ∉ [tableDataVersionTable, keyspaceRegistryTable, commitLogTable, hlcTable] →
    s'.get t k = s₁.get t k
  log_row : ∀ k, s'.get commitLogTable k =
    if encodeTxnId record.txnId = k then some log else s₁.get commitLogTable k
  registered : ∀ table ∈ keyspacesForCommit (record.writes.map (·.table)),
    s'.get keyspaceRegistryTable (strBytes table) = some keyspacePresentValue
  unregistered : ∀ k, (∀ table ∈ keyspacesForCommit (record.writes.map (·.table)),
    strBytes table ≠ k) → s'.get keyspaceRegistryTable k = s₁.get keyspaceRegistryTable k
  token : ∀ table ∈ publicTables record.writes,
    s'.get tableDataVersionTable (strBytes table) = some (encodeTxnId record.txnId)
  token_kept : ∀ k, (∀ table ∈ publicTables record.writes, strBytes table ≠ k) →
    s'.get tableDataVersionTable k = s₁.get tableDataVersionTable k

private theorem get_mergeHlc {s s' : Store} {hlc : Option HlcTimestamp}
    (h : mergeHlc C s hlc = .ok s') (ht : t ≠ hlcTable) (k : Bytes) : s'.get t k = s.get t k := by
  cases hlc with
  | none =>
    obtain rfl : s = s' := by simpa [mergeHlc] using h
    rfl
  | some hlc =>
    simp only [mergeHlc, bind_eq_ok_iff, pure_eq_ok_iff] at h
    obtain ⟨stored, -, bytes, -, rfl⟩ := h
    exact Tables.get_put_of_ne fun heq => absurd heq.symm ht

/-- What applying a record does, step by step. -/
theorem exists_appliedRecord {s s' : Store}
    (h : applyCommitRecordInTxn C s record = .ok s') :
    ∃ s₁ log, AppliedRecord C s s₁ s' record log := by
  simp only [applyCommitRecordInTxn, bind_eq_ok_iff] at h
  obtain ⟨s₁, hwrites, log, hlog, hhlc⟩ := h
  refine ⟨s₁, log, hwrites, hlog, ?_, ?_, ?_, ?_, ?_, ?_⟩
  · intro t k ht
    simp only [List.mem_cons, List.not_mem_nil, or_false, not_or] at ht
    obtain ⟨hdata, hregistry, hcommitLog, hhlcTable⟩ := ht
    rw [get_mergeHlc hhlc hhlcTable, Tables.get_put_of_ne fun heq => absurd heq.symm hcommitLog,
      Tables.get_foldl_put_of_ne strBytes (Ne.symm hregistry),
      Tables.get_foldl_put_of_ne strBytes (Ne.symm hdata)]
  · intro k
    rw [get_mergeHlc hhlc (by decide), Tables.get_put,
      Tables.get_foldl_put_of_ne strBytes (by decide),
      Tables.get_foldl_put_of_ne strBytes (by decide)]
    simp only [true_and]
  · intro table htable
    rw [get_mergeHlc hhlc (by decide), Tables.get_put_of_ne fun heq => absurd heq (by decide)]
    exact (Tables.get_foldl_put strBytes _ _ _ _ _).1
      ⟨table, Std.ExtTreeSet.mem_toList.mpr htable, rfl⟩
  · intro k hk
    rw [get_mergeHlc hhlc (by decide), Tables.get_put_of_ne fun heq => absurd heq (by decide),
      (Tables.get_foldl_put strBytes _ _ _ _ _).2
        fun table htable => hk table (Std.ExtTreeSet.mem_toList.mp htable),
      Tables.get_foldl_put_of_ne strBytes (by decide)]
  · intro table htable
    rw [get_mergeHlc hhlc (by decide), Tables.get_put_of_ne fun heq => absurd heq (by decide),
      Tables.get_foldl_put_of_ne strBytes (by decide)]
    exact (Tables.get_foldl_put strBytes _ _ _ _ _).1
      ⟨table, Std.ExtTreeSet.mem_toList.mpr htable, rfl⟩
  · intro k hk
    rw [get_mergeHlc hhlc (by decide), Tables.get_put_of_ne fun heq => absurd heq (by decide),
      Tables.get_foldl_put_of_ne strBytes (by decide),
      (Tables.get_foldl_put strBytes _ _ _ _ _).2
        fun table htable => hk table (Std.ExtTreeSet.mem_toList.mp htable)]

theorem mem_publicTables {writes : List CommitLogWrite} :
    table ∈ publicTables writes ↔
      tableIsReserved table = false ∧ ∃ write ∈ writes, write.table = table := by
  simp [publicTables, and_comm]

theorem mem_keyspacesForCommit {tables : List String} (h : table ∈ tables) :
    table ∈ keyspacesForCommit tables := by
  have hgrows : ∀ (tables : List String) (keyspaces : Std.ExtTreeSet String),
      (table ∈ keyspaces ∨ table ∈ tables) →
      table ∈ tables.foldl (fun keyspaces table =>
        (if tableIsReserved table then keyspaces
          else keyspaces.insert tableDataVersionTable).insert table) keyspaces := by
    intro tables
    induction tables with
    | nil => simp
    | cons t tables ih =>
      intro keyspaces hmem
      refine ih _ ?_
      rw [List.mem_cons] at hmem
      rcases hmem with hmem | rfl | hmem
      · by_cases hreserved : tableIsReserved t = true <;> simp [hreserved, hmem]
      · simp
      · exact Or.inr hmem
  exact hgrows tables _ (Or.inr h)

/-- The tables that only the commit path itself writes rows of. -/
def bookkeepingTables : List String :=
  [txnVersionsTable, txnMvccTable, commitLogTable, keyspaceRegistryTable, tableDataVersionTable,
    hlcTable]

theorem AppliedRecord.get_row {s s₁ s' : Store} {log : Bytes}
    (h : AppliedRecord C s s₁ s' record log) (ht : t ∉ bookkeepingTables) (k : Bytes) :
    s'.get t k = lastWrite record.writes t k
      ((s.put txnMetaTable currentTxnIdKey (encodeTxnId record.txnId)).get t k) := by
  simp only [bookkeepingTables, List.mem_cons, List.not_mem_nil, or_false, not_or] at ht
  obtain ⟨hversions, hmvcc, hlog, hregistry, hdata, hhlc⟩ := ht
  rw [h.frame t k (by simp [hlog, hregistry, hdata, hhlc]),
    get_applyWrites h.writes hmvcc hversions]

end MultiDb
