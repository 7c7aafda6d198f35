import MultiDb.Model.Cluster
import MultiDb.Verification.DistTxn.Participant

/-!
# The coordinator's rows

Two conditional batches write the coordinator's tables: one stores the first decision of a
transaction, the other swaps the sequence row.
-/

namespace MultiDb

open Shared

variable {C : Codecs} {s s' : Store} {t : String} {key value : Bytes} {table : String}
  {record : PreparedTxnRecord} {k : Bytes}

def coordinatorTables : List String :=
  [distTxnCoordinatorTable, distTxnSequenceTable]

def routerTables : List String :=
  shardMigrationsTable :: coordinatorTables

private theorem routerTables_spec : ∀ t ∈ routerTables, tableIsReserved t = true ∧
    t ∉ bookkeepingTables ∧ t ≠ txnMetaTable ∧ t ∉ distTxnTables := by
  decide

private theorem coordinatorTables_spec : ∀ t ∈ coordinatorTables, tableIsReserved t = true ∧
    t ∉ bookkeepingTables ∧ t ≠ txnMetaTable ∧ t ∉ distTxnTables :=
  fun t ht => routerTables_spec t (List.mem_cons_of_mem _ ht)

theorem not_bookkeeping_of_coordinator (ht : t ∈ coordinatorTables) (k : Bytes) :
    ¬ Bookkeeping t k := by
  obtain ⟨-, hbook, hmeta, -⟩ := coordinatorTables_spec t ht
  rintro (h | ⟨h, -⟩)
  · exact hbook h
  · exact hmeta h

theorem PublicStep.get_reserved (h : PublicStep C s s')
    (ht : tableIsReserved t = true) (hbook : ¬ Bookkeeping t k) : s'.get t k = s.get t k := by
  cases h with
  | same => rfl
  | commit hwrites hfree heffect =>
    rw [heffect.row t k hbook, hwrites.get_reserved ht]
    rfl

theorem PublicStep.get_coordinator (h : PublicStep C s s')
    (ht : t ∈ coordinatorTables) (k : Bytes) : s'.get t k = s.get t k :=
  h.get_reserved (coordinatorTables_spec t ht).1 (not_bookkeeping_of_coordinator ht k)

theorem PreparedStore.get_coordinator (h : PreparedStore C s record s') (ht : t ∈ coordinatorTables)
    (k : Bytes) : s'.get t k = s.get t k := by
  obtain ⟨-, -, hmeta, hdist⟩ := coordinatorTables_spec t ht
  exact h.other t k (not_bookkeeping_of_coordinator ht k) (Or.inl hdist) fun h => absurd h hmeta

theorem PreparedStore.get_public (h : PreparedStore C s record s')
    (ht : tableIsReserved t = false) : s'.get t k = s.get t k := by
  refine h.other t k (not_bookkeeping_of_public ht k)
    (Or.inl (not_mem_distTxnTables_of_public ht)) ?_
  rintro rfl
  contradiction

theorem FinishedStore.get_coordinator {prepared : Option PreparedTxnRecord}
    {record : FinishedTxnRecord} (h : FinishedStore C s prepared record s')
    (ht : t ∈ coordinatorTables) (k : Bytes) : s'.get t k = s.get t k := by
  obtain ⟨hreserved, -, -, hdist⟩ := coordinatorTables_spec t ht
  rw [h.rows t k (not_bookkeeping_of_coordinator ht k) hdist, h.public_rows.get_reserved hreserved]
  split <;> rfl

theorem PreparedStore.get_finished (h : PreparedStore C s record s') (k : Bytes) :
    s'.get distTxnFinishedTable k = s.get distTxnFinishedTable k :=
  h.other _ k (not_bookkeeping_of_mem (by decide) k) (Or.inr rfl) fun ht => absurd ht (by decide)

/-- The effect of a batch that puts one row of a router table. -/
structure PutsRow (C : Codecs) (s : Store) (table : String) (key value : Bytes) (s' : Store) :
    Prop where
  plain : PlainStep C s s'
  row : s'.get table key = some value
  others : ∀ t k, ¬ Bookkeeping t k → (t = table → k ≠ key) → s'.get t k = s.get t k

theorem PutsRow.coordinator (h : PutsRow C s table key value s') (ht : t ∈ coordinatorTables)
    (hk : t = table → k ≠ key) : s'.get t k = s.get t k :=
  h.others t k (not_bookkeeping_of_coordinator ht k) hk

theorem PutsRow.get_public (h : PutsRow C s table key value s') (htable : table ∈ routerTables)
    (ht : tableIsReserved t = false) : s'.get t k = s.get t k := by
  refine h.others t k (not_bookkeeping_of_public ht k) ?_
  rintro rfl
  rw [(routerTables_spec t htable).1] at ht
  contradiction

private theorem get_opsToWriteSet_put (table : String) (key value : Bytes) (t : String)
    (k : Bytes) : (opsToWriteSet [.put table key value]).get t k =
      if table = t ∧ key = k then some (some value) else none := by
  rw [opsToWriteSet, List.foldl_cons, List.foldl_nil, Tables.get_put, Tables.get_empty]
  rfl

private theorem CommitsWrites.putsRow {env : Env} (htable : table ∈ routerTables)
    (h : CommitsWrites C env s (opsToWriteSet [.put table key value]) s') :
    PutsRow C s table key value s' := by
  have hget := get_opsToWriteSet_put table key value
  obtain ⟨_, _, hsteps⟩ := h.of_get ((hget table key).trans (if_pos ⟨rfl, rfl⟩))
  obtain ⟨-, hbook, hmeta, hdist⟩ := routerTables_spec table htable
  have hplain : PlainWrites (opsToWriteSet [.put table key value]) := by
    intro t k v hrow
    rw [hget] at hrow
    split at hrow
    · rename_i heq
      obtain ⟨rfl, -⟩ := heq
      exact ⟨hbook, hmeta, hdist⟩
    · contradiction
  have heffect := hsteps.effect hplain.clean
  refine ⟨hsteps.commitStep hplain hplain, ?_, fun t k ht hk => ?_⟩
  · have hrow : ¬ Bookkeeping table key := by
      rintro (h | ⟨h, -⟩)
      · exact hbook h
      · exact hmeta h
    rw [heffect.row _ _ hrow, hget, if_pos ⟨rfl, rfl⟩]
    rfl
  · rw [heffect.row _ _ ht, hget, if_neg fun heq => hk heq.1.symm heq.2.symm]
    rfl

theorem putsRow_of_batch {env : Env} {conditions : List WriteCondition}
    (htable : table ∈ routerTables) (h : SingleNode.proposeAuthorizedConditionalBatch C env s
      { conditions, ops := [.put table key value] } = .ok s') :
    (∀ condition ∈ conditions, conditionMatches s condition = true) ∧
      PutsRow C s table key value s' := by
  obtain ⟨id, h⟩ := map_snd_eq_ok h
  obtain ⟨hconditions, hcommits⟩ := commitConditionalBatchAuthorized_cases h
  exact ⟨hconditions, hcommits.putsRow htable⟩

theorem putsRow_of_authorizedBatch {env : Env} (htable : table ∈ routerTables)
    (h : SingleNode.proposeAuthorizedBatch C env s [.put table key value] = .ok s') :
    PutsRow C s table key value s' := by
  obtain ⟨id, h⟩ := map_snd_eq_ok h
  exact (commitWriteSetAtCurrentAuthorized_commits h).putsRow htable

/-- The coordinator holds this decision. -/
def Durable (C : Codecs) (s : Store) (txnId : TxnId) (decision : Decision) : Prop :=
  ∃ bytes record, s.get distTxnCoordinatorTable (encodeTxnId txnId) = some bytes ∧
    decodeDecision C bytes = .ok record ∧ record.txnId = txnId ∧ record.decision = decision

/-- The coordinator holds one decision for a transaction. -/
theorem Durable.unique {txnId : TxnId} {a b : Decision} (ha : Durable C s txnId a)
    (hb : Durable C s txnId b) : a = b := by
  obtain ⟨bytes, record, hget, hdecode, -, rfl⟩ := ha
  obtain ⟨bytes', record', hget', hdecode', -, rfl⟩ := hb
  cases hget.symm.trans hget'
  cases hdecode.symm.trans hdecode'
  rfl

theorem Durable.of_get_eq {txnId : TxnId} {decision : Decision} (h : Durable C s txnId decision)
    (hget : s'.get distTxnCoordinatorTable (encodeTxnId txnId) =
      s.get distTxnCoordinatorTable (encodeTxnId txnId)) : Durable C s' txnId decision := by
  rwa [Durable, hget]

/-- The participant has finished with this decision. -/
def Finished (C : Codecs) (s : Store) (txnId : TxnId) (decision : Decision) : Prop :=
  ∃ bytes record, s.get distTxnFinishedTable (encodeTxnId txnId) = some bytes ∧
    decodeFinished C bytes = .ok record ∧ record.decision = decision

end MultiDb
