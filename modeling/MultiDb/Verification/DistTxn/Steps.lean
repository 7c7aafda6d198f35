import MultiDb.Verification.DistTxn.WriteSets

/-!
# What a call does to a node

A successful call leaves the store as it was, commits plain rows that are not locked,
prepares a transaction, or finishes one.
-/

namespace MultiDb

open Shared

variable {C : Codecs} {t : String}
variable {k : Bytes} {v : Option Bytes} {id snapshotId txnId : TxnId} {ops : List Op}
  {batch : ConditionalBatch}

theorem not_bookkeeping_of_mem (ht : t ∈ distTxnTables) (k : Bytes) : ¬ Bookkeeping t k := by
  have hall : ∀ t ∈ distTxnTables, t ∉ bookkeepingTables ∧ t ≠ txnMetaTable := by decide
  rintro (hbook | ⟨hmeta, -⟩)
  · exact (hall t ht).1 hbook
  · exact (hall t ht).2 hmeta

theorem not_bookkeeping_of_public (ht : tableIsReserved t = false) (k : Bytes) :
    ¬ Bookkeeping t k := by
  intro hbook
  rw [tableIsReserved_of_bookkeeping hbook] at ht
  contradiction

theorem not_mem_distTxnTables_of_public (ht : tableIsReserved t = false) : t ∉ distTxnTables := by
  have hall : ∀ t ∈ distTxnTables, tableIsReserved t = true := by decide
  intro hmem
  rw [hall t hmem] at ht
  contradiction

/-- Write sets of public rows, rows of distributed transactions and the lock format. -/
def NodeWrites (writes : WriteSet) : Prop :=
  ∀ t k v, writes.get t k = some v →
    tableIsReserved t = false ∨ t ∈ distTxnTables ∨ t = txnMetaTable ∧ k = lockFormatKey

theorem NodeWrites.clean {writes : WriteSet} (h : NodeWrites writes) : CleanWrites writes := by
  intro t k v hget
  rcases h t k v hget with hpublic | hmem | ⟨rfl, rfl⟩
  · exact not_bookkeeping_of_public hpublic k
  · exact not_bookkeeping_of_mem hmem k
  · decide

theorem PrepareWrites.nodeWrites {s : Store} {record : PreparedTxnRecord} {bytes : Bytes}
    {writes : WriteSet} (h : PrepareWrites C s record bytes writes) : NodeWrites writes := by
  intro t k v hget
  by_contra hother
  obtain ⟨-, ht, hformat⟩ := not_or.mp hother |>.imp_right not_or.mp
  rw [h.other t k (Or.inl ht) fun htable hkey => hformat ⟨htable, hkey⟩] at hget
  contradiction

section Finish

variable {s : Store} {prepared : Option PreparedTxnRecord} {record : FinishedTxnRecord}
  {bytes : Bytes} {writes : WriteSet}

theorem FinishWrites.public_rows (h : FinishWrites C s prepared record bytes writes) :
    PublicWrites (preparedRows prepared) := by
  cases prepared with
  | none =>
    intro t k v hget
    simp [preparedRows, opsToWriteSet] at hget
  | some p =>
    obtain ⟨-, _, -, hdecode⟩ := h.found p rfl
    exact publicWrites_opsToWriteSet (public_of_decodePrepared hdecode)

theorem FinishWrites.nodeWrites (h : FinishWrites C s prepared record bytes writes) :
    NodeWrites writes := by
  intro t k v hget
  by_cases ht : t ∈ distTxnTables
  · exact Or.inr (Or.inl ht)
  · rw [h.rows t k ht] at hget
    split at hget
    · exact Or.inl (h.public_rows t k v hget)
    · contradiction

end Finish

theorem validateWriteLock_of_get {s : Store} {writes : WriteSet}
    (h : validateWriteLocks C s writes = .ok ())
    (hget : writes.get t k = some v) (ht : tableIsReserved t = false) :
    validateWriteLock C s writes ((t, k), v) = .ok () := by
  have hmem : ((t, k), v) ∈ writes.entries.filter fun write => !tableIsReserved write.1.1 :=
    List.mem_filter.mpr ⟨Tables.mem_entries.mpr hget, by simp [ht]⟩
  rw [validateWriteLocks] at h
  split at h
  · rename_i hempty
    rw [List.isEmpty_iff.mp hempty] at hmem
    contradiction
  · simp only [bind_eq_ok_iff, List.forM_eq_forM, forM_eq_ok_iff] at h
    obtain ⟨_, -, hrows⟩ := h
    exact hrows _ hmem

theorem free_of_validateWriteLock {s : Store} {writes : WriteSet} (h : validateWriteLock C s writes ((t, k), v) = .ok ())
    (hlocks : ∀ lock, writes.get locksTable lock = none) :
    ∃ lock, versionKey t k = .ok lock ∧ s.get locksTable lock = none := by
  obtain ⟨lock, hlock, h⟩ := bind_eq_ok_iff.mp h
  refine ⟨lock, hlock, ?_⟩
  cases hget : s.get locksTable lock with
  | none => rfl
  | some owner =>
    simp only [hget, bind_eq_ok_iff] at h
    obtain ⟨id, -, finishes, hfinishes, h⟩ := h
    obtain ⟨finished, -, hfinishes⟩ := bind_eq_ok_iff.mp hfinishes
    obtain rfl := pure_eq_ok_iff.mp hfinishes
    simp [hlocks lock] at h

/-! ## Steps -/

/-- No written row is locked by a prepared transaction. -/
def FreeRows (s : Store) (writes : WriteSet) : Prop :=
  ∀ t k v, writes.get t k = some v → tableIsReserved t = false →
    ∃ lock, versionKey t k = .ok lock ∧ s.get locksTable lock = none

/-- Write sets that leave metadata and the tables of distributed transactions alone. -/
def PlainWrites (writes : WriteSet) : Prop :=
  ∀ t k v, writes.get t k = some v →
    t ∉ bookkeepingTables ∧ t ≠ txnMetaTable ∧ t ∉ distTxnTables

/-- An ordinary commit of an allowed write set, whose rows are free; or none. -/
inductive CommitStep (C : Codecs) (Allowed : WriteSet → Prop) (s : Store) : Store → Prop
  | same : CommitStep C Allowed s s
  | commit {writes : WriteSet} {id : TxnId} {s' : Store} (hwrites : Allowed writes)
      (hfree : FreeRows s writes) (heffect : CommitEffect C s writes id s') :
      CommitStep C Allowed s s'

abbrev PlainStep (C : Codecs) : Store → Store → Prop :=
  CommitStep C PlainWrites

abbrev PublicStep (C : Codecs) : Store → Store → Prop :=
  CommitStep C PublicWrites

/-- A prepare: it locks the rows of the record and stores it. -/
structure PrepareStep (C : Codecs) (s : Store) (record : PreparedTxnRecord) (s' : Store) :
    Prop where
  public_rows : ∀ op ∈ record.ops, tableIsReserved op.table = false
  effect : ∃ bytes writes id, PrepareWrites C s record bytes writes ∧
    CommitEffect C s writes id s'

/-- A finish: it frees the locks and stores the decision. -/
structure FinishStep (C : Codecs) (s : Store) (prepared : Option PreparedTxnRecord)
    (record : FinishedTxnRecord) (s' : Store) : Prop where
  effect : ∃ bytes writes id, FinishWrites C s prepared record bytes writes ∧
    CommitEffect C s writes id s'

theorem PlainWrites.clean {writes : WriteSet} (h : PlainWrites writes) : CleanWrites writes := by
  rintro t k v hget (hbook | ⟨hmeta, -⟩)
  · exact (h t k v hget).1 hbook
  · exact (h t k v hget).2.1 hmeta

theorem PublicWrites.plain {writes : WriteSet} (h : PublicWrites writes) : PlainWrites writes := by
  intro t k v hget
  have ht := h t k v hget
  refine ⟨fun hbook => ?_, ?_, not_mem_distTxnTables_of_public ht⟩
  · exact h.clean t k v hget (Or.inl hbook)
  · rintro rfl
    contradiction

theorem PublicStep.plain {s s' : Store} (h : PublicStep C s s') : PlainStep C s s' := by
  cases h with
  | same => exact .same
  | commit hwrites hfree heffect => exact .commit hwrites.plain hfree heffect

theorem CommitSteps.commitStep {env : Env} {s s' : Store}
    {writes : WriteSet} {Allowed : WriteSet → Prop}
    (h : CommitSteps C env s snapshotId writes id s') (hwrites : Allowed writes)
    (hplain : PlainWrites writes) : CommitStep C Allowed s s' := by
  refine .commit hwrites (fun t k v hget ht => ?_) (h.effect hplain.clean)
  refine free_of_validateWriteLock (validateWriteLock_of_get h.locks hget ht) fun lock => ?_
  by_contra hne
  obtain ⟨v, hv⟩ := Option.ne_none_iff_exists'.mp hne
  exact (hplain _ _ _ hv).2.2 (by decide)

/-! ## Calls -/

section Calls

variable {env : Env} {s s' : Store}
variable {writes : WriteSet}

theorem map_snd_eq_ok {ε : Type} {f : StorageError → ε} {x : Result (TxnId × Store)}
    (h : (x.mapError f).map Prod.snd = .ok s') : ∃ id, x = .ok (id, s') := by
  obtain ⟨⟨id, s₁⟩, hx, rfl⟩ := map_eq_ok_iff.mp h
  exact ⟨id, mapError_eq_ok_iff.mp hx⟩

/-- A call that commits a public write set. -/
structure PublicCommit (C : Codecs) (env : Env) (s : Store) (writes : WriteSet) (s' : Store) :
    Prop where
  public_rows : PublicWrites writes
  commits : CommitsWrites C env s writes s'

theorem PublicCommit.step (h : PublicCommit C env s writes s') :
    PublicStep C s s' := by
  obtain ⟨hpublic, ⟨-, rfl⟩ | ⟨-, snapshotId, id, hsteps⟩⟩ := h
  · exact .same
  · exact hsteps.commitStep hpublic hpublic.plain

theorem commitWriteSetAtCurrentAuthorized_commits
    (h : commitWriteSetAtCurrentAuthorized C env s writes = .ok (id, s')) :
    CommitsWrites C env s writes s' :=
  (commitWriteSetAtCurrentAuthorized_cases h).imp_right fun hsome =>
    hsome.imp_right fun hcommit => hcommit.imp fun _ hsteps => ⟨id, hsteps.2⟩

theorem commitWriteSetAtCurrent_commits
    (h : commitWriteSetAtCurrent C env s writes = .ok (id, s')) :
    PublicCommit C env s writes s' := by
  obtain ⟨_, hpublic, h⟩ := bind_eq_ok_iff.mp h
  exact ⟨validatePublicWriteSet_eq_ok_iff.mp hpublic, commitWriteSetAtCurrentAuthorized_commits h⟩

theorem proposeBatch_commits (h : SingleNode.proposeBatch C env s ops = .ok s') :
    PublicCommit C env s (opsToWriteSet ops) s' := by
  obtain ⟨id, h⟩ := map_snd_eq_ok h
  obtain ⟨_, -, h⟩ := bind_eq_ok_iff.mp h
  exact commitWriteSetAtCurrent_commits h

theorem proposeGroup_commits {requests : List (List Op)}
    (h : SingleNode.proposeGroup C env s requests = .ok s') :
    PublicCommit C env s (opsToWriteSet requests.flatten) s' := by
  obtain ⟨id, h⟩ := map_snd_eq_ok h
  exact commitWriteSetAtCurrent_commits h

theorem commitWriteSet_commits
    (h : SingleNode.commitWriteSet C env s snapshotId writes = .ok s') :
    PublicCommit C env s writes s' := by
  obtain ⟨id, h⟩ := map_snd_eq_ok h
  obtain ⟨_, hpublic, h⟩ := bind_eq_ok_iff.mp h
  refine ⟨validatePublicWriteSet_eq_ok_iff.mp hpublic, ?_⟩
  exact (commitWriteSetAuthorized_cases h).imp_right fun hsome =>
    hsome.imp_right fun hsteps => ⟨snapshotId, id, hsteps⟩

/-- A conditional batch is committed only if its conditions match. -/
theorem commitConditionalBatchAuthorized_cases
    (h : commitConditionalBatchAuthorized C env s batch = .ok (id, s')) :
    (∀ condition ∈ batch.conditions, conditionMatches s condition = true) ∧
      CommitsWrites C env s (opsToWriteSet batch.ops) s' := by
  simp only [commitConditionalBatchAuthorized, bind_eq_ok_iff, guard_eq_ok_iff,
    Bool.not_eq_true', Bool.not_eq_false, List.all_eq_true] at h
  obtain ⟨_, -, hconditions, current, hcurrent, h⟩ := h
  refine ⟨hconditions, ?_⟩
  split at h
  · rename_i hempty
    cases h
    rw [List.isEmpty_iff.mp hempty]
    exact Or.inl ⟨Tables.entries_isEmpty_iff.mpr fun t k => Tables.get_empty t k, rfl⟩
  · rename_i hsome
    refine Or.inr ⟨?_, current, id, commitPlain_steps h⟩
    by_contra hempty
    obtain ⟨op, hop⟩ := List.exists_mem_of_ne_nil _ (List.isEmpty_iff.not.mp hsome)
    obtain ⟨v, hv⟩ := exists_get_of_op hop
    rw [Tables.entries_isEmpty_iff.mp (Bool.not_eq_false _ ▸ hempty)] at hv
    contradiction

theorem proposeConditionalBatch_commits
    (h : SingleNode.proposeConditionalBatch C env s batch = .ok s') :
    (∀ condition ∈ batch.conditions, conditionMatches s condition = true) ∧
      PublicCommit C env s (opsToWriteSet batch.ops) s' := by
  obtain ⟨id, h⟩ := map_snd_eq_ok h
  simp only [commitConditionalBatch, bind_eq_ok_iff] at h
  obtain ⟨_, -, _, hops, h⟩ := h
  obtain ⟨hconditions, hcommits⟩ := commitConditionalBatchAuthorized_cases h
  exact ⟨hconditions, publicWrites_opsToWriteSet (validatePublicOps_eq_ok_iff.mp hops), hcommits⟩

theorem commitStaged_commits (h : commitStaged C env s writes = .ok s') :
    CommitsWrites C env s writes s' := by
  rw [commitStaged] at h
  split at h
  · rename_i hempty
    exact Or.inl ⟨hempty, (pure_eq_ok_iff.mp h).symm⟩
  · rename_i hempty
    simp only [bind_eq_ok_iff, pure_eq_ok_iff] at h
    obtain ⟨current, -, ⟨id, s₁⟩, hcommit, rfl⟩ := h
    exact Or.inr ⟨Bool.not_eq_true _ ▸ hempty, current, id, commitPlain_steps hcommit⟩

theorem CommitsWrites.of_none (h : CommitsWrites C env s writes s')
    (hnone : ∀ t k, writes.get t k = none) : s' = s := by
  rcases h with ⟨-, hsame⟩ | ⟨hsome, -⟩
  · exact hsame
  · rw [Tables.entries_isEmpty_iff.mpr hnone] at hsome
    contradiction

theorem CommitsWrites.of_get
    (h : CommitsWrites C env s writes s') (hget : writes.get t k = some v) :
    ∃ snapshotId id, CommitSteps C env s snapshotId writes id s' := by
  rcases h with ⟨hempty, -⟩ | ⟨-, hsteps⟩
  · rw [Tables.entries_isEmpty_iff.mp hempty] at hget
    contradiction
  · exact hsteps

/-- A vote: yes means that the transaction is prepared. -/
theorem prepareDistTxn_cases {vote : Vote}
    (h : SingleNode.prepareDistTxn C env s txnId ops = .ok (vote, s')) :
    s' = s ∧ (vote = .yes → ∃ bytes record,
        s.get distTxnParticipantTable (encodeTxnId txnId) = some bytes ∧
        decodePrepared C bytes = .ok record ∧ record.ops = ops) ∨
      ∃ record, record.txnId = txnId ∧ record.ops = ops ∧ PrepareStep C s record s' := by
  simp only [SingleNode.prepareDistTxn, bind_eq_ok_iff] at h
  obtain ⟨_, -, _, -, h⟩ := h
  split at h
  · cases h
    exact Or.inl ⟨rfl, by simp⟩
  · contradiction
  · rename_i writes hwrites
    simp only [bind_eq_ok_iff, mapError_eq_ok_iff, pure_eq_ok_iff, Prod.mk.injEq] at h
    obtain ⟨s₁, hcommit, rfl, rfl⟩ := h
    obtain ⟨hops, ⟨hnone, hrecord⟩ | ⟨record, bytes, rfl, rfl, hstaged⟩⟩ :=
      prepareWriteSet_cases hwrites
    · exact Or.inl ⟨(commitStaged_commits hcommit).of_none hnone, fun _ => hrecord⟩
    · obtain ⟨_, id, hsteps⟩ := (commitStaged_commits hcommit).of_get hstaged.format
      exact Or.inr ⟨record, rfl, rfl, hops, bytes, writes, id, hstaged,
        hsteps.effect hstaged.nodeWrites.clean⟩

theorem finishDistTxn_cases {decision : Decision}
    (h : SingleNode.finishDistTxn C env s txnId decision = .ok s') :
    (s' = s ∧ ∃ bytes record, s.get distTxnFinishedTable (encodeTxnId txnId) = some bytes ∧
        decodeFinished C bytes = .ok record ∧ record.decision = decision) ∨
      ∃ prepared record, record.txnId = txnId ∧ record.decision = decision ∧
        FinishStep C s prepared record s' := by
  simp only [SingleNode.finishDistTxn, bind_eq_ok_iff, mapError_eq_ok_iff] at h
  obtain ⟨_, -, writes, hwrites, hcommit⟩ := h
  rcases finishWriteSet_cases hwrites with
    ⟨hnone, hrecord⟩ | ⟨prepared, record, bytes, rfl, rfl, hstaged⟩
  · exact Or.inl ⟨(commitStaged_commits hcommit).of_none hnone, hrecord⟩
  · obtain ⟨_, id, hsteps⟩ := (commitStaged_commits hcommit).of_get hstaged.finished
    exact Or.inr ⟨prepared, record, rfl, rfl,
      ⟨bytes, writes, id, hstaged, hsteps.effect hstaged.nodeWrites.clean⟩⟩

end Calls

end MultiDb
