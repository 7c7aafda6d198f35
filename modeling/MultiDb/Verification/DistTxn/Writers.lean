import MultiDb.Verification.DistTxn.Participant

/-!
# Everything that writes to a node

The public calls of a node and the commits of the system itself.
-/

namespace MultiDb

open Shared

/-- A public call, or a commit of the system that leaves transaction tables alone. -/
inductive WriterCall
  | node (call : NodeCall)
  | authorized (batch : ConditionalBatch) (hplain : PlainWrites (opsToWriteSet batch.ops))

/-- The writes that a call asks the node to commit. -/
def NodeCall.writeSet (C : Codecs) (env : Env) (s : Store) : NodeCall → WriteSet
  | proposeBatch ops => opsToWriteSet ops
  | proposeGroup requests => opsToWriteSet requests.flatten
  | proposeConditionalBatch batch => opsToWriteSet batch.ops
  | commitWriteSet _ writes => writes
  | prepareDistTxn txnId ops =>
    (prepareWriteSet C s txnId ops defaultDistTxnDeadlineMs (nowMs env)).toOption.getD .empty
  | finishDistTxn txnId decision =>
    (finishWriteSet C s txnId decision (nowMs env)).toOption.getD .empty

namespace WriterCall

def exec (C : Codecs) (env : Env) (s : Store) : WriterCall → ReplResult Store
  | node call => call.exec C env s
  | authorized batch _ => SingleNode.proposeAuthorizedConditionalBatch C env s batch

def step (C : Codecs) (s : Store) (call : Env × WriterCall) : Store :=
  match call.2.exec C call.1 s with
  | .error _ => s
  | .ok s' => s'

/-- The rows a call writes when it succeeds. -/
def writeSet (C : Codecs) (env : Env) (s : Store) : WriterCall → WriteSet
  | node call => call.writeSet C env s
  | authorized batch _ => opsToWriteSet batch.ops

/-- The writes that a call commits: all that it asks for, or none when it fails. -/
def committed (C : Codecs) (s : Store) (call : Env × WriterCall) : WriteSet :=
  match call.2.exec C call.1 s with
  | .error _ => .empty
  | .ok _ => call.2.writeSet C call.1 s

end WriterCall

variable {C : Codecs} {s s' : Store} {writes : WriteSet}

/-- Write sets that leave transaction metadata alone, but for the lock format. -/
def LeavesMeta (writes : WriteSet) : Prop :=
  ∀ k v, writes.get txnMetaTable k = some v → k = lockFormatKey

/-- The store is unchanged or the result of one commit. -/
def WriterStep (C : Codecs) (s s' : Store) : Prop :=
  s' = s ∨ ∃ writes id, LeavesMeta writes ∧ CommitEffect C s writes id s'

/-- The tables a call may write to. -/
def WriterCall.MayWrite : WriterCall → String → Prop
  | node _, t => tableIsReserved t = false ∨ t ∈ distTxnTables ∨ t = txnMetaTable
  | authorized batch _, t => ∃ op ∈ batch.ops, op.table = t

/-- The effect of `writes` on a store: none if they are empty, otherwise that of one commit. -/
def TableStep (C : Codecs) (Allowed : String → Prop) (s : Store) (writes : WriteSet)
    (s' : Store) : Prop :=
  writes.entries.isEmpty = true ∧ s' = s ∨ writes.entries.isEmpty = false ∧ ∃ id,
    LeavesMeta writes ∧ (∀ t k v, writes.get t k = some v → Allowed t) ∧
      CommitEffect C s writes id s'

theorem TableStep.writerStep {Allowed : String → Prop} (h : TableStep C Allowed s writes s') :
    WriterStep C s s' := by
  rcases h with ⟨-, rfl⟩ | ⟨-, id, hmeta, -, heffect⟩
  · exact Or.inl rfl
  · exact Or.inr ⟨writes, id, hmeta, heffect⟩

theorem PlainWrites.leavesMeta (h : PlainWrites writes) : LeavesMeta writes :=
  fun k v hget => absurd rfl (h _ k v hget).2.1

theorem NodeWrites.leavesMeta (h : NodeWrites writes) : LeavesMeta writes := by
  intro k v hget
  rcases h _ k v hget with hpublic | hmem | ⟨-, hkey⟩
  · contradiction
  · exact absurd hmem (by decide)
  · exact hkey

theorem PublicWrites.nodeWrites (h : PublicWrites writes) : NodeWrites writes :=
  fun t k v hget => Or.inl (h t k v hget)

theorem nodeWrites_of_none (h : ∀ t k, writes.get t k = none) : NodeWrites writes := by
  intro t k v hget
  rw [h] at hget
  contradiction

theorem CommitsWrites.tableStep {env : Env} {Allowed : String → Prop}
    (h : CommitsWrites C env s writes s') (hclean : CleanWrites writes)
    (hmeta : LeavesMeta writes) (hallowed : ∀ t k v, writes.get t k = some v → Allowed t) :
    TableStep C Allowed s writes s' :=
  h.imp_right fun hsome => hsome.imp_right fun hsteps => by
    obtain ⟨snapshotId, id, hsteps⟩ := hsteps
    exact ⟨id, hmeta, hallowed, hsteps.effect hclean⟩

section Node

variable {call : NodeCall} {env : Env}

/-- What a successful call commits. -/
theorem NodeCall.commits_exec (h : call.exec C env s = .ok s') :
    NodeWrites (call.writeSet C env s) ∧ CommitsWrites C env s (call.writeSet C env s) s' := by
  cases call with
  | proposeBatch ops =>
    have hcommit := proposeBatch_commits h
    exact ⟨hcommit.public_rows.nodeWrites, hcommit.commits⟩
  | proposeGroup requests =>
    have hcommit := proposeGroup_commits h
    exact ⟨hcommit.public_rows.nodeWrites, hcommit.commits⟩
  | proposeConditionalBatch batch =>
    have hcommit := (proposeConditionalBatch_commits h).2
    exact ⟨hcommit.public_rows.nodeWrites, hcommit.commits⟩
  | commitWriteSet snapshotId writes =>
    have hcommit := commitWriteSet_commits h
    exact ⟨hcommit.public_rows.nodeWrites, hcommit.commits⟩
  | prepareDistTxn txnId ops =>
    obtain ⟨⟨vote, s₁⟩, hprepare, rfl⟩ := map_eq_ok_iff.mp h
    simp only [SingleNode.prepareDistTxn, bind_eq_ok_iff] at hprepare
    obtain ⟨_, -, _, -, hprepare⟩ := hprepare
    rw [writeSet]
    split at hprepare
    · rename_i hconflict
      cases hprepare
      rw [hconflict]
      exact ⟨nodeWrites_of_none Tables.get_empty,
        Or.inl ⟨Tables.entries_isEmpty_iff.mpr Tables.get_empty, rfl⟩⟩
    · contradiction
    · rename_i writes hwrites
      simp only [bind_eq_ok_iff, mapError_eq_ok_iff, pure_eq_ok_iff, Prod.mk.injEq] at hprepare
      obtain ⟨_, hcommit, -, rfl⟩ := hprepare
      rw [hwrites]
      refine ⟨?_, commitStaged_commits hcommit⟩
      obtain ⟨-, ⟨hnone, -⟩ | ⟨record, bytes, -, -, hstaged⟩⟩ := prepareWriteSet_cases hwrites
      · exact nodeWrites_of_none hnone
      · exact hstaged.nodeWrites
  | finishDistTxn txnId decision =>
    simp only [exec, SingleNode.finishDistTxn, bind_eq_ok_iff, mapError_eq_ok_iff] at h
    obtain ⟨_, -, writes, hwrites, hcommit⟩ := h
    rw [writeSet, hwrites]
    refine ⟨?_, commitStaged_commits hcommit⟩
    rcases finishWriteSet_cases hwrites with ⟨hnone, -⟩ | ⟨prepared, record, bytes, -, -, hstaged⟩
    · exact nodeWrites_of_none hnone
    · exact hstaged.nodeWrites

end Node

/-- A call does to the store what the writes that it commits do. -/
theorem WriterCall.tableStep (C : Codecs) (s : Store) (call : Env × WriterCall) :
    TableStep C call.2.MayWrite s (WriterCall.committed C s call) (WriterCall.step C s call) := by
  obtain ⟨env, call⟩ := call
  rw [WriterCall.step, WriterCall.committed]
  cases hexec : call.exec C env s with
  | error e => exact Or.inl ⟨Tables.entries_isEmpty_iff.mpr Tables.get_empty, rfl⟩
  | ok s' =>
    cases call with
    | node call =>
      obtain ⟨hwrites, hcommits⟩ := NodeCall.commits_exec hexec
      exact hcommits.tableStep hwrites.clean hwrites.leavesMeta fun t k v hget =>
        (hwrites t k v hget).imp_right fun h => h.imp_right And.left
    | authorized batch hplain =>
      obtain ⟨id, hexec⟩ := map_snd_eq_ok hexec
      exact (commitConditionalBatchAuthorized_cases hexec).2.tableStep hplain.clean
        hplain.leavesMeta fun t k v hget =>
          (exists_op_of_get hget).imp fun op hop => ⟨hop.1, hop.2.1⟩

theorem WriterCall.writerStep (C : Codecs) (s : Store) (call : Env × WriterCall) :
    WriterStep C s (WriterCall.step C s call) :=
  (WriterCall.tableStep C s call).writerStep

end MultiDb
