import MultiDb.Model.CpStateMachine
import MultiDb.Shared.Agreement
import MultiDb.Verification.Txn.Commit

/-!
# Applying an entry on two nodes

Two stores that agree outside tables which no decision reads give the same response to an
entry and agree again afterwards, whatever the wall clocks show.
-/

namespace MultiDb

open Shared Tables

/-- The tables that the checks of the commit path read. -/
def decisionTables : List String :=
  [txnMetaTable, txnVersionsTable, locksTable, distTxnParticipantTable, distTxnFinishedTable]

/-- The hidden tables hold the clock and the commit log, and no check reads one. -/
structure Hides (hidden : List String) : Prop where
  hlc : hlcTable ∈ hidden
  log : commitLogTable ∈ hidden
  visible : ∀ t ∈ decisionTables, t ∉ hidden

/-- The conditions of an entry read no hidden table. -/
def CpEntry.ReadsOff (hidden : List String) (entry : CpEntry) : Prop :=
  match entry.payload with
  | .normal command => ∀ condition ∈ command.conditions, condition.table ∉ hidden
  | _ => True

variable {hidden : List String} {s s' : Store}

section Checks

variable (hagree : AgreeOff hidden s s') (hhides : Hides hidden)

include hagree hhides

theorem get_meta_congr (k : Bytes) : s.get txnMetaTable k = s'.get txnMetaTable k :=
  hagree _ (hhides.visible _ (by decide)) k

theorem get_versions_congr (k : Bytes) : s.get txnVersionsTable k = s'.get txnVersionsTable k :=
  hagree _ (hhides.visible _ (by decide)) k

theorem get_locks_congr (k : Bytes) : s.get locksTable k = s'.get locksTable k :=
  hagree _ (hhides.visible _ (by decide)) k

theorem get_participant_congr (k : Bytes) :
    s.get distTxnParticipantTable k = s'.get distTxnParticipantTable k :=
  hagree _ (hhides.visible _ (by decide)) k

theorem get_finished_congr (k : Bytes) :
    s.get distTxnFinishedTable k = s'.get distTxnFinishedTable k :=
  hagree _ (hhides.visible _ (by decide)) k

theorem currentTxnIdFrom_congr : currentTxnIdFrom s = currentTxnIdFrom s' := by
  simp only [currentTxnIdFrom, get_meta_congr hagree hhides]

theorem rejectLegacyPrepares_congr : rejectLegacyPrepares s = rejectLegacyPrepares s' := by
  have hrange : range s distTxnParticipantTable [] [] = range s' distTxnParticipantTable [] [] :=
    hagree.scan (hhides.visible _ (by decide)) _
  simp only [rejectLegacyPrepares, lockFormat, get_meta_congr hagree hhides, hrange]

theorem validateWriteLocks_congr (C : Codecs) (writes : WriteSet) :
    validateWriteLocks C s writes = validateWriteLocks C s' writes := by
  have hlock : ∀ write, validateWriteLock C s writes write = validateWriteLock C s'
    writes write := by
    intro write
    simp only [validateWriteLock, get_locks_congr hagree hhides]
  simp only [validateWriteLocks, rejectLegacyPrepares_congr hagree hhides, funext hlock]

theorem validateSnapshot_congr (snapshotId : TxnId) (writes : WriteSet) :
    validateSnapshot s snapshotId writes = validateSnapshot s' snapshotId writes := by
  simp only [validateSnapshot, lastKeyVersion, get_versions_congr hagree hhides]

theorem prepareWriteSet_congr (C : Codecs) (txnId : TxnId) (ops : List Op)
    (deadlineMs preparedAtMs : UInt64) :
    prepareWriteSet C s txnId ops deadlineMs preparedAtMs =
      prepareWriteSet C s' txnId ops deadlineMs preparedAtMs := by
  have hacquire : acquireLock s txnId = acquireLock s' txnId := by
    funext staged write
    simp only [acquireLock, get_locks_congr hagree hhides]
  simp only [prepareWriteSet, get_finished_congr hagree hhides,
    rejectLegacyPrepares_congr hagree hhides, get_participant_congr hagree hhides,
    validateHeldLocks, get_locks_congr hagree hhides, acquireLocks, hacquire]

theorem finishWriteSet_congr (C : Codecs) (txnId : TxnId) (decision : Decision)
    (finishedAtMs : UInt64) :
    finishWriteSet C s txnId decision finishedAtMs =
      finishWriteSet C s' txnId decision finishedAtMs := by
  have hrelease : releaseLock s txnId decision = releaseLock s' txnId decision := by
    funext staged write
    simp only [releaseLock, get_locks_congr hagree hhides]
  have hprepared : finishPrepared C s txnId decision = finishPrepared C s' txnId decision := by
    funext stored
    cases stored with
    | none => rfl
    | some bytes => simp only [finishPrepared, releaseLocks, hrelease]
  simp only [finishWriteSet, get_finished_congr hagree hhides,
    get_participant_congr hagree hhides, hprepared]

theorem commandWriteSet_congr (C : CpCodecs) (command : ReplCommand) :
    commandWriteSet C s command = commandWriteSet C s' command := by
  cases command with
  | batch ops => rfl
  | conditional conditions ops hlc => rfl
  | txnCommit snapshotId writes hlc => rfl
  | distTxnPrepare txnId ops deadlineMs hlc => exact prepareWriteSet_congr hagree hhides _ _ _ _ _
  | distTxnFinish txnId decision hlc => exact finishWriteSet_congr hagree hhides _ _ _ _

theorem commandSnapshot_congr (command : ReplCommand) :
    commandSnapshot s command = commandSnapshot s' command := by
  cases command with
  | txnCommit snapshotId writes hlc => rfl
  | _ => exact currentTxnIdFrom_congr hagree hhides

end Checks

theorem conditionMatches_congr (hagree : AgreeOff hidden s s') {condition : WriteCondition}
    (hreads : condition.table ∉ hidden) :
    conditionMatches s condition = conditionMatches s' condition := by
  cases condition with
  | keyMissing table key => simp only [conditionMatches, hagree table hreads key]
  | valueEquals table key expected => simp only [conditionMatches, hagree table hreads key]

theorem conditions_congr (hagree : AgreeOff hidden s s') {conditions : List WriteCondition}
    (hreads : ∀ condition ∈ conditions, condition.table ∉ hidden) :
    conditions.all (conditionMatches s) = conditions.all (conditionMatches s') := by
  induction conditions with
  | nil => rfl
  | cons condition conditions ih =>
    rw [List.all_cons, List.all_cons,
      conditionMatches_congr hagree (hreads condition List.mem_cons_self),
      ih fun c hc => hreads c (List.mem_cons_of_mem condition hc)]

/-! ## Writes -/

section Effects

variable {C : Codecs} {t t' : Store}

theorem applyWrite_agree {txnId : TxnId} {write : CommitLogWrite}
    (hagree : AgreeOff hidden s s') (h : applyWrite C txnId s write = .ok t)
    (h' : applyWrite C txnId s' write = .ok t') : AgreeOff hidden t t' := by
  simp only [applyWrite, bind_eq_ok_iff, pure_eq_ok_iff] at h h'
  obtain ⟨mk, hmk, record, hrecord, vk, hvk, rfl⟩ := h
  obtain ⟨mk', hmk', record', hrecord', vk', hvk', rfl⟩ := h'
  rw [hmk] at hmk'
  rw [hrecord] at hrecord'
  rw [hvk] at hvk'
  cases hmk'
  cases hrecord'
  cases hvk'
  exact ((hagree.put _ _ _).set _ _ _).put _ _ _

theorem applyWrites_agree {txnId : TxnId} {writes : List CommitLogWrite}
    (hagree : AgreeOff hidden s s') (h : writes.foldlM (applyWrite C txnId) s = .ok t)
    (h' : writes.foldlM (applyWrite C txnId) s' = .ok t') : AgreeOff hidden t t' := by
  induction writes generalizing s s' with
  | nil =>
    obtain rfl := pure_eq_ok_iff.mp h
    obtain rfl := pure_eq_ok_iff.mp h'
    exact hagree
  | cons write writes ih =>
    obtain ⟨s₁, hs₁, hrest⟩ := foldlM_cons_eq_ok_iff.mp h
    obtain ⟨s₁', hs₁', hrest'⟩ := foldlM_cons_eq_ok_iff.mp h'
    exact ih (applyWrite_agree hagree hs₁ hs₁') hrest hrest'

theorem mergeHlc_agree (hhides : Hides hidden) {hlc : Option HlcTimestamp}
    (h : mergeHlc C s hlc = .ok t) : AgreeOff hidden t s := by
  cases hlc with
  | none =>
    cases h
    exact .refl hidden s
  | some hlc =>
    simp only [mergeHlc, bind_eq_ok_iff, pure_eq_ok_iff] at h
    obtain ⟨stored, -, bytes, -, rfl⟩ := h
    exact (AgreeOff.refl hidden s).put_hidden hhides.hlc _ _

theorem applyCommitRecordInTxn_agree (hhides : Hides hidden) {record record' : CommitLogRecord}
    (hid : record.txnId = record'.txnId) (hwrites : record.writes = record'.writes)
    (hagree : AgreeOff hidden s s') (h : applyCommitRecordInTxn C s record = .ok t)
    (h' : applyCommitRecordInTxn C s' record' = .ok t') : AgreeOff hidden t t' := by
  simp only [applyCommitRecordInTxn, bind_eq_ok_iff] at h h'
  obtain ⟨s₁, hs₁, log, -, hmerge⟩ := h
  obtain ⟨s₁', hs₁', log', -, hmerge'⟩ := h'
  rw [← hid, ← hwrites] at hs₁'
  rw [← hid, ← hwrites] at hmerge'
  have hrows := applyWrites_agree (hagree.put _ _ _) hs₁ hs₁'
  have htokens := hrows.foldl (fun (table : String) h =>
    h.put tableDataVersionTable (strBytes table) (encodeTxnId record.txnId))
    (publicTables record.writes).toList
  have hregistry := htokens.foldl (fun (keyspace : String) h =>
    h.put keyspaceRegistryTable (strBytes keyspace) keyspacePresentValue)
    (keyspacesForCommit (record.writes.map (·.table))).toList
  have hlog := hregistry.put_hidden hhides.log (encodeTxnId record.txnId) log
  have hlog' := hlog.symm.put_hidden hhides.log (encodeTxnId record.txnId) log'
  exact ((mergeHlc_agree hhides hmerge).trans hlog'.symm).trans (mergeHlc_agree hhides hmerge').symm

end Effects

theorem applyMirror_agree (hagree : AgreeOff hidden s s') (writes : WriteSet) :
    AgreeOff hidden (applyMirror s writes) (applyMirror s' writes) :=
  hagree.foldl (fun (write : (String × Bytes) × Option Bytes) h =>
    h.set raftMirrorTable (mirrorKey write.1.1 write.1.2) write.2) writes.entries

/-! ## Commands -/

section Commands

variable {C : CpCodecs} {t t' : Store}

theorem writeApplyMetadata_agree {logId : LogId} {membership : Option StoredMembership}
    {txnId : TxnId} (hagree : AgreeOff hidden s s')
    (h : writeApplyMetadata C s logId membership txnId = .ok t)
    (h' : writeApplyMetadata C s' logId membership txnId = .ok t') : AgreeOff hidden t t' := by
  simp only [writeApplyMetadata, writeOptionalLogId, bind_eq_ok_iff, pure_eq_ok_iff] at h h'
  obtain ⟨_, ⟨id, hid, rfl⟩, h⟩ := h
  obtain ⟨_, ⟨id', hid', rfl⟩, h'⟩ := h'
  rw [hid] at hid'
  cases hid'
  have hrows := (((hagree.put raftStateTable lastAppliedLogIdKey id).put raftStateTable
    lastAppliedKey (be64 logId.index)).put raftStateTable lastCommittedKey
    (be64 logId.index)).put raftStateTable lastTxnIdKey (be64 txnId)
  cases membership with
  | none =>
    obtain rfl := pure_eq_ok_iff.mp h
    obtain rfl := pure_eq_ok_iff.mp h'
    exact hrows
  | some membership =>
    simp only [bind_eq_ok_iff, pure_eq_ok_iff] at h h'
    obtain ⟨bytes, hbytes, rfl⟩ := h
    obtain ⟨bytes', hbytes', rfl⟩ := h'
    rw [hbytes] at hbytes'
    cases hbytes'
    exact hrows.put _ _ _

theorem commitMetadata_agree (hhides : Hides hidden) {env env' : Env} {logId : LogId}
    {membership : Option StoredMembership} {conflict : Bool} {r r' : ReplApplyResponse}
    (hagree : AgreeOff hidden s s')
    (h : commitMetadata C env s logId membership conflict = .ok (r, t))
    (h' : commitMetadata C env' s' logId membership conflict = .ok (r', t')) :
    r = r' ∧ AgreeOff hidden t t' := by
  simp only [commitMetadata, bind_eq_ok_iff, pure_eq_ok_iff, Prod.mk.injEq] at h h'
  obtain ⟨txnId, hid, s₁, hs₁, _, -, rfl, rfl⟩ := h
  obtain ⟨txnId', hid', s₁', hs₁', _, -, rfl, rfl⟩ := h'
  rw [← currentTxnIdFrom_congr hagree hhides, hid] at hid'
  cases hid'
  exact ⟨rfl, writeApplyMetadata_agree hagree hs₁ hs₁'⟩

theorem avoids_currentTxnIdFrom (s : Store) : Avoids .conflict (currentTxnIdFrom s) := by
  cases hget : s.get txnMetaTable currentTxnIdKey with
  | none => simp [Avoids, currentTxnIdFrom, hget]
  | some bytes =>
    cases hbytes : ofBe64? bytes with
    | none => simp [Avoids, currentTxnIdFrom, decodeTxnId, hget, hbytes]
    | some id => simp [Avoids, currentTxnIdFrom, decodeTxnId, hget, hbytes]

theorem avoids_encodeWith {α : Type} (encode : α → Except String Bytes) (record : α) :
    Avoids .conflict (encodeWith encode record) :=
  avoids_mapError _ fun _ => by simp

theorem avoids_versionKey (table : String) (key : Bytes) :
    Avoids .conflict (versionKey table key) := by
  rw [versionKey]
  split
  · exact avoids_ok _ _
  · simp [Avoids]

theorem avoids_decodeBinaryExact {α : Type} (codec : Postcard α) (bytes : Bytes)
    (context : String) : Avoids .conflict (decodeBinaryExact codec bytes context) := by
  apply avoids_bind (avoids_mapError _ fun _ => by simp)
  intro value _
  cases hempty : value.2.isEmpty <;> simp [Avoids, hempty, pure, Except.pure]

theorem avoids_storedHlcInTxn (C : Codecs) (s : Store) : Avoids .conflict (storedHlcInTxn C s) := by
  cases hget : s.get hlcTable hlcLocalKey with
  | none => simp [Avoids, storedHlcInTxn, hget]
  | some bytes =>
    simp only [storedHlcInTxn, hget]
    exact avoids_map _ (avoids_decodeBinaryExact _ _ _)

theorem avoids_applyWrite (C : Codecs) (txnId : TxnId) (s : Store) (write : CommitLogWrite) :
    Avoids .conflict (applyWrite C txnId s write) := by
  have hkey := avoids_versionKey write.table write.key
  apply avoids_bind (avoids_bind hkey fun _ _ => avoids_ok _ _)
  intro mk _
  apply avoids_bind (avoids_encodeWith _ _)
  intro record _
  exact avoids_bind hkey fun _ _ => avoids_ok _ _

theorem avoids_applyCommitRecordInTxn (C : Codecs) (s : Store) (record : CommitLogRecord) :
    Avoids .conflict (applyCommitRecordInTxn C s record) := by
  apply avoids_bind (avoids_foldlM (avoids_applyWrite C record.txnId) _ _)
  intro s₁ _
  apply avoids_bind (avoids_bind (avoids_encodeWith _ _) fun _ _ => avoids_ok _ _)
  intro log _
  cases record.hlc with
  | none => exact avoids_ok _ _
  | some hlc =>
    apply avoids_bind (avoids_storedHlcInTxn C _)
    intro stored _
    exact avoids_bind (avoids_encodeWith _ _) fun _ _ => avoids_ok _ _

theorem avoids_writeApplyMetadata (C : CpCodecs) (s : Store) (logId : LogId) (txnId : TxnId) :
    Avoids .conflict (writeApplyMetadata C s logId none txnId) := by
  apply avoids_bind (avoids_bind (avoids_encodeWith _ _) fun _ _ => avoids_ok _ _)
  intro s₁ _
  exact avoids_ok _ _

theorem commitCommand_conflict {env : Env} {logId : LogId} {snapshotId : TxnId}
    {writes : WriteSet} (hcommit : env.commit ≠ .error .conflict)
    (hlocks : validateWriteLocks C.toCodecs s writes = .ok ())
    (hsnapshot : validateSnapshot s snapshotId writes = .ok ()) :
    commitCommand C env s logId snapshotId writes ≠ .error .conflict := by
  simp only [commitCommand, commitWriteSetInTxnWithExtraAuthorized, hlocks, hsnapshot]
  apply avoids_bind (avoids_currentTxnIdFrom s)
  intro current _
  cases hnext : checkedSucc current with
  | none => simp [Avoids]
  | some next =>
    apply avoids_bind (avoids_bind (avoids_storedHlcInTxn _ s) fun _ _ => avoids_ok _ _)
    intro hlc _
    apply avoids_bind (avoids_applyCommitRecordInTxn _ _ _)
    intro s₁ _
    apply avoids_bind (avoids_writeApplyMetadata C _ _ _)
    intro s₂ _
    exact avoids_bind hcommit fun _ _ => avoids_ok _ _

theorem commitCommand_eq_ok {env : Env} {logId : LogId} {snapshotId id : TxnId}
    {writes : WriteSet} (h : commitCommand C env s logId snapshotId writes = .ok (id, t)) :
    validateWriteLocks C.toCodecs s writes = .ok () ∧ validateSnapshot s snapshotId writes =
    .ok () ∧
    ∃ current s₁ hlc, currentTxnIdFrom s = .ok current ∧ checkedSucc current = some id ∧
      applyCommitRecordInTxn C.toCodecs s (commitRecord env id writes hlc) = .ok s₁ ∧
      writeApplyMetadata C (applyMirror s₁ writes) logId none id = .ok t := by
  simp only [commitCommand, commitWriteSetInTxnWithExtraAuthorized, bind_eq_ok_iff,
    Except.ok.injEq, exists_eq_left'] at h
  obtain ⟨_, hlocks, _, hsnapshot, current, hcurrent, h⟩ := h
  cases hnext : checkedSucc current with
  | none => simp [hnext] at h
  | some next =>
    simp only [hnext, bind_eq_ok_iff, pure_eq_ok_iff, Prod.mk.injEq] at h
    obtain ⟨hlc, -, s₁, happly, s₂, hmeta, _, -, rfl, rfl⟩ := h
    exact ⟨hlocks, hsnapshot, current, s₁, hlc, hcurrent, hnext, happly, hmeta⟩

theorem commitCommand_agree (hhides : Hides hidden) {env env' : Env} {logId : LogId}
    {snapshotId id id' : TxnId} {writes : WriteSet} (hagree : AgreeOff hidden s s')
    (h : commitCommand C env s logId snapshotId writes = .ok (id, t))
    (h' : commitCommand C env' s' logId snapshotId writes = .ok (id', t')) :
    id = id' ∧ AgreeOff hidden t t' := by
  obtain ⟨-, -, current, s₁, hlc, hcurrent, hnext, happly, hmeta⟩ := commitCommand_eq_ok h
  obtain ⟨-, -, current', s₁', hlc', hcurrent', hnext', happly', hmeta'⟩ := commitCommand_eq_ok h'
  rw [← currentTxnIdFrom_congr hagree hhides, hcurrent] at hcurrent'
  cases hcurrent'
  rw [hnext] at hnext'
  cases hnext'
  have hrows : AgreeOff hidden s₁ s₁' := by
    apply applyCommitRecordInTxn_agree hhides _ _ hagree happly happly'
    · rfl
    · rfl
  exact ⟨rfl, writeApplyMetadata_agree (applyMirror_agree hrows writes) hmeta hmeta'⟩

theorem commitCommand_conflict_congr (hhides : Hides hidden) {env env' : Env} {logId : LogId}
    {snapshotId id : TxnId} {writes : WriteSet} (hagree : AgreeOff hidden s s')
    (hcommit : env'.commit ≠ .error .conflict)
    (h : commitCommand C env s logId snapshotId writes = .ok (id, t)) :
    commitCommand C env' s' logId snapshotId writes ≠ .error .conflict := by
  obtain ⟨hlocks, hsnapshot, -⟩ := commitCommand_eq_ok h
  rw [validateWriteLocks_congr hagree hhides] at hlocks
  rw [validateSnapshot_congr hagree hhides] at hsnapshot
  exact commitCommand_conflict hcommit hlocks hsnapshot

/-- How a command ends: rejected by its conditions, write set or commit, or committed. -/
inductive CommandOutcome (C : CpCodecs) (env : ApplyEnv) (s : Store) (logId : LogId)
    (command : ReplCommand) : ReplApplyResponse → Store → Prop
  | condition {r t} : command.conditions.all (conditionMatches s) = false →
      commitMetadata C env.write s logId none true = .ok (r, t) →
      CommandOutcome C env s logId command r t
  | writeSet {r t} : command.conditions.all (conditionMatches s) = true →
      commandWriteSet C s command = .error .conflict →
      commitMetadata C env.write s logId none true = .ok (r, t) →
      CommandOutcome C env s logId command r t
  | conflict {writes snapshotId r t} : command.conditions.all (conditionMatches s) = true →
      commandWriteSet C s command = .ok writes → commandSnapshot s command = .ok snapshotId →
      commitCommand C env.write s logId snapshotId writes = .error .conflict →
      commitMetadata C env.retry s logId none true = .ok (r, t) →
      CommandOutcome C env s logId command r t
  | committed {writes snapshotId id t} : command.conditions.all (conditionMatches s) = true →
      commandWriteSet C s command = .ok writes → commandSnapshot s command = .ok snapshotId →
      commitCommand C env.write s logId snapshotId writes = .ok (id, t) →
      CommandOutcome C env s logId command { txnId := id, conflict := false } t

/-- The outcomes of applying a command. -/
theorem applyCommand_outcome {env : ApplyEnv} {logId : LogId} {command : ReplCommand}
    {r : ReplApplyResponse} (h : applyCommand C env s logId command = .ok (r, t)) :
    CommandOutcome C env s logId command r t := by
  rw [applyCommand, bind_eq_ok_iff] at h
  obtain ⟨_, -, h⟩ := h
  cases hall : command.conditions.all (conditionMatches s) with
  | false =>
    rw [hall] at h
    exact .condition hall h
  | true =>
    simp only [hall, Bool.not_true, Bool.false_eq_true, if_false] at h
    cases hwrites : commandWriteSet C s command with
    | error e =>
      cases e with
      | conflict =>
        rw [hwrites] at h
        exact .writeSet hall hwrites h
      | _ => simp [hwrites] at h
    | ok writes =>
      simp only [hwrites, bind_eq_ok_iff] at h
      obtain ⟨snapshotId, hsnapshot, h⟩ := h
      cases hcommit : commitCommand C env.write s logId snapshotId writes with
      | error e =>
        cases e with
        | conflict =>
          simp only [hcommit, bind_eq_ok_iff] at h
          obtain ⟨_, -, h⟩ := h
          exact .conflict hall hwrites hsnapshot hcommit h
        | _ => simp [hcommit] at h
      | ok result =>
        obtain ⟨id, t₁⟩ := result
        simp only [hcommit, pure_eq_ok_iff, Prod.mk.injEq] at h
        obtain ⟨rfl, rfl⟩ := h
        exact .committed hall hwrites hsnapshot hcommit

/-- Replicas that agree reach the same outcome. -/
theorem CommandOutcome.agree (hhides : Hides hidden) {env env' : ApplyEnv} {logId : LogId}
    {command : ReplCommand} {r r' : ReplApplyResponse} (hagree : AgreeOff hidden s s')
    (hreads : ∀ condition ∈ command.conditions, condition.table ∉ hidden)
    (h : CommandOutcome C env s logId command r t)
    (h' : CommandOutcome C env' s' logId command r' t') : r = r' ∧ AgreeOff hidden t t' := by
  have hall := conditions_congr hagree hreads
  have hwrites := commandWriteSet_congr hagree hhides C command
  have hsnapshot := commandSnapshot_congr hagree hhides command
  -- the checks give the same answer on both sides, so the outcomes are of one kind
  cases h with
  | condition hfalse hmeta =>
    rw [hall] at hfalse
    cases h' with
    | condition _ hmeta' => exact commitMetadata_agree hhides hagree hmeta hmeta'
    | writeSet htrue' => simp [hfalse] at htrue'
    | conflict htrue' => simp [hfalse] at htrue'
    | committed htrue' => simp [hfalse] at htrue'
  | writeSet htrue hset hmeta =>
    rw [hall] at htrue
    rw [hwrites] at hset
    cases h' with
    | condition hfalse' => simp [htrue] at hfalse'
    | writeSet _ _ hmeta' => exact commitMetadata_agree hhides hagree hmeta hmeta'
    | conflict _ hset' => simp [hset] at hset'
    | committed _ hset' => simp [hset] at hset'
  | conflict htrue hset hid hcommit hmeta =>
    rw [hall] at htrue
    rw [hwrites] at hset
    rw [hsnapshot] at hid
    cases h' with
    | condition hfalse' => simp [htrue] at hfalse'
    | writeSet _ hset' => simp [hset] at hset'
    | conflict _ _ _ _ hmeta' => exact commitMetadata_agree hhides hagree hmeta hmeta'
    | committed _ hset' hid' hcommit' =>
      rw [hset] at hset'
      rw [hid] at hid'
      cases hset'
      cases hid'
      exact absurd hcommit (commitCommand_conflict_congr hhides hagree.symm
        env.commit_ne_conflict hcommit')
  | committed htrue hset hid hcommit =>
    rw [hall] at htrue
    rw [hwrites] at hset
    rw [hsnapshot] at hid
    cases h' with
    | condition hfalse' => simp [htrue] at hfalse'
    | writeSet _ hset' => simp [hset] at hset'
    | conflict _ hset' hid' hcommit' =>
      rw [hset] at hset'
      rw [hid] at hid'
      cases hset'
      cases hid'
      exact absurd hcommit' (commitCommand_conflict_congr hhides hagree
        env'.commit_ne_conflict hcommit)
    | committed _ hset' hid' hcommit' =>
      rw [hset] at hset'
      rw [hid] at hid'
      cases hset'
      cases hid'
      obtain ⟨rfl, hrows⟩ := commitCommand_agree hhides hagree hcommit hcommit'
      exact ⟨rfl, hrows⟩

/-! ## Entries -/

/-- Two nodes that agree give the same response to an entry, and agree afterwards. -/
theorem applyOne_agree (hhides : Hides hidden) {env env' : ApplyEnv} {entry : CpEntry}
    {r r' : ReplApplyResponse} (hagree : AgreeOff hidden s s') (hreads : entry.ReadsOff hidden)
    (h : applyOne C env s entry = .ok (r, t)) (h' : applyOne C env' s' entry = .ok (r', t')) :
    r = r' ∧ AgreeOff hidden t t' := by
  cases hpayload : entry.payload with
  | blank =>
    simp only [applyOne, hpayload, applyMetadataOnly, bind_eq_ok_iff] at h h'
    obtain ⟨_, -, h⟩ := h
    obtain ⟨_, -, h'⟩ := h'
    exact commitMetadata_agree hhides hagree h h'
  | membership membership =>
    simp only [applyOne, hpayload, applyMetadataOnly, bind_eq_ok_iff] at h h'
    obtain ⟨_, -, h⟩ := h
    obtain ⟨_, -, h'⟩ := h'
    exact commitMetadata_agree hhides hagree h h'
  | normal command =>
    simp only [applyOne, hpayload] at h h'
    simp only [CpEntry.ReadsOff, hpayload] at hreads
    exact (applyCommand_outcome h).agree hhides hagree hreads (applyCommand_outcome h')

/-- Replicas that apply the same entries keep agreeing. -/
theorem applyEntries_agree (hhides : Hides hidden) {run run' : List (ApplyEnv × CpEntry)}
    {rs rs' : List ReplApplyResponse} (hentries : run.map Prod.snd = run'.map Prod.snd)
    (hreads : ∀ step ∈ run, step.2.ReadsOff hidden) (hagree : AgreeOff hidden s s')
    (h : applyEntries C s run = .ok (rs, t)) (h' : applyEntries C s' run' = .ok (rs', t')) :
    rs = rs' ∧ AgreeOff hidden t t' := by
  induction run generalizing s s' run' rs rs' with
  | nil =>
    obtain rfl : run' = [] := by simpa using hentries.symm
    simp only [applyEntries, Except.ok.injEq, Prod.mk.injEq] at h h'
    obtain ⟨rfl, rfl⟩ := h
    obtain ⟨rfl, rfl⟩ := h'
    exact ⟨rfl, hagree⟩
  | cons step run ih =>
    cases run' with
    | nil => simp at hentries
    | cons step' run' =>
      obtain ⟨env, entry⟩ := step
      obtain ⟨env', entry'⟩ := step'
      simp only [List.map_cons, List.cons.injEq] at hentries
      obtain ⟨rfl, hentries⟩ := hentries
      simp only [applyEntries, bind_eq_ok_iff, pure_eq_ok_iff, Prod.mk.injEq] at h h'
      obtain ⟨⟨r, s₁⟩, hone, ⟨rest, s₂⟩, hrest, rfl, rfl⟩ := h
      obtain ⟨⟨r', s₁'⟩, hone', ⟨rest', s₂'⟩, hrest', rfl, rfl⟩ := h'
      have hhead : entry.ReadsOff hidden := hreads (env, entry) List.mem_cons_self
      obtain ⟨rfl, hagree₁⟩ := applyOne_agree hhides hagree hhead hone hone'
      obtain ⟨rfl, hagree₂⟩ := ih hentries
        (fun step hstep => hreads step (List.mem_cons_of_mem _ hstep)) hagree₁ hrest hrest'
      exact ⟨rfl, hagree₂⟩

end Commands

end MultiDb
