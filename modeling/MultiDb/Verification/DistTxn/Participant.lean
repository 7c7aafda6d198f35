import MultiDb.Verification.DistTxn.LockInvariant

/-!
# A participant node over whole runs

Any interleaving of commits, prepares and finishes on one node.
-/

namespace MultiDb

open Shared

/-- The calls a participant serves. -/
inductive NodeCall
  | proposeBatch (ops : List Op)
  | proposeGroup (requests : List (List Op))
  | proposeConditionalBatch (batch : ConditionalBatch)
  | commitWriteSet (snapshotId : TxnId) (writes : WriteSet)
  | prepareDistTxn (txnId : TxnId) (ops : List Op)
  | finishDistTxn (txnId : TxnId) (decision : Decision)

namespace NodeCall

def exec (C : Codecs) (env : Env) (s : Store) : NodeCall → ReplResult Store
  | proposeBatch ops => SingleNode.proposeBatch C env s ops
  | proposeGroup requests => SingleNode.proposeGroup C env s requests
  | proposeConditionalBatch batch => SingleNode.proposeConditionalBatch C env s batch
  | commitWriteSet snapshotId writes => SingleNode.commitWriteSet C env s snapshotId writes
  | prepareDistTxn txnId ops => (SingleNode.prepareDistTxn C env s txnId ops).map Prod.snd
  | finishDistTxn txnId decision => SingleNode.finishDistTxn C env s txnId decision

/-- A failed call leaves the store as it was. -/
def step (C : Codecs) (s : Store) (call : Env × NodeCall) : Store :=
  match call.2.exec C call.1 s with
  | .error _ => s
  | .ok s' => s'

end NodeCall

/-- The store after a list of calls. -/
def runNode (C : Codecs) (calls : List (Env × NodeCall)) : Store :=
  calls.foldl (NodeCall.step C) .empty

variable {C : Codecs} {s s' : Store} {call : NodeCall}

/-- What one call can do to the store. -/
inductive NodeStep (C : Codecs) (s : Store) : NodeCall → Store → Prop
  | plain {call : NodeCall} {s' : Store} (h : PlainStep C s s') : NodeStep C s call s'
  | prepare {call : NodeCall} {record : PreparedTxnRecord} {s' : Store}
      (h : PreparedStore C s record s') : NodeStep C s call s'
  | finish {prepared : Option PreparedTxnRecord} {record : FinishedTxnRecord} {s' : Store}
      (h : FinishedStore C s prepared record s') :
      NodeStep C s (.finishDistTxn record.txnId record.decision) s'

theorem NodeCall.nodeStep_exec {env : Env}
    (h : call.exec C env s = .ok s') : NodeStep C s call s' := by
  cases call with
  | proposeBatch ops => exact .plain (proposeBatch_commits h).step.plain
  | proposeGroup requests => exact .plain (proposeGroup_commits h).step.plain
  | proposeConditionalBatch batch => exact .plain (proposeConditionalBatch_commits h).2.step.plain
  | commitWriteSet snapshotId writes => exact .plain (commitWriteSet_commits h).step.plain
  | prepareDistTxn txnId ops =>
    obtain ⟨⟨vote, s₁⟩, hprepare, rfl⟩ := map_eq_ok_iff.mp h
    rcases prepareDistTxn_cases hprepare with ⟨rfl, -⟩ | ⟨record, rfl, rfl, hstep⟩
    · exact .plain .same
    · exact .prepare hstep.preparedStore
  | finishDistTxn txnId decision =>
    rcases finishDistTxn_cases h with ⟨rfl, -⟩ | ⟨prepared, record, rfl, rfl, hstep⟩
    · exact .plain .same
    · exact .finish hstep.finishedStore

theorem NodeCall.nodeStep (C : Codecs) (s : Store) (call : Env × NodeCall) :
    NodeStep C s call.2 (NodeCall.step C s call) := by
  rw [NodeCall.step]
  cases hexec : call.2.exec C call.1 s with
  | error e => exact .plain .same
  | ok s' => exact nodeStep_exec hexec

theorem LockInv.nodeStep (hinv : LockInv C s) (h : NodeStep C s call s') : LockInv C s' := by
  cases h with
  | plain h => exact hinv.plain h
  | prepare h => exact hinv.prepare h
  | finish h => exact hinv.finish h

theorem lockInv_runNode (C : Codecs) (calls : List (Env × NodeCall)) :
    LockInv C (runNode C calls) :=
  List.foldlRecOn (motive := LockInv C) _ _ (lockInv_empty C) fun s hs call _ =>
    hs.nodeStep (NodeCall.nodeStep C s call)

/-- The lock table is the disjoint union of the rows of the prepared records. -/
structure LockTable (C : Codecs) (s : Store) : Prop where
  exact : ∃ records, SingleNode.localPreparedDistTxns C s = .ok records ∧
    (records.map (·.txnId)).Nodup ∧
    records.Pairwise (fun a b => ∀ lock, Covers a.rows lock → ¬ Covers b.rows lock) ∧
    ∀ lock owner, (lock, owner) ∈ range s locksTable [] [] ↔
      ∃ record ∈ records, owner = encodeTxnId record.txnId ∧ Covers record.rows lock
  /-- No transaction is both prepared and finished. -/
  exclusive : ∀ txnId, s.get distTxnParticipantTable (encodeTxnId txnId) = none ∨
    s.get distTxnFinishedTable (encodeTxnId txnId) = none

/-- What a call leaves alone. -/
structure KeepsPrepared (C : Codecs) (s : Store) (call : NodeCall) (s' : Store) : Prop where
  /-- A prepared row changes only when its owner commits. -/
  rows : ∀ record t k v, Prepared C s record → record.rows.get t k = some v →
    call ≠ .finishDistTxn record.txnId .commit → s'.get t k = s.get t k
  finished : ∀ key bytes, s.get distTxnFinishedTable key = some bytes →
    s'.get distTxnFinishedTable key = some bytes

/-- A participant lists the transactions that are prepared. -/
theorem LockInv.records (hinv : LockInv C s) :
    ∃ records, SingleNode.localPreparedDistTxns C s = .ok records ∧
      (records.map (·.txnId)).Nodup ∧ ∀ record, record ∈ records ↔ Prepared C s record := by
  obtain ⟨records, hrecords⟩ : ∃ records, (range s distTxnParticipantTable [] []).mapM
      (fun row => decodePrepared C row.2) = .ok records := by
    refine exists_mapM_eq_ok fun row hrow => ?_
    obtain ⟨record, hdecode, -⟩ := hinv.participant _ _ (mem_range.mp hrow).1
    exact ⟨record, hdecode⟩
  refine ⟨records, mapError_eq_ok_iff.mpr hrecords, ?_, fun record => ?_⟩
  · -- the rows have different keys, and a key is the id of its record
    have hrows : ((range s distTxnParticipantTable [] []).map fun row =>
        decodePrepared C row.2).Pairwise fun x y => ∀ a b, x = .ok a → y = .ok b →
          a.txnId ≠ b.txnId := by
      refine List.pairwise_map.mpr ((s.scan_sorted _ _).imp_of_mem ?_)
      intro row row' hrow hrow' hlt a b ha hb heq
      obtain ⟨a', ha', hkey⟩ := hinv.participant _ _ (mem_range.mp hrow).1
      obtain ⟨b', hb', hkey'⟩ := hinv.participant _ _ (mem_range.mp hrow').1
      cases ha'.symm.trans ha
      cases hb'.symm.trans hb
      rw [hkey, hkey', heq] at hlt
      simp at hlt
    rw [mapM_eq_ok_iff.mp hrecords] at hrows
    exact List.pairwise_map.mpr ((List.pairwise_map.mp hrows).imp fun h => h _ _ rfl rfl)
  · rw [mem_of_mapM_eq_ok hrecords]
    constructor
    · rintro ⟨⟨key, bytes⟩, hrow, hdecode⟩
      have hget := (mem_range.mp hrow).1
      obtain ⟨record', hdecode', rfl⟩ := hinv.participant _ _ hget
      cases hdecode'.symm.trans hdecode
      exact ⟨bytes, hget, hdecode⟩
    · rintro ⟨bytes, hget, hdecode⟩
      exact ⟨(_, bytes), mem_range.mpr ⟨hget, by simp⟩, hdecode⟩

theorem LockInv.lockTable (hinv : LockInv C s) : LockTable C s := by
  obtain ⟨records, hrecords, hnodup, hmem⟩ := hinv.records
  refine ⟨⟨records, hrecords, hnodup, ?_, fun lock owner => ?_⟩, fun txnId => ?_⟩
  · refine (List.pairwise_map.mp hnodup).imp_of_mem fun {a b} ha hb hne lock hla hlb => hne ?_
    rw [hinv.disjoint ((hmem a).mp ha) ((hmem b).mp hb) hla hlb]
  · simp only [mem_range, keyInRange_nil_nil, and_true, hinv.lock, hmem]
  · by_cases hprepared : s.get distTxnParticipantTable (encodeTxnId txnId) = none
    · exact Or.inl hprepared
    · exact Or.inr (hinv.exclusive _ hprepared)

theorem Prepared.public {record : PreparedTxnRecord} (h : Prepared C s record) :
    PublicWrites record.rows := by
  obtain ⟨bytes, -, hdecode⟩ := h
  exact publicWrites_opsToWriteSet (public_of_decodePrepared hdecode)

/-- No call of another transaction changes a prepared row. -/
theorem LockInv.keepsPrepared (hinv : LockInv C s)
    (h : NodeStep C s call s') : KeepsPrepared C s call s' := by
  constructor
  case rows =>
    intro record t k v hprepared hrow howner
    have ht := hprepared.public t k v hrow
    obtain ⟨lock, hlock⟩ := hinv.address record t k v hprepared hrow
    have hcovers : Covers record.rows lock := ⟨t, k, v, hrow, hlock⟩
    cases h with
    | plain h =>
      refine h.get_locked ht hlock ?_
      rw [(hinv.lock lock _).mpr ⟨record, hprepared, rfl, hcovers⟩]
      simp
    | prepare h =>
      exact h.other t k (not_bookkeeping_of_public ht k)
        (Or.inl (not_mem_distTxnTables_of_public ht)) (by rintro rfl; contradiction)
    | finish h =>
      rename_i prepared finished
      rw [h.rows t k (not_bookkeeping_of_public ht k) (not_mem_distTxnTables_of_public ht)]
      split
      · rename_i hcommit
        cases hget : (preparedRows prepared).get t k with
        | none => rfl
        | some v' =>
          -- the finished transaction writes the row too, so it is the owner
          cases prepared with
          | none => simp [preparedRows, opsToWriteSet] at hget
          | some p =>
            obtain ⟨hpid, hp⟩ := h.found p rfl
            obtain rfl := hinv.disjoint hprepared hp hcovers ⟨t, k, v', hget, hlock⟩
            rw [hpid, hcommit] at howner
            contradiction
      · rfl
  case finished =>
    intro key bytes hget
    cases h with
    | plain h => rw [h.get_distTxn (by decide), hget]
    | prepare h =>
      rw [h.other _ key (not_bookkeeping_of_mem (by decide) key) (Or.inr rfl)
        fun ht => absurd ht (by decide), hget]
    | finish h =>
      rename_i prepared finished
      by_cases hkey : key = encodeTxnId finished.txnId
      · rw [hkey, h.unfinished] at hget
        contradiction
      · rw [h.others key hkey, hget]

/-- After any run of calls the lock table is exact, and the next call keeps prepared rows. -/
theorem lockTable_runNode (C : Codecs) (calls : List (Env × NodeCall)) :
    LockTable C (runNode C calls) ∧ ∀ call, KeepsPrepared C (runNode C calls) call.2
      (NodeCall.step C (runNode C calls) call) := by
  have hinv := lockInv_runNode C calls
  exact ⟨hinv.lockTable, fun call => hinv.keepsPrepared (NodeCall.nodeStep C _ call)⟩

end MultiDb
