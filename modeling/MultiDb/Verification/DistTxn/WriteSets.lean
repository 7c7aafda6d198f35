import Mathlib.Data.List.Induction
import MultiDb.Model.SingleNode
import MultiDb.Verification.Txn.Commit

/-!
# The write sets of prepare and finish

Prepare and finish stage ordinary write sets, described here row by row.
-/

namespace MultiDb

open Shared

variable {C : Codecs} {ops : List Op} {t : String}

section Codec

variable {bytes : Bytes}

private theorem validateRecordVersion_current : validateRecordVersion distTxnRecordVersion =
    .ok () := rfl

theorem decodePrepared_of_encode {record : PreparedTxnRecord}
    (h : encodePrepared C record = .ok bytes) (hversion : record.version = distTxnRecordVersion)
    (hops : ∀ op ∈ record.ops, tableIsReserved op.table = false) :
    decodePrepared C bytes = .ok record := by
  have henc : C.prepared.toVec record = .ok bytes := mapError_eq_ok_iff.mp h
  simp only [decodePrepared, bind_eq_ok_iff, mapError_eq_ok_iff, pure_eq_ok_iff]
  exact ⟨record, C.prepared.from_toVec henc, (), hversion ▸ validateRecordVersion_current, (),
    validatePublicOps_eq_ok_iff.mpr hops, rfl⟩

theorem public_of_decodePrepared {record : PreparedTxnRecord}
    (h : decodePrepared C bytes = .ok record) :
    ∀ op ∈ record.ops, tableIsReserved op.table = false := by
  simp only [decodePrepared, bind_eq_ok_iff, mapError_eq_ok_iff, pure_eq_ok_iff] at h
  obtain ⟨record', -, _, -, _, hops, rfl⟩ := h
  exact validatePublicOps_eq_ok_iff.mp hops

theorem decodeFinished_of_encode {record : FinishedTxnRecord}
    (h : encodeFinished C record = .ok bytes) (hversion : record.version = distTxnRecordVersion) :
    decodeFinished C bytes = .ok record := by
  have henc : C.finished.toVec record = .ok bytes := mapError_eq_ok_iff.mp h
  simp only [decodeFinished, bind_eq_ok_iff, mapError_eq_ok_iff, pure_eq_ok_iff]
  exact ⟨record, C.finished.from_toVec henc, (), hversion ▸ validateRecordVersion_current, rfl⟩

theorem decodeDecision_of_encode {record : CoordinatorDecisionRecord}
    (h : encodeDecision C record = .ok bytes) (hversion : record.version = distTxnRecordVersion) :
    decodeDecision C bytes = .ok record := by
  have henc : C.decision.toVec record = .ok bytes := mapError_eq_ok_iff.mp h
  simp only [decodeDecision, bind_eq_ok_iff, mapError_eq_ok_iff, pure_eq_ok_iff]
  exact ⟨record, C.decision.from_toVec henc, (), hversion ▸ validateRecordVersion_current, rfl⟩

end Codec

theorem opsToWriteSet_append_singleton (ops : List Op) (op : Op) (t : String) (k : Bytes) :
    (opsToWriteSet (ops ++ [op])).get t k =
      if op.table = t ∧ op.key = k then some op.value else (opsToWriteSet ops).get t k := by
  rw [opsToWriteSet, List.foldl_append, List.foldl_cons, List.foldl_nil, Tables.get_put]
  rfl

theorem opsToWriteSet_append (ops later : List Op) (t : String) (k : Bytes) :
    (opsToWriteSet (ops ++ later)).get t k =
      ((opsToWriteSet later).get t k).or ((opsToWriteSet ops).get t k) := by
  induction later using List.reverseRecOn with
  | nil => simp [opsToWriteSet]
  | append_singleton later op ih =>
    rw [← List.append_assoc, opsToWriteSet_append_singleton, opsToWriteSet_append_singleton, ih]
    split <;> rfl

theorem exists_op_of_get {k : Bytes} {v : Option Bytes} (h : (opsToWriteSet ops).get t k = some v) :
    ∃ op ∈ ops, op.table = t ∧ op.key = k ∧ op.value = v := by
  induction ops using List.reverseRecOn with
  | nil => simp [opsToWriteSet] at h
  | append_singleton ops op ih =>
    rw [opsToWriteSet_append_singleton] at h
    split at h
    · rename_i heq
      exact ⟨op, by simp, heq.1, heq.2, Option.some.inj h⟩
    · obtain ⟨op', hmem, hop'⟩ := ih h
      exact ⟨op', List.mem_append_left _ hmem, hop'⟩

theorem exists_get_of_op {op : Op} (h : op ∈ ops) :
    ∃ v, (opsToWriteSet ops).get op.table op.key = some v := by
  induction ops using List.reverseRecOn with
  | nil => contradiction
  | append_singleton ops last ih =>
    rw [opsToWriteSet_append_singleton]
    split
    · exact ⟨_, rfl⟩
    · rename_i hne
      rcases List.mem_append.mp h with hmem | hmem
      · exact ih hmem
      · obtain rfl := List.mem_singleton.mp hmem
        exact absurd ⟨rfl, rfl⟩ hne

theorem publicWrites_opsToWriteSet
    (h : ∀ op ∈ ops, tableIsReserved op.table = false) : PublicWrites (opsToWriteSet ops) := by
  intro t k v hget
  obtain ⟨op, hmem, rfl, -, -⟩ := exists_op_of_get hget
  exact h op hmem

/-! ## Locks -/

/-- The lock row `lock` belongs to a row that `writes` writes. -/
def Covers (writes : WriteSet) (lock : Bytes) : Prop :=
  ∃ t k v, writes.get t k = some v ∧ versionKey t k = .ok lock

section Locks

variable {s : Store} {txnId : TxnId} {decision : Decision} {writes staged staged' : WriteSet}
  {write : (String × Bytes) × Option Bytes}

theorem acquireLock_eq_ok_iff : acquireLock s txnId staged write = .ok staged' ↔
    ∃ lock, versionKey write.1.1 write.1.2 = .ok lock ∧ s.get locksTable lock = none ∧
      staged.put locksTable lock (some (encodeTxnId txnId)) = staged' := by
  simp only [acquireLock, bind_eq_ok_iff, guard_eq_ok_iff, pure_eq_ok_iff,
    Option.not_isSome_iff_eq_none]

/-- Acquiring stages one lock row per written row, all of them free before. -/
structure AcquiredLocks (s : Store) (txnId : TxnId) (writes staged : WriteSet) : Prop where
  address : ∀ t k v, writes.get t k = some v → ∃ lock, versionKey t k = .ok lock
  free : ∀ lock, Covers writes lock → s.get locksTable lock = none
  locked : ∀ lock, Covers writes lock →
    staged.get locksTable lock = some (some (encodeTxnId txnId))
  other : ∀ t k, (t = locksTable → ¬ Covers writes k) → staged.get t k = none

/-- The locks are taken for every row, or none is staged. -/
theorem acquireLocks_spec (h : acquireLocks s txnId writes = .ok staged) :
    AcquiredLocks s txnId writes staged := by
  have hrow : ∀ t k v, writes.get t k = some v →
      ∃ lock, versionKey t k = .ok lock ∧ s.get locksTable lock = none := by
    intro t k v hget
    obtain ⟨_, _, hrun⟩ := foldlM_mem h (Tables.mem_entries.mpr hget)
    obtain ⟨lock, hlock, hfree, -⟩ := acquireLock_eq_ok_iff.mp hrun
    exact ⟨lock, hlock, hfree⟩
  constructor
  case address =>
    intro t k v hget
    obtain ⟨lock, hlock, -⟩ := hrow t k v hget
    exact ⟨lock, hlock⟩
  case free =>
    rintro lock ⟨t, k, v, hget, hlock⟩
    obtain ⟨lock', hlock', hfree⟩ := hrow t k v hget
    obtain rfl : lock' = lock := by simpa [hlock'] using hlock
    exact hfree
  case locked =>
    rintro lock ⟨t, k, v, hget, hlock⟩
    refine (foldlM_observe (fun staged : WriteSet => staged.get locksTable lock)
      (fun write => versionKey write.1.1 write.1.2 = .ok lock) _ h ?_ ?_).1
      ⟨_, Tables.mem_entries.mpr hget, hlock⟩
    · intro write _ staged₀ staged₁ hrun hwrite
      obtain ⟨lock', hlock', -, rfl⟩ := acquireLock_eq_ok_iff.mp hrun
      obtain rfl : lock' = lock := by simpa [hlock'] using hwrite
      exact Tables.get_put_self _ _ _ _
    · intro write _ staged₀ staged₁ hrun hwrite
      obtain ⟨lock', hlock', -, rfl⟩ := acquireLock_eq_ok_iff.mp hrun
      refine Tables.get_put_of_ne fun _ heq => hwrite ?_
      rw [hlock', heq]
  case other =>
    intro t k hother
    refine foldlM_induction (fun staged : WriteSet => staged.get t k = none) ?_ h (by simp)
    intro write hmem staged₀ staged₁ hnone hrun
    obtain ⟨lock, hlock, -, rfl⟩ := acquireLock_eq_ok_iff.mp hrun
    rw [Tables.get_put_of_ne, hnone]
    rintro rfl rfl
    exact hother rfl ⟨_, _, _, Tables.mem_entries.mp hmem, hlock⟩

theorem releaseLock_cases (h : releaseLock s txnId decision staged write = .ok staged') :
    ∃ lock, versionKey write.1.1 write.1.2 = .ok lock ∧
      ((s.get locksTable lock = some (encodeTxnId txnId) ∧
          staged' = staged.put locksTable lock none) ∨
        (s.get locksTable lock = none ∧ decision = .abort ∧ staged' = staged)) := by
  obtain ⟨lock, hlock, h⟩ := bind_eq_ok_iff.mp h
  refine ⟨lock, hlock, ?_⟩
  cases hget : s.get locksTable lock with
  | none =>
    rw [hget] at h
    by_cases habort : decision = .abort
    · simp only [if_pos habort, pure_eq_ok_iff] at h
      exact Or.inr ⟨rfl, habort, h.symm⟩
    · simp [if_neg habort] at h
  | some owner =>
    simp only [hget, bind_eq_ok_iff] at h
    obtain ⟨id, hid, h⟩ := h
    by_cases hown : id = txnId
    · simp only [if_pos hown, pure_eq_ok_iff] at h
      rw [decodeTxnId_eq_ok_iff.mp hid, hown]
      exact Or.inl ⟨rfl, h.symm⟩
    · simp [if_neg hown] at h

/-- Every lock of the transaction is removed; only an abort meets unlocked rows. -/
structure ReleasedLocks (s : Store) (txnId : TxnId) (decision : Decision)
    (writes staged : WriteSet) : Prop where
  held : ∀ lock, Covers writes lock → s.get locksTable lock = some (encodeTxnId txnId) ∨
    s.get locksTable lock = none ∧ decision = .abort
  removes : ∀ t k v, staged.get t k = some v → v = none
  released : ∀ lock, Covers writes lock → s.get locksTable lock = some (encodeTxnId txnId) →
    staged.get locksTable lock = some none
  other : ∀ t k, (t = locksTable → ¬ Covers writes k) → staged.get t k = none

/-- The locks of the transaction are released. -/
theorem releaseLocks_spec (h : releaseLocks s txnId decision writes = .ok staged) :
    ReleasedLocks s txnId decision writes staged := by
  constructor
  case held =>
    rintro lock ⟨t, k, v, hget, hlock⟩
    obtain ⟨_, _, hrun⟩ := foldlM_mem h (Tables.mem_entries.mpr hget)
    obtain ⟨lock', hlock', hcase⟩ := releaseLock_cases hrun
    obtain rfl : lock' = lock := by simpa [hlock'] using hlock
    exact hcase.imp (·.1) fun hfree => ⟨hfree.1, hfree.2.1⟩
  case removes =>
    intro t k
    refine foldlM_induction (fun staged : WriteSet => ∀ v, staged.get t k = some v → v = none)
      ?_ h (by simp)
    intro write _ staged₀ staged₁ hremoves hrun v hget
    obtain ⟨lock, -, ⟨-, rfl⟩ | ⟨-, -, rfl⟩⟩ := releaseLock_cases hrun
    · rw [Tables.get_put] at hget
      split at hget
      · exact (Option.some.inj hget).symm
      · exact hremoves v hget
    · exact hremoves v hget
  case released =>
    rintro lock ⟨t, k, v, hget, hlock⟩ howned
    refine (foldlM_observe (fun staged : WriteSet => staged.get locksTable lock)
      (fun write => versionKey write.1.1 write.1.2 = .ok lock) _ h ?_ ?_).1
      ⟨_, Tables.mem_entries.mpr hget, hlock⟩
    · intro write _ staged₀ staged₁ hrun hwrite
      obtain ⟨lock', hlock', ⟨-, rfl⟩ | ⟨hfree, -⟩⟩ := releaseLock_cases hrun
      · obtain rfl : lock' = lock := by simpa [hlock'] using hwrite
        exact Tables.get_put_self _ _ _ _
      · obtain rfl : lock' = lock := by simpa [hlock'] using hwrite
        simp [howned] at hfree
    · intro write _ staged₀ staged₁ hrun hwrite
      obtain ⟨lock', hlock', ⟨-, rfl⟩ | ⟨-, -, rfl⟩⟩ := releaseLock_cases hrun
      · refine Tables.get_put_of_ne fun _ heq => hwrite ?_
        rw [hlock', heq]
      · rfl
  case other =>
    intro t k hother
    refine foldlM_induction (fun staged : WriteSet => staged.get t k = none) ?_ h (by simp)
    intro write hmem staged₀ staged₁ hnone hrun
    obtain ⟨lock, hlock, ⟨-, rfl⟩ | ⟨-, -, rfl⟩⟩ := releaseLock_cases hrun
    · rw [Tables.get_put_of_ne, hnone]
      rintro rfl rfl
      exact hother rfl ⟨_, _, _, Tables.mem_entries.mp hmem, hlock⟩
    · exact hnone

theorem ReleasedLocks.get_lock (h : ReleasedLocks s txnId decision writes staged) {lock : Bytes}
    (hcovers : Covers writes lock) :
    (staged.get locksTable lock).getD (s.get locksTable lock) = none := by
  rcases h.held lock hcovers with hheld | ⟨hfree, -⟩
  · rw [h.released lock hcovers hheld]
    rfl
  · rw [hfree]
    cases hget : staged.get locksTable lock with
    | none => rfl
    | some v => exact h.removes _ _ v hget

end Locks

/-! ## Prepare -/

/-- The tables of distributed transactions that the commit path treats as data. -/
def distTxnTables : List String :=
  [locksTable, distTxnParticipantTable, distTxnFinishedTable]

/-- A new prepare of `ops` found its rows free and stages their locks and `record`. -/
structure PrepareWrites (C : Codecs) (s : Store) (record : PreparedTxnRecord) (bytes : Bytes)
    (writes : WriteSet) : Prop where
  encoded : encodePrepared C record = .ok bytes
  version : record.version = distTxnRecordVersion
  unfinished : s.get distTxnFinishedTable (encodeTxnId record.txnId) = none
  unprepared : s.get distTxnParticipantTable (encodeTxnId record.txnId) = none
  address : ∀ t k v, (opsToWriteSet record.ops).get t k = some v →
    ∃ lock, versionKey t k = .ok lock
  free : ∀ lock, Covers (opsToWriteSet record.ops) lock → s.get locksTable lock = none
  locked : ∀ lock, Covers (opsToWriteSet record.ops) lock →
    writes.get locksTable lock = some (some (encodeTxnId record.txnId))
  unlocked : ∀ lock, ¬ Covers (opsToWriteSet record.ops) lock → writes.get locksTable lock = none
  participant : writes.get distTxnParticipantTable (encodeTxnId record.txnId) = some (some bytes)
  participants : ∀ k, k ≠ encodeTxnId record.txnId → writes.get distTxnParticipantTable k = none
  format : writes.get txnMetaTable lockFormatKey = some (some lockFormatValue)
  other : ∀ t k, t ∉ distTxnTables ∨ t = distTxnFinishedTable →
    (t = txnMetaTable → k ≠ lockFormatKey) → writes.get t k = none

theorem prepareWriteSet_cases {s : Store} {txnId : TxnId} {deadlineMs preparedAtMs : UInt64}
    {writes : WriteSet} (h : prepareWriteSet C s txnId ops deadlineMs preparedAtMs = .ok writes) :
    (∀ op ∈ ops, tableIsReserved op.table = false) ∧
    (((∀ t k, writes.get t k = none) ∧ ∃ bytes record,
        s.get distTxnParticipantTable (encodeTxnId txnId) = some bytes ∧
        decodePrepared C bytes = .ok record ∧ record.ops = ops) ∨
      ∃ record bytes, record.txnId = txnId ∧ record.ops = ops ∧
        PrepareWrites C s record bytes writes) := by
  simp only [prepareWriteSet, bind_eq_ok_iff] at h
  obtain ⟨_, hops, h⟩ := h
  refine ⟨validatePublicOps_eq_ok_iff.mp hops, ?_⟩
  cases hfinished : s.get distTxnFinishedTable (encodeTxnId txnId) with
  | some bytes =>
    simp only [hfinished, bind_eq_ok_iff] at h
    obtain ⟨finished, -, h⟩ := h
    split at h <;> contradiction
  | none =>
    simp only [hfinished, bind_eq_ok_iff] at h
    obtain ⟨_, -, h⟩ := h
    cases hprepared : s.get distTxnParticipantTable (encodeTxnId txnId) with
    | some bytes =>
      simp only [hprepared, bind_eq_ok_iff, guard_eq_ok_iff, pure_eq_ok_iff] at h
      obtain ⟨record, hrecord, hsame, _, -, rfl⟩ := h
      refine Or.inl ⟨by simp, bytes, record, rfl, hrecord, ?_⟩
      by_contra hne
      exact hsame (Or.inr hne)
    | none =>
      simp only [hprepared, bind_eq_ok_iff, pure_eq_ok_iff] at h
      obtain ⟨staged, hstaged, bytes, hbytes, rfl⟩ := h
      have hlocks := acquireLocks_spec hstaged
      refine Or.inr ⟨_, bytes, ?_, ?_, hbytes, rfl, hfinished, hprepared, hlocks.address,
        hlocks.free, ?_, ?_, Tables.get_put_self _ _ _ _, ?_, ?_, ?_⟩
      · rfl
      · rfl
      · intro lock hcovers
        rw [Tables.get_put_of_ne fun h => absurd h (by decide),
          Tables.get_put_of_ne fun h => absurd h (by decide), hlocks.locked lock hcovers]
      · intro lock hcovers
        rw [Tables.get_put_of_ne fun h => absurd h (by decide),
          Tables.get_put_of_ne fun h => absurd h (by decide),
          hlocks.other _ _ fun _ => hcovers]
      · intro k hk
        rw [Tables.get_put_of_ne fun _ => Ne.symm hk,
          Tables.get_put_of_ne fun h => absurd h (by decide),
          hlocks.other _ _ fun h => absurd h (by decide)]
      · rw [Tables.get_put_of_ne fun h => absurd h (by decide), Tables.get_put_self]
      · intro t k ht hmeta
        have hlocksTable : t ≠ locksTable := by
          rintro rfl
          exact ht.elim (fun h => h (by decide)) (by decide)
        have hparticipants : t ≠ distTxnParticipantTable := by
          rintro rfl
          exact ht.elim (fun h => h (by decide)) (by decide)
        rw [Tables.get_put_of_ne fun h => absurd h.symm hparticipants,
          Tables.get_put_of_ne fun h hk => hmeta h.symm hk.symm,
          hlocks.other _ _ fun h => absurd h hlocksTable]

theorem get_extend {staged writes : WriteSet} {k : Bytes} :
    (staged.extend writes).get t k = (writes.get t k).or (staged.get t k) := by
  rw [WriteSet.extend]
  cases hget : writes.get t k with
  | none =>
    rw [Option.none_or]
    refine List.foldlRecOn (motive := fun acc : WriteSet => acc.get t k = staged.get t k) _ _
      rfl ?_
    rintro acc hacc ⟨⟨t', k'⟩, v⟩ hmem
    rw [Tables.get_put_of_ne, hacc]
    rintro rfl rfl
    rw [Tables.mem_entries.mp hmem] at hget
    contradiction
  | some v =>
    rw [Option.some_or]
    refine (foldl_observe (fun acc : WriteSet => acc.get t k)
      (fun write => write.1 = (t, k)) (some v) staged ?_ ?_).1
      ⟨((t, k), v), Tables.mem_entries.mpr hget, rfl⟩
    · rintro ⟨⟨t', k'⟩, v'⟩ hmem acc heq
      cases heq
      rw [Tables.get_put_self, ← hget, Tables.mem_entries.mp hmem]
    · rintro ⟨⟨t', k'⟩, v'⟩ - acc hne
      exact Tables.get_put_of_ne fun ht hk => hne (Prod.ext ht hk)

/-! ## Finish -/

/-- The rows of a transaction's prepared record; none when it is not prepared here. -/
def preparedRows (prepared : Option PreparedTxnRecord) : WriteSet :=
  opsToWriteSet ((prepared.map (·.ops)).getD [])

/-- A new finish releases the locks, files the decision and, on a commit, writes the rows. -/
structure FinishWrites (C : Codecs) (s : Store) (prepared : Option PreparedTxnRecord)
    (record : FinishedTxnRecord) (bytes : Bytes) (writes : WriteSet) : Prop where
  encoded : encodeFinished C record = .ok bytes
  version : record.version = distTxnRecordVersion
  unfinished : s.get distTxnFinishedTable (encodeTxnId record.txnId) = none
  found : ∀ p, prepared = some p → p.txnId = record.txnId ∧
    ∃ bytes, s.get distTxnParticipantTable (encodeTxnId p.txnId) = some bytes ∧
      decodePrepared C bytes = .ok p
  missing : prepared = none →
    s.get distTxnParticipantTable (encodeTxnId record.txnId) = none
  released : ∀ lock, Covers (preparedRows prepared) lock →
    (writes.get locksTable lock).getD (s.get locksTable lock) = none
  unreleased : ∀ lock, ¬ Covers (preparedRows prepared) lock → writes.get locksTable lock = none
  participant : writes.get distTxnParticipantTable (encodeTxnId record.txnId) = some none
  participants : ∀ k, k ≠ encodeTxnId record.txnId → writes.get distTxnParticipantTable k = none
  finished : writes.get distTxnFinishedTable (encodeTxnId record.txnId) = some (some bytes)
  others : ∀ k, k ≠ encodeTxnId record.txnId → writes.get distTxnFinishedTable k = none
  rows : ∀ t k, t ∉ distTxnTables →
    writes.get t k = if record.decision = .commit then (preparedRows prepared).get t k else none

theorem finishPrepared_spec {s : Store} {txnId : TxnId} {decision : Decision}
    {stored : Option Bytes} {staged : WriteSet}
    (h : finishPrepared C s txnId decision stored = .ok staged) :
    ∃ prepared released, (∀ p, prepared = some p → p.txnId = txnId ∧
        ∃ bytes, stored = some bytes ∧ decodePrepared C bytes = .ok p) ∧
      (prepared = none → stored = none) ∧ PublicWrites (preparedRows prepared) ∧
      ReleasedLocks s txnId decision (preparedRows prepared) released ∧
      staged = if decision = .commit then released.extend (preparedRows prepared)
        else released := by
  cases stored with
  | none =>
    cases h
    refine ⟨none, .empty, by simp, by simp, fun t k v hget => by simp [preparedRows,
      opsToWriteSet] at hget, ⟨?_, by simp, ?_, by simp⟩, ?_⟩
    · rintro lock ⟨t, k, v, hget, -⟩
      simp [preparedRows, opsToWriteSet] at hget
    · rintro lock ⟨t, k, v, hget, -⟩
      simp [preparedRows, opsToWriteSet] at hget
    · split
      · exact Tables.ext_get fun t k => by rw [get_extend]; simp [preparedRows, opsToWriteSet]
      · rfl
  | some bytes =>
    simp only [finishPrepared, bind_eq_ok_iff, guard_eq_ok_iff] at h
    obtain ⟨record, hrecord, hid, released, hreleased, h⟩ := h
    refine ⟨some record, released, ?_, by simp,
      publicWrites_opsToWriteSet (public_of_decodePrepared hrecord),
      releaseLocks_spec hreleased, ?_⟩
    · rintro p hp
      cases hp
      exact ⟨not_not.mp hid, bytes, rfl, hrecord⟩
    · split at h
      · rename_i hcommit
        rw [if_pos hcommit]
        exact (pure_eq_ok_iff.mp h).symm
      · rename_i hcommit
        rw [if_neg hcommit]
        exact (pure_eq_ok_iff.mp h).symm

theorem PublicWrites.get_reserved {writes : WriteSet} (h : PublicWrites writes)
    (ht : tableIsReserved t = true) (k : Bytes) : writes.get t k = none := by
  by_contra hne
  obtain ⟨v, hv⟩ := Option.ne_none_iff_exists'.mp hne
  rw [h t k v hv] at ht
  contradiction

/-- A finish that was made before writes nothing. -/
theorem finishWriteSet_cases {s : Store} {txnId : TxnId} {decision : Decision}
    {finishedAtMs : UInt64} {writes : WriteSet}
    (h : finishWriteSet C s txnId decision finishedAtMs = .ok writes) :
    ((∀ t k, writes.get t k = none) ∧ ∃ bytes record,
        s.get distTxnFinishedTable (encodeTxnId txnId) = some bytes ∧
        decodeFinished C bytes = .ok record ∧ record.decision = decision) ∨
      ∃ prepared record bytes, record.txnId = txnId ∧ record.decision = decision ∧
        FinishWrites C s prepared record bytes writes := by
  rw [finishWriteSet] at h
  cases hfinished : s.get distTxnFinishedTable (encodeTxnId txnId) with
  | some bytes =>
    simp only [hfinished, bind_eq_ok_iff, guard_eq_ok_iff] at h
    obtain ⟨record, hrecord, -, h⟩ := h
    split at h
    · rename_i hsame
      obtain rfl := pure_eq_ok_iff.mp h
      exact Or.inl ⟨by simp, bytes, record, rfl, hrecord, hsame⟩
    · contradiction
  | none =>
    simp only [hfinished, bind_eq_ok_iff, pure_eq_ok_iff] at h
    obtain ⟨staged, hstaged, bytes, hbytes, rfl⟩ := h
    obtain ⟨prepared, released, hfound, hmissing, hpublic, hreleased, rfl⟩ :=
      finishPrepared_spec hstaged
    have hstage : ∀ t k, (tableIsReserved t = true ∨ decision ≠ .commit) →
        (if decision = .commit then released.extend (preparedRows prepared)
          else released).get t k = released.get t k := by
      intro t k ht
      split
      · rename_i hcommit
        rw [get_extend, hpublic.get_reserved (ht.resolve_right fun h => h hcommit),
          Option.none_or]
      · rfl
    refine Or.inr ⟨prepared, _, bytes, ?_, ?_, hbytes, rfl, hfinished, ?_, hmissing, ?_, ?_,
      Tables.get_put_self _ _ _ _, ?_, ?_, ?_, ?_⟩
    · rfl
    · rfl
    · intro p hp
      obtain ⟨rfl, hstored⟩ := hfound p hp
      exact ⟨rfl, hstored⟩
    · intro lock hcovers
      rw [Tables.get_put_of_ne fun h => absurd h (by decide),
        Tables.get_put_of_ne fun h => absurd h (by decide), hstage _ _ (Or.inl (by decide)),
        hreleased.get_lock hcovers]
    · intro lock hcovers
      rw [Tables.get_put_of_ne fun h => absurd h (by decide),
        Tables.get_put_of_ne fun h => absurd h (by decide), hstage _ _ (Or.inl (by decide)),
        hreleased.other _ _ fun _ => hcovers]
    · intro k hk
      rw [Tables.get_put_of_ne fun _ => Ne.symm hk,
        Tables.get_put_of_ne fun h => absurd h (by decide), hstage _ _ (Or.inl (by decide)),
        hreleased.other _ _ fun h => absurd h (by decide)]
    · rw [Tables.get_put_of_ne fun h => absurd h (by decide), Tables.get_put_self]
    · intro k hk
      rw [Tables.get_put_of_ne fun h => absurd h (by decide),
        Tables.get_put_of_ne fun _ => Ne.symm hk, hstage _ _ (Or.inl (by decide)),
        hreleased.other _ _ fun h => absurd h (by decide)]
    · intro t k ht
      simp only [distTxnTables, List.mem_cons, List.not_mem_nil, or_false, not_or] at ht
      rw [Tables.get_put_of_ne fun h => absurd h.symm ht.2.1,
        Tables.get_put_of_ne fun h => absurd h.symm ht.2.2]
      have hnone := hreleased.other t k fun h => absurd h ht.1
      split
      · rw [get_extend, hnone, Option.or_none]
      · exact hnone

end MultiDb
