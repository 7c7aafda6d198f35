import MultiDb.Model.WireRecords
import MultiDb.Verification.Txn.SnapshotIsolation

/-!
# Replaying the commit log

A run of commits is rebuilt by applying its log to an empty store.
-/

namespace MultiDb

open Shared

/-- The calls that commit on a live node. -/
inductive LiveCall
  | public_ (call : TxnCall)
  | commitWriteSetAuthorized (snapshotId : TxnId) (writes : WriteSet)
  | commitWriteSetAtCurrentAuthorized (writes : WriteSet)
  | commitOpsAtCurrentAuthorized (ops : List Op)

namespace LiveCall

def writes : LiveCall → WriteSet
  | public_ call => call.writes
  | commitWriteSetAuthorized _ writes => writes
  | commitWriteSetAtCurrentAuthorized writes => writes
  | commitOpsAtCurrentAuthorized ops => opsToWriteSet ops

def exec (C : Codecs) (env : Env) (s : Store) : LiveCall → Result (TxnId × Store)
  | public_ call => call.exec C env s
  | commitWriteSetAuthorized snapshotId writes =>
    MultiDb.commitWriteSetAuthorized C env s snapshotId writes
  | commitWriteSetAtCurrentAuthorized writes =>
    MultiDb.commitWriteSetAtCurrentAuthorized C env s writes
  | commitOpsAtCurrentAuthorized ops => MultiDb.commitOpsAtCurrentAuthorized C env s ops

def step (C : Codecs) (s : Store) (call : Env × LiveCall) : Store :=
  match call.2.exec C call.1 s with
  | .error _ => s
  | .ok (_, s') => s'

end LiveCall

def runLive (C : Codecs) (calls : List (Env × LiveCall)) : Store :=
  calls.foldl (LiveCall.step C) .empty

/-- The records of the log, oldest first. -/
def commitLogRecords (C : Codecs) (s : Store) : Result (List CommitLogRecord) :=
  (range s commitLogTable [] []).mapM fun row => decodeCommitLogRecord C row.2

/-- A store rebuilt from the log alone. -/
def replay (C : Codecs) (records : List CommitLogRecord) : Result Store :=
  records.foldlM (applyCommitRecordInTxn C) .empty

/-- Write sets that leave the commit log and the current id to the commit path. -/
def LeavesLog (writes : WriteSet) : Prop :=
  (∀ k, writes.get commitLogTable k = none) ∧ writes.get txnMetaTable currentTxnIdKey = none

/-- `rows` are the records behind the store, oldest first, with their encodings. -/
structure LogInv (C : Codecs) (s : Store) (rows : List (CommitLogRecord × Bytes)) : Prop where
  replayed : replay C (rows.map Prod.fst) = .ok s
  ids : rows.map (fun row => row.1.txnId.toNat) = List.range' 1 rows.length
  current : ∃ current, currentTxnIdFrom s = .ok current ∧ current.toNat = rows.length
  encoded : ∀ row ∈ rows, encodeCommitLogRecord C row.1 = .ok row.2
  log : ∀ key bytes, s.get commitLogTable key = some bytes ↔
    ∃ row ∈ rows, encodeTxnId row.1.txnId = key ∧ row.2 = bytes

theorem logInv_empty (C : Codecs) : LogInv C .empty [] where
  replayed := rfl
  ids := rfl
  current := ⟨0, rfl, rfl⟩
  encoded := by simp
  log := by simp

section Step

variable {C : Codecs} {env : Env} {s s' : Store} {rows : List (CommitLogRecord × Bytes)}

theorem LogInv.id_le (hinv : LogInv C s rows) {row : CommitLogRecord × Bytes} (hrow : row ∈ rows) :
    row.1.txnId.toNat ≤ rows.length := by
  have hmem : row.1.txnId.toNat ∈ rows.map fun row => row.1.txnId.toNat :=
    List.mem_map_of_mem hrow
  rw [hinv.ids, List.mem_range'_1] at hmem
  omega

/-- A commit appends its row to the log. -/
theorem LogInv.commit {snapshotId id : TxnId} {writes : WriteSet} (hinv : LogInv C s rows)
    (hleaves : LeavesLog writes) (hsteps : CommitSteps C env s snapshotId writes id s') :
    ∃ row, LogInv C s' (rows ++ [row]) := by
  obtain ⟨hlc, happly⟩ := hsteps.applied
  obtain ⟨s₁, log, happlied⟩ := exists_appliedRecord happly
  have hid : id.toNat = rows.length + 1 := by
    obtain ⟨current, hcurrent, hid⟩ := hsteps.next
    obtain ⟨current', hcurrent', hlen⟩ := hinv.current
    obtain rfl : current = current' := by simpa [hcurrent] using hcurrent'
    omega
  have hget : ∀ key, s'.get commitLogTable key =
      if encodeTxnId id = key then some log else s.get commitLogTable key := by
    refine happlied.get_log ?_
    rintro w hw ht
    have := mem_commitLogWrites.mp hw
    rw [ht, hleaves.1] at this
    contradiction
  refine ⟨(commitRecord env id writes hlc, log), ?_⟩
  constructor
  case replayed =>
    rw [List.map_append, replay, List.foldlM_append, bind_eq_ok_iff]
    refine ⟨s, hinv.replayed, ?_⟩
    rw [List.map_singleton, List.foldlM_cons, happly]
    rfl
  case ids =>
    simp only [List.map_append, hinv.ids, List.map_singleton, List.length_append,
      List.length_singleton, List.range'_concat]
    simp [commitRecord, commitLogRecordWithClockAndHlc, hid, Nat.add_comm]
  case current =>
    refine ⟨id, currentTxnIdFrom_of_get (happlied.get_current rfl hleaves.2), ?_⟩
    simp [hid]
  case encoded =>
    intro row hrow
    rcases List.mem_append.mp hrow with hrow | hrow
    · exact hinv.encoded row hrow
    · obtain rfl := List.mem_singleton.mp hrow
      exact happlied.encoded
  case log =>
    intro key bytes
    rw [hget]
    by_cases hkey : encodeTxnId id = key
    · subst hkey
      -- the key is new: every earlier record has a smaller id
      have hnew : ∀ row ∈ rows, encodeTxnId row.1.txnId ≠ encodeTxnId id := by
        intro row hrow heq
        have := hinv.id_le hrow
        rw [encodeTxnId_inj.mp heq] at this
        omega
      simp only [if_true, Option.some_inj, List.mem_append, List.mem_singleton]
      constructor
      · rintro rfl
        exact ⟨_, Or.inr rfl, rfl, rfl⟩
      · rintro ⟨row, hrow | rfl, heq, rfl⟩
        · exact absurd heq (hnew row hrow)
        · rfl
    · rw [if_neg hkey, hinv.log]
      simp only [List.mem_append, List.mem_singleton]
      constructor
      · rintro ⟨row, hrow, heq⟩
        exact ⟨row, Or.inl hrow, heq⟩
      · rintro ⟨row, hrow | rfl, heq⟩
        · exact ⟨row, hrow, heq⟩
        · exact absurd heq.1 hkey

theorem LiveCall.exec_cases {call : LiveCall} {id : TxnId} (h : call.exec C env s = .ok (id, s')) :
    s' = s ∨ ∃ snapshotId, CommitSteps C env s snapshotId call.writes id s' := by
  cases call with
  | public_ call =>
    rcases TxnCall.exec_cases h with ⟨-, rfl⟩ | ⟨-, -, snapshotId, -, hsteps⟩
    · exact Or.inl rfl
    · exact Or.inr ⟨snapshotId, hsteps⟩
  | commitWriteSetAuthorized snapshotId writes =>
    rcases commitWriteSetAuthorized_cases h with ⟨-, rfl⟩ | ⟨-, hsteps⟩
    · exact Or.inl rfl
    · exact Or.inr ⟨snapshotId, hsteps⟩
  | commitWriteSetAtCurrentAuthorized writes =>
    rcases commitWriteSetAtCurrentAuthorized_cases h with ⟨-, rfl⟩ | ⟨-, current, -, hsteps⟩
    · exact Or.inl rfl
    · exact Or.inr ⟨current, hsteps⟩
  | commitOpsAtCurrentAuthorized ops =>
    rcases commitWriteSetAtCurrentAuthorized_cases h with ⟨-, rfl⟩ | ⟨-, current, -, hsteps⟩
    · exact Or.inl rfl
    · exact Or.inr ⟨current, hsteps⟩

theorem LiveCall.step_inv {call : Env × LiveCall} (hinv : LogInv C s rows)
    (hleaves : LeavesLog call.2.writes) : ∃ rows, LogInv C (LiveCall.step C s call) rows := by
  rw [LiveCall.step]
  cases hexec : call.2.exec C call.1 s with
  | error e => exact ⟨rows, hinv⟩
  | ok result =>
    obtain ⟨id, s'⟩ := result
    rcases LiveCall.exec_cases hexec with rfl | ⟨snapshotId, hsteps⟩
    · exact ⟨rows, hinv⟩
    · obtain ⟨row, hinv'⟩ := hinv.commit hleaves hsteps
      exact ⟨rows ++ [row], hinv'⟩

end Step

theorem runLive_inv (C : Codecs) {calls : List (Env × LiveCall)}
    (hleaves : ∀ call ∈ calls, LeavesLog call.2.writes) : ∃ rows, LogInv C (runLive C calls) rows :=
  List.foldlRecOn (motive := fun s => ∃ rows, LogInv C s rows) _ _ ⟨[], logInv_empty C⟩
    fun _ ⟨_, hinv⟩ call hcall => LiveCall.step_inv hinv (hleaves call hcall)

theorem LogInv.range_eq {C : Codecs} {s : Store} {rows : List (CommitLogRecord × Bytes)}
    (hinv : LogInv C s rows) :
    range s commitLogTable [] [] = rows.map fun row => (encodeTxnId row.1.txnId, row.2) := by
  refine Tables.scan_eq_of_sorted ?_ ?_
  · have hids : rows.Pairwise fun a b => a.1.txnId.toNat < b.1.txnId.toNat := by
      rw [← List.pairwise_map (f := fun row : CommitLogRecord × Bytes => row.1.txnId.toNat)
        (R := (· < ·)), hinv.ids]
      exact List.pairwise_lt_range'
    refine List.pairwise_map.mpr (hids.imp fun {a b} hlt => ?_)
    simp only [encodeTxnId]
    rw [compare_be64, UInt64.compare_eq_toNat_compare_toNat]
    exact Nat.compare_eq_lt.mpr hlt
  · intro key bytes
    rw [hinv.log, List.mem_map]
    simp [Prod.ext_iff]

/-- The log reads back as the records committed. -/
theorem LogInv.records {C : Codecs} {s : Store} {rows : List (CommitLogRecord × Bytes)}
    (hinv : LogInv C s rows) : commitLogRecords C s = .ok (rows.map Prod.fst) := by
  rw [commitLogRecords, hinv.range_eq, List.mapM_map, mapM_eq_ok_iff, List.map_map]
  exact List.map_congr_left fun row hrow =>
    decodeCommitLogRecord_of_encode (hinv.encoded row hrow)

/-- Replaying the commit log of a run rebuilds its store, on every table. -/
theorem replay_commitLogRecords (C : Codecs) (calls : List (Env × LiveCall))
    (hleaves : ∀ call ∈ calls, LeavesLog call.2.writes) :
    ∃ records, commitLogRecords C (runLive C calls) = .ok records ∧
      records.map (fun record => record.txnId.toNat) = List.range' 1 records.length ∧
      replay C records = .ok (runLive C calls) := by
  obtain ⟨rows, hinv⟩ := runLive_inv C hleaves
  refine ⟨rows.map Prod.fst, hinv.records, ?_, hinv.replayed⟩
  rw [List.map_map, List.length_map, ← hinv.ids]
  rfl

def opsCall (ops : List Op) : Env × LiveCall :=
  (epochEnv, .commitOpsAtCurrentAuthorized ops)

/-- Two rows are written; the first is overwritten, the second is deleted. -/
def sampleCalls : List (Env × LiveCall) :=
  [opsCall [.put "t" [1] [2], .put "t" [4] [5]], opsCall [.put "t" [1] [3]],
    opsCall [.delete "t" [4]]]

theorem leavesLog_sampleCalls : ∀ call ∈ sampleCalls, LeavesLog call.2.writes := by
  simp [sampleCalls, opsCall, LeavesLog, LiveCall.writes, opsToWriteSet, Tables.get_put, Op.table,
    show "t" ≠ commitLogTable by decide, show "t" ≠ txnMetaTable by decide]

theorem replay_commitLogRecords_sample :
    ((runLive wireCodecs sampleCalls).get "t" [1] = some [3] ∧
      (runLive wireCodecs sampleCalls).get "t" [4] = none) ∧
    ∃ records, commitLogRecords wireCodecs (runLive wireCodecs sampleCalls) = .ok records ∧
      records.map (fun record => record.txnId.toNat) = List.range' 1 records.length ∧
      replay wireCodecs records = .ok (runLive wireCodecs sampleCalls) :=
  ⟨by decide +kernel, replay_commitLogRecords wireCodecs sampleCalls leavesLog_sampleCalls⟩

/-- The log record of a call that deletes the record of the first. -/
def dropRecord : CommitLogRecord :=
  { txnId := 2, committedAt := 0, hlc := some { physicalMs := 0, logical := 2 },
    writes := [{ table := commitLogTable, key := be64 1, value := none }] }

/-- An authorized write set may delete a log record, which replay then misses. -/
theorem replay_misses_dropped_record :
    let s := runLive wireCodecs
      [opsCall [.put "t" [1] [2]], opsCall [.delete commitLogTable (be64 1)]]
    s.get "t" [1] = some [2] ∧ commitLogRecords wireCodecs s = .ok [dropRecord] ∧
      (replay wireCodecs [dropRecord]).map (·.get "t" [1]) = .ok none := by
  decide +kernel

end MultiDb
