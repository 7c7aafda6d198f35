import Mathlib.Data.List.Forall2
import Mathlib.Data.List.ReduceOption
import MultiDb.Model.Changefeed
import MultiDb.Verification.History.Pins
import MultiDb.Verification.History.RetainedLog
import MultiDb.Verification.Rel.KeyParsers
import MultiDb.Verification.Txn.Apply

/-!
# Runs and their commits

A run of commits and garbage collection, with the write sets that its calls committed.  The log
holds a record of each of them, in their order.
-/

namespace MultiDb

open Shared

/-- The record of the store's latest commit. -/
def lastCommit (C : Codecs) (s : Store) : Option CommitLogRecord := do
  let current ← (currentTxnIdFrom s).toOption
  let bytes ← s.get commitLogTable (encodeTxnId current)
  (decodeCommitLogRecord C bytes).toOption

/-- The commit between two stores, if the current id has moved. -/
def newCommit (C : Codecs) (s s' : Store) : List CommitLogRecord :=
  if currentTxnIdFrom s' = currentTxnIdFrom s then [] else (lastCommit C s').toList

variable {C : Codecs}

section Step

variable {w : LoggedWorld} {floor : TxnId}

theorem newCommit_append {s s' : Store} {commits : List CommitLogRecord}
    {record : CommitLogRecord} {floor floor' : TxnId} (h : RetainedLog C s commits floor)
    (h' : RetainedLog C s' (commits ++ [record]) floor') : newCommit C s s' = [record] := by
  obtain ⟨current, hcurrent, hlen⟩ := h.current
  obtain ⟨current', hcurrent', hlen'⟩ := h'.current
  rw [List.length_append, List.length_singleton] at hlen'
  have hne : currentTxnIdFrom s' ≠ currentTxnIdFrom s := by
    rw [hcurrent, hcurrent']
    intro heq
    rw [Except.ok.inj heq] at hlen'
    omega
  have hmem : record ∈ commits ++ [record] := by simp
  have hid : record.txnId = current' := by
    rw [← UInt64.toNat_inj, hlen']
    exact h'.numbered commits.length record (by simp)
  obtain ⟨bytes, hbytes⟩ := h'.encoded record hmem
  have hget : s'.get commitLogTable (encodeTxnId current') = some bytes := by
    refine h'.get_id.mpr ⟨?_, record, hmem, hid, hbytes⟩
    have hle := h'.floor_le
    rw [List.length_append, List.length_singleton] at hle
    rw [UInt64.le_iff_toNat_le]
    omega
  rw [newCommit, if_neg hne, lastCommit, hcurrent']
  simp [Except.toOption, hget, decodeCommitLogRecord_of_encode hbytes]

end Step

end MultiDb
