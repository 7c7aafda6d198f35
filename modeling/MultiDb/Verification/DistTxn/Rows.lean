import MultiDb.Verification.DistTxn.Steps

/-!
# The rows of a public batch

A batch that a node accepts leaves in a public row what the last of its operations left.
-/

namespace MultiDb

open Shared

variable {C : Codecs} {env : Env} {s s' : Store} {writes : WriteSet} {ops : List Op}

/-- A commit of user rows: what it writes, and that their locks were free. -/
structure WritesRows (C : Codecs) (s : Store) (writes : WriteSet) (s' : Store) : Prop where
  step : PublicStep C s s'
  public_rows : PublicWrites writes
  row : ∀ t k, tableIsReserved t = false → s'.get t k = (writes.get t k).getD (s.get t k)
  free : FreeRows s writes

theorem writesRows_of_none (hpublic : PublicWrites writes)
    (hnone : ∀ t k, writes.get t k = none) : WritesRows C s writes s := by
  refine ⟨.same, hpublic, fun t k _ => by rw [hnone]; rfl, fun t k v hget => ?_⟩
  rw [hnone] at hget
  contradiction

theorem CommitSteps.writesRows {snapshotId id : TxnId}
    (h : CommitSteps C env s snapshotId writes id s') (hpublic : PublicWrites writes) :
    WritesRows C s writes s' := by
  have heffect := h.effect hpublic.clean
  refine ⟨h.commitStep hpublic hpublic.plain, hpublic,
    fun t k ht => heffect.row t k (not_bookkeeping_of_public ht k), ?_⟩
  intro t k v hget ht
  refine free_of_validateWriteLock (validateWriteLock_of_get h.locks hget ht) fun lock => ?_
  exact hpublic.get_reserved (t := locksTable) (by decide) lock

theorem PublicCommit.writesRows (h : PublicCommit C env s writes s') :
    WritesRows C s writes s' := by
  obtain ⟨hpublic, ⟨hempty, rfl⟩ | ⟨-, snapshotId, id, hsteps⟩⟩ := h
  · exact writesRows_of_none hpublic (Tables.entries_isEmpty_iff.mp hempty)
  · exact hsteps.writesRows hpublic

def applyOp (s : Store) (op : Op) : Store :=
  s.set op.table op.key op.value

theorem get_foldl_applyOp (ops : List Op) (s : Store) (t : String) (k : Bytes) :
    (ops.foldl applyOp s).get t k = ((opsToWriteSet ops).get t k).getD (s.get t k) := by
  induction ops using List.reverseRecOn with
  | nil => simp [opsToWriteSet]
  | append_singleton ops op ih =>
    rw [List.foldl_append, List.foldl_cons, List.foldl_nil, applyOp, Tables.get_set,
      opsToWriteSet_append_singleton, ih]
    split <;> rfl

theorem WritesRows.get_foldl (h : WritesRows C s (opsToWriteSet ops) s') (t : String)
    (k : Bytes) (ht : tableIsReserved t = false) : s'.get t k = (ops.foldl applyOp s).get t k := by
  rw [get_foldl_applyOp, h.row t k ht]

theorem public_ops_of_writeSet (h : PublicWrites (opsToWriteSet ops)) :
    ∀ op ∈ ops, tableIsReserved op.table = false := by
  intro op hop
  obtain ⟨v, hv⟩ := exists_get_of_op hop
  exact h _ _ v hv

end MultiDb
