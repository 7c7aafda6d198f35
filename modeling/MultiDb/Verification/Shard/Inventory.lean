import MultiDb.Model.RouterRuns
import MultiDb.Verification.DistTxn.RangeLocks
import MultiDb.Verification.History.Prune
import MultiDb.Verification.Shard.ClusterInvariant

/-!
# Inventories and lock checks

A commit registers the tables it writes; a prepare does not register those of its rows.
-/

namespace MultiDb

open Shared

variable {C : Codecs} {s s' : Store} {t : String}

/-- The table is in the registry of keyspaces. -/
def Registered (s : Store) (t : String) : Prop :=
  s.get keyspaceRegistryTable (strBytes t) ≠ none

/-- Every table with rows is registered. -/
def Inventoried (s : Store) : Prop :=
  ∀ t k, tableIsReserved t = false → s.get t k ≠ none → Registered s t

/-- The step is one commit, or nothing. -/
def Commits (C : Codecs) (s s' : Store) : Prop :=
  s' = s ∨ ∃ writes id, CommitEffect C s writes id s'

/-- A commit registers the tables it writes. -/
theorem Commits.inventoried (h : Commits C s s') (hinv : Inventoried s) : Inventoried s' := by
  intro t k ht hrow
  rcases h with rfl | ⟨writes, id, heffect⟩
  · exact hinv t k ht hrow
  · rw [heffect.row t k (not_bookkeeping_of_public ht k)] at hrow
    cases hget : writes.get t k with
    | some v => simp [Registered, heffect.registered t k v hget]
    | none =>
      rw [hget] at hrow
      exact heffect.registry_kept _ (hinv t k ht hrow)

theorem CommitStep.commits {Allowed : WriteSet → Prop} (h : CommitStep C Allowed s s') :
    Commits C s s' := by
  cases h with
  | same => exact Or.inl rfl
  | commit hwrites hfree heffect => exact Or.inr ⟨_, _, heffect⟩

theorem PrepareStep.commits {record : PreparedTxnRecord} (h : PrepareStep C s record s') :
    Commits C s s' := by
  obtain ⟨-, bytes, writes, id, -, heffect⟩ := h
  exact Or.inr ⟨writes, id, heffect⟩

theorem FinishStep.commits {prepared : Option PreparedTxnRecord} {record : FinishedTxnRecord}
    (h : FinishStep C s prepared record s') : Commits C s s' := by
  obtain ⟨bytes, writes, id, -, heffect⟩ := h
  exact Or.inr ⟨writes, id, heffect⟩

private theorem keyspaceName_strBytes (C : Codecs) {key : Bytes} {name : String} :
    SingleNode.keyspaceName C key = .ok name ↔ key = strBytes name := by
  rw [SingleNode.keyspaceName]
  constructor
  · intro h
    split at h
    · next name' hname =>
        cases h
        exact (strBytes_of_fromUTF8 hname).symm
    · contradiction
  · rintro rfl
    rw [fromUTF8_strBytes]

theorem mem_registeredKeyspaces {names : List String}
    (h : SingleNode.registeredKeyspaces C s = .ok names) :
    t ∈ names ↔ Registered s t ∧ tableIsReserved t = false := by
  simp only [SingleNode.registeredKeyspaces, SingleNode.range, bind_eq_ok_iff, pure_eq_ok_iff,
    mapError_eq_ok_iff] at h
  obtain ⟨rows, ⟨_, -, rfl⟩, found, hfound, rfl⟩ := h
  rw [List.mem_filter, mem_of_mapM_eq_ok hfound, Bool.not_eq_true']
  refine and_congr_left fun _ => ?_
  constructor
  · rintro ⟨⟨key, value⟩, hrow, hname⟩
    rw [keyspaceName_strBytes] at hname
    simp only at hname
    rw [Registered, ← hname, (mem_range.mp hrow).1]
    simp
  · intro hregistered
    obtain ⟨value, hvalue⟩ := Option.ne_none_iff_exists'.mp hregistered
    exact ⟨(strBytes t, value), mem_range.mpr ⟨hvalue, keyInRange_nil_nil _⟩,
      (keyspaceName_strBytes C).mpr rfl⟩

theorem LockInv.unlocked (h : LockInv C s) (hnone : ∀ record, ¬ Prepared C s record)
    (lock : Bytes) : s.get locksTable lock = none := by
  by_contra hlocked
  obtain ⟨owner, howner⟩ := Option.ne_none_iff_exists'.mp hlocked
  obtain ⟨record, hrecord, -⟩ := (h.lock lock owner).mp howner
  exact hnone record hrecord

theorem LockInv.read_eq (h : LockInv C s) {k lock : Bytes} (hlock : versionKey t k = .ok lock)
    (hfree : s.get locksTable lock = none) : SingleNode.read s t k = .ok (s.get t k) := by
  have hvalid : validateReadKey s t k = .ok () := by
    rw [validateReadKey]
    split
    · rfl
    · simp [h.rejectLegacyPrepares_eq, hlock, hfree, bind, Except.bind, pure, Except.pure]
  rw [SingleNode.read, hvalid]
  rfl

theorem LockInv.range_eq (h : LockInv C s) {k lock : Bytes} (hlock : versionKey t k = .ok lock)
    (hfree : ∀ lock, s.get locksTable lock = none) (start stop : Bytes) :
    SingleNode.range s t start stop = .ok (range s t start stop) := by
  refine singleNode_range_eq_ok_iff.mpr ⟨?_, rfl⟩
  by_cases ht : tableIsReserved t = true
  · rw [hasRangeLocks, if_pos ht]
    rfl
  · rw [Bool.not_eq_true] at ht
    refine (hasRangeLocks_eq_false_iff ht).mpr
      ⟨h.rejectLegacyPrepares_eq, (versionKey_eq_ok_iff.mp hlock).1, ?_⟩
    exact Tables.scan_eq_nil_iff.mpr fun lock _ => hfree lock

end MultiDb
