import Mathlib.Data.List.Induction
import MultiDb.Verification.History.Versions
import MultiDb.Verification.Txn.KeyRanges

/-!
# Pruning the versions of a row

`pruneKeyVersions` keeps the newest of the versions of a row up to a commit.
-/

namespace MultiDb

open Shared

variable {C : Codecs}

theorem mem_versionRows_upTo {s : Store} {t : String} {k vk stop value : Bytes} {newest v : TxnId}
    (hvk : versionKey t k = .ok vk) (hstop : versionsEnd t k vk newest = .ok stop) :
    (vk ++ be64 v, value) ∈ versionRows s vk (vk ++ be64 0) stop ↔
      s.get txnMvccTable (vk ++ be64 v) = some value ∧ v ≤ newest := by
  have hstart : (compare (vk ++ be64 0) (vk ++ be64 v)).isLE = true := by
    rw [compare_append_left, compare_be64, Std.isLE_compare]
    exact UInt64.zero_le
  have hrange : keyInRange (vk ++ be64 0) stop (vk ++ be64 v) = true ↔ v ≤ newest := by
    cases hnext : checkedSucc newest with
    | none =>
      simp only [versionsEnd, hnext, Except.ok.injEq] at hstop
      have hmax : v ≤ newest := by
        have hv := v.toNat_lt
        rw [checkedSucc] at hnext
        split at hnext
        · contradiction
        · rw [UInt64.le_iff_toNat_le]
          omega
      simp only [← hstop, keyInRange_rangeEnd hstart, hmax]
    | some next =>
      simp only [versionsEnd, hnext, exists_mvccKey hvk, Except.ok.injEq] at hstop
      have hsucc := checkedSucc_eq_some_iff.mp hnext
      have hnonempty : stop.isEmpty = false := by
        rw [← hstop, List.isEmpty_eq_false_iff]
        exact List.append_ne_nil_of_right_ne_nil _
          (List.ne_nil_of_length_eq_add_one (length_be64 _))
      rw [keyInRange, hstart, hnonempty, Bool.true_and, Bool.false_or, ← hstop,
        compare_append_left, compare_be64, Ordering.isLT_iff_eq_lt, Std.compare_eq_lt,
        UInt64.lt_iff_toNat_lt, UInt64.le_iff_toNat_le]
      omega
  rw [mem_versionRows, ← hrange]
  constructor
  · rintro ⟨_, -, hget, hin⟩
    exact ⟨hget, hin⟩
  · rintro ⟨hget, hin⟩
    exact ⟨v, rfl, hget, hin⟩

theorem splitVersions_eq_ok {vk : Bytes} {rows : List (Bytes × Bytes)} {older : List Bytes}
    {kept : Option (TxnId × Bytes × Bytes)} (h : splitVersions vk rows = .ok (older, kept)) :
    (rows = [] ∧ older = [] ∧ kept = none) ∨ ∃ init v row value, rows = init ++ [(row, value)] ∧
      older = init.map Prod.fst ∧ kept = some (v, row, value) ∧
      decodeTxnId (row.drop vk.length) = .ok v := by
  induction rows using List.reverseRecOn generalizing older kept with
  | nil =>
    obtain ⟨rfl, rfl⟩ : [] = older ∧ none = kept := by
      simpa [splitVersions, pure, Except.pure] using h
    exact Or.inl ⟨rfl, rfl, rfl⟩
  | append_singleton init last ih =>
    obtain ⟨row, value⟩ := last
    rw [splitVersions, List.foldlM_append, bind_eq_ok_iff] at h
    obtain ⟨⟨older₀, kept₀⟩, hinit, hlast⟩ := h
    simp only [List.foldlM_cons, List.foldlM_nil, bind_eq_ok_iff, pure_eq_ok_iff] at hlast
    obtain ⟨_, ⟨v, hv, rfl⟩, heq⟩ := hlast
    cases heq
    refine Or.inr ⟨init, v, row, value, rfl, ?_, rfl, hv⟩
    rcases ih hinit with ⟨rfl, rfl, rfl⟩ | ⟨init', v', row', value', rfl, rfl, rfl, -⟩
    · rfl
    · simp

/-- Version `v` of a row is deleted when its versions are pruned up to `newest`. -/
def Prunes (C : Codecs) (s : Store) (t : String) (k vk : Bytes) (newest v : TxnId) : Prop :=
  ∃ value, s.get txnMvccTable (vk ++ be64 newest) = some value ∧
    s.get txnMvccTable (vk ++ be64 v) ≠ none ∧
    (v < newest ∨ v = newest ∧ decodeMvccRecord C value = .ok { value := none } ∧
      lastKeyVersion s t k = .ok newest ∧ s.get t k = none)

/-- The writer `write'` lacks exactly the version rows in `D`. -/
structure DeletesVersions (vk : Bytes) (D : TxnId → Prop) (write write' : Store) : Prop where
  deleted : ∀ v, D v → write'.get txnMvccTable (vk ++ be64 v) = none
  kept : ∀ t k, (t = txnMvccTable → ∀ v, D v → k ≠ vk ++ be64 v) → write'.get t k = write.get t k

theorem DeletesVersions.refl {vk : Bytes} {D : TxnId → Prop} (hD : ∀ v, ¬ D v) (write : Store) :
    DeletesVersions vk D write write :=
  ⟨fun v hv => absurd hv (hD v), fun _ _ _ => rfl⟩

theorem deletesVersions_foldl {vk : Bytes} {D : TxnId → Prop} {rows : List Bytes}
    (hrows : ∀ row, row ∈ rows ↔ ∃ v, D v ∧ row = vk ++ be64 v) (write : Store) :
    DeletesVersions vk D write
      (rows.foldl (fun write row => write.delete txnMvccTable row) write) := by
  constructor
  · intro v hv
    exact (Tables.get_foldl_delete id _ _ rows write).1 ⟨_, (hrows _).mpr ⟨v, hv, rfl⟩, rfl⟩
  · intro t k hkept
    by_cases ht : txnMvccTable = t
    · subst ht
      refine (Tables.get_foldl_delete id _ k rows write).2 ?_
      rintro row hrow rfl
      obtain ⟨v, hv, hrow⟩ := (hrows row).mp hrow
      exact hkept rfl v hv hrow
    · exact Tables.get_foldl_delete_of_ne id ht k rows write

theorem DeletesVersions.delete {vk : Bytes} {D D' : TxnId → Prop} {write write' : Store}
    {v : TxnId} (h : DeletesVersions vk D write write') (hD : ∀ w, D' w ↔ D w ∨ w = v) :
    DeletesVersions vk D' write (write'.delete txnMvccTable (vk ++ be64 v)) := by
  constructor
  · intro w hw
    rw [Tables.get_delete]
    split
    · rfl
    · rename_i hne
      rcases (hD w).mp hw with hw | rfl
      · exact h.deleted w hw
      · exact absurd ⟨rfl, rfl⟩ hne
  · intro t k hkept
    rw [Tables.get_delete, if_neg, h.kept t k]
    · exact fun ht w hw => hkept ht w ((hD w).mpr (Or.inl hw))
    · rintro ⟨rfl, rfl⟩
      exact hkept rfl v ((hD v).mpr (Or.inr rfl)) rfl

theorem isDeadTombstone_eq_ok_iff {s : Store} {t : String} {k value : Bytes}
    {version : TxnId} {dead : Bool} (h : isDeadTombstone C s t k version value = .ok dead) :
    dead = true ↔ decodeMvccRecord C value = .ok { value := none } ∧
      lastKeyVersion s t k = .ok version ∧ s.get t k = none := by
  simp only [isDeadTombstone, bind_eq_ok_iff] at h
  obtain ⟨record, hrecord, h⟩ := h
  split at h
  · rename_i hnone
    simp only [bind_eq_ok_iff, pure_eq_ok_iff] at h
    obtain ⟨last, hlast, rfl⟩ := h
    obtain ⟨rfl⟩ : record = { value := none } := by
      cases record
      simpa using hnone
    simp [hrecord, hlast]
  · rename_i hsome
    obtain rfl := pure_eq_ok_iff.mp h
    simp only [hrecord, Bool.false_eq_true, Except.ok.injEq, false_iff, not_and]
    rintro rfl
    simp at hsome

/-- A version is pruned when it is older than `newest`, or `newest` as a dead tombstone. -/
theorem prunes_iff {s : Store} {t : String} {k vk value : Bytes} {newest v : TxnId} {dead : Bool}
    (hget : s.get txnMvccTable (vk ++ be64 newest) = some value)
    (hdead : isDeadTombstone C s t k newest value = .ok dead) :
    Prunes C s t k vk newest v ↔
      (v < newest ∧ s.get txnMvccTable (vk ++ be64 v) ≠ none) ∨ (v = newest ∧ dead = true) := by
  rw [isDeadTombstone_eq_ok_iff hdead]
  constructor
  · rintro ⟨value', hget', hpresent, hcase⟩
    obtain rfl : value' = value := Option.some.inj (hget'.symm.trans hget)
    exact hcase.imp_left fun hlt => ⟨hlt, hpresent⟩
  · rintro (⟨hlt, hpresent⟩ | ⟨rfl, htomb⟩)
    · exact ⟨value, hget, hpresent, Or.inl hlt⟩
    · exact ⟨value, hget, by simp [hget], Or.inr ⟨rfl, htomb⟩⟩

section Split

variable {s : Store} {t : String} {k vk stop row value : Bytes} {newest v : TxnId}
  {init : List (Bytes × Bytes)}

private theorem last_row (hrows : versionRows s vk (vk ++ be64 0) stop = init ++ [(row, value)])
    (hv : decodeTxnId (row.drop vk.length) = .ok v) :
    row = vk ++ be64 v ∧ s.get txnMvccTable (vk ++ be64 v) = some value := by
  have hmem : (row, value) ∈ versionRows s vk (vk ++ be64 0) stop := by simp [hrows]
  obtain ⟨w, rfl, hget, -⟩ := mem_versionRows.mp hmem
  obtain rfl : w = v := by simpa [decodeTxnId] using hv
  exact ⟨rfl, hget⟩

private theorem mem_older (hvk : versionKey t k = .ok vk)
    (hstop : versionsEnd t k vk newest = .ok stop)
    (hrows : versionRows s vk (vk ++ be64 0) stop = init ++ [(vk ++ be64 newest, value)])
    (row' : Bytes) :
    row' ∈ init.map Prod.fst ↔ ∃ w, (w < newest ∧ s.get txnMvccTable (vk ++ be64 w) ≠ none) ∧
      row' = vk ++ be64 w := by
  have hsorted := versionRows_sorted s vk (vk ++ be64 0) stop
  rw [hrows] at hsorted
  constructor
  · intro hmem
    obtain ⟨⟨_, value'⟩, hinit, rfl⟩ := List.mem_map.mp hmem
    have hmem' := List.mem_append_left [(vk ++ be64 newest, value)] hinit
    rw [← hrows] at hmem'
    obtain ⟨w, rfl, hget, -⟩ := mem_versionRows.mp hmem'
    have hlt := (List.pairwise_append.mp hsorted).2.2 _ hinit _ (List.mem_singleton_self _)
    rw [compare_append_left, compare_be64, Std.compare_eq_lt] at hlt
    exact ⟨w, ⟨hlt, by simp [hget]⟩, rfl⟩
  · rintro ⟨w, ⟨hlt, hpresent⟩, rfl⟩
    obtain ⟨value', hget⟩ := Option.ne_none_iff_exists'.mp hpresent
    have hmem : (vk ++ be64 w, value') ∈ init ++ [(vk ++ be64 newest, value)] :=
      hrows ▸ (mem_versionRows_upTo hvk hstop).mpr ⟨hget, hlt.le⟩
    rcases List.mem_append.mp hmem with hinit | hlast
    · exact List.mem_map_of_mem hinit
    · have heq := (Prod.mk.inj (List.mem_singleton.mp hlast)).1
      exact absurd (be64_inj.mp (List.append_cancel_left heq)) hlt.ne

end Split

/-- What pruning one row deletes. -/
theorem pruneKeyVersions_spec {read write write' : Store} {t : String} {k : Bytes} {newest : TxnId}
    {n : UInt64} (h : pruneKeyVersions C read write t k newest = .ok (n, write')) :
    ∃ vk, versionKey t k = .ok vk ∧
      DeletesVersions vk (Prunes C read t k vk newest) write write' := by
  simp only [pruneKeyVersions, bind_eq_ok_iff] at h
  obtain ⟨vk, hvk, start, hstart, stop, hstop, ⟨older, kept⟩, hsplit, h⟩ := h
  obtain rfl : vk ++ be64 0 = start := by simpa [exists_mvccKey hvk] using hstart
  refine ⟨vk, hvk, ?_⟩
  -- without a row for `newest` nothing is pruned
  have hnone : (∀ value, (vk ++ be64 newest, value) ∉ versionRows read vk (vk ++ be64 0) stop) →
      ∀ v, ¬ Prunes C read t k vk newest v := by
    rintro hmissing v ⟨value, hget, -⟩
    exact hmissing value ((mem_versionRows_upTo hvk hstop).mpr ⟨hget, le_rfl⟩)
  rcases splitVersions_eq_ok hsplit with
    ⟨hrows, rfl, rfl⟩ | ⟨init, v, row, value, hrows, rfl, rfl, hv⟩
  · cases h
    exact .refl (hnone (by simp [hrows])) write
  · obtain ⟨rfl, hget⟩ := last_row hrows hv
    have hlast : (versionRows read vk (vk ++ be64 0) stop).getLast? =
        some (vk ++ be64 v, value) := by simp [hrows]
    by_cases hnewest : v = newest
    · subst hnewest
      simp only [ne_eq, not_true_eq_false, if_false, bind_eq_ok_iff] at h
      obtain ⟨dead, hdead, h⟩ := h
      have hrest := deletesVersions_foldl (mem_older hvk hstop hrows) write
      cases dead with
      | true =>
        cases h
        exact hrest.delete fun w => by simp [prunes_iff hget hdead]
      | false =>
        cases h
        convert hrest using 2 with w
        simp [prunes_iff hget hdead]
    · simp only [ne_eq, hnewest, not_false_eq_true, if_true] at h
      cases h
      refine .refl (hnone fun value' hmem => hnewest ?_) write
      have hle := ((mem_versionRows_upTo hvk hstop).mp (hrows ▸ List.mem_append_right init
        (List.mem_singleton_self _) : (vk ++ be64 v, value) ∈ _)).2
      exact le_antisymm hle (le_of_getLast?_versionRows (versionRows_sorted _ _ _ _) hlast hmem)

end MultiDb
