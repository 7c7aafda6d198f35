import MultiDb.Model.History
import MultiDb.Shared.VersionChain
import MultiDb.Verification.Txn.Equations

/-!
# The version chain of a row

`asOf` reads the newest version at or below an id, the view of the row's version chain.
-/

namespace MultiDb

open Shared
variable {row vk value : Bytes} {s : Store}

theorem versionRow_iff :
    row.length = vk.length + 8 ∧ vk <+: row ↔ ∃ v, row = vk ++ be64 v := by
  constructor
  · rintro ⟨hlen, rest, rfl⟩
    obtain ⟨v, rfl⟩ := exists_be64_of_length (show rest.length = 8 by simpa using hlen)
    exact ⟨v, rfl⟩
  · rintro ⟨v, rfl⟩
    simp

theorem mem_versionRows {start stop : Bytes} :
    (row, value) ∈ versionRows s vk start stop ↔ ∃ v, row = vk ++ be64 v ∧
      s.get txnMvccTable row = some value ∧ keyInRange start stop row = true := by
  rw [versionRows, List.mem_filter, mem_range]
  simp only [Bool.and_eq_true, decide_eq_true_eq, List.isPrefixOf_iff_prefix, versionRow_iff]
  constructor
  · rintro ⟨⟨hget, hrange⟩, v, rfl⟩
    exact ⟨v, rfl, hget, hrange⟩
  · rintro ⟨v, rfl, hget, hrange⟩
    exact ⟨⟨hget, hrange⟩, v, rfl⟩

theorem versionRows_sorted (s : Store) (vk start stop : Bytes) :
    (versionRows s vk start stop).Pairwise fun a b => compare a.1 b.1 = .lt :=
  (s.scan_sorted txnMvccTable (keyInRange start stop)).filter _

theorem le_of_getLast?_versionRows {rows : List (Bytes × Bytes)}
    (hsorted : rows.Pairwise fun a b => compare a.1 b.1 = .lt) {value' : Bytes}
    {v w : TxnId} (hlast : rows.getLast? = some (vk ++ be64 v, value))
    (hmem : (vk ++ be64 w, value') ∈ rows) : w ≤ v := by
  obtain ⟨init, rfl⟩ := List.getLast?_eq_some_iff.mp hlast
  rcases List.mem_append.mp hmem with hinit | hsingle
  · have hlt := (List.pairwise_append.mp hsorted).2.2 _ hinit _ (List.mem_singleton_self _)
    rw [compare_append_left, compare_be64, Std.compare_eq_lt] at hlt
    exact hlt.le
  · have heq := (Prod.mk.inj (List.mem_singleton.mp hsingle)).1
    exact (be64_inj.mp (List.append_cancel_left heq)).le

/-- The version chain of the row filed under `vk`, with each version decoded. -/
def chainOf (C : Codecs) (s : Store) (vk : Bytes) (v : TxnId) : Option (Result (Option Bytes)) :=
  (s.get txnMvccTable (vk ++ be64 v)).map fun bytes => MvccRecord.value <$> decodeMvccRecord C bytes

/-- The versions of a row at or below `lsn`. -/
def visibleVersions (s : Store) (vk : Bytes) (lsn : TxnId) : List (Bytes × Bytes) :=
  (versionRows s vk [] []).filter fun row => (ofBe64? (row.1.drop vk.length)).any (· ≤ lsn)

/-- The newest version at or below `lsn`, absent when there is none or a tombstone. -/
def asOf (C : Codecs) (s : Store) (vk : Bytes) (lsn : TxnId) : Result (Option Bytes) :=
  match (visibleVersions s vk lsn).getLast? with
  | none => .ok none
  | some row => MvccRecord.value <$> decodeMvccRecord C row.2

theorem mem_visibleVersions {lsn : TxnId} :
    (row, value) ∈ visibleVersions s vk lsn ↔
      ∃ v ≤ lsn, row = vk ++ be64 v ∧ s.get txnMvccTable row = some value := by
  rw [visibleVersions, List.mem_filter, mem_versionRows]
  constructor
  · rintro ⟨⟨v, rfl, hget, -⟩, hle⟩
    exact ⟨v, by simpa using hle, rfl, hget⟩
  · rintro ⟨v, hle, rfl, hget⟩
    exact ⟨⟨v, rfl, hget, by simp⟩, by simpa using hle⟩

/-- Reading as of `lsn` sees the newest version at or below it. -/
theorem sees_asOf (C : Codecs) (s : Store) (vk : Bytes) (lsn : TxnId) :
    Sees (.ok none) (chainOf C s vk) lsn (asOf C s vk lsn) := by
  have hchain : ∀ w ≤ lsn, chainOf C s vk w ≠ none →
      ∃ value, (vk ++ be64 w, value) ∈ visibleVersions s vk lsn := by
    intro w hw hpresent
    obtain ⟨value, hvalue⟩ : ∃ value, s.get txnMvccTable (vk ++ be64 w) = some value := by
      simpa [chainOf, Option.ne_none_iff_exists'] using hpresent
    exact ⟨value, mem_visibleVersions.mpr ⟨w, hw, rfl, hvalue⟩⟩
  rw [asOf]
  cases hlast : (visibleVersions s vk lsn).getLast? with
  | none =>
    refine Or.inr ⟨rfl, fun w hw => ?_⟩
    by_contra hpresent
    obtain ⟨value, hmem⟩ := hchain w hw hpresent
    rw [List.getLast?_eq_none_iff.mp hlast] at hmem
    contradiction
  | some row =>
    obtain ⟨row, value⟩ := row
    obtain ⟨v, hv, rfl, hget⟩ := mem_visibleVersions.mp (List.mem_of_getLast? hlast)
    refine Or.inl ⟨v, ⟨hv, by simp [chainOf, hget], fun w hw hpresent => ?_⟩, by
      simp [chainOf, hget]⟩
    obtain ⟨value', hmem⟩ := hchain w hw hpresent
    exact le_of_getLast?_versionRows ((versionRows_sorted s vk [] []).filter _) hlast hmem

theorem asOf_eq_of_sees {C : Codecs} {lsn : TxnId}
    {x : Result (Option Bytes)} (h : Sees (.ok none) (chainOf C s vk) lsn x) :
    asOf C s vk lsn = x :=
  (sees_asOf C s vk lsn).unique h

end MultiDb
