import MultiDb.Model.BatchCache
import MultiDb.Verification.DistTxn.RangeLocks
import MultiDb.Verification.DistTxn.Writers
import MultiDb.Verification.History.Prune
import MultiDb.Verification.Txn.Invariant

/-!
# Data-version tokens

Between two stores of a run the token of a table grows, or its rows are the same.
-/

namespace MultiDb

open Shared

variable {C : Codecs} {s s' p q : Store} {t : String} {v : TxnId}

/-- The token row of a table; a table without one has token zero. -/
def storedDataVersion (s : Store) (t : String) : Result TxnId :=
  match s.get tableDataVersionTable (strBytes t) with
  | none => .ok 0
  | some bytes => decodeTxnId bytes

theorem readTableDataVersionFrom_eq_some_iff :
    readTableDataVersionFrom s t = .ok (some v) ↔
      tableIsReserved t = false ∧ hasRangeLocks s t [] [] = .ok false ∧
        storedDataVersion s t = .ok v := by
  rw [readTableDataVersionFrom]
  cases ht : tableIsReserved t with
  | true => simp [pure_eq_ok_iff]
  | false =>
    simp only [Bool.false_eq_true, if_false, bind_eq_ok_iff, true_and]
    constructor
    · rintro ⟨locked, hlocked, h⟩
      cases locked with
      | true => simp [pure_eq_ok_iff] at h
      | false =>
        refine ⟨hlocked, ?_⟩
        rw [storedDataVersion]
        cases hget : s.get tableDataVersionTable (strBytes t) with
        | none => simpa [hget, pure_eq_ok_iff] using h
        | some bytes => simpa [hget, map_eq_ok_iff] using h
    · rintro ⟨hlocked, h⟩
      refine ⟨false, hlocked, ?_⟩
      rw [storedDataVersion] at h
      cases hget : s.get tableDataVersionTable (strBytes t) with
      | none => simpa [hget, pure_eq_ok_iff] using h
      | some bytes => simpa [hget, map_eq_ok_iff] using h

theorem range_of_dataVersion (h : readTableDataVersionFrom s t = .ok (some v))
    (start stop : Bytes) : SingleNode.range s t start stop = .ok (range s t start stop) := by
  obtain ⟨ht, hlocks, -⟩ := readTableDataVersionFrom_eq_some_iff.mp h
  exact range_of_unlocked ht hlocks start stop

/-- No table's data version is past the last commit. -/
def VersionInv (s : Store) : Prop :=
  ∃ current, currentTxnIdFrom s = .ok current ∧ ∀ t, tableIsReserved t = false →
    ∃ v, storedDataVersion s t = .ok v ∧ v.toNat ≤ current.toNat

theorem versionInv_empty : VersionInv .empty :=
  ⟨0, rfl, fun _ _ => ⟨0, rfl, Nat.le_refl _⟩⟩

/-- From `p` to `s` the token of the table grew, or its rows are the same. -/
def Precedes (t : String) (p s : Store) : Prop :=
  ∃ v w, storedDataVersion p t = .ok v ∧ storedDataVersion s t = .ok w ∧ v.toNat ≤ w.toNat ∧
    (v = w → ∀ k, p.get t k = s.get t k)

theorem VersionInv.precedes_self (hinv : VersionInv s) (ht : tableIsReserved t = false) :
    Precedes t s s := by
  obtain ⟨current, -, htokens⟩ := hinv
  obtain ⟨v, hv, -⟩ := htokens t ht
  exact ⟨v, v, hv, hv, Nat.le_refl _, fun _ _ => rfl⟩

theorem Precedes.trans (h : Precedes t p q) (h' : Precedes t q s) : Precedes t p s := by
  obtain ⟨v, w, hv, hw, hle, hrows⟩ := h
  obtain ⟨w', x, hw', hx, hle', hrows'⟩ := h'
  cases hw.symm.trans hw'
  refine ⟨v, x, hv, hx, Nat.le_trans hle hle', fun hvx k => ?_⟩
  have hvw : v = w := UInt64.toNat_inj.mp (by rw [hvx] at hle ⊢; omega)
  rw [hrows hvw, hrows' (hvw.symm.trans hvx)]

theorem Precedes.rows_eq (h : Precedes t p s) (hp : storedDataVersion p t = .ok v)
    (hs : storedDataVersion s t = .ok v) (k : Bytes) : p.get t k = s.get t k := by
  obtain ⟨v', w, hv', hw, -, hrows⟩ := h
  cases hv'.symm.trans hp
  cases hw.symm.trans hs
  exact hrows rfl k

section Commit

variable {writes : WriteSet} {id : TxnId}

theorem CommitEffect.dataVersion (h : CommitEffect C s writes id s')
    (ht : tableIsReserved t = false) :
    storedDataVersion s' t = .ok id ∨
      storedDataVersion s' t = storedDataVersion s t ∧ ∀ k, s'.get t k = s.get t k := by
  by_cases hwritten : ∃ k v, writes.get t k = some v
  · obtain ⟨k, v, hget⟩ := hwritten
    left
    rw [storedDataVersion, h.token_written t k v hget ht]
    exact decodeTxnId_encodeTxnId id
  · right
    have hnone : ∀ k, writes.get t k = none := by
      intro k
      by_contra hne
      obtain ⟨v, hv⟩ := Option.ne_none_iff_exists'.mp hne
      exact hwritten ⟨k, v, hv⟩
    refine ⟨?_, fun k => ?_⟩
    · rw [storedDataVersion, h.token_kept t hnone, storedDataVersion]
    · rw [h.row t k (not_bookkeeping_of_public ht k), hnone]
      rfl

/-- A commit raises the versions of the tables it writes. -/
theorem VersionInv.commit (hinv : VersionInv s) (h : CommitEffect C s writes id s') :
    VersionInv s' ∧ ∀ t, tableIsReserved t = false → Precedes t s s' := by
  obtain ⟨current, hcurrent, htokens⟩ := hinv
  obtain ⟨current', hcurrent', hid⟩ := h.next
  cases hcurrent.symm.trans hcurrent'
  constructor
  · refine ⟨id, currentTxnIdFrom_of_get h.current, fun t ht => ?_⟩
    obtain ⟨v, hv, hle⟩ := htokens t ht
    rcases h.dataVersion ht with hnew | ⟨hkept, -⟩
    · exact ⟨id, hnew, Nat.le_refl _⟩
    · exact ⟨v, hkept.trans hv, by omega⟩
  · intro t ht
    obtain ⟨v, hv, hle⟩ := htokens t ht
    rcases h.dataVersion ht with hnew | ⟨hkept, hrows⟩
    · refine ⟨v, id, hv, hnew, by omega, fun heq => ?_⟩
      rw [heq] at hle
      omega
    · exact ⟨v, v, hv, hkept.trans hv, Nat.le_refl _, fun _ k => (hrows k).symm⟩

end Commit

theorem VersionInv.step (hinv : VersionInv s) (call : Env × WriterCall) :
    VersionInv (WriterCall.step C s call) ∧ ∀ t, tableIsReserved t = false →
      Precedes t s (WriterCall.step C s call) := by
  rcases WriterCall.writerStep C s call with heq | ⟨writes, id, -, heffect⟩
  · rw [heq]
    exact ⟨hinv, fun t ht => hinv.precedes_self ht⟩
  · exact hinv.commit heffect

end MultiDb
