import MultiDb.Verification.Txn.Invariant

/-!
# Snapshot isolation over whole runs

Runs of the public commit functions from an empty store.
-/

namespace MultiDb

open Shared History

variable {h : History}

/-- The public calls that commit. -/
inductive TxnCall
  | commitWriteSet (snapshotId : TxnId) (writes : WriteSet)
  | commitWriteSetAtCurrent (writes : WriteSet)
  | commitOpsAtCurrent (ops : List Op)

namespace TxnCall

def writes : TxnCall → WriteSet
  | commitWriteSet _ writes => writes
  | commitWriteSetAtCurrent writes => writes
  | commitOpsAtCurrent ops => opsToWriteSet ops

/-- The snapshot a call commits against. -/
def snapshot (s : Store) : TxnCall → Result TxnId
  | commitWriteSet snapshotId _ => .ok snapshotId
  | commitWriteSetAtCurrent _ => currentTxnIdFrom s
  | commitOpsAtCurrent _ => currentTxnIdFrom s

def exec (C : Codecs) (env : Env) (s : Store) : TxnCall → Result (TxnId × Store)
  | commitWriteSet snapshotId writes => MultiDb.commitWriteSet C env s snapshotId writes
  | commitWriteSetAtCurrent writes => MultiDb.commitWriteSetAtCurrent C env s writes
  | commitOpsAtCurrent ops => MultiDb.commitOpsAtCurrent C env s ops

end TxnCall

structure TxnRun where
  store : Store
  history : History

/-- A failed call changes nothing, and a commit is entered in the history. -/
def TxnRun.step (C : Codecs) (r : TxnRun) (call : Env × TxnCall) : TxnRun :=
  match call.2.exec C call.1 r.store with
  | .error _ => r
  | .ok (id, s) =>
    if call.2.writes.entries.isEmpty then { r with store := s }
    else { store := s, history := ⟨id, call.2.writes⟩ :: r.history }

/-- The store and the history after a list of calls. -/
def runTxns (C : Codecs) (calls : List (Env × TxnCall)) : TxnRun :=
  calls.foldl (TxnRun.step C) { store := .empty, history := [] }

section Call

variable {C : Codecs} {env : Env} {s s' : Store} {id : TxnId} {call : TxnCall}

/-- A successful call did nothing, or one commit of a public write set at its snapshot. -/
theorem TxnCall.exec_cases (h : call.exec C env s = .ok (id, s')) :
    (call.writes.entries.isEmpty = true ∧ s' = s) ∨
    (call.writes.entries.isEmpty = false ∧ PublicWrites call.writes ∧
      ∃ snapshotId, call.snapshot s = .ok snapshotId ∧
        CommitSteps C env s snapshotId call.writes id s') := by
  cases call with
  | commitWriteSet snapshotId writes =>
    simp only [exec, MultiDb.commitWriteSet, bind_eq_ok_iff] at h
    obtain ⟨_, hpublic, h⟩ := h
    rcases commitWriteSetAuthorized_cases h with hnone | ⟨hsome, hsteps⟩
    · exact Or.inl hnone
    · exact Or.inr ⟨hsome, validatePublicWriteSet_eq_ok_iff.mp hpublic, snapshotId, rfl, hsteps⟩
  | commitWriteSetAtCurrent writes =>
    simp only [exec, MultiDb.commitWriteSetAtCurrent, bind_eq_ok_iff] at h
    obtain ⟨_, hpublic, h⟩ := h
    rcases commitWriteSetAtCurrentAuthorized_cases h with hnone | ⟨hsome, hsteps⟩
    · exact Or.inl hnone
    · exact Or.inr ⟨hsome, validatePublicWriteSet_eq_ok_iff.mp hpublic, hsteps⟩
  | commitOpsAtCurrent ops =>
    simp only [exec, MultiDb.commitOpsAtCurrent, MultiDb.commitWriteSetAtCurrent,
      bind_eq_ok_iff] at h
    obtain ⟨_, -, _, hpublic, h⟩ := h
    rcases commitWriteSetAtCurrentAuthorized_cases h with hnone | ⟨hsome, hsteps⟩
    · exact Or.inl hnone
    · exact Or.inr ⟨hsome, validatePublicWriteSet_eq_ok_iff.mp hpublic, hsteps⟩

theorem TxnRun.step_inv {r : TxnRun} (hinv : TxnInv C r.store r.history)
    (call : Env × TxnCall) : TxnInv C (r.step C call).store (r.step C call).history := by
  rw [TxnRun.step]
  cases hexec : call.2.exec C call.1 r.store with
  | error e => exact hinv
  | ok result =>
    obtain ⟨id, s'⟩ := result
    rcases TxnCall.exec_cases hexec with ⟨hempty, rfl⟩ | ⟨hsome, hpublic, snapshotId, -, hsteps⟩
    · simpa [hempty] using hinv
    · simp only [hsome, Bool.false_eq_true, if_false]
      exact hinv.commit hpublic.clean hsteps.next (hsteps.effect hpublic.clean)

end Call

theorem runTxns_inv (C : Codecs) (calls : List (Env × TxnCall)) :
    TxnInv C (runTxns C calls).store (runTxns C calls).history :=
  List.foldlRecOn (motive := fun r : TxnRun => TxnInv C r.store r.history) _ _
    (txnInv_empty C) fun _ hinv call _ => TxnRun.step_inv hinv call

/-! ## Snapshot isolation -/

/-- `id` is the largest id of a commit that wrote the row. -/
def LargestWriter (h : History) (t : String) (k : Bytes) (id : TxnId) : Prop :=
  (∃ c ∈ h, c.id = id ∧ c.writes.get t k ≠ none) ∧
    ∀ c ∈ h, c.writes.get t k ≠ none → c.id ≤ id

/-- The snapshot-isolation invariant of a store and its history. -/
structure SnapshotIsolation (C : Codecs) (r : TxnRun) : Prop where
  written : ∀ c ∈ r.history, ∀ t k, c.writes.get t k ≠ none → ∃ vk, versionKey t k = .ok vk
  /-- A version row holds exactly the largest id that wrote its row. -/
  version : ∀ t k vk, versionKey t k = .ok vk → ∀ bytes,
    r.store.get txnVersionsTable vk = some bytes ↔
      ∃ id, bytes = encodeTxnId id ∧ LargestWriter r.history t k id
  version_only : ∀ vk bytes, r.store.get txnVersionsTable vk = some bytes →
    ∃ t k, versionKey t k = .ok vk
  /-- The MVCC record of every written row exists and holds the value that its commit wrote. -/
  record : ∀ c ∈ r.history, ∀ t k v, c.writes.get t k = some v → ∃ mk bytes,
    mvccKey t k c.id = .ok mk ∧ r.store.get txnMvccTable mk = some bytes ∧
      decodeMvccRecord C bytes = .ok { value := v }
  /-- A base row is the value of the MVCC record at its version, if there is one. -/
  row : ∀ t k, t ≠ txnMetaTable → t ∉ bookkeepingTables →
    (∀ version mk, lastKeyVersion r.store t k = .ok version → mvccKey t k version = .ok mk →
      match r.store.get txnMvccTable mk with
      | some bytes => ∃ record, decodeMvccRecord C bytes = .ok record ∧
          r.store.get t k = record.value
      | none => r.store.get t k = none) ∧
    ((∀ vk, versionKey t k ≠ .ok vk) → r.store.get t k = none)
  /-- The commit log holds exactly the keys from one to the current id. -/
  log : ∃ current, currentTxnIdFrom r.store = .ok current ∧ ∀ key,
    r.store.get commitLogTable key ≠ none ↔
      ∃ id, key = encodeTxnId id ∧ 1 ≤ id.toNat ∧ id.toNat ≤ current.toNat

theorem TxnInv.version_iff {C : Codecs} {s : Store} (hinv : TxnInv C s h)
    {t : String} {k vk : Bytes} (hvk : versionKey t k = .ok vk) (bytes : Bytes) :
    s.get txnVersionsTable vk = some bytes ↔
      ∃ id, bytes = encodeTxnId id ∧ LargestWriter h t k id := by
  rw [hinv.version t k vk hvk, Option.map_eq_some_iff]
  constructor
  · rintro ⟨⟨id, v⟩, hnewest, rfl⟩
    obtain ⟨⟨c, hc, hid, hget⟩, hmax⟩ := hinv.dense.newest_eq_some_iff.mp hnewest
    exact ⟨id, rfl, ⟨c, hc, hid, by simp [hget]⟩, hmax⟩
  · rintro ⟨id, rfl, ⟨c, hc, hid, hget⟩, hmax⟩
    obtain ⟨v, hv⟩ := Option.ne_none_iff_exists'.mp hget
    exact ⟨(id, v), hinv.dense.newest_eq_some_iff.mpr ⟨⟨c, hc, hid, hv⟩, hmax⟩, rfl⟩

theorem TxnInv.row_eq_mvcc {C : Codecs} {s : Store} (hinv : TxnInv C s h)
    {t : String} {k mk : Bytes} {version : TxnId} (hrow : ¬ Bookkeeping t k)
    (hversion : lastKeyVersion s t k = .ok version) (hmk : mvccKey t k version = .ok mk) :
    match s.get txnMvccTable mk with
    | some bytes => ∃ record, decodeMvccRecord C bytes = .ok record ∧ s.get t k = record.value
    | none => s.get t k = none := by
  obtain ⟨vk, hvk, -⟩ := mvccKey_eq_ok_iff.mp hmk
  have hget : s.get txnVersionsTable vk = (newest h t k).map fun w => encodeTxnId w.1 :=
    hinv.version t k vk hvk
  simp only [lastKeyVersion, hvk, bind, Except.bind, hget] at hversion
  cases hnewest : newest h t k with
  | none =>
    have hzero : version = 0 := by simpa [hnewest, pure, Except.pure, eq_comm] using hversion
    have hnone : s.get txnMvccTable mk = none := by
      by_contra hne
      obtain ⟨bytes, hbytes⟩ := Option.ne_none_iff_exists'.mp hne
      -- a version row would carry the id of a commit, and ids start at one
      obtain ⟨c, hc, t', k', v, -, hmk'⟩ := hinv.mvcc_only mk bytes hbytes
      have hbounds := hinv.dense.id_bounds hc
      rw [(mvccKey_inj hmk' hmk).2.2, hzero] at hbounds
      simp at hbounds
    simp [hnone, hinv.row t k hrow, hnewest]
  | some w =>
    obtain ⟨id, v⟩ := w
    obtain rfl : id = version := by simpa [hnewest] using hversion
    obtain ⟨⟨c, hc, rfl, hv⟩, -⟩ := hinv.dense.newest_eq_some_iff.mp hnewest
    obtain ⟨bytes, hbytes, hmvcc⟩ := hinv.mvcc c hc t k v mk hv hmk
    rw [hmvcc]
    exact ⟨_, decodeMvccRecord_of_encode hbytes, by simp [hinv.row t k hrow, hnewest]⟩

theorem TxnInv.log_iff {C : Codecs} {s : Store} (hinv : TxnInv C s h)
    {current : TxnId} (hcurrent : currentTxnIdFrom s = .ok current) (key : Bytes) :
    s.get commitLogTable key ≠ none ↔
      ∃ id, key = encodeTxnId id ∧ 1 ≤ id.toNat ∧ id.toNat ≤ current.toNat := by
  have hlen : current.toNat = h.length := by
    obtain ⟨current', hcurrent', hlen⟩ := hinv.current
    obtain rfl : current = current' := by simpa [hcurrent] using hcurrent'
    exact hlen
  rw [hlen]
  constructor
  · intro hne
    obtain ⟨bytes, hbytes⟩ := Option.ne_none_iff_exists'.mp hne
    obtain ⟨c, hc, rfl⟩ := hinv.log_only key bytes hbytes
    exact ⟨c.id, rfl, hinv.dense.id_bounds hc⟩
  · rintro ⟨id, rfl, h1, hle⟩
    obtain ⟨c, hc, hid⟩ := hinv.dense.exists_id h1 hle
    obtain rfl : c.id = id := UInt64.toNat_inj.mp hid
    obtain ⟨_, bytes, -, -, -, hlog⟩ := hinv.log c hc
    simp [hlog]

/-- Every reachable run is snapshot isolated. -/
theorem TxnInv.snapshotIsolation {C : Codecs} {r : TxnRun}
    (hinv : TxnInv C r.store r.history) : SnapshotIsolation C r where
  written c hc t k hne := by
    obtain ⟨v, hv⟩ := Option.ne_none_iff_exists'.mp hne
    exact hinv.address c hc t k v hv
  version _ _ _ hvk bytes := hinv.version_iff hvk bytes
  version_only := hinv.version_only
  record c hc t k v hv := by
    obtain ⟨vk, hvk⟩ := hinv.address c hc t k v hv
    have hmk : mvccKey t k c.id = .ok _ := mvccKey_eq_ok_iff.mpr ⟨vk, hvk, rfl⟩
    obtain ⟨bytes, hbytes, hmvcc⟩ := hinv.mvcc c hc t k v _ hv hmk
    exact ⟨_, bytes, hmk, hmvcc, decodeMvccRecord_of_encode hbytes⟩
  row t k hmeta ht := by
    have hrow : ¬ Bookkeeping t k := fun h => h.elim ht fun h => hmeta h.1
    refine ⟨fun version mk hversion hmk => hinv.row_eq_mvcc hrow hversion hmk, fun hvk => ?_⟩
    have hnewest : newest r.history t k = none := by
      refine newest_eq_none_iff.mpr fun c hc => ?_
      by_contra hne
      obtain ⟨v, hv⟩ := Option.ne_none_iff_exists'.mp hne
      obtain ⟨vk, h⟩ := hinv.address c hc t k v hv
      exact hvk vk h
    rw [hinv.row t k hrow, hnewest]
    rfl
  log := by
    obtain ⟨current, hcurrent, -⟩ := hinv.current
    exact ⟨current, hcurrent, hinv.log_iff hcurrent⟩

/-- What one call does, for each of its outcomes. -/
structure CallSpec (C : Codecs) (r : TxnRun) (env : Env) (call : TxnCall) : Prop where
  failed : ∀ e, call.exec C env r.store = .error e → (r.step C (env, call)).store = r.store
  /-- A call without writes leaves the store unchanged. -/
  idle : ∀ id s', call.exec C env r.store = .ok (id, s') →
    call.writes.entries.isEmpty = true → (r.step C (env, call)).store = r.store
  /-- A successful commit saw no version above its snapshot, and raises the current id by one. -/
  committed : ∀ id s', call.exec C env r.store = .ok (id, s') →
    call.writes.entries.isEmpty = false →
      (r.step C (env, call)).store = s' ∧ currentTxnIdFrom s' = .ok id ∧
      (∃ current, currentTxnIdFrom r.store = .ok current ∧ id.toNat = current.toNat + 1) ∧
      ∃ snapshotId, call.snapshot r.store = .ok snapshotId ∧
        ∀ t k, call.writes.get t k ≠ none →
          ∃ version, lastKeyVersion r.store t k = .ok version ∧ version ≤ snapshotId

/-- Each call meets its specification. -/
theorem callSpec (C : Codecs) (r : TxnRun) (env : Env) (call : TxnCall) :
    CallSpec C r env call := by
  constructor
  · intro e he
    simp [TxnRun.step, he]
  · intro id s' hok hempty
    rcases TxnCall.exec_cases hok with ⟨-, rfl⟩ | ⟨hsome, -⟩
    · simp [TxnRun.step, hok, hempty]
    · rw [hempty] at hsome
      contradiction
  · intro id s' hok hsome
    rcases TxnCall.exec_cases hok with ⟨hempty, -⟩ | ⟨-, hpublic, snapshotId, hsnapshot, hsteps⟩
    · rw [hempty] at hsome
      contradiction
    · refine ⟨by simp [TxnRun.step, hok, hsome],
        currentTxnIdFrom_of_get (hsteps.effect hpublic.clean).current, hsteps.next,
        snapshotId, hsnapshot, ?_⟩
      intro t k hne
      obtain ⟨v, hv⟩ := Option.ne_none_iff_exists'.mp hne
      exact hsteps.snapshot t k v hv

/-- The transaction tables agree with the commits of the run, and every further call either commits
at its snapshot or changes nothing. -/
theorem snapshotIsolation_runTxns (C : Codecs) (calls : List (Env × TxnCall)) :
    SnapshotIsolation C (runTxns C calls) ∧
      ∀ env call, CallSpec C (runTxns C calls) env call :=
  ⟨(runTxns_inv C calls).snapshotIsolation, fun env call => callSpec C _ env call⟩

end MultiDb
