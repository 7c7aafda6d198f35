import MultiDb.Verification.Txn.Commit

/-!
# The store invariant over runs of commits

A history lists the commits behind a store, newest first.
-/

namespace MultiDb

open Shared

variable {t : String} {k : Bytes} {c : Commit}
variable {v : Option Bytes}

structure Commit where
  id : TxnId
  writes : WriteSet

abbrev History := List Commit

namespace History

/-- The newest write of a row: the id of its commit and the value written. -/
def newest (h : History) (t : String) (k : Bytes) : Option (TxnId × Option Bytes) :=
  h.findSome? fun c => (c.writes.get t k).map fun v => (c.id, v)

/-- The ids of a history count its commits, without gaps. -/
def Dense : History → Prop
  | [] => True
  | c :: h => c.id.toNat = h.length + 1 ∧ Dense h

variable {h : History}

theorem newest_cons_of_written (hv : c.writes.get t k = some v) :
    newest (c :: h) t k = some (c.id, v) := by
  simp [newest, hv]

theorem newest_cons_of_not_written
    (hv : c.writes.get t k = none) : newest (c :: h) t k = newest h t k := by
  simp [newest, hv]

theorem newest_eq_none_iff :
    newest h t k = none ↔ ∀ c ∈ h, c.writes.get t k = none := by
  simp [newest]

theorem Dense.id_bounds (hd : Dense h) (hc : c ∈ h) :
    1 ≤ c.id.toNat ∧ c.id.toNat ≤ h.length := by
  induction h with
  | nil => simp at hc
  | cons c₀ h ih =>
    obtain ⟨hid, hd⟩ := hd
    rw [List.length_cons]
    rcases List.mem_cons.mp hc with rfl | hc
    · omega
    · have := ih hd hc
      omega

theorem Dense.exists_id (hd : Dense h) {n : ℕ} (h1 : 1 ≤ n) (hn : n ≤ h.length) :
    ∃ c ∈ h, c.id.toNat = n := by
  induction h with
  | nil => simp at hn; omega
  | cons c h ih =>
    obtain ⟨hid, hd⟩ := hd
    rw [List.length_cons] at hn
    rcases Nat.lt_or_ge h.length n with hlt | hle
    · exact ⟨c, List.mem_cons_self, by omega⟩
    · obtain ⟨c', hc', hn'⟩ := ih hd hle
      exact ⟨c', List.mem_cons_of_mem c hc', hn'⟩

/-- The newest write of a row is the one with the largest id. -/
theorem Dense.newest_eq_some_iff (hd : Dense h) {id : TxnId} :
    newest h t k = some (id, v) ↔
      (∃ c ∈ h, c.id = id ∧ c.writes.get t k = some v) ∧
        ∀ c ∈ h, c.writes.get t k ≠ none → c.id ≤ id := by
  induction h with
  | nil => simp [newest]
  | cons c h ih =>
    obtain ⟨hid, hd⟩ := hd
    -- the head has a larger id than every commit below it
    have hlt : ∀ c' ∈ h, c'.id < c.id := by
      intro c' hc'
      have := hd.id_bounds hc'
      rw [UInt64.lt_iff_toNat_lt]
      omega
    cases hv : c.writes.get t k with
    | none =>
      rw [newest_cons_of_not_written hv, ih hd]
      simp [hv]
    | some w =>
      rw [newest_cons_of_written hv, Option.some_inj, Prod.mk.injEq]
      constructor
      · rintro ⟨rfl, rfl⟩
        refine ⟨⟨c, List.mem_cons_self, rfl, hv⟩, ?_⟩
        intro c' hc' _
        rcases List.mem_cons.mp hc' with rfl | hc'
        · exact UInt64.le_refl _
        · exact UInt64.le_of_lt (hlt c' hc')
      · rintro ⟨⟨c', hc', rfl, hv'⟩, hmax⟩
        have hle := hmax c List.mem_cons_self (by simp [hv])
        rcases List.mem_cons.mp hc' with rfl | hc'
        · exact ⟨rfl, Option.some.inj (hv.symm.trans hv')⟩
        · exact absurd (hlt c' hc') (UInt64.not_lt.mpr hle)

end History

open History

/-- Every table of the transaction layer agrees with the history. -/
structure TxnInv (C : Codecs) (s : Store) (h : History) : Prop where
  dense : Dense h
  current : ∃ current, currentTxnIdFrom s = .ok current ∧ current.toNat = h.length
  clean : ∀ c ∈ h, CleanWrites c.writes
  address : ∀ c ∈ h, ∀ t k v, c.writes.get t k = some v → ∃ vk, versionKey t k = .ok vk
  row : ∀ t k, ¬ Bookkeeping t k → s.get t k = (newest h t k).bind (·.2)
  version : ∀ t k vk, versionKey t k = .ok vk →
    s.get txnVersionsTable vk = (newest h t k).map fun w => encodeTxnId w.1
  version_only : ∀ vk bytes, s.get txnVersionsTable vk = some bytes →
    ∃ t k, versionKey t k = .ok vk
  mvcc : ∀ c ∈ h, ∀ t k v mk, c.writes.get t k = some v → mvccKey t k c.id = .ok mk →
    ∃ bytes, encodeMvccRecord C { value := v } = .ok bytes ∧ s.get txnMvccTable mk = some bytes
  mvcc_only : ∀ mk bytes, s.get txnMvccTable mk = some bytes →
    ∃ c ∈ h, ∃ t k v, c.writes.get t k = some v ∧ mvccKey t k c.id = .ok mk
  log : ∀ c ∈ h, ∃ record bytes, record.txnId = c.id ∧
    record.writes = commitLogWrites c.writes ∧ encodeCommitLogRecord C record = .ok bytes ∧
    s.get commitLogTable (encodeTxnId c.id) = some bytes
  log_only : ∀ key bytes, s.get commitLogTable key = some bytes → ∃ c ∈ h, key = encodeTxnId c.id

theorem txnInv_empty (C : Codecs) : TxnInv C .empty [] where
  dense := trivial
  current := ⟨0, rfl, rfl⟩
  clean := by simp
  address := by simp
  row := by simp [newest]
  version := by simp [newest]
  version_only := by simp
  mvcc := by simp
  mvcc_only := by simp
  log := by simp
  log_only := by simp

theorem currentTxnIdFrom_of_get {s : Store} {id : TxnId}
    (h : s.get txnMetaTable currentTxnIdKey = some (encodeTxnId id)) :
    currentTxnIdFrom s = .ok id := by
  simp [currentTxnIdFrom, h]

section Step

variable {C : Codecs} {s s' : Store} {h : History} {id : TxnId} {writes : WriteSet}

private theorem not_written_of_forall {P : String → Bytes → Prop}
    (hno : ¬ ∃ t k v, writes.get t k = some v ∧ P t k) :
    ∀ t k v, writes.get t k = some v → ¬ P t k :=
  fun t k v hget hP => hno ⟨t, k, v, hget, hP⟩

theorem CommitEffect.version_of_not_written (heff : CommitEffect C s writes id s')
    {k vk : Bytes} (hvk : versionKey t k = .ok vk) (hget : writes.get t k = none) :
    s'.get txnVersionsTable vk = s.get txnVersionsTable vk := by
  refine heff.version_kept vk fun t' k' v' hget' hvk' => ?_
  obtain ⟨rfl, rfl⟩ := versionKey_inj hvk' hvk
  rw [hget] at hget'
  contradiction

theorem CommitEffect.mvcc_of_ne (heff : CommitEffect C s writes id s') {k mk : Bytes}
    {id' : TxnId} (hmk : mvccKey t k id' = .ok mk) (hne : id' ≠ id) :
    s'.get txnMvccTable mk = s.get txnMvccTable mk :=
  heff.mvcc_kept mk fun _ _ _ _ hmk' => hne (mvccKey_inj hmk hmk').2.2

theorem TxnInv.commit (hinv : TxnInv C s h) (hclean : CleanWrites writes)
    (hnext : ∃ current, currentTxnIdFrom s = .ok current ∧ id.toNat = current.toNat + 1)
    (heff : CommitEffect C s writes id s') : TxnInv C s' (⟨id, writes⟩ :: h) := by
  have hid : id.toNat = h.length + 1 := by
    obtain ⟨current, hcurrent, hid⟩ := hnext
    obtain ⟨current', hcurrent', hlen⟩ := hinv.current
    obtain rfl : current = current' := by simpa [hcurrent] using hcurrent'
    omega
  have hne : ∀ c ∈ h, c.id ≠ id := by
    rintro c hc rfl
    have := hinv.dense.id_bounds hc
    omega
  constructor
  case dense => exact ⟨hid, hinv.dense⟩
  case current => exact ⟨id, currentTxnIdFrom_of_get heff.current, hid⟩
  case clean => exact List.forall_mem_cons.mpr ⟨hclean, hinv.clean⟩
  case address => exact List.forall_mem_cons.mpr ⟨heff.address, hinv.address⟩
  case row =>
    intro t k hrow
    rw [heff.row t k hrow]
    cases hget : writes.get t k with
    | none => rw [newest_cons_of_not_written hget, ← hinv.row t k hrow]; rfl
    | some v => rw [newest_cons_of_written hget]; rfl
  case version =>
    intro t k vk hvk
    cases hget : writes.get t k with
    | none =>
      rw [newest_cons_of_not_written hget, heff.version_of_not_written hvk hget,
        hinv.version t k vk hvk]
    | some v =>
      rw [newest_cons_of_written hget, heff.version_written t k v vk hget hvk]
      rfl
  case version_only =>
    intro vk bytes hbytes
    by_cases hwritten : ∃ t k v, writes.get t k = some v ∧ versionKey t k = .ok vk
    · obtain ⟨t, k, -, -, hvk⟩ := hwritten
      exact ⟨t, k, hvk⟩
    · rw [heff.version_kept vk (not_written_of_forall hwritten)] at hbytes
      exact hinv.version_only vk bytes hbytes
  case mvcc =>
    refine List.forall_mem_cons.mpr ⟨heff.mvcc_written, ?_⟩
    intro c hc t k v mk hget hmk
    rw [heff.mvcc_of_ne hmk (hne c hc)]
    exact hinv.mvcc c hc t k v mk hget hmk
  case mvcc_only =>
    intro mk bytes hbytes
    by_cases hwritten : ∃ t k v, writes.get t k = some v ∧ mvccKey t k id = .ok mk
    · exact ⟨_, List.mem_cons_self, hwritten⟩
    · rw [heff.mvcc_kept mk (not_written_of_forall hwritten)] at hbytes
      obtain ⟨c, hc, hkey⟩ := hinv.mvcc_only mk bytes hbytes
      exact ⟨c, List.mem_cons_of_mem _ hc, hkey⟩
  case log =>
    obtain ⟨record, bytes, hrecord, hwrites, -, hbytes, hlog⟩ := heff.log
    refine List.forall_mem_cons.mpr ⟨⟨record, bytes, hrecord, hwrites, hbytes, ?_⟩, ?_⟩
    · rw [hlog, if_pos rfl]
    · intro c hc
      rw [hlog, if_neg fun heq => hne c hc (encodeTxnId_inj.mp heq).symm]
      exact hinv.log c hc
  case log_only =>
    obtain ⟨record, bytes, -, -, -, -, hlog⟩ := heff.log
    intro key bytes' hkey
    rw [hlog] at hkey
    split at hkey
    · rename_i heq
      exact ⟨_, List.mem_cons_self, heq.symm⟩
    · obtain ⟨c, hc, heq⟩ := hinv.log_only key bytes' hkey
      exact ⟨c, List.mem_cons_of_mem _ hc, heq⟩

end Step

end MultiDb
