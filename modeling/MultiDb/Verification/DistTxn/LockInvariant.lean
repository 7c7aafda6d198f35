import MultiDb.Verification.DistTxn.Steps

/-!
# The lock table

In every reachable state the lock rows are exactly the rows of the prepared records.
-/

namespace MultiDb

open Shared

variable {C : Codecs} {s s' : Store} {prepared : Option PreparedTxnRecord}
  {record : FinishedTxnRecord}

/-- The rows a prepared transaction will write. -/
abbrev PreparedTxnRecord.rows (record : PreparedTxnRecord) : WriteSet :=
  opsToWriteSet record.ops

/-- The participant holds this prepared record. -/
def Prepared (C : Codecs) (s : Store) (record : PreparedTxnRecord) : Prop :=
  ∃ bytes, s.get distTxnParticipantTable (encodeTxnId record.txnId) = some bytes ∧
    decodePrepared C bytes = .ok record

theorem Prepared.unique {a b : PreparedTxnRecord} (ha : Prepared C s a) (hb : Prepared C s b)
    (hid : a.txnId = b.txnId) : a = b := by
  obtain ⟨bytes, hget, hdecode⟩ := ha
  obtain ⟨bytes', hget', hdecode'⟩ := hb
  rw [hid, hget'] at hget
  cases hget
  exact Except.ok.inj (hdecode.symm.trans hdecode')

/-- The lock table agrees with the prepared records. -/
structure LockInv (C : Codecs) (s : Store) : Prop where
  participant : ∀ key bytes, s.get distTxnParticipantTable key = some bytes →
    ∃ record, decodePrepared C bytes = .ok record ∧ key = encodeTxnId record.txnId
  address : ∀ record t k v, Prepared C s record → record.rows.get t k = some v →
    ∃ lock, versionKey t k = .ok lock
  lock : ∀ lock owner, s.get locksTable lock = some owner ↔
    ∃ record, Prepared C s record ∧ owner = encodeTxnId record.txnId ∧ Covers record.rows lock
  finished : ∀ key bytes, s.get distTxnFinishedTable key = some bytes →
    ∃ record, decodeFinished C bytes = .ok record ∧ key = encodeTxnId record.txnId
  exclusive : ∀ key, s.get distTxnParticipantTable key ≠ none →
    s.get distTxnFinishedTable key = none
  format : s.get txnMetaTable lockFormatKey = some lockFormatValue ∨
    s.get txnMetaTable lockFormatKey = none ∧ ∀ key, s.get distTxnParticipantTable key = none

theorem lockInv_empty (C : Codecs) : LockInv C .empty := by
  constructor <;> simp [Prepared]

theorem LockInv.disjoint (h : LockInv C s) {a b : PreparedTxnRecord} (ha : Prepared C s a)
    (hb : Prepared C s b) {lock : Bytes} (hla : Covers a.rows lock) (hlb : Covers b.rows lock) :
    a = b := by
  have hga := (h.lock lock _).mpr ⟨a, ha, rfl, hla⟩
  have hgb := (h.lock lock _).mpr ⟨b, hb, rfl, hlb⟩
  exact ha.unique hb (encodeTxnId_inj.mp (Option.some.inj (hga.symm.trans hgb)))

theorem LockInv.rejectLegacyPrepares_eq (h : LockInv C s) : rejectLegacyPrepares s = .ok () := by
  rcases h.format with hformat | ⟨hformat, hempty⟩
  · simp [rejectLegacyPrepares, lockFormat, hformat, bind, Except.bind, pure, Except.pure]
  · have hrange := range_all_eq_nil_iff.mpr hempty
    simp [rejectLegacyPrepares, lockFormat, hformat, hrange, bind, Except.bind, pure, Except.pure]

section Plain

theorem PlainStep.get_distTxn (h : PlainStep C s s') {t : String} (ht : t ∈ distTxnTables)
    (k : Bytes) : s'.get t k = s.get t k := by
  cases h with
  | same => rfl
  | commit hwrites hfree heffect =>
    rename_i writes id
    rw [heffect.row t k (not_bookkeeping_of_mem ht k)]
    cases hget : writes.get t k with
    | none => rfl
    | some v => exact absurd ht (hwrites t k v hget).2.2

theorem PlainStep.get_format (h : PlainStep C s s') :
    s'.get txnMetaTable lockFormatKey = s.get txnMetaTable lockFormatKey := by
  cases h with
  | same => rfl
  | commit hwrites hfree heffect =>
    rename_i writes id
    rw [heffect.row _ _ (by decide)]
    cases hget : writes.get txnMetaTable lockFormatKey with
    | none => rfl
    | some v => exact absurd rfl (hwrites _ _ v hget).2.1

theorem PlainStep.prepared_iff (h : PlainStep C s s') {record : PreparedTxnRecord} :
    Prepared C s' record ↔ Prepared C s record := by
  rw [Prepared, h.get_distTxn (by decide), Prepared]

/-- A commit of other rows keeps every lock. -/
theorem LockInv.plain (hinv : LockInv C s) (h : PlainStep C s s') : LockInv C s' := by
  have hparticipants := h.get_distTxn (t := distTxnParticipantTable) (by decide)
  have hlocks := h.get_distTxn (t := locksTable) (by decide)
  have hfinished := h.get_distTxn (t := distTxnFinishedTable) (by decide)
  constructor
  case participant => simpa only [hparticipants] using hinv.participant
  case address => simpa only [h.prepared_iff] using hinv.address
  case lock => simpa only [hlocks, h.prepared_iff] using hinv.lock
  case finished => simpa only [hfinished] using hinv.finished
  case exclusive => simpa only [hparticipants, hfinished] using hinv.exclusive
  case format => simpa only [hparticipants, h.get_format] using hinv.format

theorem PlainStep.get_locked (h : PlainStep C s s') {t : String} {k lock : Bytes}
    (ht : tableIsReserved t = false) (hlock : versionKey t k = .ok lock)
    (hheld : s.get locksTable lock ≠ none) : s'.get t k = s.get t k := by
  cases h with
  | same => rfl
  | commit hwrites hfree heffect =>
    rename_i writes id
    rw [heffect.row t k (not_bookkeeping_of_public ht k)]
    cases hget : writes.get t k with
    | none => rfl
    | some v =>
      obtain ⟨lock', hlock', hnone⟩ := hfree t k v hget ht
      obtain rfl : lock' = lock := by simpa [hlock'] using hlock
      exact absurd hnone hheld

end Plain

/-! ## Prepare -/

/-- What a prepare leaves in the store. -/
structure PreparedStore (C : Codecs) (s : Store) (record : PreparedTxnRecord) (s' : Store) :
    Prop where
  unfinished : s.get distTxnFinishedTable (encodeTxnId record.txnId) = none
  unprepared : s.get distTxnParticipantTable (encodeTxnId record.txnId) = none
  stored : Prepared C s' record
  participants : ∀ k, k ≠ encodeTxnId record.txnId →
    s'.get distTxnParticipantTable k = s.get distTxnParticipantTable k
  address : ∀ t k v, record.rows.get t k = some v → ∃ lock, versionKey t k = .ok lock
  free : ∀ lock, Covers record.rows lock → s.get locksTable lock = none
  locked : ∀ lock, Covers record.rows lock →
    s'.get locksTable lock = some (encodeTxnId record.txnId)
  unlocked : ∀ lock, ¬ Covers record.rows lock → s'.get locksTable lock = s.get locksTable lock
  format : s'.get txnMetaTable lockFormatKey = some lockFormatValue
  other : ∀ t k, ¬ Bookkeeping t k → t ∉ distTxnTables ∨ t = distTxnFinishedTable →
    (t = txnMetaTable → k ≠ lockFormatKey) → s'.get t k = s.get t k

theorem PrepareStep.preparedStore {record : PreparedTxnRecord} (h : PrepareStep C s record s') :
    PreparedStore C s record s' := by
  obtain ⟨hpublic, bytes, writes, id, hwrites, heffect⟩ := h
  have hrow : ∀ {t} k, t ∈ distTxnTables → s'.get t k = (writes.get t k).getD (s.get t k) :=
    fun k ht => heffect.row _ k (not_bookkeeping_of_mem ht k)
  constructor
  case unfinished => exact hwrites.unfinished
  case unprepared => exact hwrites.unprepared
  case stored =>
    refine ⟨bytes, ?_, decodePrepared_of_encode hwrites.encoded hwrites.version hpublic⟩
    rw [hrow _ (by decide), hwrites.participant]
    rfl
  case participants =>
    intro k hk
    rw [hrow _ (by decide), hwrites.participants k hk]
    rfl
  case address => exact hwrites.address
  case free => exact hwrites.free
  case locked =>
    intro lock hcovers
    rw [hrow _ (by decide), hwrites.locked lock hcovers]
    rfl
  case unlocked =>
    intro lock hcovers
    rw [hrow _ (by decide), hwrites.unlocked lock hcovers]
    rfl
  case format =>
    rw [heffect.row _ _ (by decide), hwrites.format]
    rfl
  case other =>
    intro t k hbook ht hformat
    rw [heffect.row t k hbook, hwrites.other t k ht hformat]
    rfl

theorem PreparedStore.prepared_iff {record r : PreparedTxnRecord}
    (h : PreparedStore C s record s') : Prepared C s' r ↔ Prepared C s r ∨ r = record := by
  by_cases hid : r.txnId = record.txnId
  · constructor
    · exact fun hr => Or.inr (hr.unique h.stored hid)
    · rintro (⟨bytes, hget, -⟩ | rfl)
      · rw [hid, h.unprepared] at hget
        contradiction
      · exact h.stored
  · have hkey : encodeTxnId r.txnId ≠ encodeTxnId record.txnId := fun heq =>
      hid (encodeTxnId_inj.mp heq)
    rw [Prepared, h.participants _ hkey, ← Prepared]
    constructor
    · exact Or.inl
    · rintro (hr | rfl)
      · exact hr
      · exact absurd rfl hid

/-- A prepare locks its rows for itself. -/
theorem LockInv.prepare {record : PreparedTxnRecord} (hinv : LockInv C s)
    (h : PreparedStore C s record s') : LockInv C s' := by
  have hfinished : ∀ k, s'.get distTxnFinishedTable k = s.get distTxnFinishedTable k := fun k =>
    h.other _ k (not_bookkeeping_of_mem (by decide) k) (Or.inr rfl) fun ht => absurd ht (by decide)
  constructor
  case participant =>
    intro key bytes hget
    by_cases hkey : key = encodeTxnId record.txnId
    · obtain ⟨bytes', hget', hdecode⟩ := h.stored
      rw [hkey, hget'] at hget
      cases hget
      exact ⟨record, hdecode, hkey⟩
    · rw [h.participants key hkey] at hget
      exact hinv.participant key bytes hget
  case address =>
    intro r t k v hr hrow
    rcases h.prepared_iff.mp hr with hr | rfl
    · exact hinv.address r t k v hr hrow
    · exact h.address t k v hrow
  case lock =>
    intro lock owner
    by_cases hcovers : Covers record.rows lock
    · rw [h.locked lock hcovers, Option.some_inj]
      constructor
      · rintro rfl
        exact ⟨record, h.stored, rfl, hcovers⟩
      · rintro ⟨r, hr, rfl, hlock⟩
        rcases h.prepared_iff.mp hr with hr | rfl
        · -- the row would have been locked before the prepare
          have hheld := (hinv.lock lock _).mpr ⟨r, hr, rfl, hlock⟩
          rw [h.free lock hcovers] at hheld
          contradiction
        · rfl
    · rw [h.unlocked lock hcovers, hinv.lock]
      constructor
      · rintro ⟨r, hr, hrest⟩
        exact ⟨r, h.prepared_iff.mpr (Or.inl hr), hrest⟩
      · rintro ⟨r, hr, howner, hlock⟩
        rcases h.prepared_iff.mp hr with hr | rfl
        · exact ⟨r, hr, howner, hlock⟩
        · exact absurd hlock hcovers
  case finished => simpa only [hfinished] using hinv.finished
  case exclusive =>
    intro key hne
    rw [hfinished]
    by_cases hkey : key = encodeTxnId record.txnId
    · rw [hkey, h.unfinished]
    · exact hinv.exclusive key (h.participants key hkey ▸ hne)
  case format => exact Or.inl h.format

/-! ## Finish -/

/-- What a finish leaves in the store. -/
structure FinishedStore (C : Codecs) (s : Store) (prepared : Option PreparedTxnRecord)
    (record : FinishedTxnRecord) (s' : Store) : Prop where
  unfinished : s.get distTxnFinishedTable (encodeTxnId record.txnId) = none
  found : ∀ p, prepared = some p → p.txnId = record.txnId ∧ Prepared C s p
  missing : prepared = none → s.get distTxnParticipantTable (encodeTxnId record.txnId) = none
  public_rows : PublicWrites (preparedRows prepared)
  participant : s'.get distTxnParticipantTable (encodeTxnId record.txnId) = none
  participants : ∀ k, k ≠ encodeTxnId record.txnId →
    s'.get distTxnParticipantTable k = s.get distTxnParticipantTable k
  released : ∀ lock, Covers (preparedRows prepared) lock → s'.get locksTable lock = none
  unreleased : ∀ lock, ¬ Covers (preparedRows prepared) lock →
    s'.get locksTable lock = s.get locksTable lock
  finished : ∃ bytes, s'.get distTxnFinishedTable (encodeTxnId record.txnId) = some bytes ∧
    decodeFinished C bytes = .ok record
  others : ∀ k, k ≠ encodeTxnId record.txnId →
    s'.get distTxnFinishedTable k = s.get distTxnFinishedTable k
  rows : ∀ t k, ¬ Bookkeeping t k → t ∉ distTxnTables → s'.get t k =
    if record.decision = .commit then ((preparedRows prepared).get t k).getD (s.get t k)
    else s.get t k

theorem FinishStep.finishedStore (h : FinishStep C s prepared record s') :
    FinishedStore C s prepared record s' := by
  obtain ⟨bytes, writes, id, hwrites, heffect⟩ := h
  have hrow : ∀ {t} k, t ∈ distTxnTables → s'.get t k = (writes.get t k).getD (s.get t k) :=
    fun k ht => heffect.row _ k (not_bookkeeping_of_mem ht k)
  constructor
  case unfinished => exact hwrites.unfinished
  case found => exact hwrites.found
  case missing => exact hwrites.missing
  case public_rows => exact hwrites.public_rows
  case participant =>
    rw [hrow _ (by decide), hwrites.participant]
    rfl
  case participants =>
    intro k hk
    rw [hrow _ (by decide), hwrites.participants k hk]
    rfl
  case released =>
    intro lock hcovers
    rw [hrow _ (by decide), hwrites.released lock hcovers]
  case unreleased =>
    intro lock hcovers
    rw [hrow _ (by decide), hwrites.unreleased lock hcovers]
    rfl
  case finished =>
    refine ⟨bytes, ?_, decodeFinished_of_encode hwrites.encoded hwrites.version⟩
    rw [hrow _ (by decide), hwrites.finished]
    rfl
  case others =>
    intro k hk
    rw [hrow _ (by decide), hwrites.others k hk]
    rfl
  case rows =>
    intro t k hbook ht
    rw [heffect.row t k hbook, hwrites.rows t k ht]
    split <;> rfl

theorem FinishedStore.prepared_iff (h : FinishedStore C s prepared record s')
    {r : PreparedTxnRecord} : Prepared C s' r ↔ Prepared C s r ∧ r.txnId ≠ record.txnId := by
  by_cases hid : r.txnId = record.txnId
  · refine iff_of_false ?_ fun hr => hr.2 hid
    rintro ⟨bytes, hget, -⟩
    rw [hid, h.participant] at hget
    contradiction
  · rw [Prepared, h.participants _ fun heq => hid (encodeTxnId_inj.mp heq), ← Prepared,
      and_iff_left hid]

theorem FinishedStore.prepared_eq (h : FinishedStore C s prepared record s') {r : PreparedTxnRecord}
    (hr : Prepared C s r) (hid : r.txnId = record.txnId) : prepared = some r := by
  cases prepared with
  | none =>
    obtain ⟨bytes, hget, -⟩ := hr
    rw [hid, h.missing rfl] at hget
    contradiction
  | some p =>
    obtain ⟨hpid, hp⟩ := h.found p rfl
    rw [hp.unique hr (hpid.trans hid.symm)]

/-- A finish frees what its transaction held. -/
theorem LockInv.finish
    (hinv : LockInv C s) (h : FinishedStore C s prepared record s') : LockInv C s' := by
  constructor
  case participant =>
    intro key bytes hget
    by_cases hkey : key = encodeTxnId record.txnId
    · rw [hkey, h.participant] at hget
      contradiction
    · rw [h.participants key hkey] at hget
      exact hinv.participant key bytes hget
  case address =>
    intro r t k v hr
    exact hinv.address r t k v (h.prepared_iff.mp hr).1
  case lock =>
    intro lock owner
    simp only [h.prepared_iff]
    by_cases hcovers : Covers (preparedRows prepared) lock
    · rw [h.released lock hcovers]
      refine iff_of_false (by simp) ?_
      rintro ⟨r, ⟨hr, hne⟩, -, hlock⟩
      -- the finished record covers the row too, so it is the same record
      cases prepared with
      | none =>
        obtain ⟨t, k, v, hget, -⟩ := hcovers
        simp [preparedRows, opsToWriteSet] at hget
      | some p =>
        obtain ⟨hpid, hp⟩ := h.found p rfl
        exact hne (hinv.disjoint hr hp hlock hcovers ▸ hpid)
    · rw [h.unreleased lock hcovers, hinv.lock]
      constructor
      · rintro ⟨r, hr, howner, hlock⟩
        refine ⟨r, ⟨hr, fun hid => hcovers ?_⟩, howner, hlock⟩
        rw [h.prepared_eq hr hid]
        exact hlock
      · rintro ⟨r, ⟨hr, -⟩, hrest⟩
        exact ⟨r, hr, hrest⟩
  case finished =>
    intro key bytes hget
    by_cases hkey : key = encodeTxnId record.txnId
    · obtain ⟨bytes', hget', hdecode⟩ := h.finished
      rw [hkey, hget'] at hget
      cases hget
      exact ⟨record, hdecode, hkey⟩
    · rw [h.others key hkey] at hget
      exact hinv.finished key bytes hget
  case exclusive =>
    intro key hne
    by_cases hkey : key = encodeTxnId record.txnId
    · rw [hkey, h.participant] at hne
      contradiction
    · rw [h.others key hkey]
      exact hinv.exclusive key (h.participants key hkey ▸ hne)
  case format =>
    have hformat : s'.get txnMetaTable lockFormatKey = s.get txnMetaTable lockFormatKey := by
      rw [h.rows _ _ (by decide) (by decide), h.public_rows.get_reserved (by decide)]
      split <;> rfl
    rw [hformat]
    refine hinv.format.imp_right ?_
    rintro ⟨hnone, hempty⟩
    refine ⟨hnone, fun key => ?_⟩
    by_cases hkey : key = encodeTxnId record.txnId
    · rw [hkey, h.participant]
    · rw [h.participants key hkey, hempty]

end MultiDb
