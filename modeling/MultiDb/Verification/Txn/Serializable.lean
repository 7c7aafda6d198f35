import MultiDb.Model.MultiModelTxn
import MultiDb.Model.WireRecords
import MultiDb.Verification.Storage.MemEngine
import MultiDb.Verification.Txn.SnapshotIsolation

/-!
# Serializable transactions

A read depends on the store only through the rows that it looks at and that were not staged.  A
commit that passes the checks finds these rows as they were at the snapshot.
-/

namespace MultiDb

open Shared History

namespace TxnRead

/-- The table a read is about. -/
def table : TxnRead → String
  | readRaw table _ => table
  | rangeRaw table _ _ => table

/-- The keys that a read looks at. -/
def looksAt (k : Bytes) : TxnRead → Bool
  | readRaw _ key => key = k
  | rangeRaw _ start stop => keyInRange start stop k

/-- What a read returns on a store, over staged writes. -/
def answer (call : TxnRead) (s : Store) (staged : WriteSet) : TxnAnswer :=
  (MultiModelTxn.perform { snapshotId := 0, read := s, writeSet := staged } call).1

end TxnRead

variable {C : Codecs} {t : String} {k : Bytes} {txn next : MultiModelTxn} {record : TxnRecord}

namespace MultiModelTxn

theorem getElem?_rangeRows (start stop : Bytes) : (txn.rangeRows t start stop)[k]? =
    if keyInRange start stop k then (txn.writeSet.get t k).getD (txn.read.get t k) else none := by
  have hdistinct : (range txn.read t start stop).Pairwise fun a b => compare a.1 b.1 ≠ .eq :=
    (Tables.scan_sorted txn.read t _).imp fun hlt heq => by simp [heq] at hlt
  have hstart : (Std.ExtTreeMap.ofList (range txn.read t start stop))[k]? =
      if keyInRange start stop k then txn.read.get t k else none := by
    cases hrow : (if keyInRange start stop k then txn.read.get t k else none) with
    | some value =>
      rw [Option.ite_none_right_eq_some] at hrow
      exact Std.ExtTreeMap.getElem?_ofList_of_mem Std.ReflCmp.compare_self hdistinct
        (mem_range.mpr hrow.symm)
    | none =>
      refine Std.ExtTreeMap.getElem?_ofList_of_contains_eq_false ?_
      rw [Bool.eq_false_iff, ne_eq, List.contains_iff_mem, List.mem_map]
      rintro ⟨⟨key, value⟩, hmem, rfl⟩
      obtain ⟨hget, hk⟩ := mem_range.mp hmem
      simp [hk, hget] at hrow
  rw [rangeRows]
  split
  · rename_i hk
    rw [if_pos hk] at hstart
    rw [← hstart]
    refine foldl_pending (fun rows : MemTable => rows[k]?) (fun rows entry => ?_) txn.writeSet _
    by_cases hentry : entry.1.1 = t ∧ entry.1.2 = k
    · simp [hentry.1, hentry.2, hk, MemTable.getElem?_apply]
    · rw [if_neg hentry]
      split
      · rename_i h
        rw [MemTable.getElem?_apply, if_neg fun heq => hentry ⟨h.1, heq⟩]
      · rfl
  · rename_i hk
    rw [if_neg hk] at hstart
    refine List.foldlRecOn (motive := fun rows : MemTable => rows[k]? = none) _ _ hstart
      fun rows hrows entry _ => ?_
    split
    · rename_i h
      rw [MemTable.getElem?_apply, if_neg, hrows]
      rintro rfl
      exact hk h.2
    · exact hrows

end MultiModelTxn

/-- An answer depends on the rows the read looks at. -/
theorem TxnRead.answer_congr {call : TxnRead} {s s' : Store} {staged : WriteSet}
    (h : ∀ k, call.looksAt k = true → staged.get call.table k = none →
      s.get call.table k = s'.get call.table k) :
    call.answer s staged = call.answer s' staged := by
  cases call with
  | readRaw table key =>
    have h := h key (by simp [looksAt])
    simp only [answer, MultiModelTxn.perform, MultiModelTxn.readRaw]
    cases hget : staged.get table key with
    | some value => rfl
    | none => exact congrArg TxnAnswer.value (h hget)
  | rangeRaw table start stop =>
    have hrows : MultiModelTxn.rangeRows ⟨0, s, staged, [], [], ∅, []⟩ table start stop =
        MultiModelTxn.rangeRows ⟨0, s', staged, [], [], ∅, []⟩ table start stop := by
      refine Std.ExtTreeMap.ext_getElem? fun k => ?_
      rw [MultiModelTxn.getElem?_rangeRows, MultiModelTxn.getElem?_rangeRows]
      split
      · rename_i hk
        cases hget : staged.get table k with
        | some value => rfl
        | none => exact h k hk hget
      · rfl
    simp only [answer, MultiModelTxn.perform, MultiModelTxn.rangeRaw, hrows]
    split <;> rfl

/-! ## The read set -/

namespace MultiModelTxn

/-- A row that the commit checks: by its key, or if it was absent by a range that has it. -/
def Covers (txn : MultiModelTxn) (t : String) (k : Bytes) : Prop :=
  (t, k) ∈ txn.readKeys ∨ txn.read.get t k = none ∧
    ∃ r ∈ txn.readRanges, r.table = t ∧ keyInRange r.start r.stop k = true

/-- The read has its snapshot's answer, and the keys it looked at are tracked. -/
structure Tracks (txn : MultiModelTxn) (record : TxnRecord) : Prop where
  answer : record.answer = record.call.answer txn.read record.staged
  covers : ∀ k, record.call.looksAt k = true → record.staged.get record.call.table k = none →
    txn.Covers record.call.table k

/-- `next` has the snapshot of `txn` and checks at least as much. -/
structure Extends (txn next : MultiModelTxn) : Prop where
  read : next.read = txn.read
  snapshotId : next.snapshotId = txn.snapshotId
  readKeys : txn.readKeys ⊆ next.readKeys
  readRanges : txn.readRanges ⊆ next.readRanges

theorem Extends.refl (txn : MultiModelTxn) : txn.Extends txn :=
  ⟨rfl, rfl, fun _ => id, fun _ => id⟩

theorem Tracks.mono (h : txn.Tracks record) (hext : txn.Extends next) : next.Tracks record where
  answer := by rw [hext.read, h.answer]
  covers k hk hstaged := by
    rw [Covers, hext.read]
    refine (h.covers k hk hstaged).imp (fun hkey => hext.readKeys hkey) ?_
    rintro ⟨hnone, r, hr, hin⟩
    exact ⟨hnone, r, hext.readRanges hr, hin⟩

/-- A read is answered from the snapshot and tracked. -/
theorem perform_spec (txn : MultiModelTxn) (call : TxnRead) :
    txn.Extends (txn.perform call).2 ∧ (txn.perform call).2.reads = txn.reads ∧
      (txn.perform call).2.Tracks ⟨call, txn.writeSet, (txn.perform call).1⟩ := by
  cases call with
  | readRaw table key =>
    simp only [perform, readRaw]
    cases hget : txn.writeSet.get table key with
    | some value =>
      refine ⟨.refl txn, rfl, by simp [TxnRead.answer, perform, readRaw, hget], fun k hk h => ?_⟩
      obtain rfl : key = k := by simpa [TxnRead.looksAt] using hk
      simp [TxnRead.table, hget] at h
    | none =>
      refine ⟨⟨rfl, rfl, List.subset_cons_self _ _, fun _ => id⟩, rfl,
        by simp [TxnRead.answer, perform, readRaw, hget], fun k hk _ => Or.inl ?_⟩
      obtain rfl : key = k := by simpa [TxnRead.looksAt] using hk
      exact List.mem_cons_self
  | rangeRaw table start stop =>
    simp only [perform, rangeRaw]
    split
    · rename_i hempty
      refine ⟨.refl txn, rfl, by simp [TxnRead.answer, perform, rangeRaw, hempty], fun k hk _ => ?_⟩
      rw [TxnRead.looksAt, keyInRange_of_stop_le hempty] at hk
      contradiction
    · rename_i hempty
      refine ⟨⟨rfl, rfl, List.subset_append_right _ _, List.subset_cons_self _ _⟩, rfl, ?_,
        fun k hk hstaged => ?_⟩
      · simp only [TxnRead.answer, perform, rangeRaw, if_neg hempty]
        rfl
      · have hin : keyInRange start stop k = true := hk
        have hnone : txn.writeSet.get table k = none := hstaged
        have hrow : (txn.rangeRows table start stop)[k]? = _ := getElem?_rangeRows start stop
        rw [if_pos hin, hnone] at hrow
        cases hget : txn.read.get table k with
        | none => exact Or.inr ⟨hget, _, List.mem_cons_self, rfl, hk⟩
        | some value =>
          rw [hget] at hrow
          refine Or.inl (List.mem_append_left _ (List.mem_map.mpr ⟨(k, value), ?_, rfl⟩))
          exact Std.ExtTreeMap.mem_toList_iff_getElem?_eq_some.mpr hrow

end MultiModelTxn

/-- A rollback that forgets no read. -/
def TxnOp.keepsReads (txn : MultiModelTxn) : TxnOp → Bool
  | .rollbackToSavepoint name => txn.savepoints[name]?.all fun savepoint =>
      txn.readKeys.all (savepoint.readKeys.contains ·) &&
        txn.readRanges.all (savepoint.readRanges.contains ·)
  | _ => true

namespace MultiModelTxn

/-- No rollback of the run forgets a read. -/
def keepsReads (txn : MultiModelTxn) : List TxnOp → Bool
  | [] => true
  | op :: ops => op.keepsReads txn && (txn.exec op).keepsReads ops

theorem exec_spec {op : TxnOp} (hop : op.keepsReads txn = true) : txn.Extends (txn.exec op) ∧
    ∀ record ∈ (txn.exec op).reads, record ∈ txn.reads ∨ (txn.exec op).Tracks record := by
  cases op with
  | read call =>
    obtain ⟨hext, hreads, htracks⟩ := txn.perform_spec call
    refine ⟨⟨hext.read, hext.snapshotId, hext.readKeys, hext.readRanges⟩, fun record h => ?_⟩
    rcases List.mem_cons.mp h with rfl | h
    · exact Or.inr (htracks.mono ⟨rfl, rfl, fun _ => id, fun _ => id⟩)
    · exact Or.inl (hreads ▸ h)
  | queueOps ops => exact ⟨⟨rfl, rfl, fun _ => id, fun _ => id⟩, fun _ => Or.inl⟩
  | savepoint name => exact ⟨⟨rfl, rfl, fun _ => id, fun _ => id⟩, fun _ => Or.inl⟩
  | rollbackToSavepoint name =>
    rw [exec, rollbackToSavepoint]
    rw [TxnOp.keepsReads] at hop
    cases hsavepoint : txn.savepoints[name]? with
    | none => exact ⟨.refl txn, fun _ => Or.inl⟩
    | some savepoint =>
      simp only [hsavepoint, Option.all_some, Bool.and_eq_true, List.all_eq_true,
        List.contains_iff_mem] at hop
      exact ⟨⟨rfl, rfl, hop.1, hop.2⟩, fun _ => Or.inl⟩
  | releaseSavepoint name =>
    rw [exec, releaseSavepoint]
    split
    · exact ⟨⟨rfl, rfl, fun _ => id, fun _ => id⟩, fun _ => Or.inl⟩
    · exact ⟨.refl txn, fun _ => Or.inl⟩

theorem run_tracks {start : MultiModelTxn} (hext : start.Extends txn)
    (h : ∀ record ∈ txn.reads, txn.Tracks record) {ops : List TxnOp}
    (hops : txn.keepsReads ops = true) : start.Extends (ops.foldl exec txn) ∧
      ∀ record ∈ (ops.foldl exec txn).reads, (ops.foldl exec txn).Tracks record := by
  induction ops generalizing txn with
  | nil => exact ⟨hext, h⟩
  | cons op ops ih =>
    rw [keepsReads, Bool.and_eq_true] at hops
    obtain ⟨hstep, hreads⟩ := exec_spec hops.1
    refine ih ⟨hstep.read.trans hext.read, hstep.snapshotId.trans hext.snapshotId,
      fun _ h => hstep.readKeys (hext.readKeys h), fun _ h => hstep.readRanges (hext.readRanges h)⟩
      ?_ hops.2
    intro record hrecord
    exact (hreads record hrecord).elim (fun hold => (h record hold).mono hstep) id

end MultiModelTxn

/-! ## Commits -/

section Commit

variable {s s' : Store} {h h₀ : History} {snapshotId id : TxnId} {env : Env}

/-- No commit after a snapshot has written the row. -/
def Unwritten (h : History) (snapshotId : TxnId) (t : String) (k : Bytes) : Prop :=
  ∀ c ∈ h, snapshotId < c.id → c.writes.get t k = none

theorem TxnInv.unwritten (hinv : TxnInv C s h) {version : TxnId}
    (hversion : lastKeyVersion s t k = .ok version) (hle : version ≤ snapshotId) :
    Unwritten h snapshotId t k := by
  intro c hc hlt
  by_contra hne
  simp only [lastKeyVersion, bind_eq_ok_iff] at hversion
  obtain ⟨vk, hvk, hversion⟩ := hversion
  cases hnewest : newest h t k with
  | none => exact hne (newest_eq_none_iff.mp hnewest c hc)
  | some w =>
    obtain ⟨id, v⟩ := w
    obtain rfl : id = version := by simpa [hinv.version t k vk hvk, hnewest] using hversion
    have hid := (hinv.dense.newest_eq_some_iff.mp hnewest).2 c hc hne
    exact UInt64.not_lt.mpr (UInt64.le_trans hid hle) hlt

theorem History.Dense.lt_id {newer : History} {c : Commit} (hd : Dense (newer ++ h₀))
    (hc : c ∈ newer) : h₀.length < c.id.toNat := by
  induction newer with
  | nil => simp at hc
  | cons c' newer ih =>
    obtain ⟨hid, hd⟩ := hd
    rcases List.mem_cons.mp hc with rfl | hc
    · simp only [List.append_eq, List.length_append] at hid
      omega
    · exact ih hd hc

/-- A row that no commit since a snapshot has written is as it was. -/
theorem TxnInv.get_eq_of_unwritten {read : Store} (hread : TxnInv C read h₀) (hinv : TxnInv C s h)
    (hsuffix : h₀ <:+ h) (hid : snapshotId.toNat = h₀.length) (hrow : ¬ Bookkeeping t k)
    (hunwritten : Unwritten h snapshotId t k) : read.get t k = s.get t k := by
  obtain ⟨newer, rfl⟩ := hsuffix
  have hnewer : newest newer t k = none := by
    refine newest_eq_none_iff.mpr fun c hc => hunwritten c (List.mem_append_left _ hc) ?_
    rw [UInt64.lt_iff_toNat_lt, hid]
    exact hinv.dense.lt_id hc
  rw [newest] at hnewer
  rw [hinv.row t k hrow, hread.row t k hrow, newest, newest, List.findSome?_append, hnewer,
    Option.none_or]

theorem validateTxnRead_eq_ok_iff {writeSet : WriteSet} :
    validateTxnRead s snapshotId writeSet t k = .ok () ↔ writeSet.get t k ≠ none ∨
      ∃ version, lastKeyVersion s t k = .ok version ∧ version ≤ snapshotId := by
  rw [validateTxnRead]
  cases hget : writeSet.get t k with
  | some value => simp [pure_eq_ok_iff]
  | none => simp [bind_eq_ok_iff, guard_eq_ok_iff, pure_eq_ok_iff]

/-- A commit checks the reads and is then a plain commit. -/
theorem MultiModelTxn.exec_of_commit {result : TxnId × Store}
    (h : txn.commit C env s = .ok result) :
    validateSerializableReads s txn.snapshotId txn.readKeys txn.readRanges txn.writeSet = .ok () ∧
      (TxnCall.commitWriteSet txn.snapshotId txn.writeSet).exec C env s = .ok result := by
  simp only [commit] at h
  simp only [TxnCall.exec, commitWriteSet, commitWriteSetAuthorized, bind_eq_ok_iff]
  cases hempty : txn.writeSet.entries.isEmpty with
  | true =>
    simp only [hempty, if_true, bind_eq_ok_iff] at h
    obtain ⟨⟨⟩, hvalid, h⟩ := h
    refine ⟨hvalid, (), validatePublicWriteSet_eq_ok_iff.mpr fun t k v hv => ?_, by simpa using h⟩
    rw [Tables.entries_isEmpty_iff.mp hempty] at hv
    contradiction
  | false =>
    simp only [hempty, Bool.false_eq_true, if_false] at h
    obtain ⟨hpublic, hvalid, hplain⟩ := commitPlain_of_preflight h
    simp only [commitWriteSetWithPreflight, bind_eq_ok_iff] at h
    obtain ⟨⟨⟩, hbegin, -⟩ := h
    exact ⟨hvalid, (), validatePublicWriteSet_eq_ok_iff.mpr hpublic, by
      simpa [hbegin, bind, Except.bind] using hplain⟩

/-- The rows that the checks of a commit accept were not written since the snapshot. -/
theorem MultiModelTxn.unwritten_of_commit {result : TxnId × Store} (hinv : TxnInv C s h)
    (hcommit : txn.commit C env s = .ok result) (hcovers : txn.Covers t k) :
    Unwritten h txn.snapshotId t k ∨ txn.read.get t k = none ∧ s.get t k = none := by
  obtain ⟨hvalid, hexec⟩ := exec_of_commit hcommit
  have hrow : ∀ {t k}, validateTxnRead s txn.snapshotId txn.writeSet t k = .ok () →
      Unwritten h txn.snapshotId t k := by
    intro t k hrow
    rcases validateTxnRead_eq_ok_iff.mp hrow with hwritten | ⟨version, hversion, hle⟩
    · -- a row that the transaction writes passes the check of the commit
      rcases TxnCall.exec_cases hexec with ⟨hempty, -⟩ | ⟨-, -, _, hsnapshot, hsteps⟩
      · exact absurd (Tables.entries_isEmpty_iff.mp hempty t k) hwritten
      · obtain ⟨value, hvalue⟩ := Option.ne_none_iff_exists'.mp hwritten
        obtain ⟨version, hversion, hle⟩ := hsteps.snapshot t k value hvalue
        cases hsnapshot
        exact hinv.unwritten hversion hle
    · exact hinv.unwritten hversion hle
  simp only [validateSerializableReads, List.forM_eq_forM, bind_eq_ok_iff, forM_eq_ok_iff] at hvalid
  obtain ⟨⟨⟩, hkeys, hranges⟩ := hvalid
  rcases hcovers with hkey | ⟨hnone, r, hr, rfl, hin⟩
  · exact Or.inl (hrow (forM_eq_ok_iff.mp hkeys _ hkey))
  · cases hget : s.get r.table k with
    | none => exact Or.inr ⟨hnone, rfl⟩
    | some value => exact Or.inl (hrow (hranges r hr (k, value) (mem_range.mpr ⟨hget, hin⟩)))

theorem TxnRun.suffix_step (r : TxnRun) (call : Env × TxnCall) :
    r.history <:+ (r.step C call).history := by
  rw [TxnRun.step]
  split
  · exact List.suffix_rfl
  · split
    · exact List.suffix_rfl
    · exact List.suffix_cons _ _

end Commit

/-- A transaction begins after any commits, reads, stages and rolls back without forgetting a
read, and commits after any other commits.  Its commit is a plain one, so the other commits may
be those of transactions.  Each of its reads returns what it would return right before the
commit, over what was staged. -/
theorem serializable_reads (C : Codecs) (before during : List (Env × TxnCall))
    (start : MultiModelTxn) (hstart : MultiModelTxn.begin (runTxns C before).store = .ok start)
    (ops : List TxnOp) (hops : start.keepsReads ops = true) (env : Env) (result : TxnId × Store) :
    let r := during.foldl (TxnRun.step C) (runTxns C before)
    let txn := ops.foldl MultiModelTxn.exec start
    txn.commit C env r.store = .ok result →
      (TxnCall.commitWriteSet txn.snapshotId txn.writeSet).exec C env r.store = .ok result ∧
      ∀ record ∈ txn.reads, record.call.table ∉ txnMetaTable :: bookkeepingTables →
        record.answer = record.call.answer r.store record.staged := by
  intro r txn hcommit
  have hread := runTxns_inv C before
  obtain ⟨current, hcurrent, hlen⟩ := hread.current
  obtain rfl : MultiModelTxn.mk current (runTxns C before).store .empty [] [] ∅ [] = start := by
    simpa [MultiModelTxn.begin, hcurrent, pure_eq_ok_iff] using hstart
  obtain ⟨hinv, hsuffix⟩ : TxnInv C r.store r.history ∧ (runTxns C before).history <:+ r.history :=
    List.foldlRecOn (motive := fun r : TxnRun =>
        TxnInv C r.store r.history ∧ (runTxns C before).history <:+ r.history) _ _
      ⟨hread, List.suffix_rfl⟩
      fun r h call _ => ⟨TxnRun.step_inv h.1 call, h.2.trans (r.suffix_step call)⟩
  obtain ⟨hext, htracks⟩ := MultiModelTxn.run_tracks (.refl _) (by simp) hops
  refine ⟨(MultiModelTxn.exec_of_commit hcommit).2, fun record hrecord htable => ?_⟩
  have hrecord := htracks record hrecord
  refine hrecord.answer.trans (TxnRead.answer_congr fun k hk hstaged => ?_)
  rcases MultiModelTxn.unwritten_of_commit hinv hcommit (hrecord.covers k hk hstaged) with
    hunwritten | ⟨hnone, hstore⟩
  · rw [hext.snapshotId] at hunwritten
    rw [hext.read]
    refine hread.get_eq_of_unwritten hinv hsuffix hlen (fun hbook => htable ?_) hunwritten
    exact hbook.elim (List.mem_cons_of_mem _) fun hmeta => hmeta.1 ▸ List.mem_cons_self
  · rw [hnone, hstore]

private def putDocs (key value : UInt8) : Env × TxnCall :=
  (epochEnv, .commitOpsAtCurrent [.put "docs" [key] [value]])

/-- A row beyond the range that was read may change before the commit. -/
theorem serializable_reads_sample :
    let r := [putDocs 9 4].foldl (TxnRun.step wireCodecs) (runTxns wireCodecs [putDocs 1 5])
    let start : MultiModelTxn :=
      { snapshotId := 1, read := (runTxns wireCodecs [putDocs 1 5]).store }
    let txn := MultiModelTxn.exec (start.queueOps [.put "docs" [2] [7]])
      (.read (.rangeRaw "docs" [] [5]))
    (∃ result, txn.commit wireCodecs epochEnv r.store = .ok result) ∧
      ∀ record ∈ txn.reads, record.answer = .rows [([1], [5]), ([2], [7])] ∧
        record.answer = record.call.answer r.store record.staged := by
  intro r start txn
  have hcurrent : currentTxnIdFrom (runTxns wireCodecs [putDocs 1 5]).store = .ok 1 := by
    decide +kernel
  have hsome : (txn.commit wireCodecs epochEnv r.store).toOption.isSome = true := by decide +kernel
  have hreads : ∀ record ∈ txn.reads, record.answer = .rows [([1], [5]), ([2], [7])] ∧
      record.call.table ∉ txnMetaTable :: bookkeepingTables := by decide +kernel
  cases hresult : txn.commit wireCodecs epochEnv r.store with
  | error e => simp [hresult, Except.toOption] at hsome
  | ok result =>
    have hstart : MultiModelTxn.begin (runTxns wireCodecs [putDocs 1 5]).store = .ok start := by
      rw [MultiModelTxn.begin, hcurrent]
      rfl
    have h := (serializable_reads wireCodecs [putDocs 1 5] [putDocs 9 4] start hstart
      [.queueOps [.put "docs" [2] [7]], .read (.rangeRaw "docs" [] [5])] rfl epochEnv result
      hresult).2
    exact ⟨⟨result, rfl⟩, fun record hrecord =>
      ⟨(hreads record hrecord).1, h record hrecord (hreads record hrecord).2⟩⟩

end MultiDb
