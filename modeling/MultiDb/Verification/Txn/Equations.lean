import MultiDb.Model.Txn

/-!
# Computation rules of the transaction layer

Row addresses are injective, and stored records are read back as they were written.
-/

namespace MultiDb

open Shared

variable {bytes : Bytes} {table : String}

@[simp] theorem decodeTxnId_encodeTxnId (id : TxnId) : decodeTxnId (encodeTxnId id) = .ok id := by
  simp [decodeTxnId, encodeTxnId]

theorem decodeTxnId_eq_ok_iff {id : TxnId} :
    decodeTxnId bytes = .ok id ↔ bytes = encodeTxnId id := by
  rw [encodeTxnId, ← ofBe64?_eq_some_iff, decodeTxnId]
  cases ofBe64? bytes <;> simp

@[simp] theorem encodeTxnId_inj {a b : TxnId} : encodeTxnId a = encodeTxnId b ↔ a = b :=
  be64_inj

theorem checkedSucc_eq_some_iff {id next : TxnId} :
    checkedSucc id = some next ↔ next.toNat = id.toNat + 1 := by
  have hnext := next.toNat_lt
  rw [checkedSucc]
  split
  · rename_i h
    rw [Option.some_inj, ← UInt64.toNat_inj, UInt64.toNat_ofNat', Nat.mod_eq_of_lt h, eq_comm]
  · rename_i h
    simp only [reduceCtorEq, false_iff]
    omega

theorem versionKey_eq_ok_iff {key bytes : Bytes} :
    versionKey table key = .ok bytes ↔ (strBytes table).length < 2 ^ 64 ∧
      bytes = be64 (UInt64.ofNat (strBytes table).length) ++ strBytes table ++ key := by
  rw [versionKey]
  split
  · rename_i h
    simp only [h, true_and, Except.ok.injEq, eq_comm]
  · rename_i h
    simp only [h, false_and, reduceCtorEq]

/-- The length in front of the table name makes version keys injective. -/
theorem versionKey_inj {t t' : String} {k k' bytes : Bytes} (h : versionKey t k = .ok bytes)
    (h' : versionKey t' k' = .ok bytes) : t = t' ∧ k = k' := by
  obtain ⟨hlt, hb⟩ := versionKey_eq_ok_iff.mp h
  obtain ⟨hlt', hb'⟩ := versionKey_eq_ok_iff.mp h'
  rw [hb, List.append_assoc, List.append_assoc, append_inj_of_length (by simp)] at hb'
  obtain ⟨hlen, hrest⟩ := hb'
  have hlens : (strBytes t).length = (strBytes t').length := by
    have := congrArg UInt64.toNat (be64_inj.mp hlen)
    simpa only [UInt64.toNat_ofNat', Nat.mod_eq_of_lt hlt, Nat.mod_eq_of_lt hlt'] using this
  obtain ⟨ht, hk⟩ := (append_inj_of_length hlens).mp hrest
  exact ⟨strBytes_inj.mp ht, hk⟩

theorem mvccKey_eq_ok_iff {key bytes : Bytes} {id : TxnId} :
    mvccKey table key id = .ok bytes ↔
      ∃ vk, versionKey table key = .ok vk ∧ bytes = vk ++ be64 id := by
  simp only [mvccKey, bind_eq_ok_iff, pure_eq_ok_iff, @eq_comm _ bytes]

theorem mvccKey_inj {t t' : String} {k k' bytes : Bytes} {id id' : TxnId}
    (h : mvccKey t k id = .ok bytes) (h' : mvccKey t' k' id' = .ok bytes) :
    t = t' ∧ k = k' ∧ id = id' := by
  obtain ⟨vk, hvk, hb⟩ := mvccKey_eq_ok_iff.mp h
  obtain ⟨vk', hvk', hb'⟩ := mvccKey_eq_ok_iff.mp h'
  rw [hb] at hb'
  obtain ⟨heq, hid⟩ := List.append_inj' hb' (by simp)
  subst heq
  obtain ⟨ht, hk⟩ := versionKey_inj hvk hvk'
  exact ⟨ht, hk, be64_inj.mp hid⟩

theorem exists_mvccKey {t : String} {k vk : Bytes} (h : versionKey t k = .ok vk) (id : TxnId) :
    mvccKey t k id = .ok (vk ++ be64 id) :=
  mvccKey_eq_ok_iff.mpr ⟨vk, h, rfl⟩

theorem validatePublicTable_eq_ok_iff :
    validatePublicTable table = .ok () ↔ tableIsReserved table = false := by
  rw [validatePublicTable]
  split <;> simp_all

theorem validatePublicOps_eq_ok_iff {ops : List Op} :
    validatePublicOps ops = .ok () ↔ ∀ op ∈ ops, tableIsReserved op.table = false := by
  simp only [validatePublicOps, List.forM_eq_forM, forM_eq_ok_iff, validatePublicTable_eq_ok_iff]

/-- The writes touch user tables only. -/
def PublicWrites (writes : WriteSet) : Prop :=
  ∀ t k v, writes.get t k = some v → tableIsReserved t = false

theorem validatePublicWriteSet_eq_ok_iff {writes : WriteSet} :
    validatePublicWriteSet writes = .ok () ↔ PublicWrites writes := by
  simp only [validatePublicWriteSet, List.forM_eq_forM, forM_eq_ok_iff,
    validatePublicTable_eq_ok_iff]
  exact Tables.forall_mem_entries (P := fun t _ _ => tableIsReserved t = false)

theorem decodeBinaryExact_of_encode {α : Type} {codec : Postcard α} {record : α}
    (h : encodeWith codec.toAllocvec record = .ok bytes) (context : String) :
    decodeBinaryExact codec bytes context = .ok record := by
  have henc : codec.toAllocvec record = .ok bytes := mapError_eq_ok_iff.mp h
  simp [decodeBinaryExact, codec.take_toAllocvec henc, Except.mapError, bind, Except.bind, pure,
    Except.pure]

variable {C : Codecs}

theorem decodeMvccRecord_of_encode {record : MvccRecord}
    (h : encodeMvccRecord C record = .ok bytes) : decodeMvccRecord C bytes = .ok record :=
  decodeBinaryExact_of_encode h _

theorem decodeHlc_of_encode {stamp : HlcTimestamp}
    (h : encodeHlc C stamp = .ok bytes) : decodeHlc C bytes = .ok stamp :=
  decodeBinaryExact_of_encode h _

theorem decodeCommitLogRecord_of_encode {record : CommitLogRecord}
    (h : encodeCommitLogRecord C record = .ok bytes) :
    decodeCommitLogRecord C bytes = .ok record := by
  obtain ⟨payload, hpayload, rfl⟩ : ∃ payload,
      encodeWith C.commitLog.toAllocvec record = .ok payload ∧
        commitLogBinaryMagic ++ payload = bytes := by
    simpa [encodeCommitLogRecord, bind_eq_ok_iff, pure, Except.pure] using h
  rw [decodeCommitLogRecord, if_pos (by simp), List.drop_left]
  exact decodeBinaryExact_of_encode hpayload _

end MultiDb
