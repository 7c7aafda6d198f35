import MultiDb.Model.WireRecords
import MultiDb.Verification.DistTxn.Participant
import MultiDb.Verification.Txn.KeyRanges

/-!
# Locks in a range

The lock rows between the version keys of the ends of a range are the locks of the table's
own keys in the range.
-/

namespace MultiDb

open Shared

variable {C : Codecs} {s : Store} {t : String} {start stop : Bytes}

/-- The bytes in front of the version keys of a table. -/
def tableFront (t : String) : Bytes :=
  be64 (UInt64.ofNat (strBytes t).length) ++ strBytes t

theorem hasRangeLocks_eq_ok_iff (ht : tableIsReserved t = false) {locked : Bool} :
    hasRangeLocks s t start stop = .ok locked ↔
      rejectLegacyPrepares s = .ok () ∧ (strBytes t).length < 2 ^ 64 ∧
        (!(range s locksTable (tableFront t ++ start)
          (if stop.isEmpty then rangeEnd (tableFront t) else tableFront t ++ stop)).isEmpty) =
            locked := by
  by_cases hstop : stop.isEmpty
  · simp only [hasRangeLocks, ht, hstop, Bool.false_eq_true, if_false, if_true, bind_eq_ok_iff,
      map_eq_ok_iff, pure_eq_ok_iff, versionKey_eq_ok_iff, List.append_nil, tableFront]
    grind
  · simp only [hasRangeLocks, ht, hstop, Bool.false_eq_true, if_false, bind_eq_ok_iff,
      pure_eq_ok_iff, versionKey_eq_ok_iff, tableFront]
    grind

theorem hasRangeLocks_eq_false_iff (ht : tableIsReserved t = false) :
    hasRangeLocks s t start stop = .ok false ↔
      rejectLegacyPrepares s = .ok () ∧ (strBytes t).length < 2 ^ 64 ∧
        range s locksTable (tableFront t ++ start)
          (if stop.isEmpty then rangeEnd (tableFront t) else tableFront t ++ stop) = [] := by
  rw [hasRangeLocks_eq_ok_iff ht, Bool.not_eq_false', List.isEmpty_iff]

theorem keyInRange_whole {whole start stop key : Bytes}
    (h : keyInRange (whole ++ start)
      (if stop.isEmpty then rangeEnd whole else whole ++ stop) key = true) :
    keyInRange whole (rangeEnd whole) key = true := by
  rw [keyInRange, Bool.and_eq_true, Bool.or_eq_true] at h ⊢
  obtain ⟨hstart, hstop⟩ := h
  have hwhole : (compare whole (whole ++ start)).isLE = true := by
    have hle := compare_append_left whole [] start
    rw [List.append_nil] at hle
    rw [hle]
    cases start <;> rfl
  refine ⟨Std.TransCmp.isLE_trans hwhole hstart, ?_⟩
  split at hstop
  · exact hstop
  · rename_i hne
    cases hsucc : successor whole with
    | none => simp [rangeEnd, hsucc]
    | some stop' =>
      have hempty : (whole ++ stop).isEmpty = false := by
        cases stop with
        | nil => simp at hne
        | cons b bs => simp
      have hlt : compare key (whole ++ stop) = .lt := by
        simpa [hempty, Ordering.isLT_iff_eq_lt] using hstop
      have hend : compare key stop' = .lt :=
        Std.TransCmp.lt_trans hlt (compare_append_successor hsucc stop)
      simp [rangeEnd, hsucc, hend]

theorem keyInRange_front {front start stop : Bytes} (key : Bytes) :
    keyInRange (front ++ start) (if stop.isEmpty then rangeEnd front else front ++ stop)
      (front ++ key) = keyInRange start stop key := by
  cases stop with
  | nil =>
    simp only [List.isEmpty_nil, if_true, keyInRange, Bool.true_or, Bool.and_true,
      compare_append_left]
    cases hsucc : successor front with
    | none => simp [rangeEnd, hsucc]
    | some stop => simp [rangeEnd, hsucc, compare_append_successor hsucc key]
  | cons b bs =>
    have hempty : (front ++ b :: bs).isEmpty = false := by cases front <;> rfl
    simp only [List.isEmpty_cons, Bool.false_eq_true, if_false, keyInRange, hempty,
      compare_append_left]

theorem hasRangeLocks_eq_true_iff (ht : tableIsReserved t = false) :
    hasRangeLocks s t start stop = .ok true ↔
      rejectLegacyPrepares s = .ok () ∧ (strBytes t).length < 2 ^ 64 ∧
        ∃ key, keyInRange start stop key = true ∧
          s.get locksTable (tableFront t ++ key) ≠ none := by
  rw [hasRangeLocks_eq_ok_iff ht, Bool.not_eq_true', ← Bool.not_eq_true, List.isEmpty_iff, range,
    Tables.scan_eq_nil_iff]
  refine and_congr_right fun _ => and_congr_right fun _ => ?_
  constructor
  · intro h
    simp only [not_forall] at h
    obtain ⟨lock, hin, hlocked⟩ := h
    -- a lock key between the bounds starts with the front of the table
    obtain ⟨key, rfl⟩ := keyInRange_rangeEnd_iff.mp (keyInRange_whole hin)
    exact ⟨key, (keyInRange_front key).symm.trans hin, hlocked⟩
  · rintro ⟨key, hin, hlocked⟩ h
    exact hlocked (h _ ((keyInRange_front key).trans hin))

theorem hasRangeLocks_whole (ht : tableIsReserved t = false)
    (h : hasRangeLocks s t [] [] = .ok false) (start stop : Bytes) :
    hasRangeLocks s t start stop = .ok false := by
  obtain ⟨hlegacy, hlength, hnone⟩ := (hasRangeLocks_eq_false_iff ht).mp h
  rw [List.append_nil] at hnone
  refine (hasRangeLocks_eq_false_iff ht).mpr ⟨hlegacy, hlength, ?_⟩
  exact Tables.scan_eq_nil_iff.mpr fun key hin =>
    Tables.scan_eq_nil_iff.mp hnone key (keyInRange_whole hin)

theorem hasRangeLocks_later {later : Bytes} (ht : tableIsReserved t = false)
    (h : hasRangeLocks s t start stop = .ok false) (hle : (compare start later).isLE = true) :
    hasRangeLocks s t later stop = .ok false := by
  obtain ⟨hlegacy, hlength, hnone⟩ := (hasRangeLocks_eq_false_iff ht).mp h
  refine (hasRangeLocks_eq_false_iff ht).mpr ⟨hlegacy, hlength, ?_⟩
  refine Tables.scan_eq_nil_iff.mpr fun key hin => Tables.scan_eq_nil_iff.mp hnone key ?_
  rw [keyInRange, Bool.and_eq_true] at hin ⊢
  refine ⟨Std.TransCmp.isLE_trans ?_ hin.1, hin.2⟩
  rw [compare_append_left]
  exact hle

theorem singleNode_range_eq_ok_iff {rows : List (Bytes × Bytes)} :
    SingleNode.range s t start stop = .ok rows ↔
      hasRangeLocks s t start stop = .ok false ∧ rows = range s t start stop := by
  rw [SingleNode.range, validateReadRange]
  cases hasRangeLocks s t start stop with
  | error e => simp [bind, Except.bind, Except.mapError]
  | ok locked =>
    cases locked with
    | true => simp [bind, Except.bind, Except.mapError]
    | false =>
      simp only [true_and]
      exact ⟨fun h => (Except.ok.inj h).symm, fun h => congrArg Except.ok h.symm⟩

theorem range_of_unlocked (ht : tableIsReserved t = false) (h : hasRangeLocks s t [] [] = .ok false)
    (start stop : Bytes) : SingleNode.range s t start stop = .ok (range s t start stop) :=
  singleNode_range_eq_ok_iff.mpr ⟨hasRangeLocks_whole ht h start stop, rfl⟩

theorem read_of_unlocked (ht : tableIsReserved t = false) (h : hasRangeLocks s t [] [] = .ok false)
    (key : Bytes) : SingleNode.read s t key = .ok (s.get t key) := by
  obtain ⟨hlegacy, hlength, hnone⟩ := (hasRangeLocks_eq_false_iff ht).mp h
  rw [List.append_nil] at hnone
  have hkey : versionKey t key = .ok (tableFront t ++ key) :=
    versionKey_eq_ok_iff.mpr ⟨hlength, rfl⟩
  have hfree : s.get locksTable (tableFront t ++ key) = none :=
    Tables.scan_eq_nil_iff.mp hnone _ (keyInRange_rangeEnd_iff.mpr (List.prefix_append _ _))
  have hvalid : validateReadKey s t key = .ok () := by
    rw [validateReadKey, if_neg (by simp [ht]), hlegacy, hkey]
    simp [bind, Except.bind, hfree, pure, Except.pure]
  rw [SingleNode.read, hvalid]
  rfl

theorem LockInv.get_locks_ne_none_iff (h : LockInv C s) (hlength : (strBytes t).length < 2 ^ 64)
    (key : Bytes) : s.get locksTable (tableFront t ++ key) ≠ none ↔
      ∃ record v, Prepared C s record ∧ record.rows.get t key = some v := by
  have hlock : versionKey t key = .ok (tableFront t ++ key) :=
    versionKey_eq_ok_iff.mpr ⟨hlength, rfl⟩
  constructor
  · intro hlocked
    obtain ⟨owner, howner⟩ := Option.ne_none_iff_exists'.mp hlocked
    obtain ⟨record, hprepared, -, t', key', v, hrow, hlock'⟩ := (h.lock _ owner).mp howner
    obtain ⟨rfl, rfl⟩ := versionKey_inj hlock hlock'
    exact ⟨record, v, hprepared, hrow⟩
  · intro ⟨record, v, hprepared, hrow⟩
    rw [(h.lock _ _).mpr ⟨record, hprepared, rfl, t, key, v, hrow, hlock⟩]
    simp

/-- A prepared transaction writes a row in the range, where an empty `stop` is no bound. -/
def LockedIn (C : Codecs) (s : Store) (t : String) (start stop : Bytes) : Prop :=
  ∃ record key v, Prepared C s record ∧ record.rows.get t key = some v ∧
    (compare start key).isLE ∧ (stop = [] ∨ compare key stop = .lt)

/-- A range has locks when a prepared transaction writes into it. -/
theorem LockInv.hasRangeLocks_eq_true_iff (h : LockInv C s) :
    hasRangeLocks s t start stop = .ok true ↔ LockedIn C s t start stop := by
  by_cases ht : tableIsReserved t = true
  · -- prepares take public rows only
    have hanswer : hasRangeLocks s t start stop = .ok false := by
      rw [hasRangeLocks, if_pos ht]
      rfl
    rw [hanswer]
    refine iff_of_false (by simp) ?_
    rintro ⟨record, key, v, hprepared, hrow, -⟩
    rw [hprepared.public t key v hrow] at ht
    contradiction
  · rw [Bool.not_eq_true] at ht
    rw [MultiDb.hasRangeLocks_eq_true_iff ht]
    simp only [h.rejectLegacyPrepares_eq, true_and]
    constructor
    · rintro ⟨hlength, key, hin, hlocked⟩
      obtain ⟨record, v, hprepared, hrow⟩ := (h.get_locks_ne_none_iff hlength key).mp hlocked
      refine ⟨record, key, v, hprepared, hrow, ?_⟩
      simpa [keyInRange, Ordering.isLT_iff_eq_lt] using hin
    · rintro ⟨record, key, v, hprepared, hrow, hin⟩
      obtain ⟨lock, hlock⟩ := h.address record t key v hprepared hrow
      have hlength := (versionKey_eq_ok_iff.mp hlock).1
      refine ⟨hlength, key, ?_, (h.get_locks_ne_none_iff hlength key).mpr
        ⟨record, v, hprepared, hrow⟩⟩
      simpa [keyInRange, Ordering.isLT_iff_eq_lt] using hin

theorem LockInv.exists_hasRangeLocks (h : LockInv C s) (hlength : (strBytes t).length < 2 ^ 64) :
    ∃ locked, hasRangeLocks s t start stop = .ok locked := by
  by_cases ht : tableIsReserved t = true
  · refine ⟨false, ?_⟩
    rw [hasRangeLocks, if_pos ht]
    rfl
  · rw [Bool.not_eq_true] at ht
    exact ⟨_, (hasRangeLocks_eq_ok_iff ht).mpr ⟨h.rejectLegacyPrepares_eq, hlength, rfl⟩⟩

/-- The test of a range is true exactly when a prepared transaction writes a row in it. -/
theorem range_lock_test_exact (C : Codecs) (calls : List (Env × NodeCall)) (t : String)
    (start stop : Bytes) :
    (hasRangeLocks (runNode C calls) t start stop = .ok true ↔
      LockedIn C (runNode C calls) t start stop) ∧
    ((strBytes t).length < 2 ^ 64 →
      ∃ locked, hasRangeLocks (runNode C calls) t start stop = .ok locked) := by
  have hinv := lockInv_runNode C calls
  exact ⟨hinv.hasRangeLocks_eq_true_iff, hinv.exists_hasRangeLocks⟩

def preparedCodecs : Codecs :=
  { wireCodecs with
    prepared := .ofTable
      [({ version := 1, txnId := 7, ops := [.put "a" [0xff, 0xff] [1]], preparedAtMs := 0,
          deadlineMs := 30000, retryCount := 0 },
        strBytes ("\x7b\"version\":1,\"txn_id\":7,\"ops\":[\x7b\"Put\":\x7b\"table\":\"a\"," ++
          "\"key\":[255,255],\"value\":[1]\x7d\x7d],\"prepared_at_ms\":0," ++
          "\"deadline_ms\":30000,\"retry_count\":0\x7d"))] (by decide) }

/-- A transaction is prepared on the key `ff ff` of `a`: the test finds it there and not in `ab`. -/
theorem range_lock_test_exact_sample :
    let s := runNode preparedCodecs [(epochEnv, .prepareDistTxn 7 [.put "a" [0xff, 0xff] [1]])]
    LockedIn preparedCodecs s "a" [0xff] [] ∧ ¬ LockedIn preparedCodecs s "a" [] [0xff, 0xff] ∧
      ¬ LockedIn preparedCodecs s "ab" [] [] ∧
      ∃ locked, hasRangeLocks s "ab" [] [] = .ok locked := by
  intro s
  have hexact := range_lock_test_exact preparedCodecs
    [(epochEnv, .prepareDistTxn 7 [.put "a" [0xff, 0xff] [1]])]
  obtain ⟨hfound, hbelow, hother, hfits⟩ : hasRangeLocks s "a" [0xff] [] = .ok true ∧
      hasRangeLocks s "a" [] [0xff, 0xff] ≠ .ok true ∧ hasRangeLocks s "ab" [] [] ≠ .ok true ∧
      (strBytes "ab").length < 2 ^ 64 := by
    decide +kernel
  rw [← (hexact "a" [0xff] []).1, ← (hexact "a" [] [0xff, 0xff]).1, ← (hexact "ab" [] []).1]
  exact ⟨hfound, hbelow, hother, (hexact "ab" [] []).2 hfits⟩

end MultiDb
