import MultiDb.Verification.Txn.Replay

/-!
# The order of commit stamps

A live commit gets a new stamp unless the logical counter is at its end while the clock
stands still.
-/

namespace MultiDb

open Shared

variable {a b : HlcTimestamp}

namespace HlcTimestamp

/-- A timestamp as one number. -/
def rank (stamp : HlcTimestamp) : ℕ :=
  stamp.physicalMs.toNat * 2 ^ 32 + stamp.logical.toNat

theorem lt_iff_rank_lt : a.lt b = true ↔ a.rank < b.rank := by
  have ha := a.logical.toNat_lt
  have hb := b.logical.toNat_lt
  simp only [lt, rank, Bool.or_eq_true, Bool.and_eq_true, decide_eq_true_eq,
    UInt64.lt_iff_toNat_lt, UInt32.lt_iff_toNat_lt, ← UInt64.toNat_inj]
  omega

theorem max_eq_left (h : b.rank < a.rank) : a.max b = a :=
  if_pos (lt_iff_rank_lt.mpr h)

theorem max_eq_right (h : a.rank ≤ b.rank) : a.max b = b :=
  if_neg fun hlt => absurd (lt_iff_rank_lt.mp hlt) (by omega)

/-- A tick at `now` moves on: the counter has room, or the clock has passed the physical part. -/
def Advances (stamp : HlcTimestamp) (now : ℤ) : Prop :=
  stamp.logical.toNat + 1 < 2 ^ 32 ∨ stamp.physicalMs < unixMs now

theorem rank_tick_of_advances {stamp : HlcTimestamp} {now : ℤ} (h : stamp.Advances now) :
    stamp.rank < (stamp.tick now).rank := by
  have hlogical := stamp.logical.toNat_lt
  rw [tick]
  by_cases hclock : unixMs now > stamp.physicalMs
  · rw [if_pos hclock]
    rw [gt_iff_lt, UInt64.lt_iff_toNat_lt] at hclock
    simp only [rank, UInt32.toNat_zero]
    omega
  · rw [if_neg hclock]
    have hroom : stamp.logical.toNat + 1 < 2 ^ 32 := h.resolve_right hclock
    have hsucc : (saturatingSucc stamp.logical).toNat = stamp.logical.toNat + 1 := by
      rw [saturatingSucc, if_pos hroom, UInt32.toNat_ofNat_of_lt' hroom]
    simp only [rank, hsucc]
    omega

/-- At the end of the counter a clock that stands still repeats the stamp. -/
theorem tick_of_not_advances {stamp : HlcTimestamp} {now : ℤ} (h : ¬ stamp.Advances now) :
    stamp.tick now = stamp := by
  rw [Advances, not_or] at h
  rw [tick, if_neg h.2, saturatingSucc, if_neg h.1]

end HlcTimestamp

section Records

variable {C : Codecs} {s s' : Store} {record : CommitLogRecord}

theorem storedHlcInTxn_congr (h : ∀ k, s'.get hlcTable k = s.get hlcTable k) :
    storedHlcInTxn C s' = storedHlcInTxn C s := by
  rw [storedHlcInTxn, storedHlcInTxn, h]

/-- What replaying a record does to the stored clock. -/
inductive MergesStamp (C : Codecs) (s : Store) (record : CommitLogRecord) (s' : Store) : Prop
  | legacy (hhlc : record.hlc = none) (hstored : storedHlcInTxn C s' = storedHlcInTxn C s)
  | first (hlc : HlcTimestamp) (hhlc : record.hlc = some hlc)
      (hbefore : storedHlcInTxn C s = .ok none) (hafter : storedHlcInTxn C s' = .ok (some hlc))
  | merged (hlc stored : HlcTimestamp) (hhlc : record.hlc = some hlc)
      (hbefore : storedHlcInTxn C s = .ok (some stored))
      (hafter : storedHlcInTxn C s' = .ok (some (stored.max hlc)))

theorem mergesStamp_of_mergeHlc {s₀ : Store} (hclock : ∀ k, s₀.get hlcTable k = s.get hlcTable k)
    (h : mergeHlc C s₀ record.hlc = .ok s') : MergesStamp C s record s' := by
  cases hhlc : record.hlc with
  | none =>
    rw [hhlc] at h
    cases h
    exact .legacy hhlc (storedHlcInTxn_congr hclock)
  | some hlc =>
    simp only [hhlc, mergeHlc, bind_eq_ok_iff, pure_eq_ok_iff] at h
    obtain ⟨stored, hstored, bytes, hbytes, rfl⟩ := h
    rw [storedHlcInTxn_congr hclock] at hstored
    have hread : ∀ stamp, encodeHlc C stamp = .ok bytes →
        storedHlcInTxn C (s₀.put hlcTable hlcLocalKey bytes) = .ok (some stamp) := by
      intro stamp hstamp
      rw [storedHlcInTxn, Tables.get_put_self]
      simp only [decodeHlc_of_encode hstamp]
      rfl
    cases stored with
    | none => exact .first hlc hhlc hstored (hread hlc hbytes)
    | some stored => exact .merged hlc stored hhlc hstored (hread _ hbytes)

theorem mergesStamp_of_apply (h : applyCommitRecordInTxn C s record = .ok s')
    (hwrites : ∀ write ∈ record.writes, write.table ≠ hlcTable) : MergesStamp C s record s' := by
  simp only [applyCommitRecordInTxn, bind_eq_ok_iff] at h
  obtain ⟨s₁, hrun, log, -, hmerge⟩ := h
  refine mergesStamp_of_mergeHlc (fun k => ?_) hmerge
  rw [Tables.get_put_of_ne fun ht => absurd ht (by decide),
    Tables.get_foldl_put_of_ne strBytes (by decide),
    Tables.get_foldl_put_of_ne strBytes (by decide), get_applyWrites hrun (by decide) (by decide),
    lastWrite_of_not_written fun write hmem ht => absurd ht (hwrites write hmem),
    Tables.get_put_of_ne fun ht => absurd ht (by decide)]

end Records

/-! ## Events -/

/-- A live commit with the rows its caller adds, which leave the clock and the log alone. -/
structure LiveCommit where
  env : Env
  snapshotId : TxnId
  writes : WriteSet
  preflight : Store → Result Store := .ok
  extra : Store → TxnId → Result Store := fun s _ => .ok s
  writes_clock : ∀ k, writes.get hlcTable k = none
  preflight_clock : ∀ s s', preflight s = .ok s' → ∀ k, s'.get hlcTable k = s.get hlcTable k
  extra_clock : ∀ s id s', extra s id = .ok s' → ∀ k, s'.get hlcTable k = s.get hlcTable k
  extra_log : ∀ s id s', extra s id = .ok s' → ∀ k, s'.get commitLogTable k = s.get commitLogTable k

/-- A record whose writes leave the clock row alone. -/
structure ReplayedRecord where
  record : CommitLogRecord
  writes_clock : ∀ write ∈ record.writes, write.table ≠ hlcTable

def LiveCommit.exec (C : Codecs) (s : Store) (commit : LiveCommit) : Result (TxnId × Store) :=
  commitWriteSetInTxnWithExtraAuthorized C commit.env s commit.snapshotId commit.writes
    commit.preflight commit.extra

/-- The record logged for this commit. -/
def loggedRecord (C : Codecs) (s : Store) (id : TxnId) : Option CommitLogRecord :=
  (s.get commitLogTable (encodeTxnId id)).bind fun bytes => (decodeCommitLogRecord C bytes).toOption

inductive ClockEvent
  | live (commit : LiveCommit)
  | replayed (record : ReplayedRecord)

/-- A store, with the records that entered its commit log, oldest first. -/
structure ClockRun where
  store : Store := .empty
  log : List CommitLogRecord := []

/-- One event; the log grows by what was committed. -/
def ClockRun.step (C : Codecs) (run : ClockRun) : ClockEvent → ClockRun
  | .live commit =>
    match commit.exec C run.store with
    | .error _ => run
    | .ok (id, s) => { store := s, log := run.log ++ (loggedRecord C s id).toList }
  | .replayed record =>
    match applyCommitRecordInTxn C run.store record.record with
    | .error _ => run
    | .ok s => { store := s, log := run.log ++ [record.record] }

def runClock (C : Codecs) (events : List ClockEvent) : ClockRun :=
  events.foldl (ClockRun.step C) {}

theorem LiveCommit.exec_spec {C : Codecs} {s s' : Store} {commit : LiveCommit} {id : TxnId}
    (h : commit.exec C s = .ok (id, s')) :
    ∃ stored record, storedHlcInTxn C s = .ok stored ∧ loggedRecord C s' id = some record ∧
      record.hlc = some ((stored.getD {}).tick commit.env.tickedAt) ∧
        MergesStamp C s record s' := by
  simp only [exec, commitWriteSetInTxnWithExtraAuthorized, nextHlcInTxn, bind_eq_ok_iff] at h
  obtain ⟨_, -, _, -, s₀, hpreflight, current, -, h⟩ := h
  cases hnext : checkedSucc current with
  | none => simp [hnext] at h
  | some next =>
    simp only [hnext, bind_eq_ok_iff, pure_eq_ok_iff, Prod.mk.injEq] at h
    obtain ⟨_, ⟨stored, hstored, rfl⟩, s₁, happly, s₂, hextra, _, -, rfl, rfl⟩ := h
    have hclock := commit.preflight_clock s s₀ hpreflight
    obtain ⟨_, log, happlied⟩ := exists_appliedRecord happly
    refine ⟨stored, commitRecord commit.env next commit.writes
      ((stored.getD {}).tick commit.env.tickedAt), storedHlcInTxn_congr hclock ▸
        hstored, ?_, rfl, ?_⟩
    · have hlog : s₁.get commitLogTable (encodeTxnId next) = some log :=
        (happlied.log_row _).trans (if_pos rfl)
      rw [loggedRecord, commit.extra_log _ _ _ hextra, hlog, Option.bind_some,
        decodeCommitLogRecord_of_encode happlied.encoded]
      rfl
    · have hmerges := mergesStamp_of_apply happly ?_
      · have hafter := storedHlcInTxn_congr (C := C) (commit.extra_clock _ _ _ hextra)
        have hbefore := storedHlcInTxn_congr (C := C) hclock
        cases hmerges with
        | legacy hhlc hkept => exact .legacy hhlc (by rw [hafter, hkept, hbefore])
        | first hlc hhlc hnone hsome => exact .first hlc hhlc (hbefore ▸ hnone) (hafter ▸ hsome)
        | merged hlc old hhlc hold hsome =>
          exact .merged hlc old hhlc (hbefore ▸ hold) (hafter ▸ hsome)
      · intro write hmem ht
        have hget := mem_commitLogWrites.mp hmem
        rw [ht, commit.writes_clock] at hget
        contradiction

/-! ## The invariant -/

/-- The persisted stamp is the largest stamp of the log. -/
structure ClockInv (C : Codecs) (run : ClockRun) : Prop where
  bound : ∀ record ∈ run.log, ∀ hlc, record.hlc = some hlc →
    ∃ stored, storedHlcInTxn C run.store = .ok (some stored) ∧ hlc.rank ≤ stored.rank
  attained : ∀ stored, storedHlcInTxn C run.store = .ok (some stored) →
    ∃ record ∈ run.log, record.hlc = some stored

/-- The stored clock does not go back. -/
def StampGrows (C : Codecs) (s s' : Store) : Prop :=
  ∀ stored, storedHlcInTxn C s = .ok (some stored) →
    ∃ stored', storedHlcInTxn C s' = .ok (some stored') ∧ stored.rank ≤ stored'.rank

section Runs

variable {C : Codecs} {run : ClockRun} {s s' : Store} {record : CommitLogRecord}

theorem MergesStamp.grows (h : MergesStamp C s record s') : StampGrows C s s' := by
  intro old hold
  cases h with
  | legacy _ hkept => exact ⟨old, hkept.trans hold, le_rfl⟩
  | first hlc _ hbefore _ =>
    have hnone : some old = none := Except.ok.inj (hold.symm.trans hbefore)
    contradiction
  | merged hlc stored _ hbefore hafter =>
    cases hold.symm.trans hbefore
    refine ⟨_, hafter, ?_⟩
    by_cases hlt : hlc.rank < old.rank
    · rw [HlcTimestamp.max_eq_left hlt]
    · rw [HlcTimestamp.max_eq_right (by omega)]
      omega

theorem MergesStamp.record_le (h : MergesStamp C s record s') {hlc : HlcTimestamp}
    (hhlc : record.hlc = some hlc) :
    ∃ stored, storedHlcInTxn C s' = .ok (some stored) ∧ hlc.rank ≤ stored.rank := by
  cases h with
  | legacy hnone _ =>
    rw [hhlc] at hnone
    contradiction
  | first stamp hstamp _ hafter =>
    cases hhlc.symm.trans hstamp
    exact ⟨hlc, hafter, le_rfl⟩
  | merged stamp stored hstamp _ hafter =>
    cases hhlc.symm.trans hstamp
    refine ⟨_, hafter, ?_⟩
    by_cases hlt : hlc.rank < stored.rank
    · rw [HlcTimestamp.max_eq_left hlt]
      exact hlt.le
    · rw [HlcTimestamp.max_eq_right (by omega)]

theorem MergesStamp.attained (h : MergesStamp C s record s') {stored : HlcTimestamp}
    (hstored : storedHlcInTxn C s' = .ok (some stored)) :
    storedHlcInTxn C s = .ok (some stored) ∨ record.hlc = some stored := by
  cases h with
  | legacy _ hkept => exact Or.inl (hkept.symm.trans hstored)
  | first hlc hhlc _ hafter =>
    cases hafter.symm.trans hstored
    exact Or.inr hhlc
  | merged hlc old hhlc hbefore hafter =>
    cases hafter.symm.trans hstored
    by_cases hlt : hlc.rank < old.rank
    · rw [HlcTimestamp.max_eq_left hlt]
      exact Or.inl hbefore
    · rw [HlcTimestamp.max_eq_right (by omega)]
      exact Or.inr hhlc

theorem ClockInv.append (hinv : ClockInv C run) (h : MergesStamp C run.store record s') :
    ClockInv C { store := s', log := run.log ++ [record] } := by
  constructor
  · intro earlier hmem hlc hhlc
    rcases List.mem_append.mp hmem with hmem | hmem
    · obtain ⟨stored, hstored, hle⟩ := hinv.bound earlier hmem hlc hhlc
      obtain ⟨stored', hstored', hle'⟩ := h.grows stored hstored
      exact ⟨stored', hstored', hle.trans hle'⟩
    · obtain rfl := List.mem_singleton.mp hmem
      exact h.record_le hhlc
  · intro stored hstored
    rcases h.attained hstored with hold | hhlc
    · obtain ⟨earlier, hmem, hearlier⟩ := hinv.attained stored hold
      exact ⟨earlier, List.mem_append_left _ hmem, hearlier⟩
    · exact ⟨record, by simp, hhlc⟩

theorem ClockRun.step_cases (C : Codecs) (run : ClockRun) (event : ClockEvent) :
    run.step C event = run ∨ ∃ record s', MergesStamp C run.store record s' ∧
      run.step C event = { store := s', log := run.log ++ [record] } := by
  cases event with
  | live commit =>
    cases hexec : commit.exec C run.store with
    | error e => exact Or.inl (by simp only [step, hexec])
    | ok result =>
      obtain ⟨_, record, -, hlogged, -, hmerges⟩ := LiveCommit.exec_spec hexec
      refine Or.inr ⟨record, result.2, hmerges, ?_⟩
      simp only [step, hexec, hlogged, Option.toList_some]
  | replayed replayed =>
    cases happly : applyCommitRecordInTxn C run.store replayed.record with
    | error e => exact Or.inl (by simp only [step, happly])
    | ok s' =>
      refine Or.inr ⟨replayed.record, s', mergesStamp_of_apply happly replayed.writes_clock, ?_⟩
      simp only [step, happly]

theorem ClockInv.step (hinv : ClockInv C run) (event : ClockEvent) :
    ClockInv C (run.step C event) ∧ StampGrows C run.store (run.step C event).store := by
  obtain hkept | ⟨record, s', hmerges, heq⟩ := ClockRun.step_cases C run event
  · rw [hkept]
    exact ⟨hinv, fun stored hstored => ⟨stored, hstored, le_rfl⟩⟩
  · rw [heq]
    exact ⟨hinv.append hmerges, hmerges.grows⟩

theorem ClockInv.foldl_step (hinv : ClockInv C run) (events : List ClockEvent) :
    ClockInv C (events.foldl (ClockRun.step C) run) ∧
      StampGrows C run.store (events.foldl (ClockRun.step C) run).store := by
  induction events generalizing run with
  | nil => exact ⟨hinv, fun stored hstored => ⟨stored, hstored, le_rfl⟩⟩
  | cons event events ih =>
    obtain ⟨hstep, hgrows⟩ := hinv.step event
    obtain ⟨hend, hrest⟩ := ih hstep
    refine ⟨hend, fun stored hstored => ?_⟩
    obtain ⟨stored', hstored', hle⟩ := hgrows stored hstored
    obtain ⟨stored'', hstored'', hle'⟩ := hrest stored' hstored'
    exact ⟨stored'', hstored'', hle.trans hle'⟩

theorem clockInv_empty (C : Codecs) : ClockInv C {} where
  bound := by simp
  attained := by
    intro stored hstored
    simp only [storedHlcInTxn, Tables.get_empty, Except.ok.injEq, reduceCtorEq] at hstored

/-- A new stamp is above the log exactly when it advances on the stored one. -/
theorem ClockInv.above_log_iff (hinv : ClockInv C run) {stored : Option HlcTimestamp}
    (hstored : storedHlcInTxn C run.store = .ok stored) (now : ℤ) :
    (∀ earlier ∈ run.log, ∀ hlc, earlier.hlc = some hlc →
        hlc.lt ((stored.getD {}).tick now) = true) ↔
      ∀ stamp, stored = some stamp → stamp.Advances now := by
  cases stored with
  | none =>
    refine ⟨fun _ stamp hstamp => by contradiction, fun _ earlier hmem hlc hhlc => ?_⟩
    obtain ⟨stored, hsome, -⟩ := hinv.bound earlier hmem hlc hhlc
    have hnone := Except.ok.inj (hstored.symm.trans hsome)
    contradiction
  | some stored =>
    constructor
    · intro habove stamp hstamp
      cases hstamp
      by_contra hstuck
      obtain ⟨earlier, hmem, hhlc⟩ := hinv.attained stored hstored
      have hlt := HlcTimestamp.lt_iff_rank_lt.mp (habove earlier hmem stored hhlc)
      rw [Option.getD_some, HlcTimestamp.tick_of_not_advances hstuck] at hlt
      omega
    · intro hadvances earlier hmem hlc hhlc
      obtain ⟨stored', hstored', hle⟩ := hinv.bound earlier hmem hlc hhlc
      cases hstored.symm.trans hstored'
      have hlt := HlcTimestamp.rank_tick_of_advances (hadvances stored rfl)
      exact HlcTimestamp.lt_iff_rank_lt.mpr (by rw [Option.getD_some]; omega)

end Runs

/-- The record of a live commit is above the log exactly if the persisted stamp can move; and the
stamp never decreases. -/
theorem commit_hlc_above_log_iff (C : Codecs) (events : List ClockEvent) :
    let run := runClock C events
    (∀ commit id s', LiveCommit.exec C run.store commit = .ok (id, s') →
      ∃ record hlc, loggedRecord C s' id = some record ∧ record.hlc = some hlc ∧
        ((∀ earlier ∈ run.log, ∀ stamp, earlier.hlc = some stamp → stamp.lt hlc = true) ↔
          ∀ stored, storedHlcInTxn C run.store = .ok (some stored) →
            stored.Advances commit.env.tickedAt)) ∧
    ∀ more stored, storedHlcInTxn C run.store = .ok (some stored) →
      ∃ stored', storedHlcInTxn C (runClock C (events ++ more)).store = .ok (some stored') ∧
        stored'.lt stored = false := by
  have hinv : ClockInv C (runClock C events) := ((clockInv_empty C).foldl_step events).1
  refine ⟨?_, ?_⟩
  · intro commit id s' hexec
    obtain ⟨stored, record, hstored, hlogged, hhlc, -⟩ := LiveCommit.exec_spec hexec
    refine ⟨record, _, hlogged, hhlc, (hinv.above_log_iff hstored _).trans ?_⟩
    rw [hstored]
    simp only [Except.ok.injEq]
  · intro more stored hstored
    obtain ⟨stored', hstored', hle⟩ := (hinv.foldl_step more).2 stored hstored
    refine ⟨stored', ?_, ?_⟩
    · rw [runClock, List.foldl_append]
      exact hstored'
    · rw [Bool.eq_false_iff, Ne, HlcTimestamp.lt_iff_rank_lt]
      omega

def epochCommit : LiveCommit where
  env := epochEnv
  snapshotId := 7
  writes := Tables.empty.put "t" [1] (some [2])
  writes_clock k := by
    rw [Tables.get_put_of_ne fun h => absurd h (by decide), Tables.get_empty]
  preflight_clock := by
    rintro s _ ⟨⟩ k
    rfl
  extra_clock := by
    rintro s _ _ ⟨⟩ k
    rfl
  extra_log := by
    rintro s _ _ ⟨⟩ k
    rfl

def stampedRecord (logical : UInt32) : ReplayedRecord where
  record := { txnId := 1, committedAt := 0, hlc := some { physicalMs := 0, logical }, writes := [] }
  writes_clock := by simp

def loggedStamps (events : List ClockEvent) : List (Option HlcTimestamp) :=
  (runClock wireCodecs events).log.map (·.hlc)

theorem commit_hlc_above_log_sample :
    let run := runClock wireCodecs [.replayed (stampedRecord 4)]
    ∃ id s' record hlc, epochCommit.exec wireCodecs run.store = .ok (id, s') ∧
      loggedRecord wireCodecs s' id = some record ∧ record.hlc = some hlc ∧
      ∀ earlier ∈ run.log, ∀ stamp, earlier.hlc = some stamp → stamp.lt hlc = true := by
  intro run
  have hok : (epochCommit.exec wireCodecs run.store).isOk = true ∧
      storedHlcInTxn wireCodecs run.store = .ok (some { physicalMs := 0, logical := 4 }) := by
    decide +kernel
  cases hexec : epochCommit.exec wireCodecs run.store with
  | error e =>
    rw [hexec] at hok
    exact absurd hok.1 Bool.false_ne_true
  | ok result =>
    obtain ⟨record, hlc, hlogged, hhlc, hiff⟩ :=
      (commit_hlc_above_log_iff wireCodecs [.replayed (stampedRecord 4)]).1 epochCommit
        result.1 result.2 hexec
    refine ⟨result.1, result.2, record, hlc, rfl, hlogged, hhlc, hiff.mpr ?_⟩
    intro stored hstored
    cases hok.2.symm.trans hstored
    exact Or.inl (by decide)

/-- After a replayed record at the end of the counter, a commit repeats its stamp. -/
theorem commit_hlc_repeated :
    loggedStamps [.replayed (stampedRecord 4294967295), .live epochCommit] =
      [some { physicalMs := 0, logical := 4294967295 },
        some { physicalMs := 0, logical := 4294967295 }] := by
  decide +kernel

end MultiDb
