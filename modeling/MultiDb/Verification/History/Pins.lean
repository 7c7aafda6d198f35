import MultiDb.Model.HistoryPins
import MultiDb.Verification.DistTxn.Writers
import MultiDb.Verification.History.Gc

/-!
# Pins and history garbage collection

A run of garbage collection keeps the lock of the registry until its last batch, so its
watermark is at or below every registered pin.
-/

namespace MultiDb

open Shared

variable {grantedAt : Store} {i : ℕ}

/-- The store, the registry, the garbage collection that holds its lock, and the pins so far. -/
structure PinWorld where
  store : Store := .empty
  registry : ActiveSnapshotRegistry := {}
  gc : Option GcRun := none
  pins : List (TxnId × PinStage) := []

namespace PinWorld

/-- Writes, pins and collection batches, in any order. -/
inductive Step
  | write (env : Env) (call : WriterCall)
  | pin (lsn : TxnId)
  | check (i : ℕ)
  | unpin (i : ℕ)
  | gcStart (inputs : GcInputs) (options : HistoryGcOptions)
  | gcBatch (env : Env)

variable (C : Codecs)

/-- One step; while a collection runs, pins neither come nor go. -/
def step (w : PinWorld) : Step → PinWorld
  | .write env call => { w with store := WriterCall.step C w.store (env, call) }
  | .pin lsn =>
    if w.gc.isSome then w
    else
      { w with
        registry := w.registry.pinRetentionLsn lsn
        pins := w.pins ++ [(lsn, .registered)] }
  | .check i =>
    match w.pins[i]? with
    | some (lsn, .registered) => { w with pins := w.pins.set i (lsn, checkPin w.store lsn) }
    | _ => w
  | .unpin i =>
    if w.gc.isSome then w
    else
      match w.pins[i]? with
      | some (lsn, .granted _) | some (lsn, .refused _) =>
        { w with
          registry := w.registry.unpinRetentionLsn lsn
          pins := w.pins.set i (lsn, .dropped) }
      | _ => w
  | .gcStart inputs options =>
    if w.gc.isSome then w
    else
      match planHistoryGc w.store inputs options w.registry with
      | .error _ => w
      | .ok run => { w with gc := run }
  | .gcBatch env =>
    match w.gc with
    | none => w
    | some run =>
      let (store, gc) := run.step C env w.store
      { w with store, gc }

/-- The world after a list of steps. -/
def run (steps : List Step) : PinWorld :=
  steps.foldl (step C) {}

end PinWorld

/-- The write sets that a step of a database commits. -/
def PinWorld.Step.commits (C : Codecs) (s : Store) : PinWorld.Step → List WriteSet
  | .write env call => [WriterCall.committed C s (env, call)].filter (!·.entries.isEmpty)
  | _ => []

/-- What a step of a database does to its store and to its garbage collection. -/
inductive StoreEffect (C : Codecs) (db : PinWorld) (step : PinWorld.Step) (db' : PinWorld) : Prop
  | write {env : Env} {call : WriterCall} (hstep : step = .write env call)
      (hstore : db'.store = WriterCall.step C db.store (env, call)) (hgc : db'.gc = db.gc)
  | idle (hstore : db'.store = db.store) (hgc : db'.gc = db.gc)
      (hquiet : step.commits C db.store = [])
  | gcStart {inputs : GcInputs} {options : HistoryGcOptions}
      (hplan : planHistoryGc db.store inputs options db.registry = .ok db'.gc)
      (hstore : db'.store = db.store) (hquiet : step.commits C db.store = [])
  | gcBatch {env : Env} {run : GcRun} (hrun : db.gc = some run)
      (hstore : db'.store = (run.step C env db.store).1)
        (hgc : db'.gc = (run.step C env db.store).2)
      (hquiet : step.commits C db.store = [])

theorem PinWorld.storeEffect (C : Codecs) (db : PinWorld) (step : PinWorld.Step) :
    StoreEffect C db step (db.step C step) := by
  cases step with
  | write env call => exact .write rfl rfl rfl
  | pin lsn =>
    rw [PinWorld.step]
    split <;> exact .idle rfl rfl rfl
  | check i =>
    rw [PinWorld.step]
    split <;> exact .idle rfl rfl rfl
  | unpin i =>
    rw [PinWorld.step]
    split
    · exact .idle rfl rfl rfl
    · split <;> exact .idle rfl rfl rfl
  | gcStart inputs options =>
    rw [PinWorld.step]
    split
    · exact .idle rfl rfl rfl
    · split
      · exact .idle rfl rfl rfl
      · rename_i run hplan
        exact .gcStart hplan rfl rfl
  | gcBatch env =>
    rw [PinWorld.step]
    split
    · exact .idle rfl rfl rfl
    · rename_i run hrun
      exact .gcBatch hrun rfl rfl rfl

/-! ## Snapshot reads -/

variable {C : Codecs} {s s' p : Store} {lsn : TxnId}

/-- The store's history horizon. -/
def HorizonAt (s : Store) (horizon : TxnId) : Prop :=
  (readHistoryMeta s historyHorizonKey).map (·.getD 0) = .ok horizon

/-- Reads at `lsn` return in `s` what they return in `p`. -/
structure SameReads (C : Codecs) (lsn : TxnId) (p s : Store) : Prop where
  asOf : ∀ t k vk, versionKey t k = .ok vk → asOf C s vk lsn = asOf C p vk lsn
  rows : ∀ table rows, rowsAsOfLsn C p table lsn = .ok rows → rowsAsOfLsn C s table lsn = .ok rows

theorem SameReads.refl (C : Codecs) (lsn : TxnId) (s : Store) : SameReads C lsn s s :=
  ⟨fun _ _ _ _ => rfl, fun _ _ h => h⟩

theorem SameReads.trans (h : SameReads C lsn p s) (h' : SameReads C lsn s s') :
    SameReads C lsn p s' :=
  ⟨fun t k vk hvk => (h'.asOf t k vk hvk).trans (h.asOf t k vk hvk),
    fun table rows hrows => h'.rows table rows (h.rows table rows hrows)⟩

theorem ensureHistoryRetained_eq_ok_iff :
    ensureHistoryRetained s lsn = .ok () ↔ ∃ horizon, HorizonAt s horizon ∧ horizon ≤ lsn := by
  simp only [ensureHistoryRetained, bind_eq_ok_iff, mapError_eq_ok_iff]
  constructor
  · rintro ⟨stored, hstored, h⟩
    refine ⟨stored.getD 0, map_eq_ok_iff.mpr ⟨stored, hstored, rfl⟩, ?_⟩
    by_contra hlt
    simp [not_le.mp hlt] at h
  · rintro ⟨horizon, hhorizon, hle⟩
    obtain ⟨stored, hstored, rfl⟩ := map_eq_ok_iff.mp hhorizon
    exact ⟨stored, hstored, by simp [not_lt.mpr hle, pure, Except.pure]⟩

section Commit

variable {writes : WriteSet} {id : TxnId}

theorem CommitEffect.mvcc_eq (h : CommitEffect C s writes id s') {row : Bytes}
    (hrow : ∀ vk, row ≠ vk ++ be64 id) : s'.get txnMvccTable row = s.get txnMvccTable row := by
  refine h.mvcc_kept row fun t k v _ hkey => ?_
  simp only [mvccKey, bind_eq_ok_iff, pure_eq_ok_iff] at hkey
  obtain ⟨vk, -, hkey⟩ := hkey
  exact hrow vk hkey.symm

theorem CommitEffect.horizonAt_iff (h : CommitEffect C s writes id s') (hmeta : LeavesMeta writes)
    {horizon : TxnId} : HorizonAt s' horizon ↔ HorizonAt s horizon := by
  have hkept : s'.get txnMetaTable historyHorizonKey = s.get txnMetaTable historyHorizonKey := by
    rw [h.row _ _ (by decide)]
    cases hget : writes.get txnMetaTable historyHorizonKey with
    | none => rfl
    | some v => exact absurd (hmeta _ v hget) (by decide)
  rw [HorizonAt, readHistoryMeta_congr hkept, HorizonAt]

/-- A later commit leaves a snapshot's reads alone. -/
theorem CommitEffect.sameReads (h : CommitEffect C s writes id s') (hmeta : LeavesMeta writes)
    (hlt : lsn < id) : SameReads C lsn s s' := by
  have hchain : ∀ vk, ∀ v ≤ lsn, chainOf C s' vk v = chainOf C s vk v := by
    intro vk v hv
    rw [chainOf, h.mvcc_eq, chainOf]
    intro vk' heq
    have hid := be64_inj.mp (List.append_inj' heq (by simp)).2
    exact absurd (hid ▸ hv) hlt.not_ge
  have hasOf : ∀ vk, asOf C s' vk lsn = asOf C s vk lsn := fun vk =>
    asOf_eq_of_sees ((sees_asOf C s vk lsn).congr (hchain vk))
  refine ⟨fun t k vk _ => hasOf vk, fun table rows hrows => ?_⟩
  refine rowsAsOfLsn_of_asOf (fun row value hget => ?_) (fun k vk _ => hasOf vk) ?_ hrows
  · by_cases hrow : ∃ vk, row = vk ++ be64 id
    · obtain ⟨vk, rfl⟩ := hrow
      exact Or.inr ⟨vk, id, rfl, hlt⟩
    · exact Or.inl (h.mvcc_eq (fun vk heq => hrow ⟨vk, heq⟩) ▸ hget)
  · simp only [rowsAsOfLsn, bind_eq_ok_iff] at hrows
    obtain ⟨_, hretained, -⟩ := hrows
    rw [ensureHistoryRetained_eq_ok_iff] at hretained ⊢
    exact hretained.imp fun horizon hold => ⟨(h.horizonAt_iff hmeta).mpr hold.1, hold.2⟩

end Commit

/-! ## The registry -/

/-- The pin still holds its snapshot. -/
def PinStage.live : PinStage → Bool
  | .dropped => false
  | _ => true

/-- How many pins hold this snapshot. -/
def liveAt (pins : List (TxnId × PinStage)) (lsn : TxnId) : ℕ :=
  pins.countP fun pin => pin.1 = lsn && pin.2.live

/-- The registry counts the calls that have registered an LSN. -/
def Counts (r : ActiveSnapshotRegistry) (pins : List (TxnId × PinStage)) : Prop :=
  ∀ lsn, r.retentionPins[lsn]?.getD 0 = liveAt pins lsn

section Registry

variable {r : ActiveSnapshotRegistry} {pins : List (TxnId × PinStage)} {stage stage' : PinStage}

theorem counts_pin (h : Counts r pins) (lsn : TxnId) :
    Counts (r.pinRetentionLsn lsn) (pins ++ [(lsn, .registered)]) := by
  intro lsn'
  have hold := h lsn'
  rw [ActiveSnapshotRegistry.pinRetentionLsn, Std.ExtTreeMap.getElem?_insert, liveAt,
    List.countP_append, ← liveAt, List.countP_singleton]
  by_cases heq : lsn = lsn'
  · subst heq
    simp [PinStage.live, hold]
  · simp [heq, hold]

theorem getD_unpin (r : ActiveSnapshotRegistry) (lsn lsn' : TxnId) :
    (r.unpinRetentionLsn lsn).retentionPins[lsn']?.getD 0 =
      r.retentionPins[lsn']?.getD 0 - if lsn = lsn' then 1 else 0 := by
  rw [ActiveSnapshotRegistry.unpinRetentionLsn]
  by_cases heq : lsn = lsn'
  · subst heq
    cases hget : r.retentionPins[lsn]? with
    | none => simp [hget]
    | some count =>
      by_cases hlast : count - 1 = 0
      · simp [hlast]
      · simp [hlast]
  · cases hget : r.retentionPins[lsn]? with
    | none => simp [heq]
    | some count =>
      by_cases hlast : count - 1 = 0
      · simp [hlast, heq, Std.ExtTreeMap.getElem?_erase]
      · simp [hlast, heq, Std.ExtTreeMap.getElem?_insert]

theorem liveAt_set (hi : pins[i]? = some (lsn, stage)) (stage' : PinStage) (lsn' : TxnId) :
    liveAt (pins.set i (lsn, stage')) lsn' + (if lsn = lsn' ∧ stage.live then 1 else 0) =
      liveAt pins lsn' + if lsn = lsn' ∧ stage'.live then 1 else 0 := by
  have hlt : i < pins.length := (List.getElem?_eq_some_iff.mp hi).1
  have hget : pins[i] = (lsn, stage) := (List.getElem?_eq_some_iff.mp hi).2
  have hcount := List.countP_set (p := fun pin : TxnId × PinStage => pin.1 = lsn' && pin.2.live)
    (l := pins) (a := (lsn, stage')) hlt
  have hpos : (if lsn = lsn' ∧ stage.live then 1 else 0) ≤ liveAt pins lsn' := by
    split
    · rename_i hboth
      refine List.countP_pos_iff.mpr ⟨_, List.mem_of_getElem? hi, ?_⟩
      simp [hboth.1, hboth.2]
    · exact Nat.zero_le _
  rw [liveAt] at hpos
  rw [liveAt, hcount, hget, liveAt]
  simp only [Bool.and_eq_true, decide_eq_true_eq]
  omega

theorem counts_check (h : Counts r pins) (hi : pins[i]? = some (lsn, stage))
    (hlive : stage.live = true) (hlive' : stage'.live = true) :
    Counts r (pins.set i (lsn, stage')) := by
  intro lsn'
  have hset := liveAt_set hi stage' lsn'
  simp only [hlive, hlive', and_true] at hset
  rw [h lsn']
  omega

theorem counts_unpin (h : Counts r pins) (hi : pins[i]? = some (lsn, stage))
    (hlive : stage.live = true) :
    Counts (r.unpinRetentionLsn lsn) (pins.set i (lsn, .dropped)) := by
  intro lsn'
  have hset := liveAt_set hi .dropped lsn'
  have hdropped : PinStage.dropped.live = false := rfl
  simp only [hlive, hdropped, Bool.false_eq_true, and_true, and_false, if_false] at hset
  rw [getD_unpin, h lsn']
  omega

theorem Counts.watermark_le (h : Counts r pins) (hpin : (lsn, stage) ∈ pins)
    (hlive : stage.live = true) (current : TxnId) : r.watermark current ≤ lsn := by
  have hpos : 0 < liveAt pins lsn :=
    List.countP_pos_iff.mpr ⟨_, hpin, by simp [hlive]⟩
  have hmem : lsn ∈ r.retentionPins := by
    by_contra hnot
    have hcount := h lsn
    rw [Std.ExtTreeMap.getElem?_eq_none hnot] at hcount
    simp only [Option.getD_none] at hcount
    omega
  have hkey : lsn ∈ r.active.keys ++ r.retentionPins.keys :=
    List.mem_append_right _ (Std.ExtTreeMap.mem_keys.mpr hmem)
  rw [ActiveSnapshotRegistry.watermark]
  cases hmin : (r.active.keys ++ r.retentionPins.keys).min? with
  | none => exact absurd (List.min?_eq_none_iff.mp hmin ▸ hkey) List.not_mem_nil
  | some least => exact (List.min?_eq_some_iff.mp hmin).2 lsn hkey

end Registry

theorem MvccWatermark.limit_le (w : MvccWatermark) (lsn : TxnId) (source : HistoryWatermarkSource) :
    (w.limit lsn source).lsn ≤ w.lsn ∧ (w.limit lsn source).lsn ≤ lsn := by
  rw [MvccWatermark.limit]
  split
  · rename_i hlt
    exact ⟨hlt.le, le_rfl⟩
  · rename_i hge
    exact ⟨le_rfl, not_lt.mp hge⟩

theorem mvccWatermark_le {inputs : GcInputs} {retain : Option UInt64}
    {pins : ActiveSnapshotRegistry} {w : MvccWatermark}
    (h : mvccWatermark s inputs retain pins = .ok w) :
    ∃ current, currentTxnIdFrom s = .ok current ∧ w.lsn ≤ min current (pins.watermark current) := by
  obtain ⟨current, hcurrent, h⟩ := bind_eq_ok_iff.mp h
  refine ⟨current, hcurrent, ?_⟩
  have hpins := MvccWatermark.limit_le
    { current, lsn := current, limitedBy := .currentLsn } (pins.watermark current) .asOfPin
  have htables := List.foldlRecOn (motive := fun w : MvccWatermark =>
      w.lsn ≤ min current (pins.watermark current)) inputs.temporalTables
    (fun w table => if table.keepHistory then
      w.limit table.minLsn (.temporalRetention table.baseTable) else w) (le_min hpins.1 hpins.2)
    (fun w hw table _ => by
      split
      · exact (w.limit_le _ _).1.trans hw
      · exact hw)
  cases retain with
  | none =>
    obtain rfl := pure_eq_ok_iff.mp h
    exact htables
  | some retain =>
    obtain rfl := pure_eq_ok_iff.mp h
    exact (MvccWatermark.limit_le _ _ _).1.trans htables

theorem planHistoryGc_watermark {inputs : GcInputs} {options : HistoryGcOptions}
    {pins : ActiveSnapshotRegistry} {run : GcRun}
    (h : planHistoryGc s inputs options pins = .ok (some run)) :
    ∃ current, currentTxnIdFrom s = .ok current ∧
      run.plan.watermark ≤ min current (pins.watermark current) := by
  rw [planHistoryGc] at h
  split at h
  · simp at h
  · obtain ⟨w, hw, h⟩ := bind_eq_ok_iff.mp h
    split at h
    · simp [pure_eq_ok_iff] at h
    · cases h
      exact mvccWatermark_le hw

/-! ## The invariant -/

/-- What a granted pin is owed: its snapshot reads as when it was granted. -/
structure Held (C : Codecs) (lsn : TxnId) (grantedAt s : Store) : Prop where
  grantedAbove : ∃ horizon, HorizonAt grantedAt horizon ∧ horizon ≤ lsn
  above : ∃ horizon, HorizonAt s horizon ∧ horizon ≤ lsn
  /-- A pin of a snapshot that existed when it was granted keeps its reads. -/
  reads : ∀ current, currentTxnIdFrom grantedAt = .ok current → lsn ≤ current →
    SameReads C lsn grantedAt s ∧ ∃ current, currentTxnIdFrom s = .ok current ∧ lsn ≤ current

/-- The registry counts the pins, and collection stays below them. -/
structure PinInv (C : Codecs) (w : PinWorld) : Prop where
  counts : Counts w.registry w.pins
  watermark : ∀ run, w.gc = some run → ∀ pin ∈ w.pins, pin.2.live = true →
    run.plan.watermark ≤ pin.1
  held : ∀ lsn grantedAt, (lsn, .granted grantedAt) ∈ w.pins → Held C lsn grantedAt w.store

theorem pinInv_init (C : Codecs) : PinInv C {} where
  counts lsn := by simp [liveAt]
  watermark := by simp
  held := by simp

theorem held_of_check (h : checkPin s lsn = .granted grantedAt) : Held C lsn grantedAt s := by
  rw [checkPin] at h
  split at h
  · rename_i hretained
    obtain rfl := PinStage.granted.inj h
    have habove := ensureHistoryRetained_eq_ok_iff.mp hretained
    exact ⟨habove, habove, fun current hcurrent hle => ⟨.refl C lsn s, current, hcurrent, hle⟩⟩
  · contradiction

theorem live_checkPin (s : Store) (lsn : TxnId) : (checkPin s lsn).live = true := by
  rw [checkPin]
  split <;> rfl

theorem Held.commit (h : Held C lsn grantedAt s) (hstep : WriterStep C s s') :
    Held C lsn grantedAt s' := by
  rcases hstep with rfl | ⟨writes, id, hmeta, heffect⟩
  · exact h
  · refine ⟨h.grantedAbove, ?_, fun current hcurrent hle => ?_⟩
    · exact h.above.imp fun horizon hold => ⟨(heffect.horizonAt_iff hmeta).mpr hold.1, hold.2⟩
    · obtain ⟨hreads, now, hnow, hlsn⟩ := h.reads current hcurrent hle
      obtain ⟨now', hnow', hid⟩ := heffect.next
      cases hnow.symm.trans hnow'
      have hlt : lsn < id := by
        rw [UInt64.lt_iff_toNat_lt]
        rw [UInt64.le_iff_toNat_le] at hlsn
        omega
      exact ⟨hreads.trans (heffect.sameReads hmeta hlt), id,
        currentTxnIdFrom_of_get heffect.current, hlt.le⟩

/-- Collection below a pin leaves the pin's reads alone. -/
theorem Held.batch {env : Env} {plan : HistoryGcBatchPlan}
    {outcome : HistoryGcBatchOutcome} (h : Held C lsn grantedAt s) (hplan : plan.watermark ≤ lsn)
    (hbatch : maintenanceGc C env s plan = .ok (outcome, s')) : Held C lsn grantedAt s' := by
  have hkeeps := (maintenanceGc_effect hbatch).keepsHistory
  obtain ⟨old, hold, hle⟩ := historyHorizon_maintenanceGc hbatch
  have hhorizon : outcome.historyHorizon ≤ lsn := by
    obtain ⟨horizon, hat, habove⟩ := h.above
    cases hold.symm.trans hat
    exact hle.trans (max_le habove hplan)
  refine ⟨h.grantedAbove, ⟨_, hkeeps.stored, hhorizon⟩, fun current hcurrent hlsn => ?_⟩
  obtain ⟨hreads, now, hnow, hbelow⟩ := h.reads current hcurrent hlsn
  refine ⟨hreads.trans ⟨fun t k vk hvk => hkeeps.asOf t k vk hvk lsn hhorizon,
    fun table rows => hkeeps.rows table lsn rows hhorizon⟩, now, ?_, hbelow⟩
  rw [hkeeps.current, hnow]

theorem GcRun.step_cases (C : Codecs) (env : Env) (s : Store) (run : GcRun) :
    ((run.step C env s).1 = s ∨ ∃ outcome,
      maintenanceGc C env s run.plan = .ok (outcome, (run.step C env s).1)) ∧
    ∀ run', (run.step C env s).2 = some run' → run'.plan = run.plan := by
  rw [GcRun.step]
  split
  · exact ⟨Or.inl rfl, by simp⟩
  · split
    · exact ⟨Or.inl rfl, by simp⟩
    · rename_i outcome s' hbatch
      split
      · exact ⟨Or.inr ⟨outcome, hbatch⟩, by simp⟩
      · refine ⟨Or.inr ⟨outcome, hbatch⟩, fun run' hrun' => ?_⟩
        cases hrun'
        rfl

/-! ## Steps -/

section Step

variable {w : PinWorld}

theorem PinInv.write (hinv : PinInv C w) (env : Env) (call : WriterCall) :
    PinInv C (w.step C (.write env call)) where
  counts := hinv.counts
  watermark := hinv.watermark
  held lsn grantedAt hpin :=
    (hinv.held lsn grantedAt hpin).commit (WriterCall.writerStep C w.store (env, call))

theorem PinInv.pin (hinv : PinInv C w) (lsn : TxnId) : PinInv C (w.step C (.pin lsn)) := by
  rw [PinWorld.step]
  split
  · exact hinv
  · rename_i hfree
    constructor
    case counts => exact counts_pin hinv.counts lsn
    case watermark =>
      intro run hrun
      have hnone : w.gc = none := by simpa using hfree
      simp [hnone] at hrun
    case held =>
      intro lsn' grantedAt hpin
      rcases List.mem_append.mp hpin with hold | hnew
      · exact hinv.held lsn' grantedAt hold
      · simp at hnew

theorem PinInv.check (hinv : PinInv C w) (i : ℕ) : PinInv C (w.step C (.check i)) := by
  rw [PinWorld.step]
  split
  · rename_i lsn hi
    constructor
    case counts => exact counts_check hinv.counts hi rfl (live_checkPin w.store lsn)
    case watermark =>
      intro run hrun pin hpin hlive
      rcases List.mem_or_eq_of_mem_set hpin with hold | rfl
      · exact hinv.watermark run hrun pin hold hlive
      · exact hinv.watermark run hrun (lsn, .registered) (List.mem_of_getElem? hi) rfl
    case held =>
      intro lsn' grantedAt hpin
      rcases List.mem_or_eq_of_mem_set hpin with hold | hnew
      · exact hinv.held lsn' grantedAt hold
      · obtain ⟨rfl, hgranted⟩ := Prod.mk.inj hnew
        exact held_of_check hgranted.symm
  · exact hinv

theorem PinInv.drop {lsn : TxnId} {stage : PinStage} (hinv : PinInv C w)
    (hfree : w.gc = none) (hi : w.pins[i]? = some (lsn, stage)) (hlive : stage.live = true) :
    PinInv C { w with
      registry := w.registry.unpinRetentionLsn lsn
      pins := w.pins.set i (lsn, .dropped) } := by
  constructor
  case counts => exact counts_unpin hinv.counts hi hlive
  case watermark =>
    intro run hrun
    simp [hfree] at hrun
  case held =>
    intro lsn' grantedAt hpin
    rcases List.mem_or_eq_of_mem_set hpin with hold | hnew
    · exact hinv.held lsn' grantedAt hold
    · simp at hnew

theorem PinInv.unpin (hinv : PinInv C w) (i : ℕ) : PinInv C (w.step C (.unpin i)) := by
  rw [PinWorld.step]
  split
  · exact hinv
  · rename_i hfree
    have hfree : w.gc = none := by simpa using hfree
    split
    · rename_i hi
      exact hinv.drop hfree hi rfl
    · rename_i hi
      exact hinv.drop hfree hi rfl
    · exact hinv

/-- A collection starts below every live pin. -/
theorem PinInv.gcStart (hinv : PinInv C w) (inputs : GcInputs) (options : HistoryGcOptions) :
    PinInv C (w.step C (.gcStart inputs options)) := by
  rw [PinWorld.step]
  split
  · exact hinv
  · split
    · exact hinv
    · rename_i planned hplan
      refine ⟨hinv.counts, fun run hrun pin hpin hlive => ?_, hinv.held⟩
      have hrun : planned = some run := hrun
      subst hrun
      obtain ⟨current, -, hle⟩ := planHistoryGc_watermark hplan
      exact (le_min_iff.mp hle).2.trans (hinv.counts.watermark_le hpin hlive current)

theorem PinInv.gcBatch (hinv : PinInv C w) (env : Env) : PinInv C (w.step C (.gcBatch env)) := by
  rw [PinWorld.step]
  split
  · exact hinv
  · rename_i run hgc
    obtain ⟨hstore, hrest⟩ := GcRun.step_cases C env w.store run
    refine ⟨hinv.counts, fun run' hrun' pin hpin hlive => ?_, fun lsn grantedAt hpin => ?_⟩
    · rw [hrest run' hrun']
      exact hinv.watermark run hgc pin hpin hlive
    · have hheld := hinv.held lsn grantedAt hpin
      rcases hstore with hsame | ⟨outcome, hbatch⟩
      · simpa only [hsame] using hheld
      · exact hheld.batch (hinv.watermark run hgc _ hpin rfl) hbatch

theorem PinInv.step (hinv : PinInv C w) (step : PinWorld.Step) : PinInv C (w.step C step) := by
  cases step with
  | write env call => exact hinv.write env call
  | pin lsn => exact hinv.pin lsn
  | check i => exact hinv.check i
  | unpin i => exact hinv.unpin i
  | gcStart inputs options => exact hinv.gcStart inputs options
  | gcBatch env => exact hinv.gcBatch env

end Step

theorem PinInv.run (C : Codecs) (steps : List PinWorld.Step) : PinInv C (PinWorld.run C steps) :=
  List.foldlRecOn (motive := PinInv C) _ _ (pinInv_init C) fun _ hinv step _ => hinv.step step

/-- While a granted pin is held, the horizon stays at or below it, and reads there stay the same. -/
theorem pinned_history_kept (C : Codecs) (steps : List PinWorld.Step) (lsn : TxnId)
    (grantedAt : Store) (hheld : (lsn, .granted grantedAt) ∈ (PinWorld.run C steps).pins) :
    (∃ horizon, HorizonAt grantedAt horizon ∧ horizon ≤ lsn) ∧
    (∃ horizon, HorizonAt (PinWorld.run C steps).store horizon ∧ horizon ≤ lsn) ∧
    ∀ current, currentTxnIdFrom grantedAt = .ok current → lsn ≤ current →
      (∀ t k vk, versionKey t k = .ok vk →
        asOf C (PinWorld.run C steps).store vk lsn = asOf C grantedAt vk lsn) ∧
      ∀ table rows, rowsAsOfLsn C grantedAt table lsn = .ok rows →
        rowsAsOfLsn C (PinWorld.run C steps).store table lsn = .ok rows := by
  have h := (PinInv.run C steps).held lsn grantedAt hheld
  refine ⟨h.grantedAbove, h.above, fun current hcurrent hle => ?_⟩
  obtain ⟨hreads, -⟩ := h.reads current hcurrent hle
  exact ⟨hreads.asOf, hreads.rows⟩

private def putUser (value : UInt8) : PinWorld.Step :=
  .write epochEnv
    (.node (.proposeBatch [.put relRowsTable (tablePrefixBytes "users" ++ [1]) [value]]))

private def pinnedSteps : List PinWorld.Step :=
  [putUser 7, .pin 1, .check 0, putUser 8,
    .gcStart ⟨[], []⟩ ⟨false, 1, none, none, none⟩, .gcBatch epochEnv]

/-- A granted pin of the world at `lsn` whose stores pass a check. -/
private def anyGranted (w : PinWorld) (lsn : TxnId) (check : Store → Store → Bool) : Bool :=
  w.pins.any fun
    | (lsn', .granted grantedAt) => lsn' = lsn && check grantedAt w.store
    | _ => false

private theorem exists_of_anyGranted {w : PinWorld} {check : Store → Store → Bool}
    (h : anyGranted w lsn check = true) :
    ∃ grantedAt, (lsn, .granted grantedAt) ∈ w.pins ∧ check grantedAt w.store = true := by
  obtain ⟨⟨lsn', stage⟩, hpin, hcheck⟩ := List.any_eq_true.mp h
  cases stage with
  | granted grantedAt =>
    simp only [Bool.and_eq_true, decide_eq_true_eq] at hcheck
    obtain ⟨rfl, hcheck⟩ := hcheck
    exact ⟨grantedAt, hpin, hcheck⟩
  | _ => simp at hcheck

private def readsAt (lsn : TxnId) (rows : List Bytes) (s : Store) : Bool :=
  rowsAsOfLsn wireCodecs s "users" lsn = .ok rows

private def futureSteps : List PinWorld.Step :=
  [.pin 5, .check 0, putUser 7]

private theorem granted_samples :
    anyGranted (PinWorld.run wireCodecs pinnedSteps) 1
      (fun grantedAt _ => currentTxnIdFrom grantedAt = .ok 1 && readsAt 1 [[7]] grantedAt) =
      true ∧
    anyGranted (PinWorld.run wireCodecs futureSteps) 5
      (fun grantedAt s => readsAt 5 [] grantedAt && readsAt 5 [[7]] s) = true := by
  decide +kernel

/-- A run with a pin at the first commit, a second commit and a batch. -/
theorem pinned_history_kept_sample : ∃ grantedAt,
    (1, .granted grantedAt) ∈ (PinWorld.run wireCodecs pinnedSteps).pins ∧
      (∃ horizon, HorizonAt (PinWorld.run wireCodecs pinnedSteps).store horizon ∧ horizon ≤ 1) ∧
      rowsAsOfLsn wireCodecs (PinWorld.run wireCodecs pinnedSteps).store "users" 1 = .ok [[7]] := by
  obtain ⟨grantedAt, hpin, hcheck⟩ := exists_of_anyGranted granted_samples.1
  simp only [readsAt, Bool.and_eq_true, decide_eq_true_eq] at hcheck
  obtain ⟨-, habove, hreads⟩ := pinned_history_kept wireCodecs pinnedSteps 1 grantedAt hpin
  exact ⟨grantedAt, hpin, habove, (hreads 1 hcheck.1 le_rfl).2 "users" [[7]] hcheck.2⟩

/-- A pin above the current LSN is granted, and commits up to it change its reads. -/
theorem future_pin_reads_change : ∃ grantedAt,
    (5, .granted grantedAt) ∈ (PinWorld.run wireCodecs futureSteps).pins ∧
      rowsAsOfLsn wireCodecs grantedAt "users" 5 = .ok [] ∧
      rowsAsOfLsn wireCodecs (PinWorld.run wireCodecs futureSteps).store "users" 5 =
        .ok [[7]] := by
  obtain ⟨grantedAt, hpin, hcheck⟩ := exists_of_anyGranted granted_samples.2
  simp only [readsAt, Bool.and_eq_true, decide_eq_true_eq] at hcheck
  exact ⟨grantedAt, hpin, hcheck⟩

end MultiDb
