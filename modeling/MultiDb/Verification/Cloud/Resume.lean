import MultiDb.Model.Hibernate

/-!
# A hibernation is resumed at most once

A marker that was deleted or overwritten never comes back, because it carries the lease id of
the hibernation that wrote it.
-/

namespace MultiDb

open Shared

variable {m : HibernateMarker} {process : CloudProcess}

namespace CloudProcess

/-- The lease id of a hibernation that has not written its marker yet. -/
def pending : CloudProcess → Option ℕ
  | .hibernate (.leased lease) | .hibernate (.backedUp lease _ _) => some lease.leaseId
  | _ => none

/-- The marker of a resume that holds its lease and has not returned yet. -/
def restoring : CloudProcess → Option HibernateMarker
  | .resume (.leased marker _) | .resume (.restored marker _ _) => some marker
  | _ => none

/-- The marker a running session was resumed from. -/
def resumed : CloudProcess → Option HibernateMarker
  | .resume (.session marker _ _) | .resume (.closed marker _) => some marker
  | _ => none

/-- The marker of a resume that has taken its lease. -/
def carried (process : CloudProcess) : Option HibernateMarker :=
  process.restoring.or process.resumed

/-- The marker the process acts on. -/
def marker : CloudProcess → Option HibernateMarker
  | .resume (.markerRead marker) => some marker
  | process => process.carried

theorem marker_of_carried (h : process.carried = some m) : process.marker = some m := by
  unfold marker
  split
  · simp [carried, restoring, resumed] at h
  · exact h

theorem carried_of_resumed (h : process.resumed = some m) : process.carried = some m := by
  unfold resumed at h
  split at h
  · simpa [carried, restoring, resumed] using h
  · simpa [carried, restoring, resumed] using h
  · contradiction

theorem resumed_of_carried (h : process.carried = some m)
    (hrestoring : process.restoring ≠ some m) : process.resumed = some m := by
  rw [carried] at h
  cases hr : process.restoring with
  | none => simpa [hr] using h
  | some m' =>
    obtain rfl : m' = m := by simpa [hr] using h
    exact absurd hr hrestoring

end CloudProcess

/-! ## The invariant -/

namespace CloudWorld

variable {J : Json HibernateMarker}

/-- Lease ids identify markers, a consumed marker is gone, and one resume carries a marker. -/
structure ResumeInv (J : Json HibernateMarker) (w : CloudWorld) : Prop where
  pending_lt : ∀ p ∈ w.processes, ∀ id, p.pending = some id → id < w.nextLease
  read_lt : ∀ p ∈ w.processes, ∀ m, p.marker = some m → m.leaseId < w.nextLease
  stored_lt : ∀ m, w.store.hibernationMarker J = .ok m → m.leaseId < w.nextLease
  pending_inj : ∀ (i j : ℕ) p q id, w.processes[i]? = some p → w.processes[j]? = some q →
    p.pending = some id → q.pending = some id → i = j
  unread : ∀ p ∈ w.processes, ∀ id, p.pending = some id →
    ∀ q ∈ w.processes, ∀ m, q.marker = some m → m.leaseId ≠ id
  unwritten : ∀ p ∈ w.processes, ∀ id, p.pending = some id →
    ∀ m, w.store.hibernationMarker J = .ok m → m.leaseId ≠ id
  consumed : ∀ p ∈ w.processes, ∀ m, p.resumed = some m → w.store.hibernationMarker J ≠ .ok m
  once : ∀ (i j : ℕ) p q m, w.processes[i]? = some p → w.processes[j]? = some q →
    p.carried = some m → q.carried = some m → i = j

theorem resumeInv_init (J : Json HibernateMarker) : ResumeInv J {} where
  pending_lt := by simp
  read_lt := by simp
  stored_lt := by simp [CloudStore.hibernationMarker]
  pending_inj := by simp
  unread := by simp
  unwritten := by simp
  consumed := by simp
  once := by simp

/-- What a step of one process may change. -/
structure Moves (J : Json HibernateMarker) (w : CloudWorld) (i : ℕ) (p p' : CloudProcess)
    (w' : CloudWorld) : Prop where
  process : w.processes[i]? = some p
  processes : w'.processes = w.processes.set i p'
  next : w.nextLease ≤ w'.nextLease
  pending : ∀ id, p'.pending = some id →
    p.pending = some id ∨ id = w.nextLease ∧ w.nextLease < w'.nextLease
  read : ∀ m, p'.marker = some m → p.marker = some m ∨ w.store.hibernationMarker J = .ok m
  carried : ∀ m, p'.carried = some m →
    p.carried = some m ∨ ∀ q ∈ w.processes, q.carried ≠ some m
  stored : ∀ m, w'.store.hibernationMarker J = .ok m →
    w.store.hibernationMarker J = .ok m ∨ p.pending = some m.leaseId ∧ p'.pending = none ∧
      p'.marker = none
  resumed : ∀ m, p'.resumed = some m →
    w'.store.hibernationMarker J ≠ .ok m ∨ p.resumed = some m ∧ w'.store.marker = w.store.marker

section Moves

variable {w w' : CloudWorld} {i : ℕ} {p p' : CloudProcess}

theorem Moves.get (h : Moves J w i p p' w') {j : ℕ} {q : CloudProcess}
    (hq : w'.processes[j]? = some q) : j = i ∧ q = p' ∨ j ≠ i ∧ w.processes[j]? = some q := by
  rw [h.processes, List.getElem?_set] at hq
  split at hq
  · rename_i heq
    split at hq
    · exact Or.inl ⟨heq.symm, (Option.some.inj hq).symm⟩
    · contradiction
  · rename_i hne
    exact Or.inr ⟨fun heq => hne heq.symm, hq⟩

theorem Moves.mem (h : Moves J w i p p' w') {q : CloudProcess} (hq : q ∈ w'.processes) :
    q = p' ∨ q ∈ w.processes := by
  rw [h.processes] at hq
  exact (List.mem_or_eq_of_mem_set hq).symm

/-- Any move of one process keeps the invariant. -/
theorem ResumeInv.moves {n : CloudProcess} (hinv : ResumeInv J w)
    (h : Moves J w i p n w') : ResumeInv J w' := by
  have hp : p ∈ w.processes := List.mem_of_getElem? h.process
  -- the lease id that a moved process waits with is its old one or the next one
  have hpending_lt : ∀ id, n.pending = some id → id < w'.nextLease := by
    intro id hid
    have hnext := h.next
    rcases h.pending id hid with hold | ⟨rfl, hlt⟩
    · have := hinv.pending_lt p hp id hold
      omega
    · exact hlt
  have hread_lt : ∀ m, n.marker = some m → m.leaseId < w.nextLease := by
    intro m hm
    rcases h.read m hm with hold | hstored
    · exact hinv.read_lt p hp m hold
    · exact hinv.stored_lt m hstored
  constructor
  case pending_lt =>
    intro q hq id hid
    rcases h.mem hq with rfl | hq
    · exact hpending_lt id hid
    · exact (hinv.pending_lt q hq id hid).trans_le h.next
  case read_lt =>
    intro q hq m hm
    rcases h.mem hq with rfl | hq
    · exact (hread_lt m hm).trans_le h.next
    · exact (hinv.read_lt q hq m hm).trans_le h.next
  case stored_lt =>
    intro m hm
    rcases h.stored m hm with hold | ⟨hid, -⟩
    · exact (hinv.stored_lt m hold).trans_le h.next
    · exact (hinv.pending_lt p hp _ hid).trans_le h.next
  case pending_inj =>
    -- a process that waits with the moved process's id waited with it before
    have hother : ∀ (j : ℕ) q id, j ≠ i → w.processes[j]? = some q → n.pending = some id →
        q.pending ≠ some id := by
      intro j q id hne hq hid hqid
      rcases h.pending id hid with hold | ⟨rfl, -⟩
      · exact hne (hinv.pending_inj j i q p id hq h.process hqid hold)
      · exact absurd (hinv.pending_lt q (List.mem_of_getElem? hq) _ hqid) (lt_irrefl _)
    intro j k q r id hq hr hqid hrid
    rcases h.get hq with ⟨rfl, rfl⟩ | ⟨hj, hq⟩
    · rcases h.get hr with ⟨rfl, -⟩ | ⟨hk, hr⟩
      · rfl
      · exact absurd hrid (hother k r id hk hr hqid)
    · rcases h.get hr with ⟨rfl, rfl⟩ | ⟨hk, hr⟩
      · exact absurd hqid (hother j q id hj hq hrid)
      · exact hinv.pending_inj j k q r id hq hr hqid hrid
  case unread =>
    intro q hq id hid r hr m hm
    have hlt : m.leaseId < w.nextLease := by
      rcases h.mem hr with rfl | hr
      · exact hread_lt m hm
      · exact hinv.read_lt r hr m hm
    have hold : ∀ q ∈ w.processes, q.pending = some id → m.leaseId ≠ id := by
      intro q hq hid
      rcases h.mem hr with rfl | hr
      · rcases h.read m hm with hold | hstored
        · exact hinv.unread q hq id hid p hp m hold
        · exact hinv.unwritten q hq id hid m hstored
      · exact hinv.unread q hq id hid r hr m hm
    rcases h.mem hq with rfl | hq
    · rcases h.pending id hid with hid | ⟨rfl, -⟩
      · exact hold p hp hid
      · exact hlt.ne
    · exact hold q hq hid
  case unwritten =>
    intro q hq id hid m hm
    rcases h.stored m hm with hstored | ⟨hwrite, hnone, -⟩
    · rcases h.mem hq with rfl | hq
      · rcases h.pending id hid with hid | ⟨rfl, -⟩
        · exact hinv.unwritten p hp id hid m hstored
        · exact (hinv.stored_lt m hstored).ne
      · exact hinv.unwritten q hq id hid m hstored
    · rintro rfl
      obtain ⟨j, hj⟩ := List.mem_iff_getElem?.mp hq
      rcases h.get hj with ⟨-, rfl⟩ | ⟨hne, hj⟩
      · simp [hnone] at hid
      · exact hne (hinv.pending_inj j i q p _ hj h.process hid hwrite)
  case consumed =>
    intro q hq m hm
    rcases h.mem hq with rfl | hq
    · rcases h.resumed m hm with hgone | ⟨hold, hsame⟩
      · exact hgone
      · have := hinv.consumed p hp m hold
        rwa [CloudStore.hibernationMarker, hsame]
    · intro hstored
      rcases h.stored m hstored with hold | ⟨hwrite, -⟩
      · exact hinv.consumed q hq m hm hold
      · have hread := CloudProcess.marker_of_carried (CloudProcess.carried_of_resumed hm)
        exact hinv.unread p hp _ hwrite q hq m hread rfl
  case once =>
    have hother : ∀ (j : ℕ) q m, j ≠ i → w.processes[j]? = some q → n.carried = some m →
        q.carried ≠ some m := by
      intro j q m hne hq hm hqm
      rcases h.carried m hm with hold | hnone
      · exact hne (hinv.once j i q p m hq h.process hqm hold)
      · exact hnone q (List.mem_of_getElem? hq) hqm
    intro j k q r m hq hr hqm hrm
    rcases h.get hq with ⟨rfl, rfl⟩ | ⟨hj, hq⟩
    · rcases h.get hr with ⟨rfl, -⟩ | ⟨hk, hr⟩
      · rfl
      · exact absurd hrm (hother k r m hk hr hqm)
    · rcases h.get hr with ⟨rfl, rfl⟩ | ⟨hk, hr⟩
      · exact absurd hqm (hother j q m hj hq hrm)
      · exact hinv.once j k q r m hq hr hqm hrm

theorem Moves.of_same (hp : w.processes[i]? = some p)
    (hprocesses : w'.processes = w.processes.set i p')
    (hnext : w.nextLease ≤ w'.nextLease) (hmarker : w'.store.marker = w.store.marker)
    (hpending : ∀ id, p'.pending = some id → p.pending = some id)
    (hread : ∀ m, p'.marker = some m → p.marker = some m)
    (hcarried : ∀ m, p'.carried = some m → p.carried = some m)
    (hresumed : ∀ m, p'.resumed = some m → p.resumed = some m) : Moves J w i p p' w' where
  process := hp
  processes := hprocesses
  next := hnext
  pending id hid := Or.inl (hpending id hid)
  read m hm := Or.inl (hread m hm)
  carried m hm := Or.inl (hcarried m hm)
  stored m hm := Or.inl (by rwa [CloudStore.hibernationMarker, hmarker] at hm)
  resumed m hm := Or.inr ⟨hresumed m hm, hmarker⟩

theorem Moves.of_nothing (hp : w.processes[i]? = some p)
    (hprocesses : w'.processes = w.processes.set i p')
    (hnext : w.nextLease ≤ w'.nextLease) (hmarker : w'.store.marker = w.store.marker)
    (hpending : p'.pending = none) (hread : p'.marker = none) : Moves J w i p p' w' := by
  have hcarried : ∀ m, p'.carried ≠ some m := by
    intro m hm
    simpa [hread] using CloudProcess.marker_of_carried hm
  refine .of_same hp hprocesses hnext hmarker (by simp [hpending]) (by simp [hread])
    (fun m hm => absurd hm (hcarried m)) fun m hm => ?_
  exact absurd (CloudProcess.carried_of_resumed hm) (hcarried m)

end Moves

/-! ## Leases and markers -/

theorem acquire_marker (env : CloudEnv) (id : ℕ) (store : CloudStore) :
    (CloudLease.acquire env id store).1.marker = store.marker := by
  rw [CloudLease.acquire]
  split
  · rfl
  · split
    · rfl
    · split <;> rfl

theorem leaseId_of_acquire {env : CloudEnv} {id : ℕ} {store store' : CloudStore}
    {lease : CloudLease}
    (h : CloudLease.acquire env id store = (store', .ok lease)) : lease.leaseId = id := by
  rw [CloudLease.acquire] at h
  split at h
  · simp at h
  · split at h
    · simp at h
    · split at h
      · simp at h
      · obtain ⟨-, h⟩ := Prod.mk.inj h
        rw [← Except.ok.inj h]

theorem release_marker (env : CloudEnv) (lease : CloudLease) (store : CloudStore) :
    (lease.release env store).1.marker = store.marker := by
  rw [CloudLease.release]
  split
  · rfl
  · split
    · rfl
    · split <;> rfl

theorem heartbeat_marker (env : CloudEnv) (lease : CloudLease) (ttl : ℤ) (store : CloudStore) :
    (lease.heartbeat env ttl store).1.marker = store.marker := by
  rw [CloudLease.heartbeat]
  split
  · rfl
  · split <;> rfl

theorem fullBackup_marker (env : CloudEnv) (store : CloudStore) :
    (fullBackupToUri env store).1.marker = store.marker := by
  rw [fullBackupToUri]
  split <;> rfl

theorem writeHibernationMarker_cases (env : CloudEnv) (m : HibernateMarker) (store : CloudStore) :
    (∃ error, writeHibernationMarker J env m store = (store, .error error)) ∨
      ∃ store', writeHibernationMarker J env m store = (store', .ok ()) ∧
        store'.hibernationMarker J = .ok m := by
  rw [writeHibernationMarker]
  split
  · exact Or.inl ⟨_, rfl⟩
  · exact Or.inl ⟨_, rfl⟩
  · rename_i bytes hbytes _
    refine Or.inr ⟨_, rfl, ?_⟩
    simp only [CloudStore.hibernationMarker, J.from_toVec hbytes, Except.mapError]

/-! ## Steps -/

section Steps

variable {w : CloudWorld} {i : ℕ} {env : CloudEnv}

/-- A step of a hibernation keeps the invariant. -/
theorem ResumeInv.hibernateStep (hinv : ResumeInv J w) {stage : HibernateStage}
    (hi : w.processes[i]? = some (.hibernate stage)) :
    ResumeInv J (w.hibernateStep J env i stage) := by
  cases stage with
  | started =>
    have hmarker := acquire_marker env w.nextLease w.store
    rw [CloudWorld.hibernateStep]
    cases hacquire : CloudLease.acquire env w.nextLease w.store with
    | mk store result =>
      rw [hacquire] at hmarker
      cases result with
      | error error =>
        exact hinv.moves (.of_nothing hi rfl (Nat.le_succ _) hmarker rfl rfl)
      | ok lease =>
        refine hinv.moves (i := i) (p := .hibernate .started) (n := .hibernate (.leased lease))
          { process := hi, processes := rfl, next := Nat.le_succ _, pending := ?_, read := ?_,
            carried := ?_, stored := ?_, resumed := ?_ }
        · intro id hid
          have hlease : lease.leaseId = id := Option.some.inj hid
          exact Or.inr ⟨hlease.symm.trans (leaseId_of_acquire hacquire), Nat.lt_succ_self _⟩
        · intro m hm
          contradiction
        · intro m hm
          contradiction
        · intro m hm
          have hm : (⟨store, w.nextLease + 1, w.processes⟩ : CloudWorld).store.hibernationMarker J =
              .ok m := hm
          rw [CloudStore.hibernationMarker, hmarker] at hm
          exact Or.inl hm
        · intro m hm
          contradiction
  | leased lease =>
    have hmarker := fullBackup_marker env w.store
    rw [CloudWorld.hibernateStep]
    cases hbackup : fullBackupToUri env w.store with
    | mk store result =>
      rw [hbackup] at hmarker
      cases result with
      | error error => exact hinv.moves (.of_nothing hi rfl le_rfl hmarker rfl rfl)
      | ok backup =>
        exact hinv.moves (.of_same hi rfl le_rfl hmarker (fun id hid => hid)
          (fun m hm => hm) (fun m hm => hm) (fun m hm => hm))
  | backedUp lease backupId endLsn =>
    rw [CloudWorld.hibernateStep]
    rcases writeHibernationMarker_cases (J := J) env
        { leaseId := lease.leaseId, backupId, hibernatedAt := env.now, hibernatedLsn := endLsn,
          tenantId := env.tenantId, fencingToken := lease.leaseId } w.store with
      ⟨error, hwrite⟩ | ⟨store, hwrite, hstored⟩
    · rw [hwrite]
      exact hinv.moves (.of_nothing hi rfl le_rfl rfl rfl rfl)
    · rw [hwrite]
      refine hinv.moves (i := i) (p := .hibernate (.backedUp lease backupId endLsn))
        { process := hi, processes := rfl, next := le_rfl, pending := ?_, read := ?_,
          carried := ?_, stored := ?_, resumed := ?_ }
      · intro id hid
        contradiction
      · intro m hm
        contradiction
      · intro m hm
        contradiction
      · intro m hm
        cases hstored.symm.trans hm
        exact Or.inr ⟨rfl, rfl, rfl⟩
      · intro m hm
        contradiction
  | marked lease marker =>
    exact hinv.moves (.of_nothing hi rfl le_rfl (release_marker env lease w.store) rfl rfl)
  | returned result => exact hinv

/-- The stored marker is the one that a resume has read, and no other resume has it. -/
def ResumesStored (J : Json HibernateMarker) (w : CloudWorld) (m : HibernateMarker) : Prop :=
  w.store.hibernationMarker J = .ok m ∧ ∀ p ∈ w.processes, p.restoring ≠ some m

theorem ResumeInv.not_carried (hinv : ResumeInv J w)
    (h : ResumesStored J w m) : ∀ q ∈ w.processes, q.carried ≠ some m := by
  intro q hq hm
  exact hinv.consumed q hq m (CloudProcess.resumed_of_carried hm (h.2 q hq)) h.1

/-- A resume keeps the invariant if it acquires while its marker is stored. -/
theorem ResumeInv.resumeStep (hinv : ResumeInv J w) {stage : ResumeStage}
    (hi : w.processes[i]? = some (.resume stage))
    (hstored : ∀ m store lease, stage = .markerRead m →
      CloudLease.acquire env w.nextLease w.store = (store, .ok lease) → ResumesStored J w m) :
    ResumeInv J (w.resumeStep J env i stage) := by
  cases stage with
  | started =>
    rw [CloudWorld.resumeStep]
    cases hread : readHibernationMarker J env w.store with
    | error error => exact hinv.moves (.of_nothing hi rfl le_rfl rfl rfl rfl)
    | ok m =>
      have hm : w.store.hibernationMarker J = .ok m := by
        rw [readHibernationMarker] at hread
        split at hread
        · contradiction
        · exact hread
      refine hinv.moves (i := i) (p := .resume .started) (n := .resume (.markerRead m))
        { process := hi, processes := rfl, next := le_rfl, pending := ?_, read := ?_,
          carried := ?_, stored := fun _ h => Or.inl h, resumed := ?_ }
      · intro id hid
        contradiction
      · intro m' hm'
        cases hm'
        exact Or.inr hm
      · intro m' hm'
        contradiction
      · intro m' hm'
        contradiction
  | markerRead m =>
    have hmarker := acquire_marker env w.nextLease w.store
    rw [CloudWorld.resumeStep]
    cases hacquire : CloudLease.acquire env w.nextLease w.store with
    | mk store result =>
      rw [hacquire] at hmarker
      cases result with
      | error error => exact hinv.moves (.of_nothing hi rfl (Nat.le_succ _) hmarker rfl rfl)
      | ok lease =>
        have hnone := hinv.not_carried (hstored m store lease rfl hacquire)
        refine hinv.moves (i := i) (p := .resume (.markerRead m))
          (n := .resume (.leased m lease))
          { process := hi, processes := rfl, next := Nat.le_succ _, pending := ?_,
            read := fun _ h => Or.inl h, carried := ?_, stored := ?_, resumed := ?_ }
        · intro id hid
          contradiction
        · intro m' hm'
          cases hm'
          exact Or.inr hnone
        · intro m' hm'
          have hm' : (⟨store, w.nextLease + 1, w.processes⟩ : CloudWorld).store.hibernationMarker
            J =
              .ok m' := hm'
          rw [CloudStore.hibernationMarker, hmarker] at hm'
          exact Or.inl hm'
        · intro m' hm'
          contradiction
  | leased m lease =>
    rw [CloudWorld.resumeStep]
    cases restoreBackupFromUri env m.backupId w.store with
    | error error => exact hinv.moves (.of_nothing hi rfl le_rfl rfl rfl rfl)
    | ok restoredLsn =>
      exact hinv.moves (.of_same hi rfl le_rfl rfl (fun id hid => hid) (fun m hm => hm)
        (fun m hm => hm) (fun m hm => hm))
  | restored m lease restoredLsn =>
    rw [CloudWorld.resumeStep, deleteHibernationMarker]
    cases env.fault with
    | some error => exact hinv.moves (.of_nothing hi rfl le_rfl rfl rfl rfl)
    | none =>
      refine hinv.moves (i := i) (p := .resume (.restored m lease restoredLsn))
        (n := .resume (.session m lease restoredLsn))
        { process := hi, processes := rfl, next := le_rfl, pending := ?_,
          read := fun _ h => Or.inl h, carried := fun _ h => Or.inl h, stored := ?_,
          resumed := ?_ }
      · intro id hid
        contradiction
      · intro m' hm'
        contradiction
      · intro m' _
        exact Or.inl (by simp [CloudStore.hibernationMarker, setProcess])
  | session m lease restoredLsn =>
    exact hinv.moves (.of_same hi rfl le_rfl (release_marker env lease w.store) (fun id hid => hid)
      (fun m hm => hm) (fun m hm => hm) (fun m hm => hm))
  | closed m restoredLsn => exact hinv
  | failed error => exact hinv

theorem ResumeInv.heartbeat (hinv : ResumeInv J w) (ttl : ℤ) :
    ResumeInv J (w.heartbeat i env ttl) := by
  rw [CloudWorld.heartbeat]
  split
  · rename_i m lease restoredLsn hi
    have hmarker := heartbeat_marker env lease ttl w.store
    cases hbeat : lease.heartbeat env ttl w.store with
    | mk store result =>
      rw [hbeat] at hmarker
      cases result with
      | error error =>
        have hset : w.processes = w.processes.set i (.resume (.session m lease restoredLsn)) := by
          obtain ⟨hlt, hget⟩ := List.getElem?_eq_some_iff.mp hi
          rw [← hget, List.set_getElem_self hlt]
        exact hinv.moves (.of_same hi hset le_rfl hmarker (fun id hid => hid) (fun m hm => hm)
          (fun m hm => hm) (fun m hm => hm))
      | ok lease =>
        exact hinv.moves (.of_same hi rfl le_rfl hmarker (fun id hid => hid) (fun m hm => hm)
          (fun m hm => hm) (fun m hm => hm))
  · exact hinv

theorem ResumeInv.stop (hinv : ResumeInv J w) : ResumeInv J (w.stop i) := by
  rw [CloudWorld.stop]
  split
  · rename_i m lease restoredLsn hi
    exact hinv.moves (.of_same hi rfl le_rfl rfl (fun id hid => hid) (fun m hm => hm)
      (fun m hm => hm) (fun m hm => hm))
  · rename_i m restoredLsn hi
    exact hinv.moves (.of_same hi rfl le_rfl rfl (fun id hid => hid) (fun m hm => hm)
      (fun m hm => hm) (fun m hm => hm))
  · rename_i p _ _ hi
    exact hinv.moves (.of_nothing hi rfl le_rfl rfl rfl rfl)
  · exact hinv

theorem ResumeInv.start (hinv : ResumeInv J w) {p : CloudProcess} (hpending : p.pending = none)
    (hread : p.marker = none) : ResumeInv J { w with processes := w.processes ++ [p] } := by
  have hcarried : ∀ m, p.carried ≠ some m := by
    intro m hm
    simpa [hread] using CloudProcess.marker_of_carried hm
  have hmem : ∀ {q}, q ∈ w.processes ++ [p] → q ∈ w.processes ∨ q = p := by
    intro q hq
    simpa using hq
  have hget : ∀ {j : ℕ} {q}, (w.processes ++ [p])[j]? = some q → w.processes[j]? =
    some q ∨ q = p := by
    intro j q hq
    rw [List.getElem?_append] at hq
    split at hq
    · exact Or.inl hq
    · exact Or.inr (by simpa using List.mem_of_getElem? hq)
  constructor
  case pending_lt =>
    intro q hq id hid
    rcases hmem hq with hq | rfl
    · exact hinv.pending_lt q hq id hid
    · simp [hpending] at hid
  case read_lt =>
    intro q hq m hm
    rcases hmem hq with hq | rfl
    · exact hinv.read_lt q hq m hm
    · simp [hread] at hm
  case stored_lt => exact hinv.stored_lt
  case pending_inj =>
    intro j k q r id hq hr hqid hrid
    rcases hget hq with hq | rfl
    · rcases hget hr with hr | rfl
      · exact hinv.pending_inj j k q r id hq hr hqid hrid
      · simp [hpending] at hrid
    · simp [hpending] at hqid
  case unread =>
    intro q hq id hid r hr m hm
    rcases hmem hq with hq | rfl
    · rcases hmem hr with hr | rfl
      · exact hinv.unread q hq id hid r hr m hm
      · simp [hread] at hm
    · simp [hpending] at hid
  case unwritten =>
    intro q hq id hid
    rcases hmem hq with hq | rfl
    · exact hinv.unwritten q hq id hid
    · simp [hpending] at hid
  case consumed =>
    intro q hq m hm
    rcases hmem hq with hq | rfl
    · exact hinv.consumed q hq m hm
    · exact absurd (CloudProcess.carried_of_resumed hm) (hcarried m)
  case once =>
    intro j k q r m hq hr hqm hrm
    rcases hget hq with hq | rfl
    · rcases hget hr with hr | rfl
      · exact hinv.once j k q r m hq hr hqm hrm
      · exact absurd hrm (hcarried m)
    · exact absurd hqm (hcarried m)

end Steps

/-! ## Runs -/

/-- When this step gives a resume its lease, it resumes the stored marker. -/
def resumesStoredAt (J : Json HibernateMarker) (w : CloudWorld) : Step → Bool
  | .advance i env =>
    match w.processes[i]? with
    | some (.resume (.markerRead m)) =>
      match (CloudLease.acquire env w.nextLease w.store).2 with
      | .ok _ => w.store.hibernationMarker J = .ok m &&
          w.processes.all fun p => p.restoring ≠ some m
      | .error _ => true
    | _ => true
  | _ => true

/-- Every resume of the run finds the marker it read still stored. -/
def resumesStoredThrough (J : Json HibernateMarker) (w : CloudWorld) : List Step → Bool
  | [] => true
  | st :: steps => resumesStoredAt J w st && resumesStoredThrough J (w.step J st) steps

variable {w : CloudWorld}

theorem resumesStored_of_at {i : ℕ} {env : CloudEnv} {store : CloudStore}
    {lease : CloudLease} (h : resumesStoredAt J w (.advance i env) = true)
    (hi : w.processes[i]? = some (.resume (.markerRead m)))
    (hacquire : CloudLease.acquire env w.nextLease w.store = (store, .ok lease)) :
    ResumesStored J w m := by
  simp only [resumesStoredAt, hi, hacquire, Bool.and_eq_true, decide_eq_true_eq,
    List.all_eq_true] at h
  exact h

theorem ResumeInv.step (hinv : ResumeInv J w) {st : Step} (h : resumesStoredAt J w st = true) :
    ResumeInv J (w.step J st) := by
  cases st with
  | startHibernate => exact hinv.start rfl rfl
  | startResume => exact hinv.start rfl rfl
  | advance i env =>
    rw [CloudWorld.step, CloudWorld.advance]
    split
    · rename_i stage hi
      exact hinv.hibernateStep hi
    · rename_i stage hi
      refine hinv.resumeStep hi ?_
      rintro m store lease rfl hacquire
      exact resumesStored_of_at h hi hacquire
    · exact hinv
  | heartbeat i env ttl => exact hinv.heartbeat ttl
  | stop i => exact hinv.stop

theorem ResumeInv.run (hinv : ResumeInv J w) {steps : List Step}
    (h : resumesStoredThrough J w steps = true) : ResumeInv J (w.run J steps) := by
  induction steps generalizing w with
  | nil => exact hinv
  | cons st steps ih =>
    rw [resumesStoredThrough, Bool.and_eq_true] at h
    exact ih (hinv.step h.1) h.2

end CloudWorld

/-- When resumes take the lease while their marker is stored, it is restored at most once. -/
theorem resumed_at_most_once (J : Json HibernateMarker) (steps : List CloudWorld.Step)
    (h : CloudWorld.resumesStoredThrough J {} steps = true) :
    ∀ (i j : ℕ) (p q : CloudProcess) (m : HibernateMarker),
      (CloudWorld.run J {} steps).processes[i]? = some p →
      (CloudWorld.run J {} steps).processes[j]? = some q →
      p.resumed = some m → q.resumed = some m → i = j := by
  intro i j p q m hp hq hpm hqm
  have hinv := (CloudWorld.resumeInv_init J).run h
  exact hinv.once i j p q m hp hq (CloudProcess.carried_of_resumed hpm)
    (CloudProcess.carried_of_resumed hqm)

def sampleMarker : HibernateMarker :=
  { leaseId := 0, backupId := "b", hibernatedAt := 0, hibernatedLsn := 1, tenantId := none,
    fencingToken := 0 }

def markerJson : Json HibernateMarker :=
  .ofTable [(sampleMarker, strBytes ("\x7b\"lease_id\":\"0\",\"backup_id\":\"b\"," ++
    "\"hibernated_at\":\x7b\"secs_since_epoch\":0,\"nanos_since_epoch\":0\x7d," ++
    "\"hibernated_lsn\":1,\"tenant_id\":null,\"fencing_token\":\"0\"\x7d"))] (by decide)

def calmCloud : CloudEnv :=
  { backup := .ok ("b", 1), restore := .ok 1 }

def hibernated : List CloudWorld.Step :=
  .startHibernate :: List.replicate 4 (.advance 0 calmCloud)

def resumedOnce : List CloudWorld.Step :=
  hibernated ++ .startResume :: List.replicate 5 (.advance 1 calmCloud)

/-- A second resume after the first: it finds no marker. -/
def resumedAgain : List CloudWorld.Step :=
  resumedOnce ++ .startResume :: List.replicate 5 (.advance 2 calmCloud)

theorem resumed_at_most_once_sample :
    ((CloudWorld.run markerJson {} resumedAgain).processes.map CloudProcess.resumed =
      [none, some sampleMarker, none]) ∧
    ∀ (i j : ℕ) (p q : CloudProcess) (m : HibernateMarker),
      (CloudWorld.run markerJson {} resumedAgain).processes[i]? = some p →
      (CloudWorld.run markerJson {} resumedAgain).processes[j]? = some q →
      p.resumed = some m → q.resumed = some m → i = j :=
  ⟨by decide +kernel, resumed_at_most_once markerJson resumedAgain (by decide +kernel)⟩

/-- Process 2 reads the marker, process 1 resumes it, and process 2 restores it again. -/
def resumedTwice : List CloudWorld.Step :=
  hibernated ++ [.startResume, .startResume, .advance 2 calmCloud] ++
    List.replicate 5 (.advance 1 calmCloud) ++ List.replicate 3 (.advance 2 calmCloud)

theorem hibernation_resumed_twice :
    (CloudWorld.run markerJson {} resumedTwice).processes.map CloudProcess.resumed =
      [none, some sampleMarker, some sampleMarker] := by
  decide +kernel

end MultiDb
