import MultiDb.Model.Tenant

/-!
# Leases and hibernation

`CloudLease`, `hibernate_database` and `resume_database_guarded` of `cloud.rs` on one object
store.  A lease call is one action; marker, backup, restore and delete are actions of their own.
-/

namespace MultiDb

open Shared

/-- `CloudLeaseFile`.  Lease ids are UUIDs, numbered here in the order they are made. -/
structure CloudLeaseFile where
  leaseId : ℕ
  owner : ℕ
  expiresAt : ℤ
  deriving DecidableEq, Repr

structure HibernateMarker where
  leaseId : ℕ
  backupId : String
  hibernatedAt : ℤ
  hibernatedLsn : UInt64
  tenantId : Option String
  fencingToken : ℕ
  deriving DecidableEq, Repr

/-- `leases/database.lease`, `hibernate/hibernated.json` and the uploaded backups. -/
structure CloudStore where
  lease : Option CloudLeaseFile := none
  marker : Option Bytes := none
  backups : List String := []
  deriving DecidableEq, Repr

/-- What one action meets: clock readings, an I/O error, the result of a backup or a restore. -/
structure CloudEnv where
  /-- The reading that a new expiration counts from. -/
  now : ℤ := 0
  /-- The reading that an existing expiration is compared with. -/
  checkedAt : ℤ := 0
  fault : Option CloudError := none
  /-- An error after a stale lease file is removed and before the new one is complete. -/
  createFault : Option CloudError := none
  backup : CloudResult (String × UInt64) := .ok ("", 0)
  restore : CloudResult UInt64 := .ok 0
  tenantId : Option String := none

def leasePath : String := "leases/database.lease"

structure CloudLease where
  leaseId : ℕ
  owner : ℕ
  expiresAt : ℤ
  deriving DecidableEq, Repr

/-- `CloudLeaseOptions::default`: 30 seconds. -/
def defaultLeaseTtl : ℤ := 30 * 10 ^ 9

def leaseExpiration (now ttl : ℤ) : ℤ :=
  now + max ttl (10 ^ 6)

namespace CloudLease

def acquire (env : CloudEnv) (leaseId : ℕ) (store : CloudStore) :
    CloudStore × CloudResult CloudLease :=
  match env.fault with
  | some error => (store, .error error)
  | none =>
    if store.lease.any fun existing => existing.expiresAt > env.checkedAt then
      (store, .error (.leaseExists leasePath))
    else
      match env.createFault with
      | some error => ({ store with lease := none }, .error error)
      | none =>
        let expiresAt := leaseExpiration env.now defaultLeaseTtl
        ({ store with lease := some { leaseId, owner := leaseId, expiresAt } },
          .ok { leaseId, owner := leaseId, expiresAt })

def heartbeat (env : CloudEnv) (lease : CloudLease) (ttl : ℤ) (store : CloudStore) :
    CloudStore × CloudResult CloudLease :=
  match env.fault with
  | some error => (store, .error error)
  | none =>
    if store.lease.any fun record => record.leaseId = lease.leaseId ∧
        record.owner = lease.owner ∧ record.expiresAt > env.checkedAt then
      let expiresAt := leaseExpiration env.now ttl
      ({ store with lease := some { leaseId := lease.leaseId, owner := lease.owner, expiresAt } },
        .ok { lease with expiresAt })
    else
      (store, .error (.leaseOwnerMismatch leasePath))

def release (env : CloudEnv) (lease : CloudLease) (store : CloudStore) :
    CloudStore × CloudResult Unit :=
  match env.fault with
  | some error => (store, .error error)
  | none =>
    match store.lease with
    | none => (store, .ok ())
    | some record =>
      if record.leaseId ≠ lease.leaseId ∨ record.owner ≠ lease.owner then
        (store, .error (.leaseOwnerMismatch leasePath))
      else
        ({ store with lease := none }, .ok ())

end CloudLease

variable (J : Json HibernateMarker)

def CloudStore.hibernationMarker (store : CloudStore) : CloudResult HibernateMarker :=
  match store.marker with
  | none => .error (.io "No such file or directory (os error 2)")
  | some bytes => (J.fromSlice bytes).mapError .serde

def readHibernationMarker (env : CloudEnv) (store : CloudStore) : CloudResult HibernateMarker :=
  match env.fault with
  | some error => .error error
  | none => store.hibernationMarker J

/-- The serialisation of a marker and `write_object` at its path. -/
def writeHibernationMarker (env : CloudEnv) (marker : HibernateMarker) (store : CloudStore) :
    CloudStore × CloudResult Unit :=
  match J.toVec marker, env.fault with
  | .error error, _ => (store, .error (.serde error))
  | .ok _, some error => (store, .error error)
  | .ok bytes, none => ({ store with marker := some bytes }, .ok ())

/-- `full_backup_to_uri`: the id and the end LSN of the uploaded backup. -/
def fullBackupToUri (env : CloudEnv) (store : CloudStore) :
    CloudStore × CloudResult (String × UInt64) :=
  match env.backup with
  | .error error => (store, .error error)
  | .ok backup => ({ store with backups := store.backups ++ [backup.1] }, .ok backup)

/-- `restore_backup_from_uri`: the restored LSN. -/
def restoreBackupFromUri (env : CloudEnv) (backupId : String) (store : CloudStore) :
    CloudResult UInt64 :=
  if backupId ∉ store.backups then
    .error (.unsupported ("missing object prefix " ++ backupId))
  else
    env.restore

/-- `LocalObjectStore::delete` of the marker: its absence is no error. -/
def deleteHibernationMarker (env : CloudEnv) (store : CloudStore) : CloudStore × CloudResult Unit :=
  match env.fault with
  | some error => (store, .error error)
  | none => ({ store with marker := none }, .ok ())

/-! ## The processes -/

/-- How far a call of `hibernate_database` has come. -/
inductive HibernateStage
  | started
  | leased (lease : CloudLease)
  | backedUp (lease : CloudLease) (backupId : String) (endLsn : UInt64)
  | marked (lease : CloudLease) (marker : HibernateMarker)
  | returned (result : CloudResult HibernateMarker)
  deriving DecidableEq

/-- How far a call of `resume_database_guarded` has come. -/
inductive ResumeStage
  | started
  | markerRead (marker : HibernateMarker)
  | leased (marker : HibernateMarker) (lease : CloudLease)
  | restored (marker : HibernateMarker) (lease : CloudLease) (restoredLsn : UInt64)
  /-- It returned `Ok` and its session holds the lease. -/
  | session (marker : HibernateMarker) (lease : CloudLease) (restoredLsn : UInt64)
  /-- It returned `Ok` and its session has ended. -/
  | closed (marker : HibernateMarker) (restoredLsn : UInt64)
  | failed (error : CloudError)
  deriving DecidableEq

inductive CloudProcess
  | hibernate (stage : HibernateStage)
  | resume (stage : ResumeStage)
  | stopped
  deriving DecidableEq

structure CloudWorld where
  store : CloudStore := {}
  nextLease : ℕ := 0
  processes : List CloudProcess := []
  deriving DecidableEq

namespace CloudWorld

def setProcess (w : CloudWorld) (i : ℕ) (process : CloudProcess) : CloudWorld :=
  { w with processes := w.processes.set i process }

/-- The next action of a call of `hibernate_database`. -/
def hibernateStep (env : CloudEnv) (w : CloudWorld) (i : ℕ) : HibernateStage → CloudWorld
  | .started =>
    let (store, result) := CloudLease.acquire env w.nextLease w.store
    let w := { w with store, nextLease := w.nextLease + 1 }
    match result with
    | .error error => w.setProcess i (.hibernate (.returned (.error error)))
    | .ok lease => w.setProcess i (.hibernate (.leased lease))
  | .leased lease =>
    let (store, result) := fullBackupToUri env w.store
    match result with
    | .error error => { w with store }.setProcess i (.hibernate (.returned (.error error)))
    | .ok (backupId, endLsn) =>
      { w with store }.setProcess i (.hibernate (.backedUp lease backupId endLsn))
  | .backedUp lease backupId endLsn =>
    let marker : HibernateMarker :=
      { leaseId := lease.leaseId, backupId, hibernatedAt := env.now, hibernatedLsn := endLsn,
        tenantId := env.tenantId, fencingToken := lease.leaseId }
    let (store, result) := writeHibernationMarker J env marker w.store
    match result with
    | .error error => { w with store }.setProcess i (.hibernate (.returned (.error error)))
    | .ok () => { w with store }.setProcess i (.hibernate (.marked lease marker))
  | .marked lease marker =>
    let (store, result) := lease.release env w.store
    { w with store }.setProcess i (.hibernate (.returned (result.map fun _ => marker)))
  | .returned _ => w

/-- The next action of a call of `resume_database_guarded`, and of its session. -/
def resumeStep (env : CloudEnv) (w : CloudWorld) (i : ℕ) : ResumeStage → CloudWorld
  | .started =>
    match readHibernationMarker J env w.store with
    | .error error => w.setProcess i (.resume (.failed error))
    | .ok marker => w.setProcess i (.resume (.markerRead marker))
  | .markerRead marker =>
    let (store, result) := CloudLease.acquire env w.nextLease w.store
    let w := { w with store, nextLease := w.nextLease + 1 }
    match result with
    | .error error => w.setProcess i (.resume (.failed error))
    | .ok lease => w.setProcess i (.resume (.leased marker lease))
  | .leased marker lease =>
    match restoreBackupFromUri env marker.backupId w.store with
    | .error error => w.setProcess i (.resume (.failed error))
    | .ok restoredLsn => w.setProcess i (.resume (.restored marker lease restoredLsn))
  | .restored marker lease restoredLsn =>
    let (store, result) := deleteHibernationMarker env w.store
    match result with
    | .error error => { w with store }.setProcess i (.resume (.failed error))
    | .ok () => { w with store }.setProcess i (.resume (.session marker lease restoredLsn))
  | .session marker lease restoredLsn =>
    { w with store := (lease.release env w.store).1 }.setProcess i
      (.resume (.closed marker restoredLsn))
  | .closed _ _ => w
  | .failed _ => w

inductive Step
  | startHibernate
  | startResume
  | advance (i : ℕ) (env : CloudEnv)
  /-- The session of process `i` extends its lease. -/
  | heartbeat (i : ℕ) (env : CloudEnv) (ttl : ℤ)
  | stop (i : ℕ)

def advance (w : CloudWorld) (i : ℕ) (env : CloudEnv) : CloudWorld :=
  match w.processes[i]? with
  | some (.hibernate stage) => w.hibernateStep J env i stage
  | some (.resume stage) => w.resumeStep J env i stage
  | _ => w

def heartbeat (w : CloudWorld) (i : ℕ) (env : CloudEnv) (ttl : ℤ) : CloudWorld :=
  match w.processes[i]? with
  | some (.resume (.session marker lease restoredLsn)) =>
    let (store, result) := lease.heartbeat env ttl w.store
    match result with
    | .error _ => { w with store }
    | .ok lease => { w with store }.setProcess i (.resume (.session marker lease restoredLsn))
  | _ => w

/-- A process that stops after its call returned leaves its lease behind. -/
def stop (w : CloudWorld) (i : ℕ) : CloudWorld :=
  match w.processes[i]? with
  | some (.resume (.session marker _ restoredLsn)) | some (.resume (.closed marker restoredLsn)) =>
    w.setProcess i (.resume (.closed marker restoredLsn))
  | some _ => w.setProcess i .stopped
  | none => w

def step (w : CloudWorld) : Step → CloudWorld
  | .startHibernate => { w with processes := w.processes ++ [.hibernate .started] }
  | .startResume => { w with processes := w.processes ++ [.resume .started] }
  | .advance i env => w.advance J i env
  | .heartbeat i env ttl => w.heartbeat i env ttl
  | .stop i => w.stop i

def run (w : CloudWorld) (steps : List Step) : CloudWorld :=
  steps.foldl (step J) w

end CloudWorld

end MultiDb
