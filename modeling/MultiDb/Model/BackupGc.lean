import MultiDb.Model.Tenant
import MultiDb.Shared.Worklist
import Mathlib.Data.List.Sort

/-!
# Backup garbage collection

`gc_backup_uri` of `cloud.rs` on one object store.
-/

namespace MultiDb

open Shared

inductive BackupKind
  | full
  | incremental
  deriving DecidableEq, Repr

/-- `BackupManifest`: the fields that the collection reads, with times in nanoseconds. -/
structure BackupManifest where
  backupId : String
  kind : BackupKind
  parentBackupId : Option String
  takenAt : ℤ
  deriving DecidableEq, Repr

structure BackupGcPolicy where
  keepLastFull : ℕ
  retainNewerThan : Option ℕ

structure BackupGcReport where
  scannedBackups : ℕ := 0
  keptBackups : ℕ := 0
  deletedBackups : ℕ := 0
  deletedObjects : ℕ := 0
  deriving DecidableEq, Repr

/-- The objects below a prefix: the object `id/path` is the row `path` of `id`. -/
abbrev ObjectStore := Tables String String Bytes

def manifestPath : String := "manifest.json"

/-- `sort_by_key` with the time of the backup. -/
def sortByTakenAt (manifests : List BackupManifest) : List BackupManifest :=
  manifests.insertionSort fun a b => a.takenAt ≤ b.takenAt

def readBackupManifests (J : Json BackupManifest) (store : ObjectStore) :
    CloudResult (List BackupManifest) := do
  let backupIds := (store.entries.map fun object => object.1.1).dedup
  let files := backupIds.filterMap fun id => store.get id manifestPath
  return sortByTakenAt (← files.mapM fun bytes => (J.fromSlice bytes).mapError .serde)

section Retained

variable (manifests : List BackupManifest)

/-- `by_id`: a later manifest replaces an earlier one. -/
def manifestById (id : String) : Option BackupManifest :=
  manifests.reverse.find? fun manifest => manifest.backupId = id

/-- The backups that are young enough.  `duration_since` fails for times in the future. -/
def keptByAge (policy : BackupGcPolicy) (now : ℤ) : List BackupManifest :=
  match policy.retainNewerThan with
  | none => []
  | some retainNewerThan => manifests.filter fun manifest =>
      now < manifest.takenAt || now - manifest.takenAt ≤ retainNewerThan

def fullsFromNewest : List BackupManifest :=
  (sortByTakenAt (manifests.filter fun manifest => manifest.kind = .full)).reverse

def parentIds (id : String) : List String :=
  match manifestById manifests id with
  | none => []
  | some manifest => manifest.parentBackupId.toList

/-- `children_by_parent`. -/
def childIds (id : String) : List String :=
  (manifests.filter fun manifest => manifest.parentBackupId = some id).map (·.backupId)

/-- `retained_backup_ids`; the set is the list of its elements. -/
def retainedBackupIds (policy : BackupGcPolicy) (now : ℤ) : List String :=
  let kept := ((keptByAge manifests policy now ++
    (fullsFromNewest manifests).take policy.keepLastFull).map (·.backupId)).dedup
  let retained := worklist (parentIds manifests) (kept.length + manifests.length) kept kept
  let fulls := retained.filter fun id =>
    (manifestById manifests id).any fun manifest => manifest.kind = .full
  worklist (childIds manifests) (retained.length + manifests.length) fulls retained

end Retained

def gcBackup (retained : List String) (state : BackupGcReport × ObjectStore)
    (manifest : BackupManifest) : BackupGcReport × ObjectStore :=
  let (report, store) := state
  if manifest.backupId ∈ retained then
    ({ report with keptBackups := report.keptBackups + 1 }, store)
  else
    let objects := (store.scan manifest.backupId fun _ => true).map (·.1)
    ({ report with
        deletedObjects := report.deletedObjects + objects.length
        deletedBackups := report.deletedBackups + 1 },
      objects.foldl (fun store path => store.delete manifest.backupId path) store)

def gcBackupUri (J : Json BackupManifest) (policy : BackupGcPolicy) (now : ℤ)
    (store : ObjectStore) : CloudResult (BackupGcReport × ObjectStore) := do
  let manifests ← readBackupManifests J store
  let retained := retainedBackupIds manifests policy now
  return manifests.foldl (gcBackup retained) ({ scannedBackups := manifests.length }, store)

end MultiDb
