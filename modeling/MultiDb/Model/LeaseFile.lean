import MultiDb.Model.Hibernate

/-!
# The bytes of a lease file

`CloudLease` of `cloud.rs` on one lease name, down to the bytes of its file.  A call holds the
lock of the file, so it is one action; a process may stop inside the write of a call.  A call
reads the clock once.
-/

namespace MultiDb

open Shared

/-- The id of a lease, or an owner: a UUID, numbered here in the order they are made, or a text. -/
inductive LeaseId
  | uuid (n : ℕ)
  | text (s : String)
  deriving DecidableEq, Repr

/-- `CloudLeaseFile`; a handle, `CloudLease`, has the same fields. -/
structure LeaseRecord where
  leaseId : LeaseId
  owner : LeaseId
  expiresAt : ℤ
  deriving DecidableEq, Repr

/-- `serde_json` at lease files, and `String::from_utf8_lossy(bytes).trim()`. -/
structure LeaseFormat where
  json : Json LeaseRecord
  legacyText : Bytes → String
  fromSlice_nil : ∀ record, json.fromSlice [] ≠ .ok record
  legacyText_nil : legacyText [] = ""

variable (F : LeaseFormat)

namespace LeaseFile

def readLeaseFile (now : ℤ) : Option Bytes → Option LeaseRecord
  | none => none
  | some bytes =>
    match F.json.fromSlice bytes with
    | .ok record => some record
    | .error _ =>
      let legacy := F.legacyText bytes
      if legacy = "" then
        none
      else
        some { leaseId := .text legacy, owner := .text legacy, expiresAt := now + 30 * 10 ^ 9 }

/-- The record that `acquire_with_options` writes. -/
def newRecord (now ttl : ℤ) (leaseId : LeaseId) (owner : Option LeaseId) : LeaseRecord :=
  { leaseId, owner := owner.getD leaseId, expiresAt := leaseExpiration now ttl }

/-- Where a process stops inside `acquire_with_options`. -/
inductive AcquireStop
  | removed
  | written (n : ℕ)

/-- `acquire_with_options`: the file, and the handle unless the process stops. -/
def acquireWithOptions (now ttl : ℤ) (leaseId : LeaseId) (owner : Option LeaseId)
    (stop : Option AcquireStop) (file : Option Bytes) : Option Bytes × CloudResult LeaseRecord :=
  let record := newRecord now ttl leaseId owner
  if (readLeaseFile F now file).any fun existing => existing.expiresAt > now then
    (file, .error (.leaseExists leasePath))
  else
    match F.json.toVec record, stop with
    | _, some .removed => (none, .error (.io "stopped"))
    | .error error, _ => (some [], .error (.serde error))
    | .ok bytes, some (.written n) => (some (bytes.take n), .error (.io "stopped"))
    | .ok bytes, none => (some bytes, .ok record)

def ensureOwner (now : ℤ) (handle : LeaseRecord) (file : Option Bytes) : Bool :=
  (readLeaseFile F now file).any fun record =>
    record.leaseId = handle.leaseId ∧ record.owner = handle.owner ∧ record.expiresAt > now

def heartbeat (now ttl : ℤ) (handle : LeaseRecord) (stop : Option ℕ) (file : Option Bytes) :
    Option Bytes × CloudResult LeaseRecord :=
  if ensureOwner F now handle file then
    let record := { handle with expiresAt := leaseExpiration now ttl }
    match F.json.toVec record, stop with
    | .error error, _ => (file, .error (.serde error))
    | .ok bytes, some n => (some (bytes.take n), .error (.io "stopped"))
    | .ok bytes, none => (some bytes, .ok record)
  else
    (file, .error (.leaseOwnerMismatch leasePath))

def validateFencingToken (now : ℤ) (token : LeaseId) (file : Option Bytes) : CloudResult Unit :=
  if (readLeaseFile F now file).any fun record =>
      record.leaseId = token ∧ record.expiresAt > now then
    .ok ()
  else
    .error (.leaseOwnerMismatch leasePath)

def release (now : ℤ) (handle : LeaseRecord) (file : Option Bytes) :
    Option Bytes × CloudResult Unit :=
  match readLeaseFile F now file with
  | none => (file, .ok ())
  | some record =>
    if record.leaseId ≠ handle.leaseId ∨ record.owner ≠ handle.owner then
      (file, .error (.leaseOwnerMismatch leasePath))
    else
      (none, .ok ())

end LeaseFile

/-- The file, the handles, the number of ids made, and the time and TTL of the last write. -/
structure LeaseWorld where
  file : Option Bytes := none
  handles : List LeaseRecord := []
  nextLease : ℕ := 0
  lastWrite : Option (ℤ × ℤ) := none

inductive LeaseStep
  | acquire (now ttl : ℤ) (owner : Option LeaseId) (stop : Option LeaseFile.AcquireStop)
  | heartbeat (i : ℕ) (now ttl : ℤ) (stop : Option ℕ)
  | release (i : ℕ) (now : ℤ)
  | stop (i : ℕ)

def LeaseWorld.step (w : LeaseWorld) : LeaseStep → LeaseWorld
  | .acquire now ttl owner stop =>
    match LeaseFile.acquireWithOptions F now ttl (.uuid w.nextLease) owner stop w.file with
    | (file, .ok handle) =>
      { file
        handles := w.handles ++ [handle]
        nextLease := w.nextLease + 1
        lastWrite := some (now, ttl) }
    | (file, .error _) =>
      { w with
        file
        nextLease := w.nextLease + 1
        lastWrite := if file = w.file then w.lastWrite else some (now, ttl) }
  | .heartbeat i now ttl stop =>
    match w.handles[i]? with
    | none => w
    | some handle =>
      match LeaseFile.heartbeat F now ttl handle stop w.file with
      | (file, .ok handle) =>
        { w with file, handles := w.handles.set i handle, lastWrite := some (now, ttl) }
      | (file, .error _) =>
        { w with
          file
          handles := if stop.isSome then w.handles.eraseIdx i else w.handles
          lastWrite := if file = w.file then w.lastWrite else some (now, ttl) }
  | .release i now =>
    match w.handles[i]? with
    | none => w
    | some handle => { w with file := (LeaseFile.release F now handle w.file).1 }
  | .stop i => { w with handles := w.handles.eraseIdx i }

def leaseRun (steps : List LeaseStep) : LeaseWorld :=
  steps.foldl (LeaseWorld.step F) {}

end MultiDb
