import MultiDb.Model.SingleNode

/-!
# Audit batching

`AuditBatchCoordinator::record` of `db/audit_batch.rs`.  A critical section of the state lock is
one action; `persist` runs between two of them.
-/

namespace MultiDb

open Shared

/-- The errors of `DbError` that audit calls return; `other` is the rest by its text. -/
inductive DbError
  | auditIntegrity (message : String)
  | serde (message : String)
  | storage (error : StorageError)
  | repl (error : ReplError)
  | other (message : String)
  deriving DecidableEq, Repr

def copyError : DbError → DbError
  | .other message => .auditIntegrity message
  | error => error

def maxBatchEvents : ℕ := 256

def auditSealed : DbError :=
  .auditIntegrity "audit runtime is sealed; restore its configuration and reopen the database"

def auditSequenceOverflow : DbError :=
  .auditIntegrity "audit request sequence overflow"

def auditLeaderPanicked : DbError :=
  .auditIntegrity "audit batch leader panicked; reopen the database before retrying"

/-- `BatchState` together with the `fatal` flag beside it. -/
structure AuditBatchCoordinator (ε : Type) where
  fatal : Bool := false
  leader : Bool := false
  nextTicket : ℕ := 0
  pending : List (ℕ × ε) := []
  completed : Std.ExtTreeMap ℕ (Except DbError Unit) := ∅
  failed : Option DbError := none

/-- What `persist` does: it returns or it panics. -/
inductive PersistOutcome
  | ok
  | error (error : DbError)
  | panic
  deriving DecidableEq, Repr

variable {ε : Type}

namespace AuditBatchCoordinator

/-- The start of `record`, up to its loop: the ticket of an admitted event. -/
def enqueue (co : AuditBatchCoordinator ε) (event : ε) :
    Except DbError (ℕ × AuditBatchCoordinator ε) :=
  match co.failed with
  | some error => .error (copyError error)
  | none =>
    if co.fatal then
      .error auditSealed
    else if co.nextTicket + 1 < 2 ^ 64 then
      .ok (co.nextTicket, { co with
        nextTicket := co.nextTicket + 1, pending := co.pending ++ [(co.nextTicket, event)] })
    else
      .error auditSequenceOverflow

/-- The insertions into `completed` after a batch. -/
def complete (completed : Std.ExtTreeMap ℕ (Except DbError Unit)) (tickets : List ℕ)
    (completion : Except DbError Unit) : Std.ExtTreeMap ℕ (Except DbError Unit) :=
  tickets.foldl (fun completed ticket => completed.insert ticket completion) completed

/-- The leader's second critical section, for the outcome of `persist`. -/
def finish (co : AuditBatchCoordinator ε) (ticket : ℕ) (tickets : List ℕ) :
    PersistOutcome → AuditBatchCoordinator ε
  | .ok => { co with leader := false, completed := complete co.completed tickets (.ok ()) }
  | .error error => { co with
      leader := false, fatal := true, failed := some error, pending := []
      completed := complete co.completed tickets (.error error) }
  | .panic => { co with
      leader := false, fatal := true, failed := some auditLeaderPanicked, pending := []
      completed := (complete co.completed tickets (.error auditLeaderPanicked)).erase ticket }

end AuditBatchCoordinator

/-! ## Calls -/

/-- Where a call of `record` stands. -/
inductive RecordStatus (ε : Type)
  | entering
  | waiting (ticket : ℕ)
  /-- It was woken, or is about to take the lock again. -/
  | awake (ticket : ℕ)
  /-- It runs `persist`; `call` counts the earlier calls of `persist`. -/
  | leading (ticket call : ℕ) (batch : List (ℕ × ε))
  | returned (ticket : Option ℕ) (result : Except DbError Unit)
  /-- The panic of `persist` went on to its caller. -/
  | unwound (ticket : ℕ)

def RecordStatus.notified : RecordStatus ε → RecordStatus ε
  | .waiting ticket => .awake ticket
  | status => status

structure RecordCall (ε : Type) where
  event : ε
  status : RecordStatus ε

/-- One call of `persist`; it has no outcome while it runs. -/
structure PersistCall (ε : Type) where
  batch : List (ℕ × ε)
  outcome : Option PersistOutcome := none

/-- The coordinator, the calls of `record`, and the calls of `persist` so far. -/
structure AuditWorld (ε : Type) where
  coordinator : AuditBatchCoordinator ε := {}
  calls : List (RecordCall ε) := []
  persisted : List (PersistCall ε) := []

namespace AuditWorld

def setStatus (w : AuditWorld ε) (i : ℕ) (status : RecordStatus ε) : AuditWorld ε :=
  { w with calls := w.calls.modify i fun call => { call with status } }

def notifyAll (w : AuditWorld ε) : AuditWorld ε :=
  { w with calls := w.calls.map fun call => { call with status := call.status.notified } }

/-- The loop of `record` up to the point where it lets go of the lock. -/
def loop (w : AuditWorld ε) (i ticket : ℕ) : AuditWorld ε :=
  match w.coordinator.completed[ticket]? with
  | some result =>
    setStatus { w with coordinator := { w.coordinator with
      completed := w.coordinator.completed.erase ticket } } i
      (.returned (some ticket) (result.mapError copyError))
  | none =>
    match w.coordinator.failed with
    | some error => w.setStatus i (.returned (some ticket) (.error (copyError error)))
    | none =>
      if w.coordinator.leader then
        w.setStatus i (.waiting ticket)
      else
        let batch := w.coordinator.pending.take maxBatchEvents
        setStatus { w with
          coordinator := { w.coordinator with
            leader := true, pending := w.coordinator.pending.drop maxBatchEvents }
          persisted := w.persisted ++ [{ batch }] } i
          (.leading ticket w.persisted.length batch)

/-- `record` takes the lock for the first time. -/
def enter (w : AuditWorld ε) (i : ℕ) (event : ε) : AuditWorld ε :=
  match w.coordinator.enqueue event with
  | .error error => w.setStatus i (.returned none (.error error))
  | .ok (ticket, coordinator) =>
    (setStatus { w with coordinator := coordinator } i (.awake ticket)).loop i ticket

/-- The leader records the outcome of `persist` and wakes the others. -/
def publish (w : AuditWorld ε) (ticket call : ℕ) (batch : List (ℕ × ε)) (outcome : PersistOutcome) :
    AuditWorld ε :=
  notifyAll { w with
    coordinator := w.coordinator.finish ticket (batch.map Prod.fst) outcome
    persisted := w.persisted.set call { batch, outcome := some outcome } }

/-- `persist` has ended: the leader goes on with its loop, or with its panic. -/
def settle (w : AuditWorld ε) (i ticket call : ℕ) (batch : List (ℕ × ε))
    (outcome : PersistOutcome) : AuditWorld ε :=
  match outcome with
  | .panic => (w.publish ticket call batch .panic).setStatus i (.unwound ticket)
  | outcome => ((w.publish ticket call batch outcome).setStatus i (.awake ticket)).loop i ticket

/-- The next action of call `i`; `outcome` is used when it is running `persist`. -/
def act (w : AuditWorld ε) (i : ℕ) (outcome : PersistOutcome) : AuditWorld ε :=
  match w.calls[i]? with
  | none => w
  | some call =>
    match call.status with
    | .entering => w.enter i call.event
    | .awake ticket => w.loop i ticket
    | .leading ticket number batch => w.settle i ticket number batch outcome
    | _ => w

def wake (w : AuditWorld ε) (i : ℕ) : AuditWorld ε :=
  match w.calls[i]? with
  | some { status := .waiting ticket, .. } => w.setStatus i (.awake ticket)
  | _ => w

inductive Step (ε : Type)
  /-- A thread calls `record`. -/
  | record (event : ε)
  | act (i : ℕ) (outcome : PersistOutcome)
  | wake (i : ℕ)
  /-- `mark_failed` from another part of the database. -/
  | markFailed

def step (w : AuditWorld ε) : Step ε → AuditWorld ε
  | .record event => { w with calls := w.calls ++ [{ event, status := .entering }] }
  | .act i outcome => w.act i outcome
  | .wake i => w.wake i
  | .markFailed => { w with coordinator := { w.coordinator with fatal := true } }

def run (w : AuditWorld ε) (steps : List (Step ε)) : AuditWorld ε :=
  steps.foldl step w

def Step.actor : Step ε → Option ℕ
  | .act i _ => some i
  | _ => none

def states (steps : ℕ → Step ε) : ℕ → AuditWorld ε
  | 0 => {}
  | n + 1 => (states steps n).step (steps n)

end AuditWorld

end MultiDb
