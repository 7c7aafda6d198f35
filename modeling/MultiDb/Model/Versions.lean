import MultiDb.Model.Storage

/-!
# Versions with vector clocks

The versioned writes of `repl/ap.rs` and the functions that merge them.  Stored lists are kept
decoded.
-/

namespace MultiDb

open Shared

abbrev NodeId := UInt64

/-- `VectorClock`: a node without an entry counts zero. -/
@[ext]
structure VectorClock where
  entries : Std.ExtTreeMap NodeId UInt64 := ∅
  deriving DecidableEq

inductive ClockOrdering
  | before
  | after
  | equal
  | concurrent
  deriving DecidableEq, Repr

namespace VectorClock

/-- `get(node).copied().unwrap_or(0)`. -/
def get (clock : VectorClock) (node : NodeId) : UInt64 :=
  clock.entries[node]?.getD 0

/-- The loop of `VectorClock::compare`: which side is greater somewhere. -/
def compareFlags (left right : VectorClock) : Bool × Bool :=
  (left.entries.keys ++ right.entries.keys).foldl (fun flags node =>
    if left.get node > right.get node then (true, flags.2)
    else if right.get node > left.get node then (flags.1, true)
    else flags) (false, false)

def compare (left right : VectorClock) : ClockOrdering :=
  match compareFlags left right with
  | (false, false) => .equal
  | (true, false) => .after
  | (false, true) => .before
  | (true, true) => .concurrent

end VectorClock

/-- `VersionedBytes`; a version without a value is a delete. -/
structure VersionedBytes where
  value : Option Bytes
  clock : VectorClock
  origin : NodeId
  deriving DecidableEq

structure VersionedWrite where
  table : String
  key : Bytes
  version : VersionedBytes
  deriving DecidableEq

structure VersionedRecord where
  table : String
  key : Bytes
  versions : List VersionedBytes
  deriving DecidableEq

/-- Clocks compare as their entry lists do. -/
instance : Ord VectorClock where
  compare left right := List.compareLex pairCmp left.entries.toList right.entries.toList

/-- The order of a version list: by origin, then the clock's entries, then the value. -/
def compareVersions : VersionedBytes → VersionedBytes → Ordering :=
  compareLex (compareOn (·.origin)) (compareLex (compareOn (·.clock)) (compareOn (·.value)))

/-- The loop of `merge_one_version`: whether the incoming version stays, and which others do. -/
def mergeLoop (existing : List VersionedBytes) (incoming : VersionedBytes) :
    Bool × List VersionedBytes :=
  existing.foldl (fun (keepIncoming, merged) current =>
    match VectorClock.compare current.clock incoming.clock with
    | .before => (keepIncoming, merged)
    | .after | .equal => (false, merged ++ [current])
    | .concurrent => (keepIncoming, merged ++ [current])) (true, [])

def mergeOneVersion (existing : List VersionedBytes) (incoming : VersionedBytes) :
    List VersionedBytes :=
  let (keepIncoming, merged) := mergeLoop existing incoming
  (if keepIncoming then merged ++ [incoming] else merged).mergeSort
    fun left right => (compareVersions left right).isLE

def mergeReplyVersions (replies : List (NodeId × List VersionedBytes)) : List VersionedBytes :=
  (replies.flatMap Prod.snd).foldl mergeOneVersion []

abbrev VersionMap := Tables String Bytes (List VersionedBytes)

def VersionMap.versions (store : VersionMap) (table : String) (key : Bytes) :
    List VersionedBytes :=
  (store.get table key).getD []

/-- The loop of `merge_record_sets`. -/
def mergeRecordMap (records : List VersionedRecord) : VersionMap :=
  records.foldl (fun (store : VersionMap) record =>
    store.put record.table record.key
      (record.versions.foldl mergeOneVersion (store.versions record.table record.key))) .empty

def mergeRecordSets (left right : List VersionedRecord) : List VersionedRecord :=
  (mergeRecordMap (left ++ right)).entries.map fun ((table, key), versions) =>
    { table, key, versions }

def applyVersionedWrites (store : VersionMap) (writes : List VersionedWrite) : VersionMap :=
  writes.foldl (fun store write =>
    store.put write.table write.key
      (mergeOneVersion (store.versions write.table write.key) write.version)) store

end MultiDb
