import MultiDb.Model.Engine

/-!
# The engine in memory

`MemEngine` of `storage/memory.rs`.  The maps behind an `Arc` are values here: `Arc::make_mut`
copies what a reader still holds.  No lock is poisoned.
-/

namespace MultiDb

open Shared

abbrev MemTable := Std.ExtTreeMap Bytes Bytes
abbrev DatabaseMap := Std.ExtTreeMap String MemTable

/-- `BTreeMap::range` from an included start; `none` is its panic. -/
def MemTable.range (data : MemTable) (start stop : Bytes) : Option (List (Bytes × Bytes)) :=
  if !stop.isEmpty && (compare stop start).isLT then none
  else some (data.toList.filter fun row => keyInRange start stop row.1)

/-- `collect_range`, and the end of `MemReadTxn::range`. -/
def collectRange (data : MemTable) (start stop : Bytes) : Option (List (Bytes × Bytes)) :=
  if !stop.isEmpty && (compare stop start).isLE then some [] else data.range start stop

namespace DatabaseMap

/-- `MemReadTxn::get`. -/
def get (snapshot : DatabaseMap) (table : String) (key : Bytes) : Option Bytes :=
  snapshot[table]?.bind fun data => data[key]?

/-- `MemReadTxn::range`. -/
def range (snapshot : DatabaseMap) (table : String) (start stop : Bytes) :
    Option (List (Bytes × Bytes)) :=
  match snapshot[table]? with
  | none => some []
  | some data => collectRange data start stop

end DatabaseMap

/-- One pending operation on the rows of its table. -/
def MemTable.apply (data : MemTable) (key : Bytes) : Option Bytes → MemTable
  | some value => data.insert key value
  | none => data.erase key

structure MemWriteTxn where
  snapshot : DatabaseMap
  pending : WriteSet := .empty

namespace MemWriteTxn

variable (txn : MemWriteTxn)

def materializedTable (table : String) : MemTable :=
  txn.pending.entries.foldl (fun materialized entry =>
    if entry.1.1 = table then materialized.apply entry.1.2 entry.2 else materialized)
    (txn.snapshot[table]?.getD ∅)

def get (table : String) (key : Bytes) : Option Bytes :=
  match txn.pending.get table key with
  | some value => value
  | none => txn.snapshot.get table key

def range (table : String) (start stop : Bytes) : Option (List (Bytes × Bytes)) :=
  collectRange (txn.materializedTable table) start stop

def put (table : String) (key value : Bytes) : MemWriteTxn :=
  { txn with pending := txn.pending.put table key (some value) }

def delete (table : String) (key : Bytes) : MemWriteTxn :=
  { txn with pending := txn.pending.put table key none }

/-- `commit`, on the map of the engine. -/
def commit (current : DatabaseMap) : DatabaseMap :=
  if txn.pending.entries.isEmpty then current
  else txn.pending.entries.foldl (fun next entry =>
    next.insert entry.1.1 ((next[entry.1.1]?.getD ∅).apply entry.1.2 entry.2)) current

end MemWriteTxn

/-- The map of the engine, its write transaction, and the snapshots of the read transactions. -/
structure MemEngine where
  inner : DatabaseMap := ∅
  writer : Option MemWriteTxn := none
  readers : List DatabaseMap := []

inductive MemCall
  | beginRead
  | beginWrite
  | put (table : String) (key value : Bytes)
  | delete (table : String) (key : Bytes)
  | commit
  | rollback
  deriving DecidableEq, Repr

/-- `begin_write` waits while there is a writer, and a dropped transaction is rolled back. -/
def MemEngine.step (engine : MemEngine) : MemCall → MemEngine
  | .beginRead => { engine with readers := engine.readers ++ [engine.inner] }
  | .beginWrite =>
    { engine with writer := engine.writer.or (some { snapshot := engine.inner }) }
  | .put table key value => { engine with writer := engine.writer.map (·.put table key value) }
  | .delete table key => { engine with writer := engine.writer.map (·.delete table key) }
  | .commit =>
    { engine with
      inner := engine.writer.elim engine.inner fun txn => txn.commit engine.inner
      writer := none }
  | .rollback => { engine with writer := none }

end MultiDb
