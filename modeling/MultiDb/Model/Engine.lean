import MultiDb.Model.Storage

/-!
# Storage engines

`storage/traits.rs`: engines with one writer, guarded reads under a budget, and engines that keep
every value encoded in the engine below them.
-/

namespace MultiDb

open Shared

/-- `ReadBudget`: whether a read may continue, and whether a buffer is admitted. -/
structure ReadBudget where
  check : Result Unit
  reserve : ℕ → Result Unit

/-- A guarded read with a visitor whose captured variables `σ` survive a failed read. -/
abbrev Visit (σ α : Type) := ExceptT StorageError (StateM σ) α

section Visits

variable {σ : Type} (budget : ReadBudget)

/-- `ReadTransaction::visit_get`, with the answer of the visitor. -/
def visitGet (s : Store) (table : String) (key : Bytes)
    (visitor : Option Bytes → Visit σ Bool) : Visit σ Bool := do
  budget.check
  let value := s.get table key
  budget.check
  (value.elim (.ok ()) fun value => budget.reserve value.length : Result Unit)
  let goOn ← visitor value
  budget.check
  return goOn

/-- The loop of `visit_many`, from the key with the given index. -/
def visitKeys (s : Store) (table : String) (visitor : ℕ → Option Bytes → Visit σ Bool) :
    ℕ → List Bytes → Visit σ Unit
  | _, [] => pure ()
  | index, key :: keys => do
    if ← visitGet budget s table key (visitor index) then
      visitKeys s table visitor (index + 1) keys

def visitMany (s : Store) (table : String) (keys : List Bytes)
    (visitor : ℕ → Option Bytes → Visit σ Bool) : Visit σ Unit := do
  visitKeys budget s table visitor 0 keys
  budget.check

/-- The loop of `visit_range`. -/
def visitEntries (visitor : Bytes → Bytes → Visit σ Bool) : List (Bytes × Bytes) → Visit σ Unit
  | [] => budget.check
  | (key, value) :: entries => do
    budget.check
    budget.reserve (key.length + value.length)
    if ← visitor key value then
      visitEntries visitor entries

def visitRange (s : Store) (table : String) (start stop : Bytes)
    (visitor : Bytes → Bytes → Visit σ Bool) : Visit σ Unit := do
  budget.check
  visitEntries budget visitor (range s table start stop)
  budget.check

end Visits

/-- How an engine reads back a value it keeps encoded, plainly and under a budget. -/
structure StoredFormat where
  decode : String → Bytes → Bytes → Result Bytes
  guardedDecode : ReadBudget → String → Bytes → Bytes → Result Bytes

namespace StoredFormat

variable (format : StoredFormat)

def get (s : Store) (table : String) (key : Bytes) : Result (Option Bytes) :=
  match s.get table key with
  | none => .ok none
  | some stored => some <$> format.decode table key stored

/-- `range`: the items that the iterator yields. -/
def range (s : Store) (table : String) (start stop : Bytes) : List (Result (Bytes × Bytes)) :=
  (MultiDb.range s table start stop).map fun entry => do
    return (entry.1, ← format.decode table entry.1 entry.2)

section Visits

variable {σ : Type} (budget : ReadBudget)

/-- The decoding visit of one value: `visit_decoded_value` and `visit_decrypted_value`. -/
def visitValue (table : String) (key stored : Bytes) (visitor : Bytes → Visit σ Bool) :
    Visit σ Bool := do
  let value ← format.guardedDecode budget table key stored
  budget.check
  visitor value

/-- The visitor that an engine hands to the engine below it. -/
def visitOption (table : String) (key : Bytes) (visitor : Option Bytes → Visit σ Bool) :
    Option Bytes → Visit σ Bool
  | none => visitor none
  | some stored => format.visitValue budget table key stored fun value => visitor (some value)

def visitGet (s : Store) (table : String) (key : Bytes)
    (visitor : Option Bytes → Visit σ Bool) : Visit σ Bool :=
  MultiDb.visitGet budget s table key (format.visitOption budget table key visitor)

def visitMany (s : Store) (table : String) (keys : List Bytes)
    (visitor : ℕ → Option Bytes → Visit σ Bool) : Visit σ Unit :=
  MultiDb.visitMany budget s table keys fun index =>
    format.visitOption budget table (keys.getD index []) (visitor index)

def visitRange (s : Store) (table : String) (start stop : Bytes)
    (visitor : Bytes → Bytes → Visit σ Bool) : Visit σ Unit :=
  MultiDb.visitRange budget s table start stop fun key stored =>
    format.visitValue budget table key stored (visitor key)

end Visits

end StoredFormat

/-- The committed rows, and those that the open write transaction sees. -/
structure EngineState where
  committed : Store
  writer : Option Store := none

namespace EngineState

/-- The rows that the open write transaction sees, or the next one starts from. -/
def staged (st : EngineState) : Store :=
  st.writer.getD st.committed

def commit (st : EngineState) : EngineState :=
  { committed := st.staged }

def rollback (st : EngineState) : EngineState :=
  { committed := st.committed }

end EngineState

/-- The calls of a write transaction; the first one opens it. -/
inductive EngineCall
  | put (table : String) (key value : Bytes)
  | delete (table : String) (key : Bytes)
  | commit
  | rollback
  deriving DecidableEq, Repr

/-- One call of an engine with the given `put` and `delete`; a failed call stages nothing. -/
def engineStep (put : Store → String → Bytes → Bytes → Result Store)
    (delete : Store → String → Bytes → Result Store) (st : EngineState) :
    EngineCall → Result EngineState
  | .put table key value => do return { st with writer := some (← put st.staged table key value) }
  | .delete table key => do return { st with writer := some (← delete st.staged table key) }
  | .commit => .ok st.commit
  | .rollback => .ok st.rollback

/-- The engine at the bottom, which keeps values as they are. -/
def plainStep : EngineState → EngineCall → Result EngineState :=
  engineStep (fun s table key value => .ok (s.put table key value))
    fun s table key => .ok (s.delete table key)

end MultiDb
