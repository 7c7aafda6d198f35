import MultiDb.Shared.Tables

/-!
# Storage

The byte store below the transaction layer.  A storage write transaction is atomic, so a call that
fails leaves the store it started from.
-/

namespace MultiDb

open Shared

/-- `StorageError` of `storage/error.rs`. -/
inductive StorageError
  | notFound
  | io (message : String)
  | corruption (message : String)
  | conflict
  | resourceLimit (message : String)
  | timeout (message : String)
  | cancelled (message : String)
  | backend (message : String)
  deriving DecidableEq, Repr

/-- The `Display` text of an error. -/
def StorageError.display : StorageError → String
  | notFound => "not found"
  | io message => "io error: " ++ message
  | corruption message => "data corruption: " ++ message
  | conflict => "write conflict"
  | resourceLimit message => "read resource limit: " ++ message
  | timeout message => "read timeout: " ++ message
  | cancelled message => "read cancelled: " ++ message
  | backend message => "storage backend error: " ++ message

abbrev Result (α : Type) := Except StorageError α

def strBytes (s : String) : Bytes :=
  s.toByteArray.data.toList

theorem strBytes_inj {s t : String} : strBytes s = strBytes t ↔ s = t := by
  refine ⟨fun h => ?_, congrArg strBytes⟩
  exact String.toByteArray_inj.mp (ByteArray.ext (Array.toList_inj.mp h))

theorem fromUTF8_strBytes (s : String) : String.fromUTF8? ⟨(strBytes s).toArray⟩ = some s := by
  have hvalid : ByteArray.IsValidUTF8 ⟨(strBytes s).toArray⟩ := s.isValidUTF8
  rw [String.fromUTF8?, dif_pos hvalid]
  exact congrArg some (String.toByteArray_inj.mp rfl)

theorem strBytes_of_fromUTF8 {bytes : Bytes} {s : String}
    (h : String.fromUTF8? ⟨bytes.toArray⟩ = some s) : strBytes s = bytes := by
  rw [String.fromUTF8?] at h
  split at h
  · cases h
    rfl
  · contradiction

abbrev Store := Tables String Bytes Bytes

/-- The keys of a half-open range.  An empty end leaves the range open. -/
def keyInRange (start stop key : Bytes) : Bool :=
  (compare start key).isLE && (stop.isEmpty || (compare key stop).isLT)

def range (s : Store) (table : String) (start stop : Bytes) : List (Bytes × Bytes) :=
  s.scan table (keyInRange start stop)

theorem mem_range {s : Store} {table : String} {start stop key value : Bytes} :
    (key, value) ∈ range s table start stop ↔
      s.get table key = some value ∧ keyInRange start stop key = true :=
  Tables.mem_scan

@[simp] theorem keyInRange_nil_nil (key : Bytes) : keyInRange [] [] key = true := by
  cases key <;> rfl

theorem keyInRange_of_stop_le {start stop : Bytes}
    (h : (!stop.isEmpty && (compare stop start).isLE) = true)
    (key : Bytes) : keyInRange start stop key = false := by
  rw [Bool.and_eq_true, Bool.not_eq_true'] at h
  rw [keyInRange, h.1, Bool.false_or, Bool.and_eq_false_iff, or_iff_not_imp_left,
    Bool.not_eq_false]
  intro hle
  have hstop := Std.TransCmp.isLE_trans h.2 hle
  cases hcmp : compare key stop with
  | lt =>
    rw [Std.OrientedCmp.gt_of_lt hcmp] at hstop
    contradiction
  | eq => rfl
  | gt => rfl

theorem range_all_eq_nil_iff {s : Store} {table : String} :
    range s table [] [] = [] ↔ ∀ key, s.get table key = none := by
  simp [range, Tables.scan_eq_nil_iff]

/-- `WriteSet`: the last write of a transaction to each row; `none` deletes it. -/
abbrev WriteSet := Tables String Bytes (Option Bytes)

/-- What one storage call meets: whether the engine can open and commit, and the clock readings of
the commit record, the hybrid clock and distributed transactions. -/
structure Env where
  beginWrite : Result Unit := .ok ()
  commit : Result Unit := .ok ()
  committedAt : ℤ
  tickedAt : ℤ
  stampedAt : ℤ := 0

end MultiDb
