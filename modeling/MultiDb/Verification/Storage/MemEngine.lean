import Mathlib.Data.List.Induction
import MultiDb.Model.MemEngine

/-!
# Transactions of the engine in memory

The map of the engine is the snapshot of its writer, so a commit of the pending operations
installs the rows that the writer sees.
-/

namespace MultiDb

open Shared

/-- The committed rows, those that the writer sees, and those of each reader. -/
structure EngineView where
  committed : Store := .empty
  writer : Option Store := none
  readers : List Store := []

/-- The same call on the abstract engine. -/
def EngineView.step (view : EngineView) : MemCall → EngineView
  | .beginRead => { view with readers := view.readers ++ [view.committed] }
  | .beginWrite => { view with writer := view.writer.or (some view.committed) }
  | .put table key value => { view with writer := view.writer.map (·.put table key value) }
  | .delete table key => { view with writer := view.writer.map (·.delete table key) }
  | .commit => { view with committed := view.writer.getD view.committed, writer := none }
  | .rollback => { view with writer := none }

section Rows

variable {t : String} {s : Store} {data : MemTable} {txn : MemWriteTxn}

theorem collectRange_eq (h : ∀ key, data[key]? = s.get t key) (start stop : Bytes) :
    collectRange data start stop = some (range s t start stop) := by
  rw [collectRange]
  by_cases hempty : (!stop.isEmpty && (compare stop start).isLE) = true
  · rw [if_pos hempty, range, Tables.scan_eq_nil_iff.mpr fun key hkey => ?_]
    rw [keyInRange_of_stop_le hempty] at hkey
    contradiction
  · have hbounds : (!stop.isEmpty && (compare stop start).isLT) ≠ true := by
      intro hlt
      obtain ⟨hstop, hlt⟩ := Bool.and_eq_true_iff.mp hlt
      exact hempty (Bool.and_eq_true_iff.mpr ⟨hstop, by
        rw [Ordering.isLT_iff_eq_lt.mp hlt]
        rfl⟩)
    rw [if_neg hempty, MemTable.range, if_neg hbounds, range]
    refine congrArg some (Tables.scan_eq_of_sorted ?_ fun key value => ?_).symm
    · exact Std.ExtTreeMap.ordered_keys_toList.filter _
    · rw [List.mem_filter, Std.ExtTreeMap.mem_toList_iff_getElem?_eq_some, h]

theorem MemTable.getElem?_apply (key key' : Bytes) (value : Option Bytes) :
    (data.apply key value)[key']? = if key = key' then value else data[key']? := by
  cases value with
  | none => simp [apply, Std.ExtTreeMap.getElem?_erase]
  | some value => simp [apply, Std.ExtTreeMap.getElem?_insert]

/-- What a loop over the pending operations leaves in one row. -/
theorem foldl_pending {δ : Type} (view : δ → Option Bytes) {key : Bytes}
    {apply : δ → (String × Bytes) × Option Bytes → δ}
    (h : ∀ d entry, view (apply d entry) =
      if entry.1.1 = t ∧ entry.1.2 = key then entry.2 else view d)
    (pending : WriteSet) (d : δ) :
    view (pending.entries.foldl apply d) = (pending.get t key).getD (view d) := by
  refine (List.foldl_hom view fun d entry => ?_).symm.trans
    ((Tables.foldl_entries pending t key id (view d)).trans ?_)
  · simp only [h, Prod.ext_iff, id]
  · rw [Option.map_id_fun, id]

theorem MemWriteTxn.get_eq (key : Bytes) :
    txn.get t key = (txn.pending.get t key).getD (txn.snapshot.get t key) := by
  rw [get]
  cases txn.pending.get t key <;> rfl

theorem MemWriteTxn.get_pending (table : String) (key key' : Bytes) (value : Option Bytes) :
    get { txn with pending := txn.pending.put table key value } t key' =
      if table = t ∧ key = key' then value else txn.get t key' := by
  rw [get_eq, get_eq, Tables.get_put]
  split <;> rfl

theorem MemWriteTxn.getElem?_materializedTable (key : Bytes) :
    (txn.materializedTable t)[key]? = txn.get t key := by
  have hstart : (txn.snapshot[t]?.getD ∅)[key]? = txn.snapshot.get t key := by
    rw [DatabaseMap.get]
    cases txn.snapshot[t]? <;> simp
  rw [get_eq, ← hstart]
  refine foldl_pending (fun data : MemTable => data[key]?) (fun data entry => ?_) txn.pending _
  by_cases ht : entry.1.1 = t
  · simp [ht, MemTable.getElem?_apply]
  · simp [ht]

theorem MemWriteTxn.get_commit (key : Bytes) :
    (txn.commit txn.snapshot).get t key = txn.get t key := by
  rw [get_eq, commit]
  split
  · rename_i hempty
    rw [Tables.entries_isEmpty_iff.mp hempty t key]
    rfl
  · refine foldl_pending (fun db : DatabaseMap => db.get t key) (fun db entry => ?_) txn.pending _
    by_cases ht : entry.1.1 = t
    · subst ht
      by_cases hkey : entry.1.2 = key
      · simp [DatabaseMap.get, hkey, MemTable.getElem?_apply]
      · cases hdata : db[entry.1.1]? <;>
          simp [DatabaseMap.get, hkey, hdata, MemTable.getElem?_apply]
    · simp [DatabaseMap.get, Std.ExtTreeMap.getElem?_insert, ht]

end Rows

/-- Reads that return the rows of a store. -/
def Shows (get : String → Bytes → Option Bytes)
    (range : String → Bytes → Bytes → Option (List (Bytes × Bytes))) (s : Store) : Prop :=
  (∀ t key, get t key = s.get t key) ∧
    ∀ t start stop, range t start stop = some (MultiDb.range s t start stop)

theorem DatabaseMap.shows {db : DatabaseMap} {s : Store} (h : ∀ t key, db.get t key = s.get t key) :
    Shows db.get db.range s := by
  refine ⟨h, fun t start stop => ?_⟩
  have hrows : ∀ key, (db[t]?.getD ∅)[key]? = s.get t key := by
    intro key
    rw [← h, get]
    cases db[t]? <;> simp
  have hrange := collectRange_eq hrows start stop
  rw [range]
  cases hdata : db[t]? with
  | some data => simpa [hdata] using hrange
  | none =>
    rw [MultiDb.range, Tables.scan_eq_nil_iff.mpr fun key _ => ?_]
    rw [← h, get, hdata]
    rfl

theorem MemWriteTxn.shows {txn : MemWriteTxn} {s : Store}
    (h : ∀ t key, txn.get t key = s.get t key) : Shows txn.get txn.range s :=
  ⟨h, fun t => collectRange_eq fun key => (getElem?_materializedTable key).trans (h t key)⟩

/-- The engine holds the rows of the view, and the writer started from the map of the engine. -/
structure MemInv (engine : MemEngine) (view : EngineView) : Prop where
  inner : ∀ t key, engine.inner.get t key = view.committed.get t key
  writer : Option.Rel (fun txn s => txn.snapshot = engine.inner ∧
    ∀ t key, txn.get t key = s.get t key) engine.writer view.writer
  readers : List.Forall₂ (fun db s => ∀ t key, DatabaseMap.get db t key = s.get t key)
    engine.readers view.readers

theorem MemInv.step {engine : MemEngine} {view : EngineView} (h : MemInv engine view)
    (call : MemCall) : MemInv (engine.step call) (view.step call) := by
  obtain ⟨inner, writer, readers⟩ := engine
  obtain ⟨committed, staged, shown⟩ := view
  obtain ⟨hinner, hwriter, hreaders⟩ := h
  cases call with
  | beginRead => exact ⟨hinner, hwriter, List.rel_append hreaders (.cons hinner .nil)⟩
  | beginWrite =>
    refine ⟨hinner, ?_, hreaders⟩
    cases hwriter with
    | none => exact .some ⟨rfl, hinner⟩
    | some htxn => exact .some htxn
  | put table key value =>
    refine ⟨hinner, ?_, hreaders⟩
    cases hwriter with
    | none => exact .none
    | some htxn =>
      refine .some ⟨htxn.1, fun t key' => ?_⟩
      rw [Tables.get_put, ← htxn.2]
      exact MemWriteTxn.get_pending table key key' (some value)
  | delete table key =>
    refine ⟨hinner, ?_, hreaders⟩
    cases hwriter with
    | none => exact .none
    | some htxn =>
      refine .some ⟨htxn.1, fun t key' => ?_⟩
      rw [Tables.get_delete, ← htxn.2]
      exact MemWriteTxn.get_pending table key key' none
  | commit =>
    cases hwriter with
    | none => exact ⟨hinner, .none, hreaders⟩
    | some htxn =>
      obtain ⟨rfl, htxn⟩ := htxn
      refine ⟨fun t key => (MemWriteTxn.get_commit key).trans (htxn t key), .none, hreaders⟩
  | rollback => exact ⟨hinner, .none, hreaders⟩

theorem memInv_run (calls : List MemCall) :
    MemInv (calls.foldl MemEngine.step {}) (calls.foldl EngineView.step {}) :=
  List.reverseRecOn calls ⟨fun t key => by simp [DatabaseMap.get], .none, .nil⟩
    fun calls call ih => by
      rw [List.foldl_append, List.foldl_append]
      exact ih.step call

/-- The committed rows are those of the last commit, a writer sees its own operations over the rows
it started from, and a reader keeps its rows. -/
theorem memEngine_transactions (calls : List MemCall) :
    let engine := calls.foldl MemEngine.step {}
    let view := calls.foldl EngineView.step {}
    Shows engine.inner.get engine.inner.range view.committed ∧
    Option.Rel (fun txn s => Shows txn.get txn.range s) engine.writer view.writer ∧
    List.Forall₂ (fun (db : DatabaseMap) s => Shows db.get db.range s)
      engine.readers view.readers := by
  intro engine view
  obtain ⟨hinner, hwriter, hreaders⟩ := memInv_run calls
  refine ⟨DatabaseMap.shows hinner, ?_, hreaders.imp fun _ _ => DatabaseMap.shows⟩
  revert hwriter
  generalize (calls.foldl MemEngine.step {}).writer = writer
  generalize (calls.foldl EngineView.step {}).writer = staged
  intro hwriter
  cases hwriter with
  | none => exact .none
  | some htxn => exact .some (MemWriteTxn.shows htxn.2)

end MultiDb
