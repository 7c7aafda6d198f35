import MultiDb.Model.RoutedScan
import MultiDb.Verification.Shard.RoutedReads

/-!
# The owned rows of a shard

A router that scans a shard skips the rows that another shard owns.  It asks again behind
each row it has taken.
-/

namespace MultiDb

open Shared

variable {e : ReplError}
variable {row : Bytes × Bytes} {shard : ShardId} {owned rows after before : List (Bytes × Bytes)}
  {start : Bytes} {s : Store}

/-! ## Programs that only read -/

/-- In every run the program has this result and leaves the cluster as it is. -/
def Reads {α : Type} (C : Codecs) (c : Cluster) (p : Router α) (result : ReplResult α) : Prop :=
  ∀ inputs, p.run (serveCall C) inputs c = (result, c)

section Reads

variable {α β : Type} {C : Codecs} {c : Cluster} {p : Router α} {f : α → Router β}
variable {r : ReplResult α}

theorem Reads.unique {r' : ReplResult α} (h : Reads C c p r) (h' : Reads C c p r') : r = r' :=
  (Prod.mk.inj ((h answered).symm.trans (h' answered))).1

theorem reads_compute (r : ReplResult α) : Reads C c (Router.compute r) r :=
  fun _ => rfl

theorem reads_pure (a : α) : Reads C c (pure a) (pure a) :=
  fun _ => rfl

theorem Reads.bind {a : α} {r : ReplResult β} (hp : Reads C c p (.ok a))
    (hf : Reads C c (f a) r) : Reads C c (p >>= f) r :=
  Prog.run_bind_ok hp hf

theorem Reads.bind_error (hp : Reads C c p (.error e)) : Reads C c (p >>= f) (.error e) :=
  Prog.run_bind_error hp

theorem Reads.seq {g : α → ReplResult β} (hp : Reads C c p r)
    (hf : ∀ a, Reads C c (f a) (g a)) : Reads C c (p >>= f) (r >>= g) := by
  cases r with
  | error e => exact hp.bind_error
  | ok a => exact hp.bind (hf a)

theorem reads_range (shard : ShardId) (t : String) (start stop : Bytes) :
    Reads C c (Router.ask shard (.range t start stop))
      (SingleNode.range (c.stores shard) t start stop) := by
  intro inputs
  have hexec : c.exec C (inputs 0).env ⟨shard, .range t start stop⟩ =
      (SingleNode.range (c.stores shard) t start stop, c) :=
    Cluster.exec_same rfl rfl rfl
  simp only [Router.ask, Prog.run, serveCall, hexec]

theorem reads_read (shard : ShardId) (t : String) (k : Bytes) :
    Reads C c (Router.ask shard (.read t k)) (SingleNode.read (c.stores shard) t k) := by
  intro inputs
  have hexec : c.exec C (inputs 0).env ⟨shard, .read t k⟩ =
      (SingleNode.read (c.stores shard) t k, c) :=
    Cluster.exec_same rfl rfl rfl
  simp only [Router.ask, Prog.run, serveCall, hexec]

end Reads

/-! ## The owned rows of one shard -/

variable (C : Codecs) (cfg : RouterConfig) (map : ShardMap) (c : Cluster) (t : String)
  (stop : Bytes)

/-- The rows of the range that the shard stores and owns. -/
def ownedFrom (shard : ShardId) (start : Bytes) : ReplResult (List (Bytes × Bytes)) := do
  let rows ← SingleNode.range (c.stores shard) t start stop
  ownedRows C cfg map shard t rows

/-- The first of these rows. -/
def nextOwned (shard : ShardId) (start : Bytes) : ReplResult (Option (Bytes × Bytes)) := do
  let rows ← SingleNode.range (c.stores shard) t start stop
  firstOwned C cfg map shard t rows

variable {C cfg map c t stop}

theorem reads_nextOwnedRow (shard : ShardId) (start : Bytes) :
    Reads C c (nextOwnedRow C cfg map false shard t start stop)
      (nextOwned C cfg map c t stop shard start) :=
  (reads_range shard t start stop).seq fun _ => reads_compute _

/-- The shard owns the key of the row. -/
def owns (C : Codecs) (cfg : RouterConfig) (map : ShardMap) (t : String) (shard : ShardId)
    (row : Bytes × Bytes) : Bool :=
  match map.shardFor C cfg t row.1 with
  | .ok owner => owner = shard
  | .error _ => false

theorem owns_iff :
    owns C cfg map t shard row = true ↔ map.shardFor C cfg t row.1 = .ok shard := by
  rw [owns]
  cases map.shardFor C cfg t row.1 <;> simp

theorem ownedRows_eq_ok_iff :
    ownedRows C cfg map shard t rows = .ok owned ↔
      (∀ row ∈ rows, ∃ owner, map.shardFor C cfg t row.1 = .ok owner) ∧
        owned = rows.filter (owns C cfg map t shard) := by
  have htest : ∀ row : Bytes × Bytes,
      accepts (do return (← map.shardFor C cfg t row.1) = shard : ReplResult Bool) =
        owns C cfg map t shard row := by
    intro row
    rw [owns]
    cases map.shardFor C cfg t row.1 <;> rfl
  have hrouted : ∀ row : Bytes × Bytes,
      (∃ keep, (do return (← map.shardFor C cfg t row.1) = shard : ReplResult Bool) = .ok keep) ↔
        ∃ owner, map.shardFor C cfg t row.1 = .ok owner := by
    intro row
    cases map.shardFor C cfg t row.1 with
    | error e => simp [bind, Except.bind]
    | ok owner => exact ⟨fun _ => ⟨owner, rfl⟩, fun _ => ⟨_, rfl⟩⟩
  simp only [ownedRows, filterM_eq_ok_iff, htest, hrouted]

theorem firstOwned_of_ownedRows
    (h : ownedRows C cfg map shard t rows = .ok owned) :
    firstOwned C cfg map shard t rows = .ok owned.head? := by
  obtain ⟨hrouted, rfl⟩ := ownedRows_eq_ok_iff.mp h
  clear h
  induction rows with
  | nil => rfl
  | cons row rows ih =>
    obtain ⟨⟨owner, howner⟩, hrest⟩ := List.forall_mem_cons.mp hrouted
    rw [firstOwned, howner]
    by_cases heq : owner = shard
    · have howns : owns C cfg map t shard row = true := owns_iff.mpr (heq ▸ howner)
      simp [bind, Except.bind, heq, howns, pure, Except.pure]
    · have howns : owns C cfg map t shard row = false := by
        simp [owns, howner, heq]
      simp [bind, Except.bind, heq, howns, ih hrest]

theorem firstOwned_eq_ok
    {head : Option (Bytes × Bytes)} (h : firstOwned C cfg map shard t rows = .ok head) :
    ∃ before after, rows = before ++ after ∧ ownedRows C cfg map shard t before = .ok [] ∧
      head = after.head? ∧ ∀ row, head = some row → owns C cfg map t shard row = true := by
  induction rows with
  | nil =>
    obtain rfl := pure_eq_ok_iff.mp h
    exact ⟨[], [], rfl, rfl, rfl, by simp⟩
  | cons row rows ih =>
    obtain ⟨owner, howner, h⟩ := bind_eq_ok_iff.mp h
    by_cases heq : owner = shard
    · rw [if_pos heq] at h
      obtain rfl := pure_eq_ok_iff.mp h
      refine ⟨[], row :: rows, rfl, rfl, rfl, ?_⟩
      rintro _ ⟨⟩
      exact owns_iff.mpr (heq ▸ howner)
    · rw [if_neg heq] at h
      obtain ⟨before, after, rfl, hbefore, hhead, howns⟩ := ih h
      obtain ⟨hrouted, hnone⟩ := ownedRows_eq_ok_iff.mp hbefore
      refine ⟨row :: before, after, rfl, ownedRows_eq_ok_iff.mpr ⟨?_, ?_⟩, hhead, howns⟩
      · exact List.forall_mem_cons.mpr ⟨⟨owner, howner⟩, hrouted⟩
      · have hother : owns C cfg map t shard row = false := by simp [owns, howner, heq]
        rw [List.filter_cons, hother, ← hnone]
        rfl

/-! ## Asking a shard again -/

theorem range_behind {k : Bytes} (hk : keyInRange start stop k = true) :
    range s t (k ++ [0]) stop =
      (range s t start stop).filter fun row => (compare k row.1).isLT := by
  refine Tables.scan_eq_of_sorted ((Tables.scan_sorted s t _).filter _) fun key value => ?_
  rw [List.mem_filter, mem_range, and_assoc]
  refine and_congr_right fun _ => ?_
  simp only [keyInRange, Bool.and_eq_true, isLE_compare_append_zero] at hk ⊢
  constructor
  · rintro ⟨⟨-, hstop⟩, hlt⟩
    exact ⟨hlt, hstop⟩
  · rintro ⟨hlt, hstop⟩
    have hle : (compare k key).isLE = true := by
      rw [Ordering.isLT_iff_eq_lt.mp hlt]
      rfl
    exact ⟨⟨Std.TransCmp.isLE_trans hk.1 hle, hstop⟩, hlt⟩

theorem range_behind_row (h : range s t start stop = before ++ row :: after) :
    range s t (row.1 ++ [0]) stop = after := by
  have hmem : row ∈ range s t start stop := by simp [h]
  have hsorted := Tables.scan_sorted s t (keyInRange start stop)
  change (range s t start stop).Pairwise _ at hsorted
  rw [range_behind (mem_range.mp hmem).2, h, List.filter_append]
  rw [h, List.pairwise_append] at hsorted
  obtain ⟨-, hrow, hbefore⟩ := hsorted
  have hnone : before.filter (fun other => (compare row.1 other.1).isLT) = [] := by
    refine List.filter_eq_nil_iff.mpr fun other hother => ?_
    rw [Std.OrientedCmp.gt_of_lt (hbefore other hother row List.mem_cons_self)]
    decide
  have hself : (compare row.1 row.1).isLT = false := by
    rw [Std.LawfulEqOrd.compare_eq_iff_eq.mpr rfl]
    rfl
  have hall : after.filter (fun other => (compare row.1 other.1).isLT) = after := by
    refine List.filter_eq_self.mpr fun other hother => ?_
    rw [List.rel_of_pairwise_cons hrow hother]
    rfl
  rw [hnone, List.filter_cons, hself, hall]
  rfl

theorem singleNode_range_behind (ht : tableIsReserved t = false)
    (h : SingleNode.range s t start stop = .ok (before ++ row :: after)) :
    SingleNode.range s t (row.1 ++ [0]) stop = .ok after := by
  obtain ⟨hfree, hrows⟩ := singleNode_range_eq_ok_iff.mp h
  have hmem : row ∈ range s t start stop := by simp [← hrows]
  have hin := (mem_range.mp hmem).2
  rw [keyInRange, Bool.and_eq_true] at hin
  have hlater := Std.TransCmp.isLE_trans hin.1 (compare_self_append row.1 [0])
  exact singleNode_range_eq_ok_iff.mpr
    ⟨hasRangeLocks_later ht hfree hlater, (range_behind_row hrows.symm).symm⟩

theorem ownedFrom_behind (ht : tableIsReserved t = false)
    (h : ownedFrom C cfg map c t stop shard start = .ok (row :: rows)) :
    ownedFrom C cfg map c t stop shard (row.1 ++ [0]) = .ok rows := by
  obtain ⟨found, hfound, howned⟩ := bind_eq_ok_iff.mp h
  obtain ⟨hrouted, hfilter⟩ := ownedRows_eq_ok_iff.mp howned
  obtain ⟨before, after, rfl, -, -, rfl⟩ := List.filter_eq_cons_iff.mp hfilter.symm
  refine bind_eq_ok_iff.mpr ⟨after, singleNode_range_behind ht hfound, ?_⟩
  refine ownedRows_eq_ok_iff.mpr ⟨fun other hother => hrouted other ?_, rfl⟩
  simp [hother]

theorem nextOwned_of_ownedFrom
    (h : ownedFrom C cfg map c t stop shard start = .ok rows) :
    nextOwned C cfg map c t stop shard start = .ok rows.head? := by
  obtain ⟨found, hfound, howned⟩ := bind_eq_ok_iff.mp h
  exact bind_eq_ok_iff.mpr ⟨found, hfound, firstOwned_of_ownedRows howned⟩

theorem ownedFrom_of_nextOwned_none
    (h : nextOwned C cfg map c t stop shard start = .ok none) :
    ownedFrom C cfg map c t stop shard start = .ok [] := by
  obtain ⟨found, hfound, hfirst⟩ := bind_eq_ok_iff.mp h
  obtain ⟨before, after, rfl, hbefore, hhead, -⟩ := firstOwned_eq_ok hfirst
  obtain rfl := List.head?_eq_none_iff.mp hhead.symm
  rw [List.append_nil] at hfound
  exact bind_eq_ok_iff.mpr ⟨before, hfound, hbefore⟩

/-- The first owned row is followed by the rest. -/
theorem ownedFrom_of_nextOwned_some (ht : tableIsReserved t = false)
    (h : nextOwned C cfg map c t stop shard start = .ok (some row))
    (hrest : ownedFrom C cfg map c t stop shard (row.1 ++ [0]) = .ok rows) :
    ownedFrom C cfg map c t stop shard start = .ok (row :: rows) := by
  obtain ⟨found, hfound, hfirst⟩ := bind_eq_ok_iff.mp h
  obtain ⟨before, after, rfl, hbefore, hhead, howns⟩ := firstOwned_eq_ok hfirst
  obtain ⟨rest, rfl⟩ := List.head?_eq_some_iff.mp hhead.symm
  obtain ⟨behind, hbehind, howned⟩ := bind_eq_ok_iff.mp hrest
  cases (singleNode_range_behind ht hfound).symm.trans hbehind
  obtain ⟨hroutedBefore, hnone⟩ := ownedRows_eq_ok_iff.mp hbefore
  obtain ⟨hroutedRest, rfl⟩ := ownedRows_eq_ok_iff.mp howned
  have howner := howns row rfl
  refine bind_eq_ok_iff.mpr ⟨_, hfound, ownedRows_eq_ok_iff.mpr ⟨?_, ?_⟩⟩
  · intro other hother
    rcases List.mem_append.mp hother with hother | hother
    · exact hroutedBefore other hother
    · rcases List.mem_cons.mp hother with rfl | hother
      · exact ⟨shard, owns_iff.mp howner⟩
      · exact hroutedRest other hother
  · rw [List.filter_append, ← hnone, List.filter_cons, howner]
    rfl

theorem sorted_of_ownedFrom
    (h : ownedFrom C cfg map c t stop shard start = .ok rows) :
    rows.Pairwise fun a b => compare a.1 b.1 = .lt := by
  obtain ⟨found, hfound, howned⟩ := bind_eq_ok_iff.mp h
  obtain ⟨-, rfl⟩ := singleNode_range_eq_ok_iff.mp hfound
  obtain ⟨-, rfl⟩ := ownedRows_eq_ok_iff.mp howned
  exact (Tables.scan_sorted _ t _).filter _

theorem mem_of_ownedFrom {key value : Bytes}
    (h : ownedFrom C cfg map c t stop shard start = .ok rows) :
    (key, value) ∈ rows ↔ (c.stores shard).get t key = some value ∧
      keyInRange start stop key = true ∧ map.shardFor C cfg t key = .ok shard := by
  obtain ⟨found, hfound, howned⟩ := bind_eq_ok_iff.mp h
  obtain ⟨-, rfl⟩ := singleNode_range_eq_ok_iff.mp hfound
  obtain ⟨-, rfl⟩ := ownedRows_eq_ok_iff.mp howned
  rw [List.mem_filter, mem_range, owns_iff, and_assoc]

end MultiDb
