import MultiDb.Verification.Shard.OwnedRows

/-!
# The merges of the shards

`scan_range_batches` and `guarded_range` take the least head of the shards in each round.
-/

namespace MultiDb

open Shared

variable {C : Codecs} {cfg : RouterConfig} {map : ShardMap} {c : Cluster} {t : String}
  {stop : Bytes}
  {heads : List (ShardId × Option (Bytes × Bytes))}

theorem keyLE_total (a b : Bytes × Bytes) (h : keyLE a b = false) : keyLE b a = true := by
  rw [keyLE] at h ⊢
  cases hcmp : compare a.1 b.1 with
  | gt =>
    rw [Std.OrientedCmp.gt_iff_lt.mp hcmp]
    rfl
  | _ =>
    rw [hcmp] at h
    contradiction

theorem keyLE_trans (a b c : Bytes × Bytes) (hab : keyLE a b = true) (hbc : keyLE b c = true) :
    keyLE a c = true :=
  Std.TransCmp.isLE_trans hab hbc

theorem leastHead_heads {heads : List (ShardId × Option (Bytes × Bytes))} {index : ℕ}
    {row : Bytes × Bytes} (h : leastHead keyLE (heads.map Prod.snd) = some (index, row)) :
    ∃ shard, heads[index]? = some (shard, some row) := by
  have hget := (leastHead_spec keyLE_total keyLE_trans h).1
  rw [List.getElem?_map, Option.map_eq_some_iff] at hget
  obtain ⟨⟨shard, head⟩, hhead, rfl⟩ := hget
  exact ⟨shard, hhead⟩

/-! ## The two loops -/

/-- The rows behind the heads, merged in the order of their keys. -/
def mergeRows (C : Codecs) (cfg : RouterConfig) (map : ShardMap) (c : Cluster) (t : String)
    (stop : Bytes) : ℕ → List (ShardId × Option (Bytes × Bytes)) → List (Bytes × Bytes) →
      ReplResult (List (Bytes × Bytes))
  | 0, _, _ => .error (.transport "no rounds left")
  | rounds + 1, heads, rows =>
    match leastHead keyLE (heads.map Prod.snd) with
    | none => .ok rows
    | some (index, row) =>
      match heads[index]? with
      | none => .error (.transport "missing guarded shard head")
      | some (shard, _) => do
        let head ← nextOwned C cfg map c t stop shard (row.1 ++ [0])
        mergeRows C cfg map c t stop rounds (heads.set index (shard, head)) (rows ++ [row])

theorem mergeRows_row {rounds index : ℕ} {row : Bytes × Bytes} {shard : ShardId}
    {rows : List (Bytes × Bytes)} (hleast : leastHead keyLE (heads.map Prod.snd) =
    some (index, row)) (hget : heads[index]? = some (shard, some row)) :
    mergeRows C cfg map c t stop (rounds + 1) heads rows = (do
      let head ← nextOwned C cfg map c t stop shard (row.1 ++ [0])
      mergeRows C cfg map c t stop rounds (heads.set index (shard, head)) (rows ++ [row])) := by
  rw [mergeRows, hleast]
  simp only [hget]

/-- The loop of `guarded_range` visits the merged rows. -/
theorem reads_guardedMerge (rounds : ℕ) (heads : List (ShardId × Option (Bytes × Bytes)))
    (rows : List (Bytes × Bytes)) :
    Reads C c (guardedMerge C cfg map collectRow t stop rounds heads rows)
      (mergeRows C cfg map c t stop rounds heads rows) := by
  induction rounds generalizing heads rows with
  | zero => exact reads_compute (.error _)
  | succ rounds ih =>
    rw [guardedMerge]
    cases hleast : leastHead keyLE (heads.map Prod.snd) with
    | none =>
      rw [mergeRows, hleast]
      exact reads_pure rows
    | some found =>
      obtain ⟨index, row⟩ := found
      obtain ⟨shard, hget⟩ := leastHead_heads hleast
      rw [mergeRows_row hleast hget]
      simp only [hget]
      exact (reads_compute _).bind ((reads_nextOwnedRow shard _).seq fun head => ih _ _)

variable (C cfg map c t stop) in
/-- The loop of `scan_range_batches` cuts the merged rows into batches. -/
theorem reads_scanMerge (batchRows rounds : ℕ) (heads : List (ShardId × Option (Bytes × Bytes)))
    (batch : List (Bytes × Bytes)) (batches : List (List (Bytes × Bytes))) :
    ∃ scanned, mergeRows C cfg map c t stop rounds heads (batches.flatten ++ batch) =
        scanned.map List.flatten ∧
      Reads C c (scanMerge C cfg map collectBatches t stop batchRows rounds heads batch batches)
        scanned := by
  induction rounds generalizing heads batch batches with
  | zero => exact ⟨_, rfl, reads_compute (.error _)⟩
  | succ rounds ih =>
    rw [scanMerge]
    simp only [collectBatches, Bool.false_eq_true, if_false]
    cases hleast : leastHead keyLE (heads.map Prod.snd) with
    | none =>
      rw [mergeRows, hleast]
      by_cases hbatch : batch.isEmpty
      · rw [if_pos hbatch, List.isEmpty_iff.mp hbatch, List.append_nil]
        exact ⟨.ok batches, rfl, reads_pure _⟩
      · rw [if_neg hbatch]
        exact ⟨.ok (batches ++ [batch]), by simp [Except.map],
          (reads_compute _).bind (reads_pure _)⟩
    | some found =>
      obtain ⟨index, row⟩ := found
      obtain ⟨shard, hget⟩ := leastHead_heads hleast
      rw [mergeRows_row hleast hget]
      simp only [hget]
      have hread : Reads C c (nextOwnedRow C cfg map false shard t (row.1 ++ [0]) stop) _ :=
        reads_nextOwnedRow shard _
      by_cases hfull : batchRows ≤ (batch ++ [row]).length
      · simp only [if_pos hfull]
        cases hnext : nextOwned C cfg map c t stop shard (row.1 ++ [0]) with
        | error e => exact ⟨.error e, rfl, (reads_compute _).bind (hnext ▸ hread).bind_error⟩
        | ok head =>
          obtain ⟨scanned, hscanned, hscan⟩ :=
            ih (heads.set index (shard, head)) [] (batches ++ [batch ++ [row]])
          refine ⟨scanned, ?_, (reads_compute _).bind (Reads.bind (hnext ▸ hread) hscan)⟩
          simpa [bind, Except.bind] using hscanned
      · simp only [if_neg hfull]
        cases hnext : nextOwned C cfg map c t stop shard (row.1 ++ [0]) with
        | error e => exact ⟨.error e, rfl, (hnext ▸ hread).bind_error⟩
        | ok head =>
          obtain ⟨scanned, hscanned, hscan⟩ :=
            ih (heads.set index (shard, head)) (batch ++ [row]) batches
          refine ⟨scanned, ?_, Reads.bind (hnext ▸ hread) hscan⟩
          simpa [bind, Except.bind] using hscanned

/-! ## The merged rows -/

/-- Shards that can be read give a merge of their owned rows. -/
theorem mergeRows_eq_ok (ht : tableIsReserved t = false) (rounds : ℕ)
    (cursors : List (ShardId × List (Bytes × Bytes)))
    (howned : ∀ cursor ∈ cursors,
      ∃ start, ownedFrom C cfg map c t stop cursor.1 start = .ok cursor.2)
    (hrounds : (cursors.map Prod.snd).flatten.length < rounds) (rows : List (Bytes × Bytes)) :
    ∃ out, Merges keyLE (cursors.map Prod.snd) out ∧
      mergeRows C cfg map c t stop rounds
        (cursors.map fun cursor => (cursor.1, cursor.2.head?)) rows = .ok (rows ++ out) := by
  induction rounds generalizing cursors rows with
  | zero => omega
  | succ rounds ih =>
    have hheads : (cursors.map fun cursor => (cursor.1, cursor.2.head?)).map Prod.snd =
        cursors.map fun cursor => cursor.2.head? := by
      rw [List.map_map]
      rfl
    cases hleast : leastHead keyLE
        ((cursors.map fun cursor => (cursor.1, cursor.2.head?)).map Prod.snd) with
    | none =>
      refine ⟨[], .done fun l hl => ?_, by rw [mergeRows, hleast, List.append_nil]⟩
      obtain ⟨cursor, hcursor, rfl⟩ := List.mem_map.mp hl
      rw [hheads] at hleast
      exact List.head?_eq_none_iff.mp
        (leastHead_eq_none_iff.mp hleast _ (List.mem_map.mpr ⟨cursor, hcursor, rfl⟩))
    | some found =>
      obtain ⟨index, row⟩ := found
      have hmin := (leastHead_spec keyLE_total keyLE_trans hleast).2
      obtain ⟨shard, hget⟩ := leastHead_heads hleast
      obtain ⟨⟨shard', list⟩, hcursor, heq⟩ := Option.map_eq_some_iff.mp
        (List.getElem?_map.symm.trans hget)
      obtain ⟨rfl, hhead⟩ := Prod.mk.inj heq
      obtain ⟨rest, rfl⟩ := List.head?_eq_some_iff.mp hhead
      obtain ⟨start, hlist⟩ := howned _ (List.mem_of_getElem? hcursor)
      have hrest := ownedFrom_behind ht hlist
      have hget' : (cursors.map Prod.snd)[index]? = some (row :: rest) := by
        rw [List.getElem?_map, hcursor]
        rfl
      have hlength := (flatten_perm_of_getElem? hget').length_eq
      have hset : (cursors.set index (shard', rest)).map Prod.snd =
          (cursors.map Prod.snd).set index rest := List.map_set
      obtain ⟨out, hmerges, hmerged⟩ := ih (cursors.set index (shard', rest)) (fun cursor hmem => by
          rcases List.mem_or_eq_of_mem_set hmem with hmem | rfl
          · exact howned cursor hmem
          · exact ⟨_, hrest⟩) (by
          rw [hset]
          simp only [List.length_cons] at hlength
          omega) (rows ++ [row])
      rw [hset] at hmerges
      refine ⟨row :: out, .step hget' (fun l hl b hb => hmin b ?_) hmerges, ?_⟩
      · obtain ⟨cursor, hcursor, rfl⟩ := List.mem_map.mp hl
        rw [hheads, ← hb]
        exact List.mem_map.mpr ⟨cursor, hcursor, rfl⟩
      · rw [List.map_set] at hmerged
        rw [mergeRows_row hleast hget, nextOwned_of_ownedFrom hrest]
        exact hmerged.trans (by rw [List.append_assoc]; rfl)

/-- A merge that ends has read every shard to its end. -/
theorem ownedFrom_of_mergeRows (ht : tableIsReserved t = false) (rounds : ℕ)
    (cursors : List (ShardId × Bytes × Option (Bytes × Bytes)))
    (hnext : ∀ cursor ∈ cursors,
      nextOwned C cfg map c t stop cursor.1 cursor.2.1 = .ok cursor.2.2)
    {rows out : List (Bytes × Bytes)}
    (h : mergeRows C cfg map c t stop rounds
      (cursors.map fun cursor => (cursor.1, cursor.2.2)) rows = .ok out) :
    ∀ cursor ∈ cursors, ∃ owned, ownedFrom C cfg map c t stop cursor.1 cursor.2.1 = .ok owned := by
  induction rounds generalizing cursors rows with
  | zero => cases h
  | succ rounds ih =>
    cases hleast : leastHead keyLE
        ((cursors.map fun cursor => (cursor.1, cursor.2.2)).map Prod.snd) with
    | none =>
      intro cursor hcursor
      have hnone := leastHead_eq_none_iff.mp hleast cursor.2.2
        (List.mem_map_of_mem (List.mem_map_of_mem hcursor))
      exact ⟨[], ownedFrom_of_nextOwned_none (hnone ▸ hnext cursor hcursor)⟩
    | some found =>
      obtain ⟨index, row⟩ := found
      obtain ⟨shard, hget⟩ := leastHead_heads hleast
      obtain ⟨⟨shard', start, head⟩, hcursor, heq⟩ := Option.map_eq_some_iff.mp
        (List.getElem?_map.symm.trans hget)
      cases heq
      have hfirst := hnext _ (List.mem_of_getElem? hcursor)
      rw [mergeRows_row hleast hget] at h
      obtain ⟨next, hbehind, h⟩ := bind_eq_ok_iff.mp h
      have hrest := ih (cursors.set index (shard', row.1 ++ [0], next)) (fun cursor hmem => by
          rcases List.mem_or_eq_of_mem_set hmem with hmem | rfl
          · exact hnext cursor hmem
          · exact hbehind) (by rw [List.map_set]; exact h)
      intro cursor hmem
      obtain ⟨j, hj⟩ := List.mem_iff_getElem?.mp hmem
      by_cases hindex : index = j
      · cases hcursor.symm.trans (hindex ▸ hj)
        obtain ⟨owned, howned⟩ := hrest _ (List.mem_set
          (List.getElem?_eq_some_iff.mp hcursor).1 _)
        exact ⟨_, ownedFrom_of_nextOwned_some ht hfirst howned⟩
      · exact hrest cursor (List.mem_of_getElem? ((List.getElem?_set_ne hindex).trans hj))

end MultiDb
