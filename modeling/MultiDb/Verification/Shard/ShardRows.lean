import MultiDb.Verification.Shard.Merges

/-!
# The rows of all shards

`range` sorts the owned rows of all shards; the other two paths merge them.
-/

namespace MultiDb

open Shared

variable {C : Codecs} {cfg : RouterConfig} {map : ShardMap} {c : Cluster} {t : String}
  {start stop : Bytes} {shards : List ShardId}

/-- The owned rows of a shard that can be read. -/
def ownedList (C : Codecs) (cfg : RouterConfig) (map : ShardMap) (c : Cluster) (t : String)
    (start stop : Bytes) (shard : ShardId) : List (Bytes × Bytes) :=
  match ownedFrom C cfg map c t stop shard start with
  | .ok rows => rows
  | .error _ => []

/-- Every shard can be read, and its rows can be routed. -/
def AllOwned (C : Codecs) (cfg : RouterConfig) (map : ShardMap) (c : Cluster) (t : String)
    (start stop : Bytes) (shards : List ShardId) : Prop :=
  ∀ shard ∈ shards, ∃ rows, ownedFrom C cfg map c t stop shard start = .ok rows

theorem AllOwned.eq_ownedList {shard : ShardId}
    (h : AllOwned C cfg map c t start stop shards) (hshard : shard ∈ shards) :
    ownedFrom C cfg map c t stop shard start = .ok (ownedList C cfg map c t start stop shard) := by
  obtain ⟨rows, hrows⟩ := h shard hshard
  rw [ownedList, hrows]

theorem reads_scanHeads (shards : List ShardId) :
    Reads C c (scanHeads C cfg map t start stop shards) (shards.mapM fun shard => do
      return (shard, ← nextOwned C cfg map c t stop shard start)) := by
  induction shards with
  | nil => exact reads_pure []
  | cons shard shards ih =>
    rw [List.mapM_cons, bind_assoc]
    exact (reads_nextOwnedRow shard start).seq fun head => ih.seq fun heads => reads_pure _

theorem AllOwned.heads (h : AllOwned C cfg map c t start stop shards) :
    (shards.mapM fun shard => do return (shard, ← nextOwned C cfg map c t stop shard start)) =
      .ok (shards.map fun shard => (shard, (ownedList C cfg map c t start stop shard).head?)) := by
  rw [mapM_eq_ok_iff, List.map_map]
  refine List.map_congr_left fun shard hshard => ?_
  rw [nextOwned_of_ownedFrom (h.eq_ownedList hshard)]
  rfl

theorem heads_eq_ok {heads : List (ShardId × Option (Bytes × Bytes))}
    (h : (shards.mapM fun shard => do return (shard, ← nextOwned C cfg map c t stop shard start)) =
      .ok heads) :
    heads.map Prod.fst = shards ∧
      ∀ head ∈ heads, nextOwned C cfg map c t stop head.1 start = .ok head.2 := by
  have hhead : ∀ {shard : ShardId} {head : ShardId × Option (Bytes × Bytes)},
      (do return (shard, ← nextOwned C cfg map c t stop shard start) : ReplResult _) = .ok head →
      head.1 = shard ∧ nextOwned C cfg map c t stop head.1 start = .ok head.2 := by
    intro shard head hhead
    obtain ⟨row, hrow, heq⟩ := bind_eq_ok_iff.mp hhead
    cases heq
    exact ⟨rfl, hrow⟩
  refine ⟨?_, fun head hmem => ?_⟩
  · rw [← List.forall₂_eq_eq_eq, List.forall₂_map_left_iff]
    exact (mapM_eq_ok_iff_forall₂.mp h).flip.imp fun _ _ h => (hhead h).1
  · obtain ⟨shard, -, hshard⟩ := (mem_of_mapM_eq_ok h).mp hmem
    exact (hhead hshard).2

/-! ## The rows of all shards -/

/-- The owned rows of all shards. -/
def allRows (C : Codecs) (cfg : RouterConfig) (map : ShardMap) (c : Cluster) (t : String)
    (start stop : Bytes) : List (Bytes × Bytes) :=
  cfg.shards.flatMap (ownedList C cfg map c t start stop)

theorem mem_allRows (h : AllOwned C cfg map c t start stop cfg.shards) {key value : Bytes} :
    (key, value) ∈ allRows C cfg map c t start stop ↔ keyInRange start stop key = true ∧
      ∃ shard ∈ cfg.shards, map.shardFor C cfg t key = .ok shard ∧
        (c.stores shard).get t key = some value := by
  rw [allRows, List.mem_flatMap]
  constructor
  · rintro ⟨shard, hshard, hrow⟩
    obtain ⟨hget, hin, howner⟩ := (mem_of_ownedFrom (h.eq_ownedList hshard)).mp hrow
    exact ⟨hin, shard, hshard, howner, hget⟩
  · rintro ⟨hin, shard, hshard, howner, hget⟩
    exact ⟨shard, hshard, (mem_of_ownedFrom (h.eq_ownedList hshard)).mpr ⟨hget, hin, howner⟩⟩

theorem allRows_keys (h : AllOwned C cfg map c t start stop cfg.shards) :
    (allRows C cfg map c t start stop).Pairwise fun a b => a.1 ≠ b.1 := by
  rw [allRows, List.pairwise_flatMap]
  constructor
  · intro shard hshard
    refine (sorted_of_ownedFrom (h.eq_ownedList hshard)).imp fun {a b} hlt heq => ?_
    rw [heq, Std.LawfulEqOrd.compare_eq_iff_eq.mpr rfl] at hlt
    contradiction
  · refine cfg.sorted.imp_of_mem fun {shard other} hshard hother hlt a ha b hb heq => ?_
    obtain ⟨-, -, howner⟩ := (mem_of_ownedFrom (h.eq_ownedList hshard)).mp ha
    obtain ⟨-, -, howner'⟩ := (mem_of_ownedFrom (h.eq_ownedList hother)).mp hb
    rw [heq] at howner
    cases howner.symm.trans howner'
    exact absurd hlt (by simp)

theorem sorted_of_perm {rows all : List (Bytes × Bytes)} (hperm : rows.Perm all)
    (hkeys : all.Pairwise fun a b => a.1 ≠ b.1)
    (hsorted : rows.Pairwise fun a b => keyLE a b = true) :
    rows.Pairwise fun a b => compare a.1 b.1 = .lt := by
  have hkeys' := (hperm.pairwise_iff Ne.symm).mpr hkeys
  refine (hsorted.and hkeys').imp fun {a b} h => ?_
  cases hcmp : compare a.1 b.1 with
  | lt => rfl
  | eq => exact absurd (Std.LawfulEqOrd.eq_of_compare hcmp) h.2
  | gt =>
    rw [keyLE, hcmp] at h
    exact absurd h.1 (by decide)

theorem dedupByKey_of_sorted {rows : List (Bytes × Bytes)}
    (h : rows.Pairwise fun a b => compare a.1 b.1 = .lt) : dedupByKey rows = rows := by
  induction rows with
  | nil => rfl
  | cons row rows ih =>
    rw [dedupByKey, ih h.tail]
    cases rows with
    | nil => rfl
    | cons next rest =>
      have hlt := List.rel_of_pairwise_cons h List.mem_cons_self
      have hne : next.1 ≠ row.1 := by
        intro heq
        rw [heq, Std.LawfulEqOrd.compare_eq_iff_eq.mpr rfl] at hlt
        contradiction
      rw [List.dropWhile_cons_of_neg (by simpa using hne)]

/-! ## The sort -/

theorem reads_rangeSteps (shards : List ShardId) (rows : List (Bytes × Bytes)) :
    Reads C c (shards.foldlM (fun rows shard => do
        let found ← Router.ask shard (.range t start stop)
        return rows ++ (← Router.compute (ownedRows C cfg map shard t found))) rows)
      (do return rows ++ (← shards.mapM (ownedFrom C cfg map c t stop · start)).flatten) := by
  induction shards generalizing rows with
  | nil => simpa using reads_pure rows
  | cons shard shards ih =>
    have hstep := (reads_range (C := C) (c := c) shard t start stop).seq fun found =>
      (reads_compute (ownedRows C cfg map shard t found)).seq fun owned => reads_pure
        (rows ++ owned)
    rw [List.foldlM_cons, List.mapM_cons]
    simpa [ownedFrom] using hstep.seq ih

theorem reads_routedRange (hglobal : isGlobalTable t = false) :
    Reads C c (routedRange C cfg map t start stop) (do
      let lists ← cfg.shards.mapM (ownedFrom C cfg map c t stop · start)
      return dedupByKey (lists.flatten.mergeSort keyLE)) := by
  have hsteps : Reads C c (cfg.shards.foldlM (fun rows shard => do
      let found ← Router.ask shard (.range t start stop)
      return rows ++ (← Router.compute (ownedRows C cfg map shard t found))) []) _ :=
    reads_rangeSteps cfg.shards []
  have hsorted := hsteps.seq fun rows => reads_pure (dedupByKey (rows.mergeSort keyLE))
  simp only [bind_assoc, pure_bind, List.nil_append] at hsorted
  rw [routedRange, hglobal]
  exact hsorted

/-- A routed range merges the owned rows of all shards. -/
theorem reads_routedRange_ok (hglobal : isGlobalTable t = false)
    (h : AllOwned C cfg map c t start stop cfg.shards) :
    ∃ rows, Reads C c (routedRange C cfg map t start stop) (.ok rows) ∧
      rows.Perm (allRows C cfg map c t start stop) ∧
      rows.Pairwise fun a b => compare a.1 b.1 = .lt := by
  have hlists : cfg.shards.mapM (ownedFrom C cfg map c t stop · start) =
      .ok (cfg.shards.map (ownedList C cfg map c t start stop)) := by
    rw [mapM_eq_ok_iff, List.map_map]
    exact List.map_congr_left fun shard hshard => h.eq_ownedList hshard
  have hperm := List.mergeSort_perm (allRows C cfg map c t start stop) keyLE
  have hsorted : ((allRows C cfg map c t start stop).mergeSort keyLE).Pairwise
      fun a b => compare a.1 b.1 = .lt := by
    refine sorted_of_perm hperm (allRows_keys h) (List.pairwise_mergeSort keyLE_trans ?_ _)
    intro a b
    cases hle : keyLE a b with
    | true => rfl
    | false => simpa using keyLE_total a b hle
  refine ⟨(allRows C cfg map c t start stop).mergeSort keyLE, ?_, hperm, hsorted⟩
  have hrange : Reads C c (routedRange C cfg map t start stop) _ := reads_routedRange hglobal
  rw [hlists] at hrange
  rw [← dedupByKey_of_sorted hsorted]
  exact hrange

theorem reads_routedRange_error (hglobal : isGlobalTable t = false)
    (h : ¬ AllOwned C cfg map c t start stop cfg.shards) :
    ∃ e, Reads C c (routedRange C cfg map t start stop) (.error e) := by
  have hrange : Reads C c (routedRange C cfg map t start stop) _ := reads_routedRange hglobal
  cases hlists : cfg.shards.mapM (ownedFrom C cfg map c t stop · start) with
  | error e =>
    rw [hlists] at hrange
    exact ⟨e, hrange⟩
  | ok lists =>
    refine (h fun shard hshard => ?_).elim
    have hmem : ownedFrom C cfg map c t stop shard start ∈ lists.map Except.ok :=
      mapM_eq_ok_iff.mp hlists ▸ List.mem_map_of_mem hshard
    obtain ⟨rows, -, hrows⟩ := List.mem_map.mp hmem
    exact ⟨rows, hrows.symm⟩

/-! ## The merges of all shards -/

theorem AllOwned.mergeRows_eq_ok (h : AllOwned C cfg map c t start stop cfg.shards)
    (ht : tableIsReserved t = false) {rows : List (Bytes × Bytes)}
    (hperm : rows.Perm (allRows C cfg map c t start stop))
    (hsorted : rows.Pairwise fun a b => compare a.1 b.1 = .lt) {rounds : ℕ}
    (hrounds : rows.length < rounds) :
    mergeRows C cfg map c t stop rounds
      (cfg.shards.map fun shard => (shard, (ownedList C cfg map c t start stop shard).head?)) [] =
      .ok rows := by
  have hlists : (cfg.shards.map fun shard => (shard, ownedList C cfg map c t start stop shard)).map
      Prod.snd = cfg.shards.map (ownedList C cfg map c t start stop) := by
    rw [List.map_map]
    rfl
  have hflatten : (cfg.shards.map (ownedList C cfg map c t start stop)).flatten =
      allRows C cfg map c t start stop := rfl
  have howned : ∀ cursor ∈ cfg.shards.map fun shard =>
      (shard, ownedList C cfg map c t start stop shard),
      ∃ start, ownedFrom C cfg map c t stop cursor.1 start = .ok cursor.2 := by
    intro cursor hcursor
    obtain ⟨shard, hshard, rfl⟩ := List.mem_map.mp hcursor
    exact ⟨start, h.eq_ownedList hshard⟩
  obtain ⟨out, hmerges, hmerged⟩ := MultiDb.mergeRows_eq_ok ht rounds _ howned
    (by rw [hlists, hflatten, ← hperm.length_eq]; exact hrounds) []
  rw [hlists] at hmerges
  have hout : out.Perm (allRows C cfg map c t start stop) := hmerges.perm
  have hle : out.Pairwise fun a b => keyLE a b = true := by
    refine hmerges.pairwise keyLE_trans fun l hl => ?_
    obtain ⟨shard, hshard, rfl⟩ := List.mem_map.mp hl
    refine (sorted_of_ownedFrom (h.eq_ownedList hshard)).imp fun {a b} hlt => ?_
    rw [keyLE, hlt]
    rfl
  have heq : out = rows := eq_of_sorted_of_mem_iff (sorted_of_perm hout (allRows_keys h) hle)
    hsorted fun row => by rw [hout.mem_iff, hperm.mem_iff]
  rw [List.map_map, heq] at hmerged
  exact hmerged

theorem reads_scans_ok (ht : tableIsReserved t = false)
    (h : AllOwned C cfg map c t start stop cfg.shards) {rows : List (Bytes × Bytes)}
    (hperm : rows.Perm (allRows C cfg map c t start stop))
    (hsorted : rows.Pairwise fun a b => compare a.1 b.1 = .lt) {rounds : ℕ}
    (hrounds : rows.length < rounds) (batchRows : ℕ) :
    Reads C c (scanHeads C cfg map t start stop cfg.shards >>= fun heads =>
      guardedMerge C cfg map collectRow t stop rounds heads []) (.ok rows) ∧
    ∃ batches, batches.flatten = rows ∧
      Reads C c (scanHeads C cfg map t start stop cfg.shards >>= fun heads =>
        scanMerge C cfg map collectBatches t stop batchRows rounds heads [] []) (.ok batches) := by
  have hheads : Reads C c (scanHeads C cfg map t start stop cfg.shards) _ :=
    h.heads ▸ reads_scanHeads cfg.shards
  have hmerged := h.mergeRows_eq_ok ht hperm hsorted hrounds
  obtain ⟨scanned, hscanned, hscans⟩ := reads_scanMerge C cfg map c t stop batchRows rounds
    (cfg.shards.map fun shard => (shard, (ownedList C cfg map c t start stop shard).head?)) [] []
  obtain ⟨batches, rfl, hflatten⟩ := map_eq_ok_iff.mp (hscanned.symm.trans hmerged)
  exact ⟨hheads.bind (hmerged ▸ reads_guardedMerge _ _ _), batches, hflatten, hheads.bind hscans⟩

theorem reads_scans_error (ht : tableIsReserved t = false)
    (h : ¬ AllOwned C cfg map c t start stop cfg.shards) (batchRows rounds : ℕ) :
    (∃ e, Reads C c (scanHeads C cfg map t start stop cfg.shards >>= fun heads =>
      guardedMerge C cfg map collectRow t stop rounds heads []) (.error e)) ∧
    ∃ e, Reads C c (scanHeads C cfg map t start stop cfg.shards >>= fun heads =>
      scanMerge C cfg map collectBatches t stop batchRows rounds heads [] []) (.error e) := by
  have hread : Reads C c (scanHeads C cfg map t start stop cfg.shards) _ :=
    reads_scanHeads cfg.shards
  cases hheads : cfg.shards.mapM fun shard => do
      return (shard, ← nextOwned C cfg map c t stop shard start) with
  | error e =>
    rw [hheads] at hread
    exact ⟨⟨e, hread.bind_error⟩, e, hread.bind_error⟩
  | ok heads =>
    rw [hheads] at hread
    obtain ⟨hshards, hnext⟩ := heads_eq_ok hheads
    obtain ⟨scanned, hscanned, hscans⟩ := reads_scanMerge C cfg map c t stop batchRows
      rounds heads [] []
    have hguarded : Reads C c (guardedMerge C cfg map collectRow t stop rounds heads []) _ :=
      reads_guardedMerge rounds heads []
    cases hmerged : mergeRows C cfg map c t stop rounds heads [] with
    | error e =>
      obtain ⟨e', rfl⟩ : ∃ e', scanned = .error e' := by
        cases scanned with
        | error e' => exact ⟨e', rfl⟩
        | ok batches => cases hmerged.symm.trans hscanned
      exact ⟨⟨e, hread.bind (hmerged ▸ hguarded)⟩, e', hread.bind hscans⟩
    | ok out =>
      have hcursors : (heads.map fun head => (head.1, start, head.2)).map
          (fun cursor => (cursor.1, cursor.2.2)) = heads := by
        rw [List.map_map]
        exact List.map_id heads
      rw [← hcursors] at hmerged
      have howned := ownedFrom_of_mergeRows ht rounds _ (fun cursor hcursor => by
        obtain ⟨head, hhead, rfl⟩ := List.mem_map.mp hcursor
        exact hnext head hhead) hmerged
      refine (h fun shard hshard => ?_).elim
      rw [← hshards] at hshard
      obtain ⟨head, hhead, rfl⟩ := List.mem_map.mp hshard
      exact howned (head.1, start, head.2) (List.mem_map.mpr ⟨head, hhead, rfl⟩)

end MultiDb
