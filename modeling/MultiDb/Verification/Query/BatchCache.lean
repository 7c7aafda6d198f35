import Mathlib.Data.List.MinMax
import MultiDb.Verification.Query.DataVersions

/-!
# Readers and writers around the batch cache

Any number of readers and writers take turns, one snapshot or lock at a time.
-/

namespace MultiDb

open Shared

variable {σ β : Type} [DecidableEq σ] {C : RelCodecs} {A : Arrow σ β}
variable {entry : CacheEntry β} {values : List (BatchKey σ × CacheEntry β)}
  {value : BatchKey σ × CacheEntry β}

/-- One entry per key, and a counter of their bytes. -/
structure CacheEntries.Counted (e : CacheEntries σ β) : Prop where
  nodup : (e.values.map Prod.fst).Nodup
  bytes : e.bytes = (e.values.map fun value => value.2.bytes).sum

section Entries

variable {e : CacheEntries σ β} {key : BatchKey σ}

theorem mem_of_lookup_eq_some
    (h : values.lookup key = some entry) : (key, entry) ∈ values := by
  induction values with
  | nil => contradiction
  | cons value values ih =>
    obtain ⟨key', entry'⟩ := value
    rw [List.lookup_cons] at h
    by_cases hkey : key = key'
    · subst hkey
      simp only [BEq.rfl, Option.some.injEq] at h
      rw [h]
      exact List.mem_cons_self
    · rw [beq_eq_false_iff_ne.mpr hkey] at h
      exact List.mem_cons_of_mem _ (ih h)

theorem sum_bytes_of_mem
    (hnodup : (values.map Prod.fst).Nodup) (h : (key, entry) ∈ values) :
    (values.map fun value => value.2.bytes).sum = entry.bytes +
      ((values.filter fun value => value.1 ≠ key).map fun value => value.2.bytes).sum := by
  induction values with
  | nil => contradiction
  | cons value values ih =>
    rw [List.map_cons, List.nodup_cons] at hnodup
    rcases List.mem_cons.mp h with rfl | hmem
    · have hothers : values.filter (fun value => value.1 ≠ key) = values := by
        refine List.filter_eq_self.mpr fun value hvalue => ?_
        have hne : value.1 ≠ key := fun heq =>
          hnodup.1 (List.mem_map.mpr ⟨value, hvalue, heq⟩)
        simp [hne]
      rw [List.filter_cons_of_neg (by simp), hothers, List.map_cons, List.sum_cons]
    · have hne : value.1 ≠ key := by
        rintro rfl
        exact hnodup.1 (List.mem_map.mpr ⟨_, hmem, rfl⟩)
      rw [List.filter_cons_of_pos (by simp [hne]), List.map_cons, List.map_cons, List.sum_cons,
        List.sum_cons, ih hnodup.2 hmem]
      omega

theorem values_remove (e : CacheEntries σ β) (key : BatchKey σ) :
    (e.remove key).values = e.values.filter fun value => value.1 ≠ key := by
  rw [CacheEntries.remove]
  cases hlookup : e.values.lookup key with
  | some previous => rfl
  | none =>
    refine (List.filter_eq_self.mpr fun value hvalue => ?_).symm
    have hne := List.lookup_eq_none_iff.mp hlookup value hvalue
    exact decide_eq_true fun heq => by simp [heq] at hne

theorem CacheEntries.Counted.remove (h : e.Counted) (key : BatchKey σ) :
    (e.remove key).Counted := by
  constructor
  case nodup =>
    rw [values_remove]
    exact h.nodup.sublist (List.filter_sublist.map _)
  case bytes =>
    rw [values_remove, CacheEntries.remove]
    cases hlookup : e.values.lookup key with
    | none =>
      have hsame := values_remove e key
      rw [CacheEntries.remove, hlookup] at hsame
      rw [← hsame]
      exact h.bytes
    | some previous =>
      have hsum := sum_bytes_of_mem h.nodup (mem_of_lookup_eq_some hlookup)
      have hbytes := h.bytes
      simp only
      omega

omit [DecidableEq σ] in
theorem oldest_ne_nil (h : e.values ≠ []) : e.oldest ≠ [] := by
  have hsome : (e.values.argmin fun value => value.2.lastUsed.toNat) ≠ none :=
    fun hnone => h (List.argmin_eq_none.mp hnone)
  obtain ⟨value, hvalue⟩ := Option.ne_none_iff_exists'.mp hsome
  refine List.ne_nil_of_mem (a := value.1) (List.mem_map_of_mem (List.mem_filter.mpr ⟨?_, ?_⟩))
  · exact List.argmin_mem hvalue
  · rw [List.all_eq_true]
    intro other hother
    have hle := List.le_of_mem_argmin hother hvalue
    exact decide_eq_true (UInt64.le_iff_toNat_le.mpr hle)

theorem exists_evict_eq (h : e.values ≠ []) (pick : ℕ) :
    ∃ value ∈ e.values, e.evict pick = e.remove value.1 := by
  have hlt : pick % e.oldest.length < e.oldest.length :=
    Nat.mod_lt _ (List.length_pos_of_ne_nil (oldest_ne_nil h))
  have hkey : e.oldest[pick % e.oldest.length] ∈ e.oldest := List.getElem_mem hlt
  obtain ⟨value, hvalue, heq⟩ := List.mem_map.mp hkey
  refine ⟨value, (List.mem_filter.mp hvalue).1, ?_⟩
  rw [CacheEntries.evict, List.getElem?_eq_getElem hlt, heq]

/-- Enough rounds of eviction make room. -/
theorem CacheEntries.Counted.makeRoom {maxEntries rounds : ℕ} (h : e.Counted)
    (hmax : 0 < maxEntries) (maxBytes bytes : ℕ) (picks : ℕ → ℕ)
    (hrounds : e.values.length ≤ rounds) :
    (e.makeRoom maxEntries maxBytes bytes picks rounds).Counted ∧
      (e.makeRoom maxEntries maxBytes bytes picks rounds).values ⊆ e.values ∧
      (e.makeRoom maxEntries maxBytes bytes picks rounds).values.length < maxEntries ∧
      (e.makeRoom maxEntries maxBytes bytes picks rounds).bytes ≤ maxBytes - bytes := by
  induction rounds generalizing e with
  | zero =>
    have hnil : e.values = [] := List.length_eq_zero_iff.mp (by omega)
    have hbytes : e.bytes = 0 := by rw [h.bytes, hnil]; rfl
    refine ⟨h, List.Subset.refl _, ?_, ?_⟩
    · rw [CacheEntries.makeRoom, hnil]
      exact hmax
    · rw [CacheEntries.makeRoom, hbytes]
      exact Nat.zero_le _
  | succ rounds ih =>
    rw [CacheEntries.makeRoom]
    by_cases hfull : maxEntries ≤ e.values.length ∨ maxBytes - bytes < e.bytes
    · rw [if_pos hfull]
      have hne : e.values ≠ [] := by
        intro hnil
        have hbytes : e.bytes = 0 := by rw [h.bytes, hnil]; rfl
        rw [hnil, hbytes] at hfull
        simp only [List.length_nil] at hfull
        omega
      obtain ⟨value, hvalue, heq⟩ := exists_evict_eq hne (picks rounds)
      have hlength : (e.remove value.1).values.length < e.values.length := by
        rw [values_remove]
        exact List.length_filter_lt_length_iff_exists.mpr ⟨value, hvalue, by simp⟩
      rw [heq]
      obtain ⟨hcounted, hsubset, hroom⟩ := ih (h.remove value.1) (by omega)
      refine ⟨hcounted, fun other hother => ?_, hroom⟩
      have hremoved := hsubset hother
      rw [values_remove] at hremoved
      exact (List.mem_filter.mp hremoved).1
    · rw [if_neg hfull]
      exact ⟨h, List.Subset.refl _, by omega, by omega⟩

end Entries

/-! ## The cache -/

/-- The cache keeps its byte count and both of its limits. -/
structure BatchCache.Bounded (c : BatchCache σ β) : Prop where
  counted : c.entries.Counted
  length_le : c.entries.values.length ≤ c.maxEntries
  bytes_le : c.entries.bytes ≤ c.maxBytes

section Cache

variable {c : BatchCache σ β} {key : BatchKey σ}

omit [DecidableEq σ] in
theorem bounded_new (performance : PerformanceConfig) :
    (BatchCache.new performance : BatchCache σ β).Bounded := by
  refine ⟨⟨?_, ?_⟩, ?_, ?_⟩ <;> simp [BatchCache.new]

/-- A lookup moves the clock and the last use of the entry it finds. -/
structure Looks (c : BatchCache σ β) (key : BatchKey σ)
    (r : QueryResult (Option (List β)) × BatchCache σ β) : Prop where
  maxBytes : r.2.maxBytes = c.maxBytes
  maxEntries : r.2.maxEntries = c.maxEntries
  bytes : r.2.entries.bytes = c.entries.bytes
  values : r.2.entries.values.map (fun value => (value.1, value.2.batches, value.2.bytes)) =
    c.entries.values.map fun value => (value.1, value.2.batches, value.2.bytes)
  found : ∀ batches, r.1 = .ok (some batches) →
    ∃ entry, (key, entry) ∈ c.entries.values ∧ entry.batches = batches

theorem looks_get (c : BatchCache σ β) (key : BatchKey σ) (charge : List β → QueryResult Unit) :
    Looks c key (c.get key charge) := by
  rw [BatchCache.get]
  cases hlookup : c.entries.values.lookup key with
  | none => exact ⟨rfl, rfl, rfl, rfl, fun _ h => by simp at h⟩
  | some entry =>
    simp only
    cases hcharge : charge entry.batches with
    | error error => exact ⟨rfl, rfl, rfl, rfl, fun _ h => by simp at h⟩
    | ok _ =>
      refine ⟨rfl, rfl, rfl, ?_, fun batches h => ?_⟩
      · rw [List.map_map]
        refine List.map_congr_left fun value _ => ?_
        by_cases hkey : value.1 = key <;> simp [hkey]
      · simp only [Except.ok.injEq, Option.some.injEq] at h
        exact ⟨entry, mem_of_lookup_eq_some hlookup, h⟩

variable {r : QueryResult (Option (List β)) × BatchCache σ β}

omit [DecidableEq σ] in
theorem Looks.bounded (h : Looks c key r)
    (hbounded : c.Bounded) : r.2.Bounded := by
  have hkeys : r.2.entries.values.map Prod.fst = c.entries.values.map Prod.fst := by
    have := congrArg (List.map fun value => value.1) h.values
    simpa [List.map_map, Function.comp_def] using this
  have hsum : r.2.entries.values.map (fun value => value.2.bytes) =
      c.entries.values.map fun value => value.2.bytes := by
    have := congrArg (List.map fun value => value.2.2) h.values
    simpa [List.map_map, Function.comp_def] using this
  have hlength := congrArg List.length hkeys
  simp only [List.length_map] at hlength
  refine ⟨⟨?_, ?_⟩, ?_, ?_⟩
  · rw [hkeys]
    exact hbounded.counted.nodup
  · rw [h.bytes, hsum]
    exact hbounded.counted.bytes
  · rw [hlength, h.maxEntries]
    exact hbounded.length_le
  · rw [h.bytes, h.maxBytes]
    exact hbounded.bytes_le

omit [DecidableEq σ] in
theorem Looks.mem (h : Looks c key r) (hvalue : value ∈ r.2.entries.values) :
    ∃ old ∈ c.entries.values, old.1 = value.1 ∧ old.2.batches = value.2.batches := by
  have hmem : (value.1, value.2.batches, value.2.bytes) ∈
      c.entries.values.map fun value => (value.1, value.2.batches, value.2.bytes) := by
    rw [← h.values]
    exact List.mem_map_of_mem hvalue
  obtain ⟨old, hold, heq⟩ := List.mem_map.mp hmem
  simp only [Prod.mk.injEq] at heq
  exact ⟨old, hold, heq.1, heq.2.1⟩

/-- An insert keeps the cache within its limits. -/
theorem BatchCache.Bounded.insert (h : c.Bounded) (key : BatchKey σ) (batches : List β)
    (picks : ℕ → ℕ) : (c.insert A key batches picks).Bounded := by
  rw [BatchCache.insert]
  by_cases hskip : c.maxBytes < A.weight key batches ∨ c.maxEntries = 0
  · simpa [hskip] using h
  · simp only [hskip, if_false]
    have hmax : 0 < c.maxEntries := by omega
    obtain ⟨hcounted, hsubset, hlength, hbytes⟩ :=
      (h.counted.remove key).makeRoom hmax c.maxBytes (A.weight key batches) picks (Nat.le_refl _)
    refine ⟨⟨?_, ?_⟩, ?_, ?_⟩
    · rw [List.map_cons, List.nodup_cons]
      refine ⟨fun hmem => ?_, hcounted.nodup⟩
      obtain ⟨value, hvalue, heq⟩ := List.mem_map.mp hmem
      have hremoved := hsubset hvalue
      rw [values_remove] at hremoved
      simpa [heq] using (List.mem_filter.mp hremoved).2
    · simp only [List.map_cons, List.sum_cons]
      rw [hcounted.bytes, Nat.add_comm]
    · simp only [List.length_cons]
      omega
    · simp only
      omega

theorem mem_values_insert {batches : List β} {picks : ℕ → ℕ} (hbounded : c.Bounded)
    (h : value ∈ (c.insert A key batches picks).entries.values) :
    value.1 = key ∧ value.2.batches = batches ∨ value ∈ c.entries.values := by
  rw [BatchCache.insert] at h
  by_cases hskip : c.maxBytes < A.weight key batches ∨ c.maxEntries = 0
  · simp only [hskip, if_true] at h
    exact Or.inr h
  · simp only [hskip, if_false] at h
    rcases List.mem_cons.mp h with rfl | hmem
    · exact Or.inl ⟨rfl, rfl⟩
    · have hmax : 0 < c.maxEntries := by omega
      have hsubset := ((hbounded.counted.remove key).makeRoom hmax c.maxBytes
        (A.weight key batches) picks (Nat.le_refl _)).2.1
      have hremoved := hsubset hmem
      rw [values_remove] at hremoved
      exact Or.inr (List.mem_filter.mp hremoved).1

end Cache

end MultiDb
