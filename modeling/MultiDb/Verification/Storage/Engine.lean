import MultiDb.Model.Engine

/-!
# Engines that keep values encoded

When every stored value decodes to that of a plain store, the reads of the two agree.
-/

namespace MultiDb

open Shared

def ReadBudget.Admits (budget : ReadBudget) : Prop :=
  ∀ bytes, budget.reserve bytes = .ok ()

theorem ReadBudget.Admits.reserve {budget : ReadBudget} (h : budget.Admits) (bytes : ℕ) :
    budget.reserve bytes = .ok () :=
  h bytes

/-- The stored bytes decode to the value, with or without a budget. -/
structure StoredFormat.Decodes (format : StoredFormat) (table : String) (key stored value : Bytes) :
    Prop where
  decode : format.decode table key stored = .ok value
  guarded : ∀ budget : ReadBudget, budget.Admits → budget.check = .ok () →
    format.guardedDecode budget table key stored = .ok value

/-- The encoded store `c` holds the rows of a table of the plain store `p`. -/
structure StoredFormat.Represents (format : StoredFormat) (t : String) (c p : Store) : Prop where
  row : ∀ k stored, c.get t k = some stored →
    ∃ value, p.get t k = some value ∧ format.Decodes t k stored value
  absent : ∀ k, c.get t k = none → p.get t k = none

/-- The reads of a table of `c` through a format are those of the plain store `p`. -/
structure StoredFormat.ReadsLike (format : StoredFormat) (t : String) (c p : Store) : Prop where
  get : ∀ k, format.get c t k = .ok (p.get t k)
  range : ∀ start stop, format.range c t start stop = (MultiDb.range p t start stop).map .ok
  visitGet : ∀ {σ : Type} (budget : ReadBudget), budget.Admits → ∀ k
    (visitor : Option Bytes → Visit σ Bool),
    format.visitGet budget c t k visitor = MultiDb.visitGet budget p t k visitor
  visitMany : ∀ {σ : Type} (budget : ReadBudget), budget.Admits → ∀ keys
    (visitor : ℕ → Option Bytes → Visit σ Bool),
    format.visitMany budget c t keys visitor = MultiDb.visitMany budget p t keys visitor
  visitRange : ∀ {σ : Type} (budget : ReadBudget), budget.Admits → ∀ start stop
    (visitor : Bytes → Bytes → Visit σ Bool),
    format.visitRange budget c t start stop visitor = MultiDb.visitRange budget p t start
      stop visitor

namespace StoredFormat

variable {format : StoredFormat} {t : String} {c p : Store}

theorem Represents.get_eq (h : format.Represents t c p) (k : Bytes) :
    format.get c t k = .ok (p.get t k) := by
  rw [StoredFormat.get]
  cases hget : c.get t k with
  | none => rw [h.absent k hget]
  | some stored =>
    obtain ⟨value, hvalue, hdecodes⟩ := h.row k stored hget
    simp only [hvalue, hdecodes.decode]
    rfl

/-- The row as the plain store has it. -/
def plainRow (p : Store) (t : String) (entry : Bytes × Bytes) : Bytes × Bytes :=
  (entry.1, (p.get t entry.1).getD [])

theorem Represents.decodes_of_mem (h : format.Represents t c p) {start stop : Bytes}
    {entry : Bytes × Bytes} (hmem : entry ∈ MultiDb.range c t start stop) :
    format.Decodes t entry.1 entry.2 (plainRow p t entry).2 := by
  obtain ⟨value, hvalue, hdecodes⟩ := h.row entry.1 entry.2 (mem_range.mp hmem).1
  rw [plainRow, hvalue]
  exact hdecodes

/-- A range of the stored rows decodes to the plain range. -/
theorem Represents.map_range (h : format.Represents t c p) (start stop : Bytes) :
    (MultiDb.range c t start stop).map (plainRow p t) = MultiDb.range p t start stop := by
  refine eq_of_sorted_of_mem_iff ?_ (Tables.scan_sorted p t _) ?_
  · exact List.pairwise_map.mpr (Tables.scan_sorted c t _)
  · rintro ⟨key, value⟩
    rw [List.mem_map, mem_range]
    constructor
    · rintro ⟨entry, hmem, heq⟩
      obtain ⟨hget, hin⟩ := mem_range.mp hmem
      obtain ⟨value', hvalue, -⟩ := h.row _ _ hget
      rw [plainRow, hvalue, Prod.mk.injEq] at heq
      obtain ⟨rfl, rfl⟩ := heq
      exact ⟨hvalue, hin⟩
    · rintro ⟨hget, hin⟩
      cases hstored : c.get t key with
      | none =>
        rw [h.absent key hstored] at hget
        contradiction
      | some stored =>
        refine ⟨(key, stored), mem_range.mpr ⟨hstored, hin⟩, ?_⟩
        rw [plainRow, hget]
        rfl

theorem Represents.range_eq (h : format.Represents t c p) (start stop : Bytes) :
    format.range c t start stop = (MultiDb.range p t start stop).map .ok := by
  rw [StoredFormat.range, ← h.map_range, List.map_map]
  refine List.map_congr_left fun entry hmem => ?_
  rw [(h.decodes_of_mem hmem).decode]
  rfl

section Visits

variable {σ : Type} {budget : ReadBudget}

theorem visitValue_of_decodes {table : String} {key stored value : Bytes}
    (h : format.Decodes table key stored value) (hadmits : budget.Admits)
    (hcheck : budget.check = .ok ()) (visitor : Bytes → Visit σ Bool) :
    format.visitValue budget table key stored visitor = visitor value := by
  rw [visitValue, h.guarded budget hadmits hcheck, hcheck]
  rfl

theorem Represents.visitGet_eq (h : format.Represents t c p) (hadmits : budget.Admits)
    (k : Bytes) (visitor : Option Bytes → Visit σ Bool) :
    format.visitGet budget c t k visitor = MultiDb.visitGet budget p t k visitor := by
  cases hcheck : budget.check with
  | error e =>
    simp only [StoredFormat.visitGet, MultiDb.visitGet, hcheck]
    rfl
  | ok _ =>
    simp only [StoredFormat.visitGet, MultiDb.visitGet, hcheck]
    cases hget : c.get t k with
    | none =>
      rw [h.absent k hget]
      rfl
    | some stored =>
      obtain ⟨value, hvalue, hdecodes⟩ := h.row k stored hget
      rw [hvalue]
      simp only [visitOption, Option.elim_some, hadmits.reserve,
        visitValue_of_decodes hdecodes hadmits hcheck]

theorem Represents.visitKeys_eq (h : format.Represents t c p) (hadmits : budget.Admits)
    {all : List Bytes} (visitor : ℕ → Option Bytes → Visit σ Bool) {index : ℕ} {keys : List Bytes}
    (hkeys : all.drop index = keys) :
    visitKeys budget c t (fun index => format.visitOption budget t (all.getD index [])
      (visitor index)) index keys = visitKeys budget p t visitor index keys := by
  induction keys generalizing index with
  | nil => rfl
  | cons key keys ih =>
    have hkey : all.getD index [] = key := by
      rw [List.getD_eq_getElem?_getD, ← List.head?_drop, hkeys]
      rfl
    have hrest : all.drop (index + 1) = keys := by
      rw [← List.tail_drop, hkeys]
      rfl
    have hget := h.visitGet_eq hadmits key (visitor index)
    rw [StoredFormat.visitGet] at hget
    simp only [visitKeys, hkey, hget, ih hrest]

theorem Represents.visitMany_eq (h : format.Represents t c p) (hadmits : budget.Admits)
    (keys : List Bytes) (visitor : ℕ → Option Bytes → Visit σ Bool) :
    format.visitMany budget c t keys visitor = MultiDb.visitMany budget p t keys visitor := by
  rw [StoredFormat.visitMany, MultiDb.visitMany, MultiDb.visitMany,
    h.visitKeys_eq hadmits visitor List.drop_zero]

theorem visitEntries_map (hadmits : budget.Admits) (hcheck : budget.check = .ok ())
    (visitor : Bytes → Bytes → Visit σ Bool) {entries : List (Bytes × Bytes)}
    (hdecodes : ∀ entry ∈ entries, format.Decodes t entry.1 entry.2 (plainRow p t entry).2) :
    visitEntries budget (fun key stored => format.visitValue budget t key stored (visitor key))
      entries = visitEntries budget visitor (entries.map (plainRow p t)) := by
  induction entries with
  | nil => rfl
  | cons entry entries ih =>
    rw [List.forall_mem_cons] at hdecodes
    simp only [List.map_cons, visitEntries, hcheck, hadmits.reserve,
      visitValue_of_decodes hdecodes.1 hadmits hcheck, ih hdecodes.2]
    rfl

theorem Represents.visitRange_eq (h : format.Represents t c p) (hadmits : budget.Admits)
    (start stop : Bytes) (visitor : Bytes → Bytes → Visit σ Bool) :
    format.visitRange budget c t start stop visitor =
      MultiDb.visitRange budget p t start stop visitor := by
  cases hcheck : budget.check with
  | error e =>
    simp only [StoredFormat.visitRange, MultiDb.visitRange, hcheck]
    rfl
  | ok _ =>
    rw [StoredFormat.visitRange, MultiDb.visitRange, MultiDb.visitRange, ← h.map_range start stop,
      visitEntries_map hadmits hcheck visitor fun entry hmem => h.decodes_of_mem hmem]

end Visits

theorem Represents.readsLike (h : format.Represents t c p) : format.ReadsLike t c p where
  get := h.get_eq
  range := h.range_eq
  visitGet _ hadmits := h.visitGet_eq hadmits
  visitMany _ hadmits := h.visitMany_eq hadmits
  visitRange _ hadmits := h.visitRange_eq hadmits

theorem Represents.put (h : format.Represents t c p) {t' : String} {k stored value : Bytes}
    (hdecodes : t' = t → format.Decodes t k stored value) :
    format.Represents t (c.put t' k stored) (p.put t' k value) := by
  constructor
  · intro k' stored' hget
    rw [Tables.get_put] at hget ⊢
    split at hget
    · rename_i heq
      obtain ⟨rfl, rfl⟩ := heq
      cases hget
      rw [if_pos ⟨rfl, rfl⟩]
      exact ⟨value, rfl, hdecodes rfl⟩
    · rename_i hne
      rw [if_neg hne]
      exact h.row k' stored' hget
  · intro k' hget
    rw [Tables.get_put] at hget ⊢
    split at hget
    · contradiction
    · rename_i hne
      rw [if_neg hne]
      exact h.absent k' hget

theorem Represents.delete (h : format.Represents t c p) (t' : String) (k : Bytes) :
    format.Represents t (c.delete t' k) (p.delete t' k) := by
  constructor
  · intro k' stored' hget
    rw [Tables.get_delete] at hget ⊢
    split at hget
    · contradiction
    · rename_i hne
      rw [if_neg hne]
      exact h.row k' stored' hget
  · intro k' hget
    rw [Tables.get_delete] at hget ⊢
    split
    · rfl
    · rename_i hne
      rw [if_neg hne] at hget
      exact h.absent k' hget

end StoredFormat

end MultiDb
