import Mathlib.Data.Option.Basic

/-!
# Secondary indexes

A table of rows and an index that repeats parts of them under keys of its own.  A sound
delta keeps the index exact while the rows it writes do not change.
-/

namespace MultiDb.Shared

/-- The writes of an overlay in front of what is below it; `some none` removes. -/
def overlay {α β : Type} (writes : α → Option (Option β)) (below : α → Option β) (a : α) :
    Option β :=
  (writes a).getD (below a)

/-- What the rows of a table contribute to an index.  An index key belongs to one row key. -/
structure IndexScheme (κ ρ ι π : Type) where
  entry : κ → ρ → ι → Option π
  owner : ι → Option κ
  owner_of_entry : ∀ {k r e p}, entry k r e = some p → owner e = some k

/-- The rows and index entries one transaction changes. -/
structure IndexDelta (κ ρ ι π : Type) where
  rows : κ → Option (Option ρ)
  index : ι → Option (Option π)

namespace IndexScheme

variable {κ ρ ι π : Type} (S : IndexScheme κ ρ ι π)

/-- The index entries the stored rows call for. -/
def entries (rows : κ → Option ρ) (e : ι) : Option π :=
  (S.owner e).bind fun k => (rows k).bind fun r => S.entry k r e

/-- The index holds the entries of the rows and nothing else. -/
def Exact (rows : κ → Option ρ) (index : ι → Option π) : Prop :=
  ∀ e, index e = S.entries rows e

theorem entries_eq_some_iff {rows : κ → Option ρ} {e : ι} {p : π} :
    S.entries rows e = some p ↔ ∃ k r, rows k = some r ∧ S.entry k r e = some p := by
  simp only [entries, Option.bind_eq_some_iff]
  constructor
  · rintro ⟨k, -, r, hr, hp⟩
    exact ⟨k, r, hr, hp⟩
  · rintro ⟨k, r, hr, hp⟩
    exact ⟨k, S.owner_of_entry hp, r, hr, hp⟩

theorem exact_iff {rows : κ → Option ρ} {index : ι → Option π} :
    S.Exact rows index ↔
      ∀ e p, index e = some p ↔ ∃ k r, rows k = some r ∧ S.entry k r e = some p := by
  constructor
  · intro h e p
    rw [h e, S.entries_eq_some_iff]
  · intro h e
    apply Option.ext
    intro p
    rw [h e p, S.entries_eq_some_iff]

theorem entries_of_owner {rows : κ → Option ρ} {e : ι} {k : κ} (h : S.owner e = some k) :
    S.entries rows e = (rows k).bind fun r => S.entry k r e := by
  simp [entries, h]

theorem entries_of_owner_eq_none {rows : κ → Option ρ} {e : ι} (h : S.owner e = none) :
    S.entries rows e = none := by
  simp [entries, h]

/-- The writes turn the entries of the old rows into those of the new ones, and no others. -/
structure Sound (rows : κ → Option ρ) (d : IndexDelta κ ρ ι π) : Prop where
  entries : ∀ e, overlay d.index (S.entries rows) e = S.entries (overlay d.rows rows) e
  owned : ∀ e, d.index e ≠ none → ∃ k, S.owner e = some k ∧ d.rows k ≠ none

variable {S} {rows : κ → Option ρ} {index : ι → Option π} {d : IndexDelta κ ρ ι π}

/-- A sound change keeps the index exact. -/
theorem Sound.exact (h : S.Sound rows d) (hexact : S.Exact rows index) :
    S.Exact (overlay d.rows rows) (overlay d.index index) := by
  intro e
  rw [← h.entries e, overlay, overlay, hexact e]

theorem sound_iff : S.Sound rows d ↔
    (∀ k e, S.owner e = some k → (d.index e).getD ((rows k).bind fun r => S.entry k r e) =
      ((d.rows k).getD (rows k)).bind fun r => S.entry k r e) ∧
    ∀ e, d.index e ≠ none → ∃ k, S.owner e = some k ∧ d.rows k ≠ none := by
  constructor
  · intro h
    refine ⟨fun k e hk => ?_, h.owned⟩
    have := h.entries e
    rwa [overlay, S.entries_of_owner hk, S.entries_of_owner hk] at this
  · rintro ⟨hrows, howned⟩
    refine ⟨fun e => ?_, howned⟩
    cases hk : S.owner e with
    | none =>
      have hindex : d.index e = none := by
        by_contra hne
        obtain ⟨k, hk', -⟩ := howned e hne
        rw [hk] at hk'
        contradiction
      simp [overlay, hindex, S.entries_of_owner_eq_none hk]
    | some k =>
      rw [overlay, S.entries_of_owner hk, S.entries_of_owner hk]
      exact hrows k e hk

theorem sound_single {k : κ} {new : Option ρ} (hk : d.rows k = some new)
    (hother : ∀ k', k' ≠ k → d.rows k' = none)
    (hentries : ∀ e, S.owner e = some k → (d.index e).getD ((rows k).bind fun r => S.entry k r e) =
      new.bind fun r => S.entry k r e)
    (howned : ∀ e, d.index e ≠ none → S.owner e = some k) : S.Sound rows d := by
  refine sound_iff.mpr ⟨fun k' e hk' => ?_, fun e hne => ⟨k, howned e hne, by simp [hk]⟩⟩
  by_cases heq : k' = k
  · subst heq
    rw [hk]
    exact hentries e hk'
  · have hindex : d.index e = none := by
      by_contra hne
      exact heq (Option.some.inj (hk'.symm.trans (howned e hne)))
    simp [hindex, hother k' heq]

end IndexScheme

end MultiDb.Shared
