import Mathlib.Order.Lattice

/-!
# Version chains

The versions of one item, and the value a reader at a version number sees.
-/

namespace MultiDb.Shared

variable {V α : Type} [LinearOrder V]
variable {chain chain' : V → Option α} {s : V} {x absent : α}

/-- `v` is the newest version at or below `s`. -/
def IsNewest (chain : V → Option α) (s v : V) : Prop :=
  v ≤ s ∧ chain v ≠ none ∧ ∀ w ≤ s, chain w ≠ none → w ≤ v

/-- The reader at `s` sees its newest version, or `absent` when there is none. -/
def Sees (absent : α) (chain : V → Option α) (s : V) (x : α) : Prop :=
  (∃ v, IsNewest chain s v ∧ chain v = some x) ∨ (x = absent ∧ ∀ v ≤ s, chain v = none)

theorem IsNewest.unique {v w : V} (hv : IsNewest chain s v)
    (hw : IsNewest chain s w) : v = w :=
  le_antisymm (hw.2.2 v hv.1 hv.2.1) (hv.2.2 w hw.1 hw.2.1)

theorem Sees.unique {y : α}
    (hx : Sees absent chain s x) (hy : Sees absent chain s y) : x = y := by
  rcases hx with ⟨v, hv, hvx⟩ | ⟨rfl, hnone⟩
  · rcases hy with ⟨w, hw, hwy⟩ | ⟨-, hnone⟩
    · obtain rfl := hv.unique hw
      exact Option.some.inj (hvx.symm.trans hwy)
    · exact absurd (hnone v hv.1) hv.2.1
  · rcases hy with ⟨w, hw, -⟩ | ⟨rfl, -⟩
    · exact absurd (hnone w hw.1) hw.2.1
    · rfl

/-- A reader sees versions at or below its snapshot only. -/
theorem Sees.congr
    (h : ∀ v ≤ s, chain' v = chain v) (hx : Sees absent chain s x) : Sees absent chain' s x := by
  rcases hx with ⟨v, ⟨hv, hpresent, hmax⟩, hvx⟩ | ⟨rfl, hnone⟩
  · refine Or.inl ⟨v, ⟨hv, (h v hv).symm ▸ hpresent, fun w hw hw' => ?_⟩, (h v hv).trans hvx⟩
    exact hmax w hw (h w hw ▸ hw')
  · exact Or.inr ⟨rfl, fun v hv => (h v hv).trans (hnone v hv)⟩

/-- A later reader sees the same when there is no later version. -/
theorem Sees.later {s' : V} (hle : s ≤ s')
    (hbelow : ∀ v, chain v ≠ none → v ≤ s) (hx : Sees absent chain s x) :
    Sees absent chain s' x := by
  rcases hx with ⟨v, ⟨hv, hpresent, hmax⟩, hvx⟩ | ⟨rfl, hnone⟩
  · exact Or.inl ⟨v, ⟨hv.trans hle, hpresent, fun w _ hw => hmax w (hbelow w hw) hw⟩, hvx⟩
  · refine Or.inr ⟨rfl, fun v _ => ?_⟩
    by_contra hpresent
    exact hpresent (hnone v (hbelow v hpresent))

/-- Versions above `n` are kept, those below may be dropped, and `n` itself only as an `absent`
value with nothing left below it. -/
structure PrunedBelow (absent : α) (chain chain' : V → Option α) (n : V) : Prop where
  present : chain n ≠ none
  above : ∀ v, n < v → chain' v = chain v
  below : ∀ v, v < n → chain' v = none ∨ chain' v = chain v
  at_newest : chain' n = chain n ∨ chain n = some absent ∧ ∀ v ≤ n, chain' v = none

theorem PrunedBelow.of_present {n v : V}
    (h : PrunedBelow absent chain chain' n) (hv : chain' v ≠ none) : chain v ≠ none := by
  rcases lt_trichotomy v n with hlt | rfl | hgt
  · rcases h.below v hlt with hnone | hsame
    · exact absurd hnone hv
    · exact hsame ▸ hv
  · exact h.present
  · exact h.above v hgt ▸ hv

/-- Readers at or above `n` see the same value after pruning below `n`. -/
theorem PrunedBelow.sees {n : V}
    (h : PrunedBelow absent chain chain' n) (hs : n ≤ s) (hx : Sees absent chain s x) :
    Sees absent chain' s x := by
  rcases hx with ⟨v, hv, hvx⟩ | ⟨-, hnone⟩
  · have hmax : ∀ w ≤ s, chain' w ≠ none → w ≤ v := fun w hw hpresent =>
      hv.2.2 w hw (h.of_present hpresent)
    have hkept : chain' v = chain v → Sees absent chain' s x := fun hsame =>
      Or.inl ⟨v, ⟨hv.1, hsame ▸ hv.2.1, hmax⟩, hsame.trans hvx⟩
    rcases lt_or_eq_of_le (hv.2.2 n hs h.present) with hlt | rfl
    · exact hkept (h.above v hlt)
    · rcases h.at_newest with hsame | ⟨habsent, hempty⟩
      · exact hkept hsame
      · -- the dropped version was an absent value, and nothing is left up to `s`
        refine Or.inr ⟨Option.some.inj (hvx.symm.trans habsent), fun w hw => ?_⟩
        by_contra hpresent
        exact hpresent (hempty w (hmax w hw hpresent))
  · exact absurd (hnone n hs) h.present

end MultiDb.Shared
