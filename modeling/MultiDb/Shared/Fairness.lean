import Mathlib.Order.Basic

/-!
# Fair runs

Under weak fairness a goal is reached as soon as some rank never grows before it and always
has a party whose action lowers it.
-/

namespace MultiDb.Shared

variable {σ ι : Type}

/-- A party that is enabled from some time on acts at some later time. -/
def WeaklyFair (enabled : σ → ι → Prop) (states : ℕ → σ) (actor : ℕ → Option ι) : Prop :=
  ∀ i n, (∀ m, n ≤ m → enabled (states m) i) → ∃ m, n ≤ m ∧ actor m = some i

variable {enabled : σ → ι → Prop} {states : ℕ → σ} {actor : ℕ → Option ι}

/-- Until `goal` the rank never grows, and drops when its helper acts, which stays enabled. -/
structure Ranks (enabled : σ → ι → Prop) (states : ℕ → σ) (actor : ℕ → Option ι)
    (P goal : σ → Prop) (rank : σ → ℕ) (helper : σ → ι → Prop) : Prop where
  holds : ∀ n, P (states n) → ¬ goal (states (n + 1)) → P (states (n + 1))
  rank_le : ∀ n, P (states n) → ¬ goal (states (n + 1)) →
    rank (states (n + 1)) ≤ rank (states n)
  exists_helper : ∀ n, P (states n) → ∃ i, helper (states n) i
  enabled_of_helper : ∀ n i, P (states n) → helper (states n) i → enabled (states n) i
  keeps : ∀ n i, P (states n) → helper (states n) i → ¬ goal (states (n + 1)) →
    rank (states (n + 1)) = rank (states n) → helper (states (n + 1)) i
  lowers : ∀ n i, P (states n) → helper (states n) i → actor n = some i →
    ¬ goal (states (n + 1)) → rank (states (n + 1)) < rank (states n)

variable {P goal : σ → Prop} {rank : σ → ℕ} {helper : σ → ι → Prop}

/-- From a ranked state a fair run reaches a lower rank. -/
theorem Ranks.exists_lower (h : Ranks enabled states actor P goal rank helper)
    (hfair : WeaklyFair enabled states actor) {n : ℕ} (hn : P (states n))
    (hgoal : ∀ m, n < m → ¬ goal (states m)) :
    ∃ m, n ≤ m ∧ P (states m) ∧ rank (states m) < rank (states n) := by
  by_contra hstuck
  obtain ⟨i, hi⟩ := h.exists_helper n hn
  have hle : ∀ m, n ≤ m → P (states m) → rank (states n) ≤ rank (states m) := by
    intro m hm hP
    by_contra hlt
    exact hstuck ⟨m, hm, hP, by omega⟩
  -- the rank stays where it is, and so does its helper
  have hstay : ∀ d, P (states (n + d)) ∧ rank (states (n + d)) = rank (states n) ∧
      helper (states (n + d)) i := by
    intro d
    induction d with
    | zero => exact ⟨hn, rfl, hi⟩
    | succ d ih =>
      obtain ⟨hP, hrank, hhelper⟩ := ih
      have hnot := hgoal (n + d + 1) (by omega)
      have hP' := h.holds (n + d) hP hnot
      have hrank' : rank (states (n + d + 1)) = rank (states (n + d)) := by
        have h₁ := h.rank_le (n + d) hP hnot
        have h₂ := hle (n + d + 1) (by omega) hP'
        omega
      exact ⟨hP', hrank'.trans hrank, h.keeps (n + d) i hP hhelper hnot hrank'⟩
  obtain ⟨m, hm, hactor⟩ := hfair i n fun m hm => by
    obtain ⟨d, rfl⟩ := Nat.exists_eq_add_of_le hm
    exact h.enabled_of_helper _ i (hstay d).1 (hstay d).2.2
  obtain ⟨d, rfl⟩ := Nat.exists_eq_add_of_le hm
  obtain ⟨hP, hrank, hhelper⟩ := hstay d
  have hnot := hgoal (n + d + 1) (by omega)
  have hlt := h.lowers (n + d) i hP hhelper hactor hnot
  exact hstuck ⟨n + d + 1, by omega, h.holds _ hP hnot, by omega⟩

theorem Ranks.eventually (h : Ranks enabled states actor P goal rank helper)
    (hfair : WeaklyFair enabled states actor) {n : ℕ} (hn : P (states n)) :
    ∃ m, n < m ∧ goal (states m) := by
  by_contra hnever
  have hgoal : ∀ m, n < m → ¬ goal (states m) := fun m hm hg => hnever ⟨m, hm, hg⟩
  have hdescent : ∀ r m, n ≤ m → P (states m) → rank (states m) = r → False := by
    intro r
    induction r using Nat.strongRecOn with
    | ind r ih =>
      intro m hm hP hrank
      obtain ⟨m', hm', hP', hlt⟩ := h.exists_lower hfair hP fun k hk => hgoal k (by omega)
      exact ih _ (hrank ▸ hlt) m' (by omega) hP' rfl
  exact hdescent _ n (Nat.le_refl n) hn rfl

end MultiDb.Shared
