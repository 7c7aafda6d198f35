import Mathlib.Order.Preorder.Finite
import Mathlib.Data.List.Dedup

/-!
# Merging maximal elements

A list keeps the maximal elements of everything that was merged into it.
-/

namespace MultiDb.Shared

variable {α : Type} [Preorder α]
variable {ws ws' xs : List α} {merge : List α → α → List α}

/-- One new value merged into a list that keeps only its maximal elements. -/
structure MergesOne (xs : List α) (x : α) (ys : List α) : Prop where
  mem : ∀ v, v ∈ ys ↔ (v ∈ xs ∧ ¬ v < x) ∨ (v = x ∧ ∀ y ∈ xs, ¬ x ≤ y)
  nodup : xs.Nodup → ys.Nodup

/-- The list holds the maximal elements of `ws`, each once. -/
structure Maxima (ws xs : List α) : Prop where
  mem : ∀ v, v ∈ xs ↔ Maximal (· ∈ ws) v
  nodup : xs.Nodup

/-- Elements of `ws` that are below each other are the same. -/
def Separated (ws : List α) : Prop :=
  ∀ a ∈ ws, ∀ b ∈ ws, a ≤ b → b ≤ a → a = b

theorem Separated.mono (h : Separated ws) (hsub : ∀ v ∈ ws', v ∈ ws) :
    Separated ws' :=
  fun a ha b hb => h a (hsub a ha) b (hsub b hb)

theorem maxima_nil : Maxima ([] : List α) [] :=
  ⟨fun v => by simp [Maximal], List.nodup_nil⟩

theorem Maxima.congr (h : Maxima ws xs) (hmem : ∀ v, v ∈ ws' ↔ v ∈ ws) :
    Maxima ws' xs := by
  refine ⟨fun v => ?_, h.nodup⟩
  rw [h.mem, funext fun v => propext (hmem v)]

theorem Maxima.subset (h : Maxima ws xs) {v : α} (hv : v ∈ xs) : v ∈ ws :=
  ((h.mem v).mp hv).1

theorem Maxima.exists_le (h : Maxima ws xs) {v : α} (hv : v ∈ ws) :
    ∃ m ∈ xs, v ≤ m := by
  obtain ⟨m, hle, hmax⟩ := ws.finite_toSet.exists_le_maximal hv
  exact ⟨m, (h.mem m).mpr hmax, hle⟩

/-- Merging one more value keeps the list at the maxima. -/
theorem MergesOne.maxima {ys : List α} {x : α} (hmerge : MergesOne xs x ys)
    (h : Maxima ws xs) (hsep : Separated (ws ++ [x])) : Maxima (ws ++ [x]) ys := by
  refine ⟨fun v => ?_, hmerge.nodup h.nodup⟩
  rw [hmerge.mem]
  constructor
  · rintro (⟨hv, hnot⟩ | ⟨rfl, hnew⟩)
    · obtain ⟨hvw, hmax⟩ := (h.mem v).mp hv
      refine ⟨List.mem_append_left _ hvw, fun y hy hle => ?_⟩
      rcases List.mem_append.mp hy with hy | hy
      · exact hmax hy hle
      · obtain rfl := List.mem_singleton.mp hy
        exact not_not.mp fun hge => hnot (lt_of_le_not_ge hle hge)
    · refine ⟨by simp, fun y hy hle => ?_⟩
      rcases List.mem_append.mp hy with hy | hy
      · obtain ⟨m, hm, hym⟩ := h.exists_le hy
        exact absurd (hle.trans hym) (hnew m hm)
      · rw [List.mem_singleton.mp hy]
  · rintro ⟨hv, hmax⟩
    by_cases hvw : v ∈ ws
    · refine Or.inl ⟨(h.mem v).mpr ⟨hvw, fun y hy hle => hmax (List.mem_append_left _ hy) hle⟩, ?_⟩
      exact fun hlt => not_le_of_gt hlt (hmax (by simp) hlt.le)
    · obtain rfl : v = x := List.mem_singleton.mp ((List.mem_append.mp hv).resolve_left hvw)
      refine Or.inr ⟨rfl, fun y hy hle => hvw ?_⟩
      have hyw := h.subset hy
      have hge := hmax (List.mem_append_left _ hyw) hle
      exact hsep y (List.mem_append_left _ hyw) v hv hge hle ▸ hyw

theorem Maxima.foldl (hmerge : ∀ xs x, MergesOne xs x (merge xs x))
    {news : List α} (h : Maxima ws xs) (hsep : Separated (ws ++ news)) :
    Maxima (ws ++ news) (news.foldl merge xs) := by
  induction news generalizing ws xs with
  | nil => simpa using h
  | cons x news ih =>
    have hone := (hmerge xs x).maxima h (hsep.mono (by simp; tauto))
    have hrest := ih hone (by simpa using hsep)
    simpa using hrest

/-- Merging two lists of maxima gives the maxima of both. -/
theorem Maxima.foldl_maxima
    (hmerge : ∀ xs x, MergesOne xs x (merge xs x)) {vs ys : List α} (h : Maxima ws xs)
    (h' : Maxima vs ys) (hsep : Separated (ws ++ vs)) : Maxima (ws ++ vs) (ys.foldl merge xs) := by
  have hys : ∀ v ∈ ws ++ ys, v ∈ ws ++ vs := by
    intro v hv
    rcases List.mem_append.mp hv with hv | hv
    · exact List.mem_append_left _ hv
    · exact List.mem_append_right _ (h'.subset hv)
  have hfold := h.foldl hmerge (hsep.mono hys)
  refine ⟨fun v => ?_, hfold.nodup⟩
  rw [hfold.mem]
  constructor
  · rintro ⟨hv, hmax⟩
    refine ⟨hys v hv, fun y hy hle => ?_⟩
    rcases List.mem_append.mp hy with hy | hy
    · exact hmax (List.mem_append_left _ hy) hle
    · obtain ⟨m, hm, hym⟩ := h'.exists_le hy
      exact hym.trans (hmax (List.mem_append_right _ hm) (hle.trans hym))
  · rintro ⟨hv, hmax⟩
    refine ⟨?_, fun y hy hle => hmax (hys y hy) hle⟩
    rcases List.mem_append.mp hv with hv | hv
    · exact List.mem_append_left _ hv
    · obtain ⟨m, hm, hvm⟩ := h'.exists_le hv
      have hm' := List.mem_append_right ws (h'.subset hm)
      have hmv := hmax hm' hvm
      exact List.mem_append_right _
        (hsep v (List.mem_append_right _ hv) m hm' hvm hmv ▸ hm)

theorem maxima_flatMap (hmerge : ∀ xs x, MergesOne xs x (merge xs x))
    {ι : Type} {parts : List ι} {ws xs : ι → List α}
    (hparts : ∀ part ∈ parts, Maxima (ws part) (xs part)) (hsep : Separated (parts.flatMap ws)) :
    Maxima (parts.flatMap ws) ((parts.flatMap xs).foldl merge []) := by
  induction parts using List.reverseRecOn with
  | nil => exact maxima_nil
  | append_singleton parts part ih =>
    rw [List.flatMap_append] at hsep ⊢
    rw [List.flatMap_append, List.foldl_append]
    have hfirst := ih (fun other hother => hparts other (List.mem_append_left _ hother))
      (hsep.mono fun v hv => List.mem_append_left _ hv)
    simp only [List.flatMap_singleton] at hsep ⊢
    exact hfirst.foldl_maxima hmerge (hparts part (by simp)) hsep

end MultiDb.Shared
