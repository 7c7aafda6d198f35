import MultiDb.Shared.Tables

/-!
# Stores that agree on most tables

Two stores that hold the same rows outside a list of hidden tables.
-/

namespace MultiDb.Shared.Tables

variable {τ κ ν : Type} [Ord τ] [Ord κ] [Std.TransOrd τ] [Std.TransOrd κ]

/-- The stores hold the same rows, except in the hidden tables. -/
def AgreeOff (hidden : List τ) (s s' : Tables τ κ ν) : Prop :=
  ∀ t ∉ hidden, ∀ k, s.get t k = s'.get t k

namespace AgreeOff

variable {hidden : List τ} {s s' : Tables τ κ ν}

theorem refl (hidden : List τ) (s : Tables τ κ ν) : AgreeOff hidden s s :=
  fun _ _ _ => rfl

theorem symm (h : AgreeOff hidden s s') : AgreeOff hidden s' s :=
  fun t ht k => (h t ht k).symm

theorem trans {s'' : Tables τ κ ν} (h : AgreeOff hidden s s') (h' : AgreeOff hidden s' s'') :
    AgreeOff hidden s s'' :=
  fun t ht k => (h t ht k).trans (h' t ht k)

theorem mono {hidden' : List τ} (h : AgreeOff hidden s s') (hsub : hidden ⊆ hidden') :
    AgreeOff hidden' s s' :=
  fun t ht k => h t (fun hmem => ht (hsub hmem)) k

theorem foldl {ι : Type} {f : Tables τ κ ν → ι → Tables τ κ ν}
    (hf : ∀ {s s'} i, AgreeOff hidden s s' → AgreeOff hidden (f s i) (f s' i))
    (h : AgreeOff hidden s s') (is : List ι) : AgreeOff hidden (is.foldl f s) (is.foldl f s') := by
  induction is generalizing s s' with
  | nil => exact h
  | cons i is ih => exact ih (hf i h)

variable [Std.LawfulEqOrd τ] [Std.LawfulEqOrd κ] [DecidableEq τ]

theorem scan (h : AgreeOff hidden s s') {t : τ} (ht : t ∉ hidden) (p : κ → Bool) :
    s.scan t p = s'.scan t p :=
  scan_congr fun k _ => h t ht k

variable [DecidableEq κ]

theorem put (h : AgreeOff hidden s s') (t : τ) (k : κ) (v : ν) :
    AgreeOff hidden (s.put t k v) (s'.put t k v) := by
  intro t' ht' k'
  simp only [get_put, h t' ht' k']

theorem set (h : AgreeOff hidden s s') (t : τ) (k : κ) (v : Option ν) :
    AgreeOff hidden (s.set t k v) (s'.set t k v) := by
  intro t' ht' k'
  simp only [get_set, h t' ht' k']

theorem put_hidden (h : AgreeOff hidden s s') {t : τ} (ht : t ∈ hidden) (k : κ) (v : ν) :
    AgreeOff hidden (s.put t k v) s' := by
  intro t' ht' k'
  rw [get_put_of_ne, h t' ht' k']
  rintro rfl
  exact absurd ht ht'

end AgreeOff

end MultiDb.Shared.Tables
