import MultiDb.Shared.Bytes
import MultiDb.Shared.Fallible

/-!
# Ordered tables

A finite store of named tables whose rows are ordered by key.
-/

namespace MultiDb.Shared

variable {β ι : Type}

theorem eq_of_sorted_of_mem_iff {κ ν : Type} [Ord κ] [Std.TransOrd κ] [Std.LawfulEqOrd κ]
    {l l' : List (κ × ν)} (hl : l.Pairwise fun a b => compare a.1 b.1 = .lt)
    (hl' : l'.Pairwise fun a b => compare a.1 b.1 = .lt) (h : ∀ a, a ∈ l ↔ a ∈ l') : l = l' := by
  have : Std.Irrefl fun a b : κ × ν => compare a.1 b.1 = .lt := ⟨fun a => by simp⟩
  have : Std.Antisymm fun a b : κ × ν => compare a.1 b.1 = .lt :=
    ⟨fun a b hab hba => by simp [Std.OrientedCmp.gt_of_lt hba] at hab⟩
  exact hl.eq_of_mem_iff hl' h

abbrev pairCmp {τ κ : Type} [Ord τ] [Ord κ] : τ × κ → τ × κ → Ordering :=
  compareLex (compareOn Prod.fst) (compareOn Prod.snd)

theorem toList_filterMap_congr {κ ν : Type} [Ord κ] [Std.TransOrd κ] [Std.LawfulEqOrd κ]
    {m m' : Std.ExtTreeMap κ ν} {g : ν → Option β} (h : ∀ k : κ, m[k]?.bind g = m'[k]?.bind g) :
    m.toList.filterMap (fun e => g e.2) = m'.toList.filterMap (fun e => g e.2) := by
  have hkeyed : ∀ n : Std.ExtTreeMap κ ν, n.toList.filterMap (fun e => g e.2) =
      (n.toList.filterMap fun e => (g e.2).map fun b => (e.1, b)).map Prod.snd := by
    intro n
    rw [List.map_filterMap]
    congr 1
    funext e
    cases g e.2 <;> rfl
  have hmem : ∀ (n : Std.ExtTreeMap κ ν) (k : κ) (b : β),
      (k, b) ∈ n.toList.filterMap (fun e => (g e.2).map fun b => (e.1, b)) ↔
        n[k]?.bind g = some b := by
    intro n k b
    rw [List.mem_filterMap, Option.bind_eq_some_iff]
    constructor
    · rintro ⟨⟨k', v⟩, hv, hb⟩
      obtain ⟨b', hb', heq⟩ := Option.map_eq_some_iff.mp hb
      cases heq
      exact ⟨v, Std.ExtTreeMap.mem_toList_iff_getElem?_eq_some.mp hv, hb'⟩
    · rintro ⟨v, hv, hb⟩
      exact ⟨(k, v), Std.ExtTreeMap.mem_toList_iff_getElem?_eq_some.mpr hv, by simp [hb]⟩
  have hsorted : ∀ n : Std.ExtTreeMap κ ν,
      (n.toList.filterMap fun e => (g e.2).map fun b => (e.1, b)).Pairwise
        fun a b : κ × β => compare a.1 b.1 = .lt := by
    intro n
    refine List.Pairwise.filterMap _ ?_ Std.ExtTreeMap.ordered_keys_toList
    intro e e' hlt a ha a' ha'
    obtain ⟨_, -, rfl⟩ := Option.map_eq_some_iff.mp ha
    obtain ⟨_, -, rfl⟩ := Option.map_eq_some_iff.mp ha'
    exact hlt
  rw [hkeyed, hkeyed]
  congr 1
  refine eq_of_sorted_of_mem_iff (hsorted m) (hsorted m') ?_
  rintro ⟨k, b⟩
  rw [hmem, hmem, h]

/-- Rows addressed by table and key. -/
structure Tables (τ κ ν : Type) [Ord τ] [Ord κ] where
  rows : Std.ExtTreeMap (τ × κ) ν pairCmp

private theorem foldl_select {ρ ν : Type} [DecidableEq ρ] (row : ρ) (f : ν → β) {v : ν}
    {es : List (ρ × ν)} (hv : ∀ e ∈ es, e.1 = row → e.2 = v) (old : β) :
    es.foldl (fun acc e => if e.1 = row then f e.2 else acc) old =
      if ∃ e ∈ es, e.1 = row then f v else old := by
  induction es generalizing old with
  | nil => simp
  | cons e es ih =>
    rw [List.foldl_cons, ih fun e' he' => hv e' (List.mem_cons_of_mem e he')]
    by_cases he : e.1 = row
    · simp [he, hv e List.mem_cons_self he]
    · have hiff : (∃ e' ∈ e :: es, e'.1 = row) ↔ ∃ e' ∈ es, e'.1 = row := by simp [he]
      simp only [if_neg he, hiff]

namespace Tables

variable {τ κ ν : Type} [Ord τ] [Ord κ] [Std.TransOrd τ] [Std.TransOrd κ]
variable {t t' : τ} {k : κ} {v : ν} {p : κ → Bool}

def empty : Tables τ κ ν :=
  ⟨∅⟩

def get (s : Tables τ κ ν) (t : τ) (k : κ) : Option ν :=
  s.rows[(t, k)]?

def put (s : Tables τ κ ν) (t : τ) (k : κ) (v : ν) : Tables τ κ ν :=
  ⟨s.rows.insert (t, k) v⟩

def delete (s : Tables τ κ ν) (t : τ) (k : κ) : Tables τ κ ν :=
  ⟨s.rows.erase (t, k)⟩

/-- Writes a value, or removes the row when there is none. -/
def set (s : Tables τ κ ν) (t : τ) (k : κ) : Option ν → Tables τ κ ν
  | some v => s.put t k v
  | none => s.delete t k

def entries (s : Tables τ κ ν) : List ((τ × κ) × ν) :=
  s.rows.toList

/-- The rows of table `t` whose keys satisfy `p`, in key order. -/
def scan [DecidableEq τ] (s : Tables τ κ ν) (t : τ) (p : κ → Bool) : List (κ × ν) :=
  (s.entries.filter fun row => row.1.1 = t && p row.1.2).map fun row => (row.1.2, row.2)

@[simp] theorem get_empty (t : τ) (k : κ) : (empty : Tables τ κ ν).get t k = none := by
  simp [get, empty]

theorem entries_sorted (s : Tables τ κ ν) : s.entries.Pairwise fun a b => pairCmp a.1 b.1 = .lt :=
  Std.ExtTreeMap.ordered_keys_toList

theorem scan_sorted [DecidableEq τ] (s : Tables τ κ ν) (t : τ) (p : κ → Bool) :
    (s.scan t p).Pairwise fun a b => compare a.1 b.1 = .lt := by
  rw [scan, List.pairwise_map]
  refine (s.entries_sorted.filter _).imp_of_mem ?_
  intro a b ha hb hlt
  -- both rows lie in table `t`, so the table component compares equal
  have hta : a.1.1 = t := by simpa using And.left (by simpa using (List.mem_filter.mp ha).2)
  have htb : b.1.1 = t := by simpa using And.left (by simpa using (List.mem_filter.mp hb).2)
  simpa [pairCmp, compareLex, compareOn, hta, htb] using hlt

theorem get_foldl_of_ne {f : Tables τ κ ν → ι → Tables τ κ ν}
    (hf : ∀ s i, (f s i).get t' k = s.get t' k) (is : List ι) (s : Tables τ κ ν) :
    (is.foldl f s).get t' k = s.get t' k :=
  List.foldlRecOn (motive := fun s' : Tables τ κ ν => s'.get t' k = s.get t' k) _ _ rfl
    fun s' hs' i _ => (hf s' i).trans hs'

variable [Std.LawfulEqOrd τ] [Std.LawfulEqOrd κ]

instance {τ κ : Type} [Ord τ] [Ord κ] [Std.LawfulEqOrd τ] [Std.LawfulEqOrd κ] :
    Std.LawfulEqCmp (pairCmp : τ × κ → τ × κ → Ordering) where
  compare_self := by simp [pairCmp, compareLex, compareOn]
  eq_of_compare {a b} h := by
    simp only [pairCmp, compareLex, compareOn, Ordering.then_eq_eq] at h
    exact Prod.ext (Std.LawfulEqOrd.eq_of_compare h.1) (Std.LawfulEqOrd.eq_of_compare h.2)

variable {s s' : Tables τ κ ν}

theorem ext_get (h : ∀ t k, s.get t k = s'.get t k) : s = s' := by
  cases s
  cases s'
  congr 1
  exact Std.ExtTreeMap.ext_getElem? fun row => h row.1 row.2

/-! ## Updates -/

section Updates

variable [DecidableEq τ] [DecidableEq κ]

theorem get_put (s : Tables τ κ ν) (t t' : τ) (k k' : κ) (v : ν) :
    (s.put t k v).get t' k' = if t = t' ∧ k = k' then some v else s.get t' k' := by
  simp only [get, put, Std.ExtTreeMap.getElem?_insert, Std.LawfulEqCmp.compare_eq_iff_eq,
    Prod.mk.injEq]

theorem get_delete (s : Tables τ κ ν) (t t' : τ) (k k' : κ) :
    (s.delete t k).get t' k' = if t = t' ∧ k = k' then none else s.get t' k' := by
  simp only [get, delete, Std.ExtTreeMap.getElem?_erase, Std.LawfulEqCmp.compare_eq_iff_eq,
    Prod.mk.injEq]

theorem get_set (s : Tables τ κ ν) (t t' : τ) (k k' : κ) (v : Option ν) :
    (s.set t k v).get t' k' = if t = t' ∧ k = k' then v else s.get t' k' := by
  cases v with
  | none => exact get_delete s t t' k k'
  | some v => exact get_put s t t' k k' v

@[simp] theorem get_put_self (s : Tables τ κ ν) (t : τ) (k : κ) (v : ν) :
    (s.put t k v).get t k = some v := by
  simp [get_put]

theorem get_put_of_ne {k' : κ}
    (h : t = t' → k ≠ k') : (s.put t k v).get t' k' = s.get t' k' := by
  rw [get_put, if_neg fun hk => h hk.1 hk.2]

theorem get_foldl_put (key : ι → κ) (t : τ) (k : κ) (v : ν) (is : List ι)
    (s : Tables τ κ ν) :
    ((∃ i ∈ is, key i = k) → (is.foldl (fun s i => s.put t (key i) v) s).get t k = some v) ∧
    ((∀ i ∈ is, key i ≠ k) → (is.foldl (fun s i => s.put t (key i) v) s).get t k = s.get t k) := by
  refine foldl_observe (fun s => s.get t k) (fun i => key i = k) (some v) s ?_ ?_
  · rintro i - s rfl
    exact get_put_self s t (key i) v
  · intro i _ s hne
    exact get_put_of_ne fun _ => hne

theorem get_foldl_delete (key : ι → κ) (t : τ) (k : κ) (is : List ι) (s : Tables τ κ ν) :
    ((∃ i ∈ is, key i = k) → (is.foldl (fun s i => s.delete t (key i)) s).get t k = none) ∧
    ((∀ i ∈ is, key i ≠ k) → (is.foldl (fun s i => s.delete t (key i)) s).get t k = s.get t k) := by
  refine foldl_observe (fun s => s.get t k) (fun i => key i = k) none s ?_ ?_
  · rintro i - s rfl
    simp [get_delete]
  · intro i _ s hne
    rw [get_delete, if_neg fun h => hne h.2]

theorem get_foldl_put_of_ne (key : ι → κ) (h : t ≠ t') (k : κ) (v : ν)
    (is : List ι) (s : Tables τ κ ν) :
    (is.foldl (fun s i => s.put t (key i) v) s).get t' k = s.get t' k :=
  get_foldl_of_ne (fun _ _ => get_put_of_ne fun ht => absurd ht h) is s

theorem get_foldl_delete_of_ne (key : ι → κ) (h : t ≠ t') (k : κ)
    (is : List ι) (s : Tables τ κ ν) :
    (is.foldl (fun s i => s.delete t (key i)) s).get t' k = s.get t' k :=
  get_foldl_of_ne (fun s i => by rw [get_delete, if_neg fun ht => h ht.1]) is s

end Updates

/-! ## Entries -/

theorem mem_entries :
    ((t, k), v) ∈ s.entries ↔ s.get t k = some v :=
  Std.ExtTreeMap.mem_toList_iff_getElem?_eq_some

/-- A pass over all rows that keeps the last value seen for one row finds its value. -/
theorem foldl_entries [DecidableEq τ] [DecidableEq κ] (s : Tables τ κ ν) (t : τ)
    (k : κ) (f : ν → β) (old : β) :
    s.entries.foldl (fun acc e => if e.1 = (t, k) then f e.2 else acc) old =
      ((s.get t k).map f).getD old := by
  cases hget : s.get t k with
  | none =>
    refine List.foldlRecOn (motive := fun acc => acc = old) _ _ rfl ?_
    rintro acc rfl ⟨row, v⟩ hmem
    refine if_neg ?_
    rintro rfl
    rw [mem_entries.mp hmem] at hget
    contradiction
  | some v =>
    have hv : ∀ e ∈ s.entries, e.1 = (t, k) → e.2 = v := by
      rintro ⟨row, w⟩ hmem rfl
      exact Option.some.inj ((mem_entries.mp hmem).symm.trans hget)
    rw [foldl_select (t, k) f hv old, if_pos ⟨_, mem_entries.mpr hget, rfl⟩]
    rfl

theorem entries_isEmpty_iff :
    s.entries.isEmpty = true ↔ ∀ t k, s.get t k = none := by
  rw [List.isEmpty_iff, List.eq_nil_iff_forall_not_mem]
  constructor
  · intro h t k
    by_contra hne
    obtain ⟨v, hv⟩ := Option.ne_none_iff_exists'.mp hne
    exact h ((t, k), v) (mem_entries.mpr hv)
  · rintro h ⟨⟨t, k⟩, v⟩ hmem
    rw [mem_entries, h] at hmem
    contradiction

theorem forall_mem_entries {P : τ → κ → ν → Prop} :
    (∀ e ∈ s.entries, P e.1.1 e.1.2 e.2) ↔ ∀ t k v, s.get t k = some v → P t k v := by
  constructor
  · intro h t k v hget
    exact h ((t, k), v) (mem_entries.mpr hget)
  · rintro h ⟨⟨t, k⟩, v⟩ hmem
    exact h t k v (mem_entries.mp hmem)

section Scan

variable [DecidableEq τ]

theorem mem_scan :
    (k, v) ∈ s.scan t p ↔ s.get t k = some v ∧ p k = true := by
  simp only [scan, List.mem_map, List.mem_filter, Bool.and_eq_true, decide_eq_true_eq]
  constructor
  · rintro ⟨⟨⟨t', k'⟩, v'⟩, ⟨hmem, rfl, hp⟩, heq⟩
    cases heq
    exact ⟨mem_entries.mp hmem, hp⟩
  · rintro ⟨hget, hp⟩
    exact ⟨((t, k), v), ⟨mem_entries.mpr hget, rfl, hp⟩, rfl⟩

theorem scan_eq_of_sorted {rows : List (κ × ν)}
    (hsorted : rows.Pairwise fun a b => compare a.1 b.1 = .lt)
    (hrows : ∀ k v, (k, v) ∈ rows ↔ s.get t k = some v ∧ p k = true) : s.scan t p = rows := by
  refine eq_of_sorted_of_mem_iff (s.scan_sorted t p) hsorted ?_
  rintro ⟨k, v⟩
  rw [mem_scan, hrows]

theorem scan_congr
    (h : ∀ k, p k = true → s.get t k = s'.get t k) : s.scan t p = s'.scan t p := by
  refine scan_eq_of_sorted (s'.scan_sorted t p) fun k v => ?_
  rw [mem_scan]
  exact and_congr_left fun hp => by rw [h k hp]

theorem scan_eq_nil_iff :
    s.scan t p = [] ↔ ∀ k, p k = true → s.get t k = none := by
  rw [List.eq_nil_iff_forall_not_mem]
  constructor
  · intro h k hp
    by_contra hne
    obtain ⟨v, hv⟩ := Option.ne_none_iff_exists'.mp hne
    exact h (k, v) (mem_scan.mpr ⟨hv, hp⟩)
  · rintro h ⟨k, v⟩ hmem
    obtain ⟨hget, hp⟩ := mem_scan.mp hmem
    rw [h k hp] at hget
    contradiction

end Scan

end Tables

end MultiDb.Shared
