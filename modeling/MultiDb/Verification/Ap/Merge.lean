import MultiDb.Model.Versions
import MultiDb.Shared.MaximalMerge

/-!
# Merges of versions

A version list holds the versions whose clocks are not dominated, in order.
-/

namespace MultiDb

open Shared

namespace VectorClock

variable {left right : VectorClock}

private theorem flags_foldl (left right : VectorClock) (nodes : List NodeId) (start : Bool × Bool) :
    let flags := nodes.foldl (fun (flags : Bool × Bool) node =>
      if left.get node > right.get node then (true, flags.2)
      else if right.get node > left.get node then (flags.1, true)
      else flags) start
    (flags.1 = true ↔ start.1 = true ∨ ∃ node ∈ nodes, right.get node < left.get node) ∧
    (flags.2 = true ↔ start.2 = true ∨ ∃ node ∈ nodes, left.get node < right.get node) := by
  induction nodes generalizing start with
  | nil => simp
  | cons node nodes ih =>
    simp only [List.foldl_cons, List.mem_cons, exists_eq_or_imp]
    obtain ⟨hleft, hright⟩ := ih (if left.get node > right.get node then (true, start.2)
      else if right.get node > left.get node then (start.1, true) else start)
    rw [hleft, hright]
    by_cases hgt : right.get node < left.get node
    · simp [hgt, not_lt_of_gt hgt]
    · by_cases hlt : left.get node < right.get node <;> simp [hgt, hlt]

private theorem exists_keys_iff {p : UInt64 → UInt64 → Prop} (hzero : ¬ p 0 0) :
    (∃ node ∈ left.entries.keys ++ right.entries.keys, p (left.get node) (right.get node)) ↔
      ∃ node, p (left.get node) (right.get node) := by
  constructor
  · rintro ⟨node, -, h⟩
    exact ⟨node, h⟩
  · rintro ⟨node, h⟩
    refine ⟨node, ?_, h⟩
    by_contra habsent
    rw [List.mem_append, Std.ExtTreeMap.mem_keys, Std.ExtTreeMap.mem_keys, not_or] at habsent
    rw [get, get, Std.ExtTreeMap.getElem?_eq_none habsent.1,
      Std.ExtTreeMap.getElem?_eq_none habsent.2] at h
    exact hzero h

private theorem lt_iff (f g : NodeId → UInt64) :
    f < g ↔ ¬ (∃ node, g node < f node) ∧ ∃ node, f node < g node := by
  simp only [Pi.lt_def, Pi.le_def, not_exists, not_lt]

theorem compare_spec (left right : VectorClock) :
    (compare left right = .equal ↔ left.get = right.get) ∧
    (compare left right = .before ↔ left.get < right.get) ∧
    (compare left right = .after ↔ right.get < left.get) := by
  obtain ⟨hleft, hright⟩ := flags_foldl left right
    (left.entries.keys ++ right.entries.keys) (false, false)
  rw [exists_keys_iff (p := fun l r => r < l) (lt_irrefl 0)] at hleft
  rw [exists_keys_iff (p := fun l r => l < r) (lt_irrefl 0)] at hright
  have hflags : List.foldl _ _ _ = compareFlags left right := rfl
  rw [hflags] at hleft hright
  have heq : left.get = right.get ↔
      ¬ (∃ node, right.get node < left.get node) ∧ ¬ ∃ node, left.get node < right.get node := by
    simp only [funext_iff, not_exists, not_lt, ← forall_and, ← le_antisymm_iff]
  rw [lt_iff, lt_iff, heq, compare]
  cases hcases : compareFlags left right with
  | mk leftGt rightGt =>
    simp only [hcases, Bool.false_eq_true, false_or] at hleft hright
    rw [← hleft, ← hright]
    cases leftGt <;> cases rightGt <;> simp

end VectorClock

/-- Versions are ordered by their clocks. -/
instance : Preorder VersionedBytes :=
  Preorder.lift fun version => version.clock.get

section Compare

variable {a b : VersionedBytes}

theorem compare_eq_equal_iff : a.clock.compare b.clock = .equal ↔ a ≤ b ∧ b ≤ a :=
  (VectorClock.compare_spec _ _).1.trans le_antisymm_iff

theorem compare_eq_before_iff : a.clock.compare b.clock = .before ↔ a < b :=
  (VectorClock.compare_spec _ _).2.1

theorem compare_eq_after_iff : a.clock.compare b.clock = .after ↔ b < a :=
  (VectorClock.compare_spec _ _).2.2

end Compare

/-- The existing version keeps the incoming one out. -/
def blocks (current incoming : VersionedBytes) : Bool :=
  match current.clock.compare incoming.clock with
  | .after | .equal => true
  | .before | .concurrent => false

theorem mergeLoop_eq (existing : List VersionedBytes) (incoming : VersionedBytes) :
    mergeLoop existing incoming =
      (existing.all fun current => !blocks current incoming,
        existing.filter fun current => current.clock.compare incoming.clock ≠ .before) := by
  induction existing using List.reverseRecOn with
  | nil => rfl
  | append_singleton existing current ih =>
    rw [mergeLoop] at ih ⊢
    rw [List.foldl_append, ih]
    cases hcompare : current.clock.compare incoming.clock <;> simp [hcompare, blocks]

theorem blocks_iff {current incoming : VersionedBytes} :
    blocks current incoming = true ↔ incoming ≤ current := by
  have hequal := compare_eq_equal_iff (a := current) (b := incoming)
  have hafter := compare_eq_after_iff (a := current) (b := incoming)
  rw [blocks]
  cases hcompare : current.clock.compare incoming.clock
  all_goals simp only [hcompare, reduceCtorEq, false_iff, true_iff, not_and] at hequal hafter
  · simp only [Bool.false_eq_true, false_iff]
    exact fun hle => hafter (lt_of_le_not_ge hle fun hge => hequal hge hle)
  · simp only [true_iff]
    exact hafter.le
  · simp only [true_iff]
    exact hequal.2
  · simp only [Bool.false_eq_true, false_iff]
    exact fun hle => hafter (lt_of_le_not_ge hle fun hge => hequal hge hle)

/-- What `mergeOneVersion` keeps, before sorting. -/
def survivors (existing : List VersionedBytes) (incoming : VersionedBytes) : List VersionedBytes :=
  let kept := existing.filter fun current => current.clock.compare incoming.clock ≠ .before
  if existing.all fun current => !blocks current incoming then kept ++ [incoming] else kept

theorem mergeOneVersion_eq (existing : List VersionedBytes) (incoming : VersionedBytes) :
    mergeOneVersion existing incoming =
      (survivors existing incoming).mergeSort
        fun left right => (compareVersions left right).isLE := by
  rw [mergeOneVersion, mergeLoop_eq]
  rfl

/-- One merge keeps what the new version does not replace. -/
theorem mergesOne_mergeOneVersion (existing : List VersionedBytes) (incoming : VersionedBytes) :
    MergesOne existing incoming (mergeOneVersion existing incoming) := by
  have hall : (existing.all fun current => !blocks current incoming) = true ↔
      ∀ y ∈ existing, ¬ incoming ≤ y := by
    simp only [List.all_eq_true, Bool.not_eq_true', ← blocks_iff, Bool.not_eq_true]
  have hkept : ∀ v, v ∈ existing.filter (fun current =>
      current.clock.compare incoming.clock ≠ .before) ↔ v ∈ existing ∧ ¬ v < incoming := by
    intro v
    rw [List.mem_filter, decide_eq_true_eq, ne_eq, compare_eq_before_iff]
  rw [mergeOneVersion_eq]
  constructor
  · intro v
    rw [List.mem_mergeSort, survivors]
    split
    · rename_i hnew
      rw [List.mem_append, hkept, List.mem_singleton, and_iff_left (hall.mp hnew)]
    · rename_i hnew
      rw [hkept]
      exact ⟨Or.inl, fun h => h.resolve_right fun h => hnew (hall.mpr h.2)⟩
  · intro hnodup
    rw [(List.mergeSort_perm _ _).nodup_iff, survivors]
    split
    · rename_i hnew
      refine (hnodup.filter _).append (List.nodup_singleton _) fun v hv hv' => ?_
      obtain rfl := List.mem_singleton.mp hv'
      exact hall.mp hnew v (List.mem_of_mem_filter hv) le_rfl
    · exact hnodup.filter _

instance : Std.TransOrd VectorClock where
  eq_swap {a b} := @Std.OrientedCmp.eq_swap _ (List.compareLex pairCmp) _
    a.entries.toList b.entries.toList
  isLE_trans {a b c} := @Std.TransCmp.isLE_trans _ (List.compareLex pairCmp) _
    a.entries.toList b.entries.toList c.entries.toList

instance : Std.LawfulEqOrd VectorClock where
  eq_of_compare {a b} h := by
    have hlist : a.entries.toList = b.entries.toList :=
      @Std.LawfulEqCmp.eq_of_compare _ (List.compareLex pairCmp) _ _ _ h
    exact VectorClock.ext (Std.ExtTreeMap.toList_inj.mp hlist)

instance : Std.TransCmp compareVersions := by
  unfold compareVersions
  infer_instance

theorem eq_of_compareVersions {a b : VersionedBytes} (h : compareVersions a b = .eq) : a = b := by
  simp only [compareVersions, compareLex_eq_eq, compareOn, Std.LawfulEqOrd.compare_eq_iff_eq] at h
  obtain ⟨horigin, hclock, hvalue⟩ := h
  cases a
  cases b
  simp_all

def Ordered (versions : List VersionedBytes) : Prop :=
  versions.Pairwise fun a b => (compareVersions a b).isLE

theorem ordered_mergeSort (versions : List VersionedBytes) :
    Ordered (versions.mergeSort fun left right => (compareVersions left right).isLE) := by
  refine List.pairwise_mergeSort (fun a b c hab hbc =>
    @Std.TransCmp.isLE_trans _ compareVersions _ a b c hab hbc) (fun a b => ?_) versions
  rw [Bool.or_eq_true, @Std.OrientedCmp.eq_swap _ compareVersions _ b a, Ordering.isLE_swap]
  cases compareVersions a b <;> simp

theorem eq_of_ordered {as bs : List VersionedBytes} (has : Ordered as) (hbs : Ordered bs)
    (has' : as.Nodup) (hbs' : bs.Nodup) (hmem : ∀ v, v ∈ as ↔ v ∈ bs) : as = bs := by
  refine ((List.perm_ext_iff_of_nodup has' hbs').mpr hmem).eq_of_pairwise ?_ has hbs
  intro a b _ _ hab hba
  refine eq_of_compareVersions ?_
  rw [@Std.OrientedCmp.eq_swap _ compareVersions _ b a, Ordering.isLE_swap] at hba
  cases hcompare : compareVersions a b <;> simp_all

/-- The versions of `writes` whose clock no other write strictly dominates, in order. -/
def canonicalVersions (writes : List VersionedBytes) : List VersionedBytes :=
  (writes.dedup.filter fun version =>
    writes.all fun other => version.clock.compare other.clock ≠ .before).mergeSort
      fun left right => (compareVersions left right).isLE

theorem maxima_canonicalVersions (writes : List VersionedBytes) :
    Maxima writes (canonicalVersions writes) := by
  refine ⟨fun v => ?_, ?_⟩
  · rw [canonicalVersions, List.mem_mergeSort, List.mem_filter, List.mem_dedup, List.all_eq_true]
    refine and_congr_right fun _ => forall_congr' fun w => forall_congr' fun _ => ?_
    rw [decide_eq_true_eq, ne_eq, compare_eq_before_iff, lt_iff_le_not_ge, not_and_not_right]
  · rw [canonicalVersions, (List.mergeSort_perm _ _).nodup_iff]
    exact (List.nodup_dedup _).filter _

theorem eq_canonicalVersions {writes versions : List VersionedBytes} (h : Maxima writes versions)
    (hordered : Ordered versions) : versions = canonicalVersions writes := by
  have hcanonical := maxima_canonicalVersions writes
  exact eq_of_ordered hordered (ordered_mergeSort _) h.nodup hcanonical.nodup fun v => by
    rw [h.mem, hcanonical.mem]

end MultiDb
