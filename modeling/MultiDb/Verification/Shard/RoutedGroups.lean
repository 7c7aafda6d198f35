import MultiDb.Verification.Shard.RouterInvariant

/-!
# The groups of a batch

The router groups the writes of a batch by the shard that owns them.
-/

namespace MultiDb

open Shared

variable {C : Codecs} {cfg : RouterConfig} {map : ShardMap}

/-- The groups of a batch partition its writes by the shard that owns them. -/
structure RoutedGroups (C : Codecs) (cfg : RouterConfig) (map : ShardMap) (ops : List Op)
    (groups : Std.ExtTreeMap ShardId (List Op)) : Prop where
  owned : ∀ shard t k, map.shardFor C cfg t k = .ok shard →
    (opsToWriteSet (groups.getD shard [])).get t k = (opsToWriteSet ops).get t k
  other : ∀ shard t k, map.shardFor C cfg t k ≠ .ok shard →
    (opsToWriteSet (groups.getD shard [])).get t k = none
  routed : ∀ t k v, (opsToWriteSet ops).get t k = some v →
    ∃ shard, map.shardFor C cfg t k = .ok shard

theorem RoutedGroups.insert {ops : List Op} {groups : Std.ExtTreeMap ShardId (List Op)}
    (h : RoutedGroups C cfg map ops groups) {op : Op} {shard : ShardId}
    (howner : map.shardFor C cfg op.table op.key = .ok shard) :
    RoutedGroups C cfg map (ops ++ [op])
      (groups.insert shard (groups.getD shard [] ++ [op])) := by
  have hgroup : ∀ other, (groups.insert shard (groups.getD shard [] ++ [op])).getD other [] =
      if other = shard then groups.getD shard [] ++ [op] else groups.getD other [] := by
    intro other
    rw [Std.ExtTreeMap.getD_insert]
    by_cases heq : other = shard
    · simp [heq]
    · simp [heq, Ne.symm heq]
  constructor
  case owned =>
    intro other t k hother
    rw [hgroup, opsToWriteSet_append_singleton]
    by_cases heq : other = shard
    · rw [if_pos heq, opsToWriteSet_append_singleton, ← heq, h.owned other t k hother]
    · rw [if_neg heq, if_neg, h.owned other t k hother]
      rintro ⟨rfl, rfl⟩
      exact heq (Except.ok.inj (hother.symm.trans howner))
  case other =>
    intro other t k hother
    rw [hgroup]
    by_cases heq : other = shard
    · rw [if_pos heq, opsToWriteSet_append_singleton, if_neg, ← heq, h.other other t k hother]
      rintro ⟨rfl, rfl⟩
      exact hother (heq ▸ howner)
    · rw [if_neg heq, h.other other t k hother]
  case routed =>
    intro t k v hget
    rw [opsToWriteSet_append_singleton] at hget
    split at hget
    · rename_i hrow
      obtain ⟨rfl, rfl⟩ := hrow
      exact ⟨shard, howner⟩
    · exact h.routed t k v hget

/-- Routing splits a batch by the owners of its rows. -/
theorem routedGroups_of_routePublicOps {ops : List Op} {groups : Std.ExtTreeMap ShardId (List Op)}
    (h : routePublicOps C cfg map ops = .ok groups) : RoutedGroups C cfg map ops groups := by
  have hloop : ∀ (ops done : List Op) (start : Std.ExtTreeMap ShardId (List Op)),
      RoutedGroups C cfg map done start →
      (ops.foldlM (fun groups op => do
        let shard ← map.shardFor C cfg op.table op.key
        return groups.insert shard (groups.getD shard [] ++ [op])) start : ReplResult _) =
        .ok groups →
      RoutedGroups C cfg map (done ++ ops) groups := by
    intro ops
    induction ops with
    | nil =>
      intro done start hstart hrun
      obtain rfl := pure_eq_ok_iff.mp hrun
      simpa using hstart
    | cons op ops ih =>
      intro done start hstart hrun
      obtain ⟨next, hnext, hrest⟩ := foldlM_cons_eq_ok_iff.mp hrun
      simp only [bind_eq_ok_iff, pure_eq_ok_iff] at hnext
      obtain ⟨shard, howner, rfl⟩ := hnext
      simpa using ih (done ++ [op]) _ (hstart.insert howner) hrest
  simpa using hloop ops [] ∅ (by constructor <;> simp [opsToWriteSet]) h

theorem RoutedGroups.mem_toList {ops : List Op} {groups : Std.ExtTreeMap ShardId (List Op)}
    (h : RoutedGroups C cfg map ops groups) {shard : ShardId} {t : String} {k : Bytes}
    {v : Option Bytes} (howner : map.shardFor C cfg t k = .ok shard)
    (hget : (opsToWriteSet ops).get t k = some v) :
    (shard, groups.getD shard []) ∈ groups.toList := by
  rw [Std.ExtTreeMap.mem_toList_iff_getElem?_eq_some, Std.ExtTreeMap.getD_eq_getD_getElem?]
  cases hgroup : groups[shard]? with
  | some ops => rfl
  | none =>
    rw [← h.owned shard t k howner, Std.ExtTreeMap.getD_eq_getD_getElem?, hgroup] at hget
    simp [opsToWriteSet] at hget

theorem RoutedGroups.single {ops : List Op} {groups : Std.ExtTreeMap ShardId (List Op)}
    (h : RoutedGroups C cfg map ops groups) (hsize : groups.size ≤ 1) {group : ShardId × List Op}
    (hgroup : groups.toList.head?.getD (cfg.globalShard, []) = group) :
    (∀ t k, map.shardFor C cfg t k = .ok group.1 →
      (opsToWriteSet group.2).get t k = (opsToWriteSet ops).get t k) ∧
    ∀ t k, map.shardFor C cfg t k ≠ .ok group.1 →
      (opsToWriteSet group.2).get t k = none ∧ (opsToWriteSet ops).get t k = none := by
  rw [← Std.ExtTreeMap.length_toList] at hsize
  have hmem := @RoutedGroups.mem_toList _ _ _ _ _ h
  cases hlist : groups.toList with
  | nil =>
    rw [hlist] at hgroup hmem
    obtain rfl := hgroup
    have hnone : ∀ t k, (opsToWriteSet ops).get t k = none := by
      intro t k
      by_contra hne
      obtain ⟨v, hv⟩ := Option.ne_none_iff_exists'.mp hne
      obtain ⟨shard, howner⟩ := h.routed t k v hv
      exact absurd (hmem howner hv) (by simp)
    have hempty : ∀ t k, (opsToWriteSet []).get t k = none := fun t k => Tables.get_empty t k
    exact ⟨fun t k _ => (hempty t k).trans (hnone t k).symm,
      fun t k _ => ⟨hempty t k, hnone t k⟩⟩
  | cons first rest =>
    obtain rfl : rest = [] := by
      rw [hlist, List.length_cons] at hsize
      exact List.length_eq_zero_iff.mp (by omega)
    rw [hlist] at hgroup
    obtain rfl : first = group := hgroup
    have hfirst : groups.getD first.1 [] = first.2 := by
      have hget : groups[first.1]? = some first.2 := by
        rw [← Std.ExtTreeMap.mem_toList_iff_getElem?_eq_some, hlist]
        exact List.mem_singleton.mpr rfl
      rw [Std.ExtTreeMap.getD_eq_getD_getElem?, hget]
      rfl
    refine ⟨fun t k howner => ?_, fun t k hne => ⟨?_, ?_⟩⟩
    · rw [← hfirst, h.owned first.1 t k howner]
    · rw [← hfirst, h.other first.1 t k hne]
    · by_contra hwritten
      obtain ⟨v, hv⟩ := Option.ne_none_iff_exists'.mp hwritten
      obtain ⟨shard, howner⟩ := h.routed t k v hv
      have hshard := hmem howner hv
      rw [hlist, List.mem_singleton] at hshard
      obtain rfl : shard = first.1 := congrArg Prod.fst hshard
      exact hne howner

end MultiDb
