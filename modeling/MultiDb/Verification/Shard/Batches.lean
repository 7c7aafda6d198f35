import MultiDb.Verification.Shard.RoutedGroups
import MultiDb.Verification.Shard.TwoPhaseCommit

/-!
# Batches of a router

A batch of a router that runs alone commits as a whole or not at all, whichever way it is
routed.
-/

namespace MultiDb

open Shared

variable {C : Codecs} {cfg : RouterConfig} {c c' : Cluster} {map : ShardMap} {committed : WriteSet}
  {ids : List TxnId} {txnId : TxnId}
variable {decision : Decision} {ops : List Op} {groups : Std.ExtTreeMap ShardId (List Op)}

/-! ## Outcomes -/

theorem ClusterInv.decision_eq_some_iff (h : ClusterInv C cfg c) :
    c.decision C cfg txnId = some decision ↔
      Durable C (c.stores cfg.globalShard) txnId decision := by
  rw [Cluster.decision, SingleNode.loadDistTxnDecision]
  cases hget : (c.stores cfg.globalShard).get distTxnCoordinatorTable (encodeTxnId txnId) with
  | none => simp [Durable, hget]
  | some bytes =>
    obtain ⟨record, hdecode, hkey⟩ := h.decisions _ _ hget
    obtain rfl := encodeTxnId_inj.mp hkey
    simp only [hdecode, Except.mapError, Except.map, Option.some.injEq]
    constructor
    · rintro rfl
      exact ⟨bytes, record, hget, hdecode, rfl, rfl⟩
    · rintro ⟨bytes', record', hget', hdecode', -, rfl⟩
      cases hget.symm.trans hget'
      rw [Except.ok.inj (hdecode.symm.trans hdecode')]

/-- What a batch leaves is what its outcome says it committed. -/
def BatchKeeps (C : Codecs) (cfg : RouterConfig) (map : ShardMap) (committed : WriteSet)
    (ops : List Op) (before : Cluster) (succeeded : Bool) (after : Cluster) : Prop :=
  ∀ outcome, batchCommitted C cfg before after succeeded = some outcome →
    RouterInv C cfg map (if outcome then committed.extend (opsToWriteSet ops) else committed) none
      after.allocated after

theorem RouterInv.batchKeeps_same (h : RouterInv C cfg map committed none c.allocated c)
    (ops : List Op) : BatchKeeps C cfg map committed ops c false c := by
  intro outcome houtcome
  obtain rfl : false = outcome := by simpa [batchCommitted] using houtcome
  exact h

theorem RouterInv.batchKeeps_undecided {pending : Option TxnId}
    (h : RouterInv C cfg map committed pending c.allocated c') (hfresh : txnId ∉ c.allocated)
    (hallocated : c'.allocated = txnId :: c.allocated) (ops : List Op) (succeeded : Bool) :
    BatchKeeps C cfg map committed ops c succeeded c' := by
  intro outcome houtcome
  have hnone : c'.decision C cfg txnId = none := by
    by_contra hsome
    obtain ⟨decision, hdecision⟩ := Option.ne_none_iff_exists'.mp hsome
    exact hfresh (h.known _ _ (h.cluster.decision_eq_some_iff.mp hdecision))
  simp [batchCommitted, hallocated, hnone] at houtcome

theorem RouterInv.batchKeeps_decided {committed' : WriteSet}
    (h : RouterInv C cfg map committed' none (txnId :: c.allocated) c')
    (hallocated : c'.allocated = txnId :: c.allocated)
    (hdurable : Durable C (c'.stores cfg.globalShard) txnId decision)
    (hcommitted : committed' =
      if decision = .commit then committed.extend (opsToWriteSet ops) else committed)
    (succeeded : Bool) : BatchKeeps C cfg map committed ops c succeeded c' := by
  intro outcome houtcome
  have hdecision := h.cluster.decision_eq_some_iff.mpr hdurable
  simp only [batchCommitted, hallocated, List.cons_ne_self, if_false, List.head?_cons,
    Option.bind_some, hdecision, Option.map_some, Option.some.injEq] at houtcome
  subst houtcome
  rw [hallocated]
  simpa [hcommitted] using h

theorem RouterInv.start (h : RouterInv C cfg map committed none ids c) (hfresh : txnId ∉ ids) :
    RouterInv C cfg map committed (some txnId) ids c ∧ PreparedGroups C txnId [] c := by
  have hdecided := h.decided
  refine ⟨{ h with decided := fun shard record hr => Or.inr ?_ }, by simp, fun shard r hr hid => ?_⟩
  · exact (hdecided shard record hr).resolve_left (by simp)
  · obtain ⟨decision, hd⟩ := (hdecided shard r hr).resolve_left (by simp)
    exact absurd (hid ▸ h.known _ _ hd) hfresh

theorem WriteSet.extend_empty (writes : WriteSet) : writes.extend .empty = writes :=
  Tables.ext_get fun t k => by rw [get_extend, Tables.get_empty, Option.none_or]

/-! ## Distributed batches -/

/-- The decision of a prepared batch: a commit takes the whole batch, an abort nothing. -/
theorem RouterInv.decideBatch (h : RouterInv C cfg map committed (some txnId) ids c)
    (hfresh : txnId ∉ ids) (hdecides : Decides C cfg txnId decision c c')
    (hrouted : RoutedGroups C cfg map ops groups) (hpublic : PublicWrites (opsToWriteSet ops))
    (hgroups : decision = .commit → PreparedGroups C txnId groups.toList c) :
    RouterInv C cfg map
      (if decision = .commit then committed.extend (opsToWriteSet ops) else committed) none
      (txnId :: ids) c' := by
  obtain ⟨bytes, s', hupdates, hputs⟩ := hdecides.puts
  have hdurable := hdecides.durable
  simp only [hupdates.self] at hdurable
  by_cases hcommit : decision = .commit
  · rw [if_pos hcommit]
    have hgroups := hgroups hcommit
    refine h.decide hdecides.cluster hupdates hfresh hputs hdurable ?_ ?_
    · intro _ shard record hr hid t k v hrow
      have hgroup := hgroups.only shard record hr hid
      rw [Std.ExtTreeMap.mem_toList_iff_getElem?_eq_some] at hgroup
      have hops : groups.getD shard [] = record.ops := by
        rw [Std.ExtTreeMap.getD_eq_getD_getElem?, hgroup]
        rfl
      by_cases howner : map.shardFor C cfg t k = .ok shard
      · refine ⟨howner, ?_⟩
        rw [← hrouted.owned shard t k howner, hops]
        exact hrow
      · have hnone := hrouted.other shard t k howner
        rw [hops] at hnone
        exact absurd (hnone.symm.trans hrow) (by simp)
    · intro t k v hget
      obtain ⟨shard, howner⟩ := hrouted.routed t k v hget
      obtain ⟨record, hr, hid, hops⟩ := hgroups.stored _ (hrouted.mem_toList howner hget)
      refine ⟨hcommit, hpublic t k v hget, shard, record, howner, hr, hid, ?_⟩
      rw [PreparedTxnRecord.rows, hops, hrouted.owned shard t k howner, hget]
  · rw [if_neg hcommit, ← committed.extend_empty]
    refine h.decide hdecides.cluster hupdates hfresh hputs hdurable
      (fun h => absurd h hcommit) fun t k v hget => ?_
    rw [Tables.get_empty] at hget
    contradiction

/-- A distributed batch is either committed as a whole or leaves no row behind. -/
theorem ends_proposeDistributedBatch
    (h : RouterInv C cfg map committed none c.allocated c)
    (hrouted : RoutedGroups C cfg map ops groups) (hpublic : PublicWrites (opsToWriteSet ops))
    (decidedAtMs : UInt64) :
    Ends C (fun _ c' => BatchKeeps C cfg map committed ops c true c')
      (fun c' => BatchKeeps C cfg map committed ops c false c')
      (proposeDistributedBatch C cfg decidedAtMs groups.toList) c := by
  refine .bind _ ((ends_allocateDistTxnId h 64).mono (fun _ _ hpost => hpost) fun c' hc' => ?_) ?_
  · rw [hc']
    exact h.batchKeeps_same ops
  rintro txnId c₁ ⟨h₁, hallocated⟩
  have hfresh : txnId ∉ c.allocated := by
    have hnodup := h₁.cluster.nodup
    rw [hallocated] at hnodup
    exact (List.nodup_cons.mp hnodup).1
  obtain ⟨hstart, hnone⟩ := h₁.start hfresh
  refine .bind _ ((ends_prepareGroups hstart hfresh hnone hallocated).mono
    (fun _ _ hpost => hpost) fun c' hc' => ?_) ?_
  · exact hc'.1.batchKeeps_undecided hfresh hc'.2 ops false
  rintro prepareError c₂ ⟨h₂, hallocated₂, hgroups⟩
  refine .bind _ ((ends_recordDistTxnDecision h₂ hfresh decidedAtMs _).mono
    (fun _ _ hpost => hpost) fun c' hc' => ?_) ?_
  · rw [hc']
    exact h₂.batchKeeps_undecided hfresh hallocated₂ ops false
  rintro _ c₃ hdecides
  have h₃ := h₂.decideBatch hfresh hdecides hrouted hpublic (by
    intro hcommit
    refine hgroups ?_
    cases prepareError with
    | none => rfl
    | some e => simp at hcommit)
  have hdurable := (hdecides.durable txnId _).mpr (Or.inr ⟨rfl, rfl⟩)
  refine .bind _ ((ends_finishGroups _ h₃ (hdecides.allocated.trans hallocated₂) hdurable).mono
    (fun _ _ hpost => hpost) fun c' hc' => ?_) ?_
  · exact hc'.1.batchKeeps_decided hc'.2.1 hc'.2.2 rfl false
  rintro finishError c₄ ⟨h₄, hallocated₄, hdurable₄⟩
  split
  · exact h₄.batchKeeps_decided hallocated₄ hdurable₄ rfl false
  · exact h₄.batchKeeps_decided hallocated₄ hdurable₄ rfl true

/-! ## Batches of one shard -/

theorem ends_proposeOnShard {group : List Op} {shard : ShardId}
    (h : RouterInv C cfg map committed none c.allocated c)
    (howned : ∀ t k, map.shardFor C cfg t k = .ok shard →
      (opsToWriteSet group).get t k = (opsToWriteSet ops).get t k)
    (hother : ∀ t k, map.shardFor C cfg t k ≠ .ok shard →
      (opsToWriteSet group).get t k = none ∧ (opsToWriteSet ops).get t k = none) :
    Ends C (fun _ c' => BatchKeeps C cfg map committed ops c true c')
      (fun c' => BatchKeeps C cfg map committed ops c false c')
      (Router.ask shard (.proposeBatch group)) c := by
  refine ends_ask (fun _ _ _ => rfl) (fun env u c' hexec => ?_) fun env e c' hexec => ?_
  · obtain ⟨hcluster, hallocated, s', hresult, hupdates⟩ :=
      h.cluster.exec_spec (.proposeBatch group) trivial hexec
    have hallocated : c'.allocated = c.allocated := hallocated
    have hwrites := (proposeBatch_commits (written_map_ok hresult)).writesRows
    intro outcome houtcome
    obtain rfl : true = outcome := by simpa [batchCommitted, hallocated] using houtcome
    rw [hallocated, if_pos rfl]
    refine h.write hcluster hupdates hwrites (fun t k v hget => ?_) (fun t k howner => ?_)
      fun t k hne => ?_
    · by_contra hnone
      rw [(hother t k fun howner => hnone ⟨shard, howner⟩).1] at hget
      contradiction
    · rw [get_extend, howned t k howner]
    · rw [get_extend, (hother t k hne).2, Option.none_or]
  · obtain rfl := Cluster.exec_error hexec
    exact h.batchKeeps_same ops

/-- A batch that succeeds is committed, on one shard or on several. -/
theorem ends_proposeBatch (h : RouterInv C cfg map committed none c.allocated c)
    (decidedAtMs : UInt64) (ops : List Op) :
    Ends C (fun _ c' => BatchKeeps C cfg map committed ops c true c')
      (fun c' => BatchKeeps C cfg map committed ops c false c')
      (proposeBatch C cfg map decidedAtMs ops) c := by
  rw [proposeBatch]
  split
  · rename_i hempty
    obtain rfl := List.isEmpty_iff.mp hempty
    intro outcome houtcome
    obtain rfl : true = outcome := by simpa [batchCommitted] using houtcome
    rw [if_pos rfl]
    exact committed.extend_empty.symm ▸ h
  · refine .bind (fun _ c' => c' = c ∧ PublicWrites (opsToWriteSet ops))
      (always_compute (fun _ hvalid => ⟨rfl, ?_⟩) (h.batchKeeps_same ops)) ?_
    · exact publicWrites_opsToWriteSet
        (validatePublicOps_eq_ok_iff.mp (mapError_eq_ok_iff.mp hvalid))
    rintro _ c₁ ⟨rfl, hpublic⟩
    refine .bind (fun groups c' => c' = c₁ ∧ RoutedGroups C cfg map ops groups)
      (always_compute (fun _ hgroups => ⟨rfl, routedGroups_of_routePublicOps hgroups⟩)
        (h.batchKeeps_same ops)) ?_
    rintro groups c₁ ⟨rfl, hrouted⟩
    by_cases hsize : groups.size > 1
    · rw [if_pos hsize]
      exact ends_proposeDistributedBatch h hrouted hpublic decidedAtMs
    · rw [if_neg hsize]
      obtain ⟨howned, hother⟩ := hrouted.single (Nat.not_lt.mp hsize) rfl
      refine .bind (fun shard c' => c' = c₁ ∧
          shard = (groups.toList.head?.getD (cfg.globalShard, [])).1)
        (always_compute (fun _ hs => ⟨rfl, (RouterConfig.shard_eq_ok_iff.mp hs).2⟩)
          (h.batchKeeps_same ops)) ?_
      rintro shard c₁ ⟨rfl, rfl⟩
      exact ends_proposeOnShard h howned hother

end MultiDb
