import MultiDb.Verification.Shard.TwoPhaseCommit

/-!
# Recoveries of a router

A recovery finishes the decided transactions.  It keeps the agreement of the cluster with
the committed writes, and one that succeeds leaves nothing in doubt.
-/

namespace MultiDb

open Shared

variable {C : Codecs} {cfg : RouterConfig} {c : Cluster} {map : ShardMap} {committed : WriteSet}
  {ids : List TxnId}

/-! ## The prepared records of a shard -/

theorem ends_askFinish {shard : ShardId} {txnId : TxnId} {decision : Decision}
    (h : RouterInv C cfg map committed none ids c)
    (hdurable : Durable C (c.stores cfg.globalShard) txnId decision) :
    Ends C (fun _ c' => FinishServed C cfg map committed ids shard txnId c (.ok ()) c')
      (fun c' => ∃ e, FinishServed C cfg map committed ids shard txnId c (.error e) c')
      (Router.ask shard (.finishDistTxn txnId decision)) c := by
  intro input
  have hserved := h.serveFinish shard hdurable input
  generalize serveCall C input c ⟨shard, .finishDistTxn txnId decision⟩ = result at hserved ⊢
  obtain ⟨reply, c'⟩ := result
  cases reply with
  | ok u => exact hserved
  | error e => exact ⟨e, hserved⟩

/-- No transaction is in doubt on a shard of the router. -/
def Resolved (C : Codecs) (cfg : RouterConfig) (c : Cluster) : Prop :=
  ∀ shard ∈ cfg.shards, ∀ record, ¬ Prepared C (c.stores shard) record

theorem ends_recoverShard {allocated : List TxnId} (shard : ShardId)
    (h : RouterInv C cfg map committed none ids c) (hallocated : c.allocated = allocated)
    (hresolved : Resolved C cfg c) :
    Ends C (fun _ c' => RouterInv C cfg map committed none ids c' ∧ c'.allocated = allocated ∧
        Resolved C cfg c')
      (fun c' => RouterInv C cfg map committed none ids c' ∧ c'.allocated = allocated)
      (recoverShard shard) c := by
  refine .bind (fun _ c' => c' = c) (ends_readOnly .localPreparedDistTxns
    (SingleNode.localPreparedDistTxns C (c.stores shard)) (fun _ _ => rfl)
    (fun _ _ => ⟨h, hallocated⟩) (fun _ _ _ => rfl) (fun _ => rfl) (by rfl) rfl) ?_
  rintro records c₁ rfl
  refine .forM (fun _ c' => RouterInv C cfg map committed none ids c' ∧
    c'.allocated = allocated ∧ Resolved C cfg c') ⟨h, hallocated, hresolved⟩ ?_
  rintro record records c₂ ⟨h₂, hallocated₂, hresolved₂⟩
  refine .bind (fun decision c' => c' = c₂ ∧ ∀ d, decision = some d →
      Durable C (c₂.stores cfg.globalShard) record.txnId d)
    (ends_readOnly (.loadDistTxnDecision record.txnId)
      (SingleNode.loadDistTxnDecision C (c₂.stores shard) record.txnId)
      (fun decision hload => ⟨rfl, fun d hd => ?_⟩) (fun _ _ => ⟨h₂, hallocated₂⟩)
      (fun _ _ _ => rfl) (fun _ => rfl) rfl rfl) ?_
  · exact h₂.cluster.durable_of_load (hd ▸ hload)
  rintro decision c₃ ⟨rfl, hdurable⟩
  cases decision with
  | none => exact ⟨h₂, hallocated₂, hresolved₂⟩
  | some d =>
    refine (ends_askFinish h₂ (hdurable d rfl)).mono (fun _ c' hserved => ?_) ?_
    · refine ⟨hserved.inv, hserved.allocated.trans hallocated₂, fun other hother r hr => ?_⟩
      exact hresolved₂ other hother r (hserved.prepared other r hr)
    · rintro c' ⟨e, hserved⟩
      exact ⟨hserved.inv, hserved.allocated.trans hallocated₂⟩

/-! ## The recorded decisions -/

/-- The first pass: every prepared record has one of the decisions that are left. -/
structure Resolving (C : Codecs) (cfg : RouterConfig) (map : ShardMap) (committed : WriteSet)
    (ids allocated : List TxnId) (left : ShardId → TxnId → Prop) (c : Cluster) : Prop where
  inv : RouterInv C cfg map committed none ids c
  allocated : c.allocated = allocated
  left : ∀ shard ∈ cfg.shards, ∀ record, Prepared C (c.stores shard) record →
    left shard record.txnId

/-- Recovering one decision finishes its transaction on every shard. -/
theorem ends_recoverDecision {allocated : List TxnId} {left : ShardId → TxnId → Prop}
    {txnId : TxnId} {decision : Decision}
    (h : Resolving C cfg map committed ids allocated (fun shard id => left shard id ∨ id = txnId) c)
    (hdurable : Durable C (c.stores cfg.globalShard) txnId decision) :
    Ends C (fun _ c' => Resolving C cfg map committed ids allocated left c' ∧
        ∀ id d, Durable C (c'.stores cfg.globalShard) id d ↔
          Durable C (c.stores cfg.globalShard) id d)
      (fun c' => RouterInv C cfg map committed none ids c' ∧ c'.allocated = allocated)
      (cfg.shards.forM fun shard => Router.ask shard (.finishDistTxn txnId decision)) c := by
  refine Prog.Always.mono (.forM (fun shards c' => Resolving C cfg map committed ids allocated
        (fun shard id => left shard id ∨ id = txnId ∧ shard ∈ shards) c' ∧
      ∀ id d, Durable C (c'.stores cfg.globalShard) id d ↔
        Durable C (c.stores cfg.globalShard) id d) ?_ ?_) ?_ fun _ he => he
  · refine ⟨⟨h.inv, h.allocated, fun shard hshard r hr => ?_⟩, fun _ _ => Iff.rfl⟩
    exact (h.left shard hshard r hr).imp_right fun hid => ⟨hid, hshard⟩
  · rintro shard shards c₁ ⟨h₁, hdurable₁⟩
    refine (ends_askFinish h₁.inv ((hdurable₁ _ _).mpr hdurable)).mono (fun _ c' hserved => ?_) ?_
    · refine ⟨⟨hserved.inv, hserved.allocated.trans h₁.allocated, fun other hother r hr => ?_⟩,
        fun id d => (hserved.durable id d).trans (hdurable₁ id d)⟩
      rcases h₁.left other hother r (hserved.prepared other r hr) with hleft | ⟨hid, hmem⟩
      · exact Or.inl hleft
      · rcases List.mem_cons.mp hmem with rfl | hmem
        · exact absurd hid (hserved.finished rfl r hr)
        · exact Or.inr ⟨hid, hmem⟩
    · rintro c' ⟨e, hserved⟩
      exact ⟨hserved.inv, hserved.allocated.trans h₁.allocated⟩
  · rintro _ c' ⟨h', hdurable'⟩
    refine ⟨⟨h'.inv, h'.allocated, fun shard hshard r hr => ?_⟩, hdurable'⟩
    simpa using h'.left shard hshard r hr

/-- A recovery keeps the committed writes; one that succeeds leaves nothing in doubt. -/
theorem ends_recoverDistTxns (h : RouterInv C cfg map committed none c.allocated c) :
    Ends C (fun _ c' => RouterInv C cfg map committed none c.allocated c' ∧
        c'.allocated = c.allocated ∧ Resolved C cfg c')
      (fun c' => RouterInv C cfg map committed none c.allocated c' ∧ c'.allocated = c.allocated)
      (recoverDistTxns C cfg) c := by
  refine .bind _ ((ends_coordinatorDecisions h.cluster).mono (fun _ _ hpost => hpost)
    fun c' hc' => ?_) ?_
  · rw [hc']
    exact ⟨h, rfl⟩
  rintro decisions c₁ ⟨rfl, hdurable, hall⟩
  refine .bind (fun _ c' => RouterInv C cfg map committed none c₁.allocated c' ∧
    c'.allocated = c₁.allocated ∧ Resolved C cfg c') ?_ ?_
  · refine Prog.Always.mono (.forM (fun records c' => Resolving C cfg map committed c₁.allocated
        c₁.allocated (fun _ id => ∃ record ∈ records, record.txnId = id) c' ∧
        ∀ record ∈ records, Durable C (c'.stores cfg.globalShard) record.txnId record.decision)
      ⟨⟨h, rfl, fun shard _ r hr => ?_⟩, hdurable⟩ ?_) ?_ fun _ he => he
    · obtain ⟨d, hd⟩ := (h.decided shard r hr).resolve_left (by simp)
      exact hall _ d hd
    · rintro record records c₂ ⟨h₂, hdurable₂⟩
      have hleft : Resolving C cfg map committed c₁.allocated c₁.allocated
          (fun _ id => (∃ record ∈ records, record.txnId = id) ∨ id = record.txnId) c₂ := by
        refine ⟨h₂.inv, h₂.allocated, fun shard hshard r hr => ?_⟩
        obtain ⟨record', hmem, hid⟩ := h₂.left shard hshard r hr
        rcases List.mem_cons.mp hmem with rfl | hmem
        · exact Or.inr hid.symm
        · exact Or.inl ⟨record', hmem, hid⟩
      refine (ends_recoverDecision hleft (hdurable₂ record List.mem_cons_self)).mono ?_
        fun _ he => he
      rintro _ c₃ ⟨h₃, hsame⟩
      exact ⟨h₃, fun r hr => (hsame _ _).mpr (hdurable₂ r (List.mem_cons_of_mem _ hr))⟩
    · rintro _ c' ⟨h', -⟩
      refine ⟨h'.inv, h'.allocated, fun shard hshard r hr => ?_⟩
      simpa using h'.left shard hshard r hr
  · rintro _ c₂ hc₂
    refine Prog.Always.mono (.forM (fun _ c' => RouterInv C cfg map committed none c₁.allocated c' ∧
      c'.allocated = c₁.allocated ∧ Resolved C cfg c') hc₂ ?_) (fun _ _ hpost => hpost)
      fun _ he => he
    rintro shard shards c₃ ⟨h₃, hallocated₃, hresolved₃⟩
    exact ends_recoverShard shard h₃ hallocated₃ hresolved₃

end MultiDb
