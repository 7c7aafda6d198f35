import MultiDb.Verification.Shard.Atomicity
import MultiDb.Verification.Shard.RouterInvariant

/-!
# The calls of a router that runs alone

What a call leaves in the cluster, and the allocation of transaction ids.
-/

namespace MultiDb

open Shared

variable {C : Codecs} {cfg : RouterConfig} {c c' : Cluster} {α : Type}
variable {request : Request} {e : ReplError} {s s' : Store}

theorem RouterConfig.shard_eq_ok_iff {shard shard' : ShardId} :
    cfg.shard shard = .ok shard' ↔ shard ∈ cfg.shards ∧ shard' = shard := by
  rw [RouterConfig.shard]
  split
  · rename_i hmem
    simp [hmem, eq_comm]
  · rename_i hmem
    simp [hmem]

/-! ## Calls of a router that runs alone -/

/-- Every run of a router program from `c` ends as stated. -/
abbrev Ends (C : Codecs) (ok : α → Cluster → Prop) (error : Cluster → Prop)
    (program : Router α) (c : Cluster) : Prop :=
  program.Always (serveCall C) ok error c

section Calls

variable {shard : ShardId} {error : Cluster → Prop}

theorem always_compute {ι : Type} {serve : ι → Cluster → (call : Call) → call.Reply × Cluster}
    {ok : α → Cluster → Prop} {result : ReplResult α} (hok : ∀ a, result = .ok a → ok a c)
    (herror : error c) : Prog.Always serve ok error (Router.compute result) c := by
  cases result with
  | ok a => exact hok a rfl
  | error e => exact herror

/-- No fault touches this request. -/
def Faultless (C : Codecs) (request : Request) : Prop :=
  ∀ input c shard, serveCall C input c ⟨shard, request⟩ = c.exec C input.env ⟨shard, request⟩

theorem ends_ask (hfaultless : Faultless C request)
    {ok : request.Answer → Cluster → Prop}
    (hok : ∀ env answer c', c.exec C env ⟨shard, request⟩ = (.ok answer, c') → ok answer c')
    (herror : ∀ env e c', c.exec C env ⟨shard, request⟩ = (.error e, c') → error c') :
    Ends C ok error (Router.ask shard request) c := by
  intro input
  rw [hfaultless]
  cases hserve : c.exec C input.env ⟨shard, request⟩ with
  | mk reply c' =>
    cases reply with
    | ok answer => exact hok input.env answer c' hserve
    | error e => exact herror input.env e c' hserve

theorem ends_tell (hfaultless : Faultless C request)
    {ok : ReplResult request.Answer → Cluster → Prop}
    (hok : ∀ env reply c', c.exec C env ⟨shard, request⟩ = (reply, c') → ok reply c') :
    Ends C ok error (Router.tell shard request) c := by
  intro input
  rw [hfaultless]
  exact hok input.env _ _ rfl

theorem ends_readOnly (request : Request) (answer : ReplResult request.Answer)
    {ok : request.Answer → Cluster → Prop} (hok : ∀ a, answer = .ok a → ok a c)
    (herror : ∀ e, answer = .error e → error c) (hfaultless : Faultless C request)
    (hexec : ∀ env, request.exec C env (c.stores shard) = (answer, c.stores shard))
    (hallocates : request.allocates answer = [])
    (happlies : request.applies (c.stores shard) answer = none) :
    Ends C ok error (Router.ask shard request) c := by
  refine ends_ask hfaultless (fun env a c' h => ?_) fun env e c' h => ?_
  all_goals
    rw [Cluster.exec_same (hexec env) hallocates happlies] at h
    cases h
  · exact hok a rfl
  · exact herror e rfl

theorem ends_answered (request : Request) {answer : request.Answer}
    {ok : request.Answer → Cluster → Prop} (hfaultless : Faultless C request)
    (hexec : ∀ env, request.exec C env (c.stores shard) = (.ok answer, c.stores shard))
    (hallocates : request.allocates (.ok answer) = [])
    (happlies : request.applies (c.stores shard) (.ok answer) = none) (hok : ok answer c) :
    Ends C ok error (Router.ask shard request) c :=
  ends_readOnly request (.ok answer) (fun _ h => Except.ok.inj h ▸ hok) (fun _ h => by cases h)
    hfaultless hexec hallocates happlies

theorem ends_read {t : String} {k : Bytes} {ok : Option Bytes → Cluster → Prop}
    (hok : ∀ v, SingleNode.read (c.stores shard) t k = .ok v → ok v c) (herror : error c) :
    Ends C ok error (Router.ask shard (.read t k)) c :=
  ends_readOnly (.read t k) (SingleNode.read (c.stores shard) t k) hok (fun _ _ => herror)
    (fun _ _ _ => rfl) (fun _ => rfl) rfl rfl

theorem ends_range {t : String} {start stop : Bytes} {ok : List (Bytes × Bytes) → Cluster → Prop}
    (hok : ∀ rows, SingleNode.range (c.stores shard) t start stop = .ok rows → ok rows c)
    (herror : error c) : Ends C ok error (Router.ask shard (.range t start stop)) c :=
  ends_readOnly (.range t start stop) (SingleNode.range (c.stores shard) t start stop) hok
    (fun _ _ => herror) (fun _ _ _ => rfl) (fun _ => rfl) rfl rfl

theorem ClusterInv.exec_spec (h : ClusterInv C cfg c) (request : Request) {env : Env}
    {reply : ReplResult request.Answer}
    (hmay : Permitted C cfg (durableDecisions C cfg c) ⟨shard, request⟩)
    (hexec : Cluster.exec C env c ⟨shard, request⟩ = (reply, c')) :
    ClusterInv C cfg c' ∧ c'.allocated = request.allocates reply ++ c.allocated ∧
      ∃ s', request.exec C env (c.stores shard) = (reply, s') ∧ Updates c shard s' c' := by
  have hinv := (h.callSound env hmay).inv
  rw [hexec] at hinv
  refine ⟨hinv, ?_, ?_⟩
  all_goals
    simp only [Cluster.exec] at hexec
    cases hexec
  · rfl
  · exact ⟨_, rfl, Function.update_self .., fun other hne => Function.update_of_ne hne ..⟩

private theorem written_error {β : Type}
    {result : ReplResult (β × Store)} (h : written s result = (.error e, s')) : s' = s := by
  cases result with
  | ok answer => exact absurd (Prod.mk.inj h).1 (by simp)
  | error e' => exact (Prod.mk.inj h).2.symm

theorem written_ok {β : Type} {result : ReplResult (β × Store)} {answer : β}
    (h : written s result = (.ok answer, s')) : result = .ok (answer, s') := by
  cases result with
  | ok pair =>
    obtain ⟨hanswer, rfl⟩ := Prod.mk.inj h
    cases hanswer
    rfl
  | error e => exact absurd (Prod.mk.inj h).1 (by simp)

theorem written_map_ok {result : ReplResult Store} {u : Unit}
    (h : written s (result.map ((), ·)) = (.ok u, s')) : result = .ok s' := by
  obtain ⟨s₁, hs₁, heq⟩ := map_eq_ok_iff.mp (written_ok h)
  rw [hs₁, (Prod.mk.inj heq).2]

theorem Cluster.exec_error {env : Env}
    (h : Cluster.exec C env c ⟨shard, request⟩ = (.error e, c')) : c' = c := by
  have hexec : request.exec C env (c.stores shard) = (.error e, c.stores shard) := by
    have hreply := congrArg Prod.fst h
    simp only [Cluster.exec] at hreply
    refine Prod.ext hreply ?_
    have hresult : request.exec C env (c.stores shard) =
        (.error e, (request.exec C env (c.stores shard)).2) := Prod.ext hreply rfl
    cases request with
    | read | range | localPreparedDistTxns | loadDistTxnDecision | registeredKeyspaces => rfl
    | _ => exact written_error hresult
  have hkept : Cluster.exec C env c ⟨shard, request⟩ = (.error e, c) := by
    refine Cluster.exec_same hexec ?_ ?_
    · cases request <;> rfl
    · cases request with
      | finishDistTxn txnId decision => cases decision <;> rfl
      | _ => rfl
  exact (Prod.mk.inj (h.symm.trans hkept)).2

end Calls

/-! ## Allocation -/

section Allocation

variable {map : ShardMap} {committed : WriteSet} {pending : Option TxnId} {ids : List TxnId}

theorem RouterInv.puts {shard : ShardId} {table : String} {key value : Bytes}
    (h : RouterInv C cfg map committed pending ids c) (hcluster : ClusterInv C cfg c')
    (hupdates : Updates c shard s' c') (htable : table ∈ routerTables)
    (hne : distTxnCoordinatorTable ≠ table)
    (hputs : PutsRow C (c.stores shard) table key value s') :
    RouterInv C cfg map committed pending ids c' :=
  h.quiet hcluster hupdates hputs.plain.commits (fun _ _ ht => hputs.get_public htable ht)
    (fun _ => hputs.plain.prepared_iff) fun _ => hputs.coordinator (by decide) fun ht =>
      absurd ht hne

theorem ends_coordinatorDecisions (h : ClusterInv C cfg c) :
    Ends C (fun records c' => c' = c ∧
        (∀ record ∈ records, Durable C (c.stores cfg.globalShard) record.txnId record.decision) ∧
        ∀ txnId decision, Durable C (c.stores cfg.globalShard) txnId decision →
          ∃ record ∈ records, record.txnId = txnId)
      (fun c' => c' = c) (coordinatorDecisions C cfg) c := by
  refine .bind (fun rows c' => c' = c ∧
    SingleNode.range (c.stores cfg.globalShard) distTxnCoordinatorTable [] [] = .ok rows)
    (ends_range (fun rows hrows => ⟨rfl, hrows⟩) rfl) ?_
  rintro rows c' ⟨rfl, hrows⟩
  simp only [SingleNode.range, bind_eq_ok_iff, pure_eq_ok_iff] at hrows
  obtain ⟨_, -, rfl⟩ := hrows
  refine always_compute (fun records hrecords => ⟨rfl, ?_, ?_⟩) rfl
  · intro record hmem
    obtain ⟨⟨key, bytes⟩, hrow, hdecode⟩ :=
      (mem_of_mapM_eq_ok (mapError_eq_ok_iff.mp hrecords)).mp hmem
    exact (h.durable_of_get (mem_range.mp hrow).1 hdecode).2
  · rintro txnId decision ⟨bytes, record, hget, hdecode, hid, -⟩
    refine ⟨record, (mem_of_mapM_eq_ok (mapError_eq_ok_iff.mp hrecords)).mpr ?_, hid⟩
    exact ⟨(encodeTxnId txnId, bytes), mem_range.mpr ⟨hget, keyInRange_nil_nil _⟩, hdecode⟩

theorem ends_bootstrapMaximum (h : ClusterInv C cfg c) :
    Ends C (fun _ c' => c' = c) (fun c' => c' = c) (bootstrapMaximum C cfg) c := by
  refine .bind (fun _ c' => c' = c)
    ((ends_coordinatorDecisions h).mono (fun _ _ hpost => hpost.1) fun _ he => he) ?_
  rintro records c' rfl
  refine .foldlM (fun _ _ c'' => c'' = c') rfl fun shard shards maximum c'' hc'' => ?_
  refine .foldlM (fun _ _ c'' => c'' = c') hc'' fun table tables maximum c'' hc'' => ?_
  refine .bind (fun _ c'' => c'' = c') (ends_range (fun _ _ => hc'') hc'') fun rows c'' hc'' => ?_
  refine .foldlM (fun _ _ c'' => c'' = c') hc'' fun row rows maximum c'' hc'' => ?_
  exact .bind (fun _ c'' => c'' = c') (always_compute (fun _ _ => hc'') hc'') fun _ _ hc'' => hc''

theorem ends_lastAllocated (h : ClusterInv C cfg c) (previous : Option Bytes) :
    Ends C (fun last c' => c' = c ∧
        ∀ bytes, previous = some bytes → decodeTxnId bytes = .ok last)
      (fun c' => c' = c) (lastAllocated C cfg previous) c := by
  cases previous with
  | some bytes =>
    refine always_compute (fun last hlast => ⟨rfl, ?_⟩) rfl
    rintro bytes' h
    cases h
    exact mapError_eq_ok_iff.mp hlast
  | none =>
    exact (ends_bootstrapMaximum h).mono (fun last c' hc' => ⟨hc', fun _ hb => absurd hb (by simp)⟩)
      fun _ he => he

/-- An allocated id is new; a failed allocation changes nothing. -/
theorem ends_allocateDistTxnId (h : RouterInv C cfg map committed pending ids c) (attempts : ℕ) :
    Ends C (fun txnId c' => RouterInv C cfg map committed pending ids c' ∧
        c'.allocated = txnId :: c.allocated)
      (fun c' => c' = c) (allocateDistTxnId C cfg attempts) c := by
  induction attempts with
  | zero => exact rfl
  | succ attempts ih =>
    refine .bind (fun _ c' => c' = c) (ends_read (fun _ _ => rfl) rfl) ?_
    rintro previous c' rfl
    refine .bind _ (ends_lastAllocated h.cluster previous) ?_
    rintro last c'' ⟨rfl, hlast⟩
    split
    · exact rfl
    · rename_i next hnext
      have hbatch : IsAllocation (allocationBatch previous next) := by
        refine ⟨previous, next, rfl, fun bytes hbytes => ⟨last, hlast bytes hbytes, ?_⟩⟩
        exact checkedSucc_eq_some_iff.mp hnext
      refine .bind (fun reply c' => (∀ u, reply = .ok u →
          RouterInv C cfg map committed pending ids c' ∧ c'.allocated = next :: c''.allocated) ∧
          ∀ e, reply = .error e → c' = c'') (ends_tell (fun _ _ _ => rfl) ?_) ?_
      · intro env reply c' hserve
        refine ⟨?_, ?_⟩
        · rintro u rfl
          obtain ⟨hcluster, hallocated, s', hexec, hupdates⟩ := h.cluster.exec_spec
            (.proposeAuthorizedConditionalBatch (allocationBatch previous next))
            ⟨rfl, Or.inr hbatch⟩ hserve
          obtain ⟨-, hputs⟩ := putsRow_of_batch (by decide) (written_map_ok hexec)
          refine ⟨h.puts hcluster hupdates (by decide) (by decide) hputs, ?_⟩
          rw [hallocated]
          simp [Request.allocates, allocationBatch, Op.sequenceId, encodeTxnId]
        · rintro e rfl
          exact Cluster.exec_error hserve
      · rintro reply c' ⟨hok, herror⟩
        split
        · exact hok _ rfl
        · obtain rfl := herror _ rfl
          exact ih
        · obtain rfl := herror _ rfl
          exact ih
        · exact herror _ rfl

end Allocation

end MultiDb
