import MultiDb.Verification.Shard.RouterCalls

/-!
# The two phases of a distributed transaction

The router prepares the groups, records its decision and finishes the groups.  Each phase
keeps the agreement of the cluster with the committed writes.
-/

namespace MultiDb

open Shared

variable {C : Codecs} {cfg : RouterConfig} {c c' : Cluster} {map : ShardMap} {committed : WriteSet}
  {ids : List TxnId} {txnId : TxnId}
variable {shard : ShardId} {env : Env} {groups : List (ShardId × List Op)} {allocated : List TxnId}
  {decision : Decision}

/-! ## The first phase -/

/-- The shards of the groups hold their prepared records, and no other shard holds one. -/
structure PreparedGroups (C : Codecs) (txnId : TxnId) (groups : List (ShardId × List Op))
    (c : Cluster) : Prop where
  stored : ∀ group ∈ groups, ∃ record, Prepared C (c.stores group.1) record ∧
    record.txnId = txnId ∧ record.ops = group.2
  only : ∀ shard record, Prepared C (c.stores shard) record → record.txnId = txnId →
    (shard, record.ops) ∈ groups

/-- A yes vote leaves the group prepared on its shard. -/
theorem RouterInv.vote {ops : List Op} {vote : Vote} (h : RouterInv C cfg map committed (some txnId) ids c)
    (hfresh : txnId ∉ ids) (hgroups : PreparedGroups C txnId groups c)
    (hexec : c.exec C env ⟨shard, .prepareDistTxn txnId ops⟩ = (.ok vote, c')) :
    RouterInv C cfg map committed (some txnId) ids c' ∧ c'.allocated = c.allocated ∧
      (vote = .yes → PreparedGroups C txnId (groups ++ [(shard, ops)]) c') := by
  obtain ⟨hcluster, hallocated, s', hresult, hupdates⟩ :=
    h.cluster.exec_spec (.prepareDistTxn txnId ops) trivial hexec
  rcases prepareDistTxn_cases (written_ok hresult) with ⟨rfl, hvote⟩ | ⟨record, rfl, rfl, hstep⟩
  · obtain rfl : c' = c := by
      have hsame : c.exec C env ⟨shard, .prepareDistTxn txnId ops⟩ = (.ok vote, c) :=
        Cluster.exec_same hresult rfl rfl
      exact (Prod.mk.inj (hexec.symm.trans hsame)).2
    refine ⟨h, rfl, fun hyes => ?_⟩
    obtain ⟨bytes, record, hget, hdecode, hops⟩ := hvote hyes
    obtain ⟨record', hdecode', hkey⟩ := (h.cluster.locks shard).participant _ _ hget
    cases hdecode.symm.trans hdecode'
    obtain rfl := encodeTxnId_inj.mp hkey
    refine ⟨fun group hgroup => ?_, fun other r hr hid => ?_⟩
    · rcases List.mem_append.mp hgroup with hgroup | hgroup
      · exact hgroups.stored group hgroup
      · obtain rfl := List.mem_singleton.mp hgroup
        exact ⟨record, ⟨bytes, hget, hdecode⟩, rfl, hops⟩
    · exact List.mem_append_left _ (hgroups.only other r hr hid)
  · have hstore := hstep.preparedStore
    refine ⟨h.prepare hcluster hupdates rfl hfresh hstep, hallocated, fun _ => ?_⟩
    refine ⟨fun group hgroup => ?_, ?_⟩
    · rcases List.mem_append.mp hgroup with hgroup | hgroup
      · obtain ⟨r, hr, hrest⟩ := hgroups.stored group hgroup
        have hkept := hupdates.forall (P := fun other s => ∀ r, Prepared C (c.stores other) r →
          Prepared C s r) (fun _ hr => hstore.prepared_iff.mpr (Or.inl hr)) fun _ _ _ hr => hr
        exact ⟨r, hkept _ r hr, hrest⟩
      · obtain rfl := List.mem_singleton.mp hgroup
        exact ⟨record, hupdates.self ▸ hstore.stored, rfl, rfl⟩
    · refine hupdates.forall (P := fun other s => ∀ r, Prepared C s r → r.txnId = record.txnId →
        (other, r.ops) ∈ groups ++ [(shard, record.ops)]) (fun r hr hid => ?_)
        fun other _ r hr hid => List.mem_append_left _ (hgroups.only other r hr hid)
      rcases hstore.prepared_iff.mp hr with hr | rfl
      · exact List.mem_append_left _ (hgroups.only shard r hr hid)
      · exact List.mem_append_right _ (List.mem_singleton.mpr rfl)

theorem ends_prepareGroups {done : List (ShardId × List Op)}
    (h : RouterInv C cfg map committed (some txnId) ids c) (hfresh : txnId ∉ ids)
    (hgroups : PreparedGroups C txnId done c)
    (hallocated : c.allocated = allocated) :
    Ends C (fun prepareError c' => RouterInv C cfg map committed (some txnId) ids c' ∧
        c'.allocated = allocated ∧
          (prepareError = none → PreparedGroups C txnId (done ++ groups) c'))
      (fun c' => RouterInv C cfg map committed (some txnId) ids c' ∧ c'.allocated = allocated)
      (prepareGroups cfg txnId groups) c := by
  induction groups generalizing c done with
  | nil => exact ⟨h, hallocated, fun _ => by simpa using hgroups⟩
  | cons group groups ih =>
    obtain ⟨shard, ops⟩ := group
    refine .bind (fun shard' c' => shard' = shard ∧ c' = c)
      (always_compute (fun _ hs => ⟨(RouterConfig.shard_eq_ok_iff.mp hs).2, rfl⟩)
        ⟨h, hallocated⟩) ?_
    rintro shard' c₁ ⟨rfl, rfl⟩
    refine .bind (fun reply c' => RouterInv C cfg map committed (some txnId) ids c' ∧
        c'.allocated = allocated ∧
        (reply = .ok .yes → PreparedGroups C txnId (done ++ [(shard', ops)]) c'))
      (ends_tell (fun _ _ _ => rfl) ?_) ?_
    · intro env reply c' hexec
      cases reply with
      | error e =>
        obtain rfl := Cluster.exec_error hexec
        exact ⟨h, hallocated, fun hyes => by contradiction⟩
      | ok vote =>
        obtain ⟨hinv, hsame, hyes⟩ := h.vote hfresh hgroups hexec
        exact ⟨hinv, hsame.trans hallocated, fun heq => hyes (Except.ok.inj heq)⟩
    · rintro reply c' ⟨hinv, hsame, hyes⟩
      split
      · simpa using ih hinv (hyes rfl) hsame
      · exact ⟨hinv, hsame, fun hnone => by contradiction⟩
      · exact ⟨hinv, hsame, fun hnone => by contradiction⟩

/-! ## The decision -/

/-- The coordinator has recorded the decision and nothing else. -/
structure Decides (C : Codecs) (cfg : RouterConfig) (txnId : TxnId) (decision : Decision)
    (c c' : Cluster) : Prop where
  cluster : ClusterInv C cfg c'
  allocated : c'.allocated = c.allocated
  puts : ∃ bytes s', Updates c cfg.globalShard s' c' ∧
    PutsRow C (c.stores cfg.globalShard) distTxnCoordinatorTable (encodeTxnId txnId) bytes s'
  durable : ∀ id d, Durable C (c'.stores cfg.globalShard) id d ↔
    Durable C (c.stores cfg.globalShard) id d ∨ id = txnId ∧ d = decision

theorem ClusterInv.decides (h : ClusterInv C cfg c) {record : CoordinatorDecisionRecord}
    {bytes : Bytes} {u : Unit} (hencode : encodeDecision C record = .ok bytes)
    (hversion : record.version = distTxnRecordVersion)
    (hexec : c.exec C env ⟨cfg.globalShard, .proposeAuthorizedConditionalBatch
      (decisionBatch record.txnId bytes)⟩ = (.ok u, c')) :
    Decides C cfg record.txnId record.decision c c' := by
  obtain ⟨hcluster, hallocated, s', hresult, hupdates⟩ := h.exec_spec
    (.proposeAuthorizedConditionalBatch (decisionBatch record.txnId bytes))
    ⟨rfl, Or.inl ⟨record, bytes, hencode, hversion, rfl⟩⟩ hexec
  obtain ⟨hmissing, hputs⟩ := putsRow_of_batch (by decide) (written_map_ok hresult)
  have hmissing : (c.stores cfg.globalShard).get distTxnCoordinatorTable
      (encodeTxnId record.txnId) = none := by
    simpa [conditionMatches] using hmissing _ List.mem_cons_self
  have hdecode := decodeDecision_of_encode hencode hversion
  obtain ⟨-, hkept, hnew⟩ := h.decision hdecode hmissing hputs
  refine ⟨hcluster, ?_, ⟨bytes, s', hupdates, hputs⟩, fun id d => ?_⟩
  · rw [hallocated]
    simp [Request.allocates, decisionBatch, Op.sequenceId, distTxnCoordinatorTable,
      distTxnSequenceTable]
  · rw [hupdates.self]
    constructor
    · intro hd
      by_cases hid : id = record.txnId
      · subst hid
        exact Or.inr ⟨rfl, hd.unique hnew⟩
      · refine Or.inl (hd.of_get_eq (hputs.coordinator (by decide) fun _ heq => ?_).symm)
        exact hid (encodeTxnId_inj.mp heq)
    · rintro (hd | ⟨rfl, rfl⟩)
      · exact hkept id d hd
      · exact hnew

/-- A recorded decision is durable; a failed attempt changes nothing. -/
theorem ends_recordDistTxnDecision (h : RouterInv C cfg map committed (some txnId) ids c)
    (hfresh : txnId ∉ ids) (decidedAtMs : UInt64) (decision : Decision) :
    Ends C (fun _ c' => Decides C cfg txnId decision c c') (fun c' => c' = c)
      (recordDistTxnDecision C cfg decidedAtMs txnId decision) c := by
  refine .bind (fun bytes c' => c' = c ∧ encodeDecision C
      { version := distTxnRecordVersion, txnId, decision, decidedAtMs,
        deadlineMs := defaultDistTxnDeadlineMs, retryCount := 0 } = .ok bytes)
    (always_compute (fun bytes hbytes => ⟨rfl, mapError_eq_ok_iff.mp hbytes⟩) rfl) ?_
  rintro bytes c₁ ⟨rfl, hencode⟩
  refine .bind (fun reply c' => (∀ u, reply = .ok u → Decides C cfg txnId decision c₁ c') ∧
      ∀ e, reply = .error e → c' = c₁) (ends_tell (fun _ _ _ => rfl) ?_) ?_
  · intro env reply c' hexec
    refine ⟨?_, ?_⟩
    · rintro u rfl
      exact h.cluster.decides hencode rfl hexec
    · rintro e rfl
      exact Cluster.exec_error hexec
  · rintro reply c' ⟨hok, herror⟩
    -- a decision that is read back would make the transaction known
    have hconfirm : Ends C (fun _ c' => Decides C cfg txnId decision c₁ c') (fun c' => c' = c₁)
        (Router.ask cfg.globalShard (.read distTxnCoordinatorTable (encodeTxnId txnId)) >>=
          fun stored => Router.compute (confirmDecision C txnId decision stored)) c₁ := by
      refine .bind (fun stored c' => c' = c₁ ∧
          (c₁.stores cfg.globalShard).get distTxnCoordinatorTable (encodeTxnId txnId) = stored)
        (ends_read (fun stored hread => ⟨rfl, ?_⟩) rfl) ?_
      · simp only [SingleNode.read, bind_eq_ok_iff, pure_eq_ok_iff] at hread
        obtain ⟨_, -, hget⟩ := hread
        exact hget
      · rintro stored c' ⟨rfl, hstored⟩
        refine always_compute (fun u hu => ?_) rfl
        obtain ⟨bytes', rfl, hfact⟩ := mem_rowDecisions_of_confirm hu
        exact absurd (h.known _ _ (h.cluster.durable_of_row hstored hfact)) hfresh
    split
    · exact hok _ rfl
    · obtain rfl := herror _ rfl
      exact hconfirm
    · obtain rfl := herror _ rfl
      exact hconfirm
    · exact herror _ rfl

/-! ## The second phase -/

/-- A served finish of a decided transaction; one that succeeds leaves no record prepared. -/
structure FinishServed (C : Codecs) (cfg : RouterConfig) (map : ShardMap) (committed : WriteSet)
    (ids : List TxnId) (shard : ShardId) (txnId : TxnId) (c : Cluster) (reply : ReplResult Unit)
    (c' : Cluster) : Prop where
  inv : RouterInv C cfg map committed none ids c'
  allocated : c'.allocated = c.allocated
  durable : ∀ id d, Durable C (c'.stores cfg.globalShard) id d ↔
    Durable C (c.stores cfg.globalShard) id d
  prepared : ∀ other record, Prepared C (c'.stores other) record →
    Prepared C (c.stores other) record
  finished : reply = .ok () → ∀ record, Prepared C (c'.stores shard) record →
    record.txnId ≠ txnId

theorem FinishServed.failed (h : RouterInv C cfg map committed none ids c)
    (e : ReplError) : FinishServed C cfg map committed ids shard txnId c (.error e) c :=
  ⟨h, rfl, fun _ _ => Iff.rfl, fun _ _ hr => hr, fun hok => by contradiction⟩

/-- What a shard does when it is told a durable decision. -/
theorem RouterInv.execFinish
    {reply : ReplResult Unit} (h : RouterInv C cfg map committed none ids c)
    (hdurable : Durable C (c.stores cfg.globalShard) txnId decision)
    (hexec : c.exec C env ⟨shard, .finishDistTxn txnId decision⟩ = (reply, c')) :
    FinishServed C cfg map committed ids shard txnId c reply c' := by
  cases reply with
  | error e =>
    obtain rfl := Cluster.exec_error hexec
    exact .failed h e
  | ok u =>
    obtain ⟨hcluster, hallocated, s', hresult, hupdates⟩ :=
      h.cluster.exec_spec (.finishDistTxn txnId decision) hdurable hexec
    rcases finishDistTxn_cases (written_map_ok hresult) with
      ⟨rfl, bytes, record, hget, -⟩ | ⟨prepared, record, rfl, rfl, hstep⟩
    · have hstores : ∀ other, c'.stores other = c.stores other :=
        hupdates.forall (P := fun other s => s = c.stores other) rfl fun _ _ => rfl
      refine ⟨?_, hallocated, fun id d => by rw [hstores], fun other r hr => by rwa [← hstores],
        fun _ r hr hid => ?_⟩
      · exact h.quiet hcluster hupdates (Or.inl rfl) (fun _ _ _ => rfl) (fun _ => Iff.rfl)
          fun _ => rfl
      · obtain ⟨bytes', hget', -⟩ := hstores shard ▸ hr
        have hnone := (h.cluster.locks shard).exclusive (encodeTxnId r.txnId) (by simp [hget'])
        rw [hid, hget] at hnone
        contradiction
    · have hstore := hstep.finishedStore
      refine ⟨h.finish hcluster hupdates hdurable hstep, hallocated, fun id d => ?_, ?_,
        fun _ r hr => ?_⟩
      · exact hupdates.durable_iff fun k => hstore.get_coordinator (by decide) k
      · exact hupdates.forall (P := fun other s => ∀ r, Prepared C s r →
          Prepared C (c.stores other) r) (fun _ hr => (hstore.prepared_iff.mp hr).1)
          fun _ _ _ hr => hr
      · rw [hupdates.self] at hr
        exact (hstore.prepared_iff.mp hr).2

theorem RouterInv.serveFinish
    (h : RouterInv C cfg map committed none ids c) (shard : ShardId)
    (hdurable : Durable C (c.stores cfg.globalShard) txnId decision) (input : CallInput) :
    FinishServed C cfg map committed ids shard txnId c
      (serveCall C input c ⟨shard, .finishDistTxn txnId decision⟩).1
      (serveCall C input c ⟨shard, .finishDistTxn txnId decision⟩).2 := by
  cases hexec : c.exec C input.env ⟨shard, .finishDistTxn txnId decision⟩ with
  | mk reply c' =>
    have hserved := h.execFinish hdurable hexec
    simp only [serveCall, hexec]
    split
    · exact hserved
    · exact .failed h _
    · exact ⟨hserved.inv, hserved.allocated, hserved.durable, hserved.prepared,
        fun hok => by contradiction⟩

/-- The shards are finished one after the other. -/
theorem ends_finishGroups (shards : List ShardId)
    (h : RouterInv C cfg map committed none ids c) (hallocated : c.allocated = allocated)
    (hdurable : Durable C (c.stores cfg.globalShard) txnId decision) :
    Ends C (fun _ c' => RouterInv C cfg map committed none ids c' ∧ c'.allocated = allocated ∧
        Durable C (c'.stores cfg.globalShard) txnId decision)
      (fun c' => RouterInv C cfg map committed none ids c' ∧ c'.allocated = allocated ∧
        Durable C (c'.stores cfg.globalShard) txnId decision)
      (finishGroups cfg txnId decision shards) c := by
  refine .foldlM (fun _ _ c' => RouterInv C cfg map committed none ids c' ∧
    c'.allocated = allocated ∧ Durable C (c'.stores cfg.globalShard) txnId decision)
    ⟨h, hallocated, hdurable⟩ ?_
  intro shard shards finishError c₁ hc₁
  refine .bind (fun _ c' => c' = c₁) (always_compute (fun _ _ => rfl) hc₁) ?_
  rintro shard c₁ rfl
  obtain ⟨h, hallocated, hdurable⟩ := hc₁
  refine .bind (fun reply c' => FinishServed C cfg map committed ids shard txnId c₁ reply c')
    (fun input => h.serveFinish shard hdurable input) fun reply c' hserved => ?_
  have hpost := And.intro hserved.inv
    (And.intro (hserved.allocated.trans hallocated) ((hserved.durable _ _).mpr hdurable))
  split <;> exact hpost

end MultiDb
