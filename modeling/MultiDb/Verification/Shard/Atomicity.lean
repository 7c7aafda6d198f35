import Mathlib.Data.List.Pairwise
import MultiDb.Verification.Shard.ClusterInvariant

/-!
# Cross-shard atomicity

A router finishes a transaction only with a decision it knows to be durable.
-/

namespace MultiDb

open Shared

variable {C : Codecs} {cfg : RouterConfig}
variable {request : Request} {shard : ShardId} {txnId : TxnId} {decision : Decision} {S : RouterSys}

/-! ### What a router knows -/

/-- What a router knows: a durable decision, that it allocated an id, or that its job writes the
rows of one shard only. -/
inductive Knowledge
  | decided (txnId : TxnId) (decision : Decision)
  | owns (txnId : TxnId)
  | single

/-- The job is a plain batch for one shard. -/
def RouterJob.SingleShard (C : Codecs) (cfg : RouterConfig) : RouterJob → Prop
  | proposeBatch map _ ops =>
    ∃ groups, routePublicOps C cfg map ops = .ok groups ∧ groups.size ≤ 1
  | _ => False

/-- What a router knows about its job at the start. -/
def RouterJob.first (C : Codecs) (cfg : RouterConfig) (job : RouterJob) : Set Knowledge :=
  {fact | fact = .single ∧ job.SingleShard C cfg}

/-- A call is permitted, prepares only under an id of the router, and proposes a plain batch only
for a job of one shard. -/
def Allowed (C : Codecs) (cfg : RouterConfig) (known : Set Knowledge) (call : Call) : Prop :=
  Permitted C cfg {fact | .decided fact.1 fact.2 ∈ known} call ∧
  match call.request with
  | .prepareDistTxn txnId _ => .owns txnId ∈ known
  | .proposeBatch _ => .single ∈ known
  | _ => True

/-- What the reply to a call tells the router. -/
def Call.teaches (C : Codecs) (call : Call) (reply : call.Reply) : Set Knowledge :=
  {fact | match fact with
    | .decided txnId decision => (txnId, decision) ∈ call.request.learns C reply
    | .owns txnId => txnId ∈ call.request.allocates reply
    | .single => False}

/-- The knowledge that is true of a cluster. -/
def Cluster.knowledge (C : Codecs) (cfg : RouterConfig) (c : Cluster) : Set Knowledge :=
  {fact | match fact with
    | .decided txnId decision => Durable C (c.stores cfg.globalShard) txnId decision
    | .owns txnId => txnId ∈ c.allocated
    | .single => True}

theorem allowed_mono {known known' : Set Knowledge} {call : Call} (hsub : known ⊆ known')
    (h : Allowed C cfg known call) : Allowed C cfg known' call := by
  obtain ⟨shard, request⟩ := call
  cases request with
  | finishDistTxn txnId decision => exact ⟨hsub h.1, trivial⟩
  | prepareDistTxn txnId ops => exact ⟨trivial, hsub h.2⟩
  | proposeBatch ops => exact ⟨trivial, hsub h.2⟩
  | _ => exact h

theorem allocates_error {error : ReplError} :
    request.allocates (.error error) = [] := by
  cases request <;> rfl

/-- The shards keep the invariant under every permitted call. -/
theorem sound_shardService (C : Codecs) (cfg : RouterConfig) :
    Sys.Sound (RouterJob.first C cfg) (Allowed C cfg) (Call.teaches C) (shardService C)
      (Cluster.knowledge C cfg) (ClusterInv C cfg) := by
  constructor
  case first =>
    rintro job c - fact ⟨rfl, -⟩
    exact trivial
  case may_mono => exact allowed_mono
  case inv => exact fun hinv hmay => (hinv.callSound _ hmay.1).inv
  case stable =>
    intro env c call hinv hmay fact hfact
    cases fact with
    | decided txnId decision =>
      exact (hinv.callSound env hmay.1).stable (a := (txnId, decision)) hfact
    | owns txnId => exact List.mem_append_right _ hfact
    | single => exact trivial
  case learned =>
    intro env c call hinv hmay fact hfact
    cases fact with
    | decided txnId decision =>
      exact (hinv.callSound env hmay.1).learned (a := (txnId, decision)) hfact
    | owns txnId => exact List.mem_append_left _ hfact
    | single => exact trivial
  case failure =>
    rintro error ⟨shard, request⟩
    refine Set.eq_empty_iff_forall_notMem.mpr fun fact hfact => ?_
    cases fact with
    | decided txnId decision => cases request <;> exact hfact
    | owns txnId =>
      have howns : txnId ∈ request.allocates (.error error) := hfact
      rw [allocates_error] at howns
      contradiction
    | single => exact hfact

/-! ### The router code -/

variable {α β : Type} {known : Set Knowledge}

/-- Router code that makes allowed calls only, with what it knows at the end. -/
abbrev Careful (C : Codecs) (cfg : RouterConfig) (known : Set Knowledge)
    (post : Set Knowledge → ReplResult α → Prop) (program : Router α) : Prop :=
  program.Honest (Allowed C cfg) (Call.teaches C) known post

theorem careful_ask
    {post : Set Knowledge → ReplResult request.Answer → Prop}
    (hmay : Allowed C cfg known ⟨shard, request⟩)
    (hpost : ∀ reply, post (known ∪ Call.teaches C ⟨shard, request⟩ reply) reply) :
    Careful C cfg known post (Router.ask shard request) :=
  ⟨hmay, hpost⟩

theorem careful_tell
    {post : Set Knowledge → ReplResult (ReplResult request.Answer) → Prop}
    (hmay : Allowed C cfg known ⟨shard, request⟩)
    (hpost : ∀ reply, post (known ∪ Call.teaches C ⟨shard, request⟩ reply) (.ok reply)) :
    Careful C cfg known post (Router.tell shard request) :=
  ⟨hmay, hpost⟩

theorem careful_coordinatorDecisions :
    Careful C cfg known (fun known' result => ∀ records, result = .ok records →
      ∀ record ∈ records, .decided record.txnId record.decision ∈ known')
      (coordinatorDecisions C cfg) := by
  refine .bind (fun known' result => ∀ rows, result = .ok rows →
      ∀ txnId decision, (txnId, decision) ∈ rangeDecisions C rows → .decided txnId decision ∈
        known')
    (careful_ask ⟨trivial, trivial⟩ ?_) ?_ ?_
  · rintro reply rows rfl txnId decision hfact
    exact Or.inr ⟨rfl, hfact⟩
  · intro known' rows _ hrows records hrecords record hmem
    have hrecords := mapError_eq_ok_iff.mp hrecords
    obtain ⟨row, hrow, hdecode⟩ := (mem_of_mapM_eq_ok hrecords).mp hmem
    exact hrows rows rfl _ _ ⟨row, hrow, record, hdecode, rfl, rfl⟩
  · intro known' e _ _ records h
    contradiction

theorem careful_bootstrapMaximum :
    Careful C cfg known (fun _ _ => True) (bootstrapMaximum C cfg) := by
  refine .seq (careful_coordinatorDecisions.mono fun _ _ _ _ => trivial) fun known' records _ => ?_
  refine .foldlM fun shard _ maximum _ _ => .foldlM fun table _ maximum known' _ => ?_
  refine .seq (careful_ask ⟨trivial, trivial⟩ fun _ => trivial) fun known' rows _ => ?_
  refine .foldlM fun row _ maximum known' _ => ?_
  cases h : storageResult (decodeTxnId row.1) <;> exact trivial

theorem careful_lastAllocated (previous : Option Bytes) :
    Careful C cfg known (fun _ result => ∀ bytes, previous = some bytes → ∀ last,
      result = .ok last → decodeTxnId bytes = .ok last) (lastAllocated C cfg previous) := by
  cases previous with
  | some bytes =>
    rintro bytes' h last hlast
    cases h
    exact mapError_eq_ok_iff.mp hlast
  | none => exact careful_bootstrapMaximum.mono fun _ _ _ _ bytes h => absurd h (by simp)

theorem careful_allocateDistTxnId (attempts : ℕ) :
    Careful C cfg known (fun known' result => ∀ txnId, result = .ok txnId → .owns txnId ∈ known')
      (allocateDistTxnId C cfg attempts) := by
  induction attempts generalizing known with
  | zero =>
    intro txnId h
    contradiction
  | succ attempts ih =>
    refine .bind (fun _ _ => True) (careful_ask ⟨trivial, trivial⟩ fun _ => trivial)
      (fun known' previous _ _ => ?_) fun _ _ _ _ _ h => by contradiction
    refine .bind _ (careful_lastAllocated previous) (fun known' last _ hlast => ?_)
      fun _ _ _ _ _ h => by contradiction
    split
    · intro txnId h
      contradiction
    · rename_i next hnext
      have hbatch : IsAllocation (allocationBatch previous next) := by
        refine ⟨previous, next, rfl, fun bytes hbytes => ⟨last, hlast bytes hbytes last rfl, ?_⟩⟩
        exact checkedSucc_eq_some_iff.mp hnext
      -- only an acknowledged swap gives the id to the router
      refine .bind (fun known' result => ∀ u, result = .ok (.ok u) → .owns next ∈ known')
        (careful_tell ⟨⟨rfl, Or.inr hbatch⟩, trivial⟩ ?_) (fun known' reply _ hreply => ?_)
        fun _ _ _ _ _ h => by contradiction
      · rintro reply u h
        cases h
        refine Or.inr ?_
        simp [Call.teaches, Request.allocates, allocationBatch, Op.sequenceId, encodeTxnId]
      · split
        · intro txnId h
          cases h
          exact hreply _ rfl
        · exact ih
        · exact ih
        · intro txnId h
          contradiction

theorem mem_rowDecisions_of_confirm {stored : Option Bytes}
    (h : confirmDecision C txnId decision stored = .ok ()) :
    ∃ bytes, stored = some bytes ∧ (txnId, decision) ∈ rowDecisions C bytes := by
  cases stored with
  | none => contradiction
  | some bytes =>
    simp only [confirmDecision, storageResult, bind_eq_ok_iff, mapError_eq_ok_iff,
      guard_eq_ok_iff, not_or, not_not] at h
    obtain ⟨existing, hdecode, ⟨hid, hdecision⟩, -⟩ := h
    exact ⟨bytes, rfl, existing, hdecode, hid, hdecision⟩

theorem careful_recordDistTxnDecision (decidedAtMs : UInt64) (txnId : TxnId) (decision : Decision) :
    Careful C cfg known (fun known' result => result = .ok () → .decided txnId decision ∈ known')
      (recordDistTxnDecision C cfg decidedAtMs txnId decision) := by
  refine .bind (fun _ result => ∀ bytes, result = .ok bytes → encodeDecision C
      { version := distTxnRecordVersion, txnId, decision, decidedAtMs,
        deadlineMs := defaultDistTxnDeadlineMs, retryCount := 0 } = .ok bytes)
    (fun bytes h => mapError_eq_ok_iff.mp h) (fun known' bytes _ hbytes => ?_)
    fun _ _ _ _ h => by contradiction
  have hencode := hbytes bytes rfl
  refine .bind (fun known' result => ∀ u, result = .ok (.ok u) → .decided txnId decision ∈ known')
    (careful_tell ⟨⟨rfl, Or.inl ⟨_, bytes, hencode, rfl, rfl⟩⟩, trivial⟩ ?_)
      (fun known' reply _ hreply => ?_)
    fun _ _ _ _ h => by contradiction
  · rintro reply u h
    cases h
    exact Or.inr ⟨bytes, rfl, _, decodeDecision_of_encode hencode rfl, rfl, rfl⟩
  · have hconfirm : Careful C cfg known'
        (fun known' result => result = .ok () → .decided txnId decision ∈ known')
        (Router.ask cfg.globalShard (.read distTxnCoordinatorTable (encodeTxnId txnId)) >>=
          fun stored => Router.compute (confirmDecision C txnId decision stored)) := by
      refine .bind (fun known' result => ∀ stored, result = .ok stored → ∀ bytes,
          stored = some bytes → ∀ txnId decision, (txnId, decision) ∈ rowDecisions C bytes →
            .decided txnId decision ∈ known')
        (careful_ask ⟨trivial, trivial⟩ ?_) (fun known' stored _ hstored h => ?_)
        fun _ _ _ _ h => by contradiction
      · rintro reply stored rfl bytes rfl txnId decision hfact
        exact Or.inr ⟨rfl, bytes, rfl, hfact⟩
      · obtain ⟨bytes, rfl, hfact⟩ := mem_rowDecisions_of_confirm h
        exact hstored _ rfl bytes rfl _ _ hfact
    split
    · exact fun _ => hreply _ rfl
    · exact hconfirm
    · exact hconfirm
    · exact fun h => by contradiction

theorem careful_prepareGroups (hknown : .owns txnId ∈ known)
    (groups : List (ShardId × List Op)) :
    Careful C cfg known (fun _ _ => True) (prepareGroups cfg txnId groups) := by
  induction groups generalizing known with
  | nil => exact trivial
  | cons group groups ih =>
    obtain ⟨shard, ops⟩ := group
    refine .seq trivial fun known' shard hsub => ?_
    refine .seq (careful_tell ⟨trivial, hsub hknown⟩ fun _ => trivial) fun known'' reply hsub' => ?_
    split
    · exact ih (hsub' (hsub hknown))
    · exact trivial
    · exact trivial

theorem careful_finishGroups
    (hknown : .decided txnId decision ∈ known) (shards : List ShardId) :
    Careful C cfg known (fun _ _ => True) (finishGroups cfg txnId decision shards) := by
  refine .foldlM fun shard _ finishError known' hsub => ?_
  refine .seq trivial fun known'' shard hsub' => ?_
  refine .seq (careful_tell ⟨hsub' (hsub hknown), trivial⟩ fun _ => trivial) fun _ reply _ => ?_
  split <;> exact trivial

theorem careful_proposeDistributedBatch (decidedAtMs : UInt64) (groups : List (ShardId × List Op)) :
    Careful C cfg known (fun _ _ => True)
      (proposeDistributedBatch C cfg decidedAtMs groups) := by
  refine .bind _ (careful_allocateDistTxnId 64) (fun known' txnId _ howns => ?_)
    fun _ _ _ _ => trivial
  refine .seq (careful_prepareGroups (howns txnId rfl) groups) fun known' prepareError _ => ?_
  refine .bind _ (careful_recordDistTxnDecision decidedAtMs txnId _) (fun known' _ _ hknown => ?_)
    fun _ _ _ _ => trivial
  refine .seq (careful_finishGroups (hknown rfl) _) fun known' finishError _ => ?_
  split <;> exact trivial

theorem careful_recoverShard (shard : ShardId) :
    Careful C cfg known (fun _ _ => True) (recoverShard shard) := by
  refine .seq (careful_ask ⟨trivial, trivial⟩ fun _ => trivial) fun known' records _ => ?_
  refine .forM fun record _ known' _ => ?_
  refine .bind (fun known' result => ∀ decision, result = .ok (some decision) →
      .decided record.txnId decision ∈ known') (careful_ask ⟨trivial, trivial⟩ ?_)
        (fun known' reply _ hreply => ?_)
    fun _ _ _ _ => trivial
  · rintro reply decision rfl
    exact Or.inr ⟨rfl, rfl⟩
  · split
    · exact careful_ask ⟨hreply _ rfl, trivial⟩ fun _ => trivial
    · exact trivial

theorem careful_recoverDistTxns :
    Careful C cfg known (fun _ _ => True) (recoverDistTxns C cfg) := by
  refine .bind _ careful_coordinatorDecisions (fun known' records _ hknown => ?_)
    fun _ _ _ _ => trivial
  refine .seq ?_ fun known' _ _ => .forM fun shard _ _ _ => careful_recoverShard shard
  refine .forM fun record hrecord known' hsub => .forM fun shard _ known'' hsub' => ?_
  exact careful_ask ⟨hsub' (hsub (hknown records rfl record hrecord)), trivial⟩ fun _ => trivial

theorem careful_proposeBatch (map : ShardMap) (decidedAtMs : UInt64) (ops : List Op)
    (hknown : RouterJob.SingleShard C cfg (.proposeBatch map decidedAtMs ops) → .single ∈ known) :
    Careful C cfg known (fun _ _ => True) (proposeBatch C cfg map decidedAtMs ops) := by
  rw [proposeBatch]
  split
  · exact trivial
  · refine .seq trivial fun known' _ hsub => ?_
    refine .bind (fun _ result => routePublicOps C cfg map ops = result) rfl
      (fun known'' groups hsub' hgroups => ?_) fun _ _ _ _ => trivial
    by_cases hsize : groups.size > 1
    · rw [if_pos hsize]
      exact careful_proposeDistributedBatch decidedAtMs groups.toList
    · rw [if_neg hsize]
      have hsingle := hsub' (hsub (hknown ⟨groups, hgroups, Nat.le_of_not_lt hsize⟩))
      exact .seq trivial fun known' shard hsub =>
        careful_ask ⟨trivial, hsub hsingle⟩ fun _ => trivial

theorem careful_program (job : RouterJob) :
    Careful C cfg (job.first C cfg) (fun _ _ => True) (job.program C cfg) := by
  cases job with
  | proposeBatch map decidedAtMs ops =>
    exact careful_proposeBatch map decidedAtMs ops fun h => ⟨rfl, h⟩
  | proposeDistributedBatch decidedAtMs groups =>
    exact careful_proposeDistributedBatch decidedAtMs groups
  | recordDistTxnDecision decidedAtMs txnId decision =>
    exact (careful_recordDistTxnDecision decidedAtMs txnId decision).mono fun _ _ _ _ => trivial
  | recoverDistTxns => exact careful_recoverDistTxns

/-! ### Changes of rows -/

/-- A permitted call that changes a public row is a plain batch, or the finish of a transaction that
commits a row it prepared. -/
theorem Request.public_change {known : Set (TxnId × Decision)} {env : Env} (hmay : Permitted C cfg known ⟨shard, request⟩) {s : Store} {t : String}
    {k : Bytes} (ht : tableIsReserved t = false)
    (hchange : (request.exec C env s).2.get t k ≠ s.get t k) :
    (∃ ops, request = .proposeBatch ops) ∨ ∃ record, request = .finishDistTxn record.txnId .commit ∧
      Prepared C s record ∧ record.rows.get t k = some ((request.exec C env s).2.get t k) ∧
      request.applies s (request.exec C env s).1 = some record.txnId := by
  cases request with
  | proposeBatch ops => exact Or.inl ⟨ops, rfl⟩
  | proposeAuthorizedBatch ops =>
    obtain ⟨key, value, rfl⟩ := hmay
    cases hresult : SingleNode.proposeAuthorizedBatch C env s
      [.put shardMigrationsTable key value] with
    | error e => simp [exec, hresult, written, Except.map] at hchange
    | ok s' =>
      have hputs := putsRow_of_authorizedBatch (by decide) hresult
      simp only [exec, hresult, written, Except.map] at hchange
      exact absurd (hputs.get_public (by decide) ht) hchange
  | proposeAuthorizedConditionalBatch batch =>
    cases hresult : SingleNode.proposeAuthorizedConditionalBatch C env s batch with
    | error e => simp [exec, hresult, written, Except.map] at hchange
    | ok s' =>
      simp only [exec, hresult, written, Except.map] at hchange
      obtain ⟨-, ⟨record, bytes, -, -, rfl⟩ | ⟨previous, next, rfl, -⟩⟩ := hmay
      · exact absurd ((putsRow_of_batch (by decide) hresult).2.get_public (by decide) ht) hchange
      · exact absurd ((putsRow_of_batch (by decide) hresult).2.get_public (by decide) ht) hchange
  | prepareDistTxn txnId ops =>
    cases hresult : SingleNode.prepareDistTxn C env s txnId ops with
    | error e => simp [exec, hresult, written] at hchange
    | ok result =>
      obtain ⟨vote, s'⟩ := result
      simp only [exec, hresult, written] at hchange
      rcases prepareDistTxn_cases hresult with ⟨rfl, -⟩ | ⟨record, -, -, hstep⟩
      · contradiction
      · refine absurd (hstep.preparedStore.other t k (not_bookkeeping_of_public ht k)
          (Or.inl (not_mem_distTxnTables_of_public ht)) ?_) hchange
        rintro rfl
        contradiction
  | finishDistTxn txnId decision =>
    cases hresult : SingleNode.finishDistTxn C env s txnId decision with
    | error e => simp [exec, hresult, written, Except.map] at hchange
    | ok s' =>
      simp only [exec, hresult, written, Except.map] at hchange ⊢
      rcases finishDistTxn_cases hresult with ⟨rfl, -⟩ | ⟨prepared, record, rfl, rfl, hstep⟩
      · contradiction
      · have hstore := hstep.finishedStore
        have hrow := hstore.rows t k (not_bookkeeping_of_public ht k)
          (not_mem_distTxnTables_of_public ht)
        cases hdecision : record.decision with
        | abort =>
          rw [hdecision] at hrow
          contradiction
        | commit =>
          rw [hdecision, if_pos rfl] at hrow
          cases hget : (preparedRows prepared).get t k with
          | none =>
            rw [hget] at hrow
            contradiction
          | some v =>
            obtain ⟨p, rfl⟩ : ∃ p, prepared = some p := by
              cases prepared with
              | none => simp [preparedRows, opsToWriteSet] at hget
              | some p => exact ⟨p, rfl⟩
            obtain ⟨hid, hprepared⟩ := hstore.found p rfl
            obtain ⟨bytes, hbytes, -⟩ := id hprepared
            rw [hget] at hrow
            rw [hid] at hbytes
            refine Or.inr ⟨p, by rw [hid], hprepared, hget.trans (by rw [hrow]; rfl), ?_⟩
            simp [applies, hbytes, hid]
  | _ => contradiction

/-! ### Runs -/

theorem routers_good (C : Codecs) (cfg : RouterConfig)
    (events : List (SysEvent RouterJob Env ReplError)) :
    Sys.Good (RouterJob.first C cfg) (Allowed C cfg) (Call.teaches C) (Cluster.knowledge C cfg)
      (ClusterInv C cfg) (runRouters C cfg events) :=
  Sys.good_run (sound_shardService C cfg) careful_program (clusterInv_empty C cfg) events

/-- The ids that a run has handed out. -/
def handedOut (S : RouterSys) : List TxnId :=
  S.sent.flatMap fun exchange => exchange.request.request.allocates exchange.reply

/-- The ids handed out are allocated ones, in their order. -/
theorem handedOut_sublist (events : List (SysEvent RouterJob Env ReplError)) :
    (handedOut (runRouters C cfg events)).Sublist (runRouters C cfg events).state.allocated := by
  unfold runRouters Sys.run
  refine List.foldlRecOn (motive := fun S : RouterSys => (handedOut S).Sublist S.state.allocated)
    events _ (List.Sublist.refl []) fun S hS event _ => ?_
  cases event with
  | start job => exact hS
  | serve index env =>
    rw [Sys.step]
    split
    · exact hS.append_left _
    · exact hS
  | fail index error =>
    rw [Sys.step]
    split
    · rename_i request next _
      have hnone : request.request.allocates (.error error) = [] := allocates_error
      simpa [handedOut, Sys.reply, shardService, hnone] using hS
    · exact hS
  | late index env =>
    rw [Sys.step]
    split
    · exact hS.trans (List.sublist_append_right _ _)
    · exact hS

variable {x : Exchange Call Call.Reply}

/-- A program that prepares was handed out the id itself. -/
theorem handedOut_of_prepare {events : List (SysEvent RouterJob Env ReplError)} (hx : x ∈ (runRouters C cfg events).sent)
    {ops : List Op} (hrequest : x.request.request = .prepareDistTxn txnId ops) :
    ∃ y ∈ (runRouters C cfg events).sent, y.caller = x.caller ∧
      txnId ∈ y.request.request.allocates y.reply := by
  have hallowed := ((routers_good C cfg events).obeys.sent x hx).2
  rw [hrequest] at hallowed
  rcases hallowed with ⟨job, -, heq, -⟩ | ⟨y, hy, hcaller, hid⟩
  · contradiction
  · exact ⟨y, hy, hcaller, hid⟩

theorem caller_of_handedOut (hnodup : (handedOut S).Nodup)
    {y : Exchange Call Call.Reply} (hx : x ∈ S.sent) (hy : y ∈ S.sent)
    (hxid : txnId ∈ x.request.request.allocates x.reply)
    (hyid : txnId ∈ y.request.request.allocates y.reply) : x.caller = y.caller := by
  by_contra hne
  have hsymm : Std.Symm (Function.onFun List.Disjoint fun x : Exchange Call Call.Reply =>
      x.request.request.allocates x.reply) := ⟨fun _ _ h _ hl hr => h hr hl⟩
  exact (List.nodup_flatMap.mp hnodup).2.forall hx hy (fun heq => hne (congrArg _ heq)) hxid hyid

/-- A program that proposes a plain batch has a job for one shard. -/
theorem singleShard_of_known {index : ℕ}
    (h : .single ∈ S.known (RouterJob.first C cfg) (Call.teaches C) index) :
    ∃ job, S.jobs[index]? = some job ∧ job.SingleShard C cfg := by
  rcases h with ⟨job, hjob, -, hsingle⟩ | ⟨x, -, -, hx⟩
  · exact ⟨job, hjob, hsingle⟩
  · exact absurd hx id

/-- What atomicity asks of every reachable state. -/
structure Atomic (C : Codecs) (cfg : RouterConfig) (S : RouterSys) : Prop where
  /-- No id is allocated twice. -/
  allocated : S.state.allocated.Nodup
  /-- Programs that prepare under one id are one program. -/
  ids : ∀ x ∈ S.sent, ∀ y ∈ S.sent, ∀ txnId ops ops',
    x.request.request = .prepareDistTxn txnId ops →
    y.request.request = .prepareDistTxn txnId ops' → x.caller = y.caller
  /-- A transaction applied on one shard is aborted on none. -/
  agreement : ∀ shard txnId, (shard, txnId) ∈ S.state.applied →
    ∀ other, ¬ Finished C (S.state.stores other) txnId .abort
  /-- Operations are applied only under a durable commit. -/
  durable : ∀ shard txnId, (shard, txnId) ∈ S.state.applied →
    Durable C (S.state.stores cfg.globalShard) txnId .commit
  /-- The next event changes a public row only by a plain batch of a job for one shard, or by
  applying a prepared row of a transaction whose commit is durable. -/
  changes : ∀ (event : SysEvent RouterJob Env ReplError) shard t k, tableIsReserved t = false →
    let next := (S.step (shardService C) (RouterJob.program C cfg) event).state
    (next.stores shard).get t k ≠ (S.state.stores shard).get t k →
    (∃ index job ops, S.executes event = some (index, ⟨shard, .proposeBatch ops⟩) ∧
      S.jobs[index]? = some job ∧ job.SingleShard C cfg) ∨
    ∃ index record, S.executes event = some (index, ⟨shard, .finishDistTxn record.txnId .commit⟩) ∧
      Durable C (S.state.stores cfg.globalShard) record.txnId .commit ∧
      Prepared C (S.state.stores shard) record ∧
      record.rows.get t k = some ((next.stores shard).get t k) ∧ (shard, record.txnId) ∈
        next.applied

/-- Whichever calls fail or take effect late, the cluster stays atomic. -/
theorem atomic_runRouters (C : Codecs) (cfg : RouterConfig)
    (events : List (SysEvent RouterJob Env ReplError)) :
    Atomic C cfg (runRouters C cfg events) := by
  have hgood := routers_good C cfg events
  have hinv := hgood.inv
  have hdurable : ∀ shard txnId, (shard, txnId) ∈ (runRouters C cfg events).state.applied →
      Durable C ((runRouters C cfg events).state.stores cfg.globalShard) txnId .commit :=
    fun shard txnId hmem => hinv.finished shard txnId .commit (hinv.applied shard txnId hmem)
  refine ⟨hinv.nodup, ?_, ?_, hdurable, ?_⟩
  · intro x hx y hy txnId ops ops' hprepare hprepare'
    obtain ⟨x', hx', hcaller, hid⟩ := handedOut_of_prepare hx hprepare
    obtain ⟨y', hy', hcaller', hid'⟩ := handedOut_of_prepare hy hprepare'
    rw [← hcaller, ← hcaller']
    exact caller_of_handedOut (hinv.nodup.sublist (handedOut_sublist events)) hx' hy' hid hid'
  · intro shard txnId hmem other habort
    have hcontra := (hdurable shard txnId hmem).unique (hinv.finished other txnId .abort habort)
    contradiction
  · intro event shard t k ht next hchange
    rcases Sys.step_state (runRouters C cfg events) event with heq | ⟨index, call, env,
      hexecutes, heq⟩
    · exact absurd (by rw [show next = _ from heq]) hchange
    · have hallowed := hgood.obeys.executes hexecutes
      have hpermitted := (hgood.permitted (sound_shardService C cfg) hexecutes).1
      obtain ⟨target, request⟩ := call
      rw [show next = _ from heq] at hchange ⊢
      obtain rfl : shard = target := by
        by_contra hne
        exact hchange (by simp [shardService, Cluster.exec, Function.update_of_ne hne])
      simp only [shardService, Cluster.exec, Function.update_self] at hchange ⊢
      rcases Request.public_change hpermitted ht hchange with
        ⟨ops, rfl⟩ | ⟨record, rfl, hprepared, hrow, happlies⟩
      · obtain ⟨job, hjob, hsingle⟩ := singleShard_of_known hallowed.2
        exact Or.inl ⟨index, job, ops, hexecutes, hjob, hsingle⟩
      · refine Or.inr ⟨index, record, hexecutes, hpermitted, hprepared, hrow, ?_⟩
        simp [happlies]

end MultiDb
