import MultiDb.Verification.Shard.Coordinator

/-!
# The invariant of a cluster

A durable decision never changes, and a shard finishes a transaction only with it.
-/

namespace MultiDb

open Shared

variable {C : Codecs} {cfg : RouterConfig} {c : Cluster}
variable {key bytes : Bytes} {record : CoordinatorDecisionRecord} {txnId : TxnId}
  {batch : ConditionalBatch}

/-! ## Permitted calls -/

/-- The batch stores one decision, if there is none yet. -/
def IsDecision (C : Codecs) (batch : ConditionalBatch) : Prop :=
  ∃ record bytes, encodeDecision C record = .ok bytes ∧ record.version = distTxnRecordVersion ∧
    batch = decisionBatch record.txnId bytes

/-- The batch raises the sequence row by one. -/
def IsAllocation (batch : ConditionalBatch) : Prop :=
  ∃ previous next, batch = allocationBatch previous next ∧
    ∀ bytes, previous = some bytes → ∃ last, decodeTxnId bytes = .ok last ∧
      next.toNat = last.toNat + 1

/-- The calls of a router that knows the given decisions to be durable. -/
def Permitted (C : Codecs) (cfg : RouterConfig) (known : Set (TxnId × Decision)) (call : Call) :
    Prop :=
  match call.request with
  | .finishDistTxn txnId decision => (txnId, decision) ∈ known
  | .proposeAuthorizedBatch ops => ∃ key value, ops = [.put shardMigrationsTable key value]
  | .proposeAuthorizedConditionalBatch batch =>
    call.shard = cfg.globalShard ∧ (IsDecision C batch ∨ IsAllocation batch)
  | _ => True

/-- The decision a coordinator row holds. -/
def rowDecisions (C : Codecs) (bytes : Bytes) : Set (TxnId × Decision) :=
  {fact | ∃ record, decodeDecision C bytes = .ok record ∧ record.txnId = fact.1 ∧
    record.decision = fact.2}

def rangeDecisions (C : Codecs) (rows : List (Bytes × Bytes)) : Set (TxnId × Decision) :=
  {fact | ∃ row ∈ rows, fact ∈ rowDecisions C row.2}

/-- The decisions that a reply shows to be durable. -/
def Request.learns (C : Codecs) : (r : Request) → ReplResult r.Answer → Set (TxnId × Decision)
  | read table _, .ok value =>
    {fact | table = distTxnCoordinatorTable ∧ ∃ bytes, value = some bytes ∧
      fact ∈ rowDecisions C bytes}
  | range table _ _, .ok rows =>
    {fact | table = distTxnCoordinatorTable ∧ fact ∈ rangeDecisions C rows}
  | loadDistTxnDecision txnId, .ok decision => {fact | txnId = fact.1 ∧ decision = some fact.2}
  | proposeAuthorizedConditionalBatch batch, .ok _ =>
    {fact | ∃ bytes, batch = decisionBatch fact.1 bytes ∧ fact ∈ rowDecisions C bytes}
  | _, _ => ∅

/-- The decisions the coordinator has stored. -/
def durableDecisions (C : Codecs) (cfg : RouterConfig) (c : Cluster) : Set (TxnId × Decision) :=
  {fact | Durable C (c.stores cfg.globalShard) fact.1 fact.2}

/-! ## The invariant -/

/-- Finished transactions are decided, applied ones committed, and allocated ids bounded. -/
structure ClusterInv (C : Codecs) (cfg : RouterConfig) (c : Cluster) : Prop where
  locks : ∀ shard, LockInv C (c.stores shard)
  decisions : ∀ key bytes,
    (c.stores cfg.globalShard).get distTxnCoordinatorTable key = some bytes →
    ∃ record, decodeDecision C bytes = .ok record ∧ key = encodeTxnId record.txnId
  elsewhere : ∀ shard ≠ cfg.globalShard, ∀ key,
    (c.stores shard).get distTxnCoordinatorTable key = none
  finished : ∀ shard txnId decision, Finished C (c.stores shard) txnId decision →
    Durable C (c.stores cfg.globalShard) txnId decision
  applied : ∀ shard txnId, (shard, txnId) ∈ c.applied →
    Finished C (c.stores shard) txnId .commit
  sequence : ∀ txnId ∈ c.allocated, ∃ last, (c.stores cfg.globalShard).get distTxnSequenceTable
    distTxnSequenceKey = some (encodeTxnId last) ∧ txnId ≤ last
  nodup : c.allocated.Nodup

theorem clusterInv_empty (C : Codecs) (cfg : RouterConfig) : ClusterInv C cfg .empty := by
  constructor
  case locks => exact fun _ => lockInv_empty C
  all_goals simp [Cluster.empty, Finished]

section Update

variable {shard : ShardId} {s' : Store}

private theorem get_update (c : Cluster) (shard other : ShardId) (s' : Store) (t : String)
    (k : Bytes) : (Function.update c.stores shard s' other).get t k =
      if other = shard then s'.get t k else (c.stores other).get t k := by
  rw [Function.update_apply]
  split <;> rfl

/-- A call that leaves the coordinator's rows alone and finishes decided transactions only. -/
theorem ClusterInv.quiet (h : ClusterInv C cfg c) (applied : List TxnId) (hlocks : LockInv C s')
    (hsame : ∀ t ∈ coordinatorTables, ∀ k, s'.get t k = (c.stores shard).get t k)
    (hnew : ∀ txnId decision, Finished C s' txnId decision →
      Finished C (c.stores shard) txnId decision ∨
        Durable C (c.stores cfg.globalShard) txnId decision)
    (hkeep : ∀ txnId decision, Finished C (c.stores shard) txnId decision →
      Finished C s' txnId decision)
    (happlied : ∀ txnId ∈ applied, Finished C s' txnId .commit) :
    ClusterInv C cfg { stores := Function.update c.stores shard s', allocated := c.allocated,
                       applied := applied.map (shard, ·) ++ c.applied } ∧
      durableDecisions C cfg c ⊆ durableDecisions C cfg
        { stores := Function.update c.stores shard s', allocated := c.allocated,
          applied := applied.map (shard, ·) ++ c.applied } := by
  have hget : ∀ other, ∀ t ∈ coordinatorTables, ∀ k,
      (Function.update c.stores shard s' other).get t k = (c.stores other).get t k := by
    intro other t ht k
    rw [get_update]
    split
    · rename_i heq
      rw [heq, hsame t ht k]
    · rfl
  have hdurable : ∀ txnId decision, Durable C (c.stores cfg.globalShard) txnId decision →
      Durable C (Function.update c.stores shard s' cfg.globalShard) txnId decision :=
    fun _ _ hd => hd.of_get_eq (hget _ _ (by decide) _)
  refine ⟨?_, fun fact => hdurable fact.1 fact.2⟩
  constructor
  case locks =>
    intro other
    simp only [Function.update_apply]
    split
    · exact hlocks
    · exact h.locks other
  case decisions =>
    intro key bytes hrow
    rw [hget _ _ (by decide)] at hrow
    exact h.decisions key bytes hrow
  case elsewhere =>
    intro other hne key
    rw [hget _ _ (by decide)]
    exact h.elsewhere other hne key
  case finished =>
    intro other txnId decision hfinished
    apply hdurable
    simp only [Function.update_apply] at hfinished
    split at hfinished
    · exact (hnew txnId decision hfinished).elim (h.finished shard txnId decision) id
    · exact h.finished other txnId decision hfinished
  case applied =>
    intro other txnId hmem
    simp only [Function.update_apply]
    rcases List.mem_append.mp hmem with hmem | hmem
    · obtain ⟨id, hid, heq⟩ := List.mem_map.mp hmem
      obtain ⟨rfl, rfl⟩ := Prod.mk.inj heq
      rw [if_pos rfl]
      exact happlied id hid
    · have hfinished := h.applied other txnId hmem
      split
      · rename_i heq
        exact hkeep txnId .commit (heq ▸ hfinished)
      · exact hfinished
  case sequence =>
    intro txnId hmem
    rw [hget _ _ (by decide)]
    exact h.sequence txnId hmem
  case nodup => exact h.nodup

/-- Writing one row of the coordinator keeps the invariant. -/
theorem ClusterInv.puts (h : ClusterInv C cfg c) {table : String} {value : Bytes}
    {allocated : List TxnId}
    (hputs : PutsRow C (c.stores cfg.globalShard) table key value s')
    (hdecisions : ∀ k bytes, s'.get distTxnCoordinatorTable k = some bytes →
      ∃ record, decodeDecision C bytes = .ok record ∧ k = encodeTxnId record.txnId)
    (hdurable : ∀ txnId decision, Durable C (c.stores cfg.globalShard) txnId decision →
      Durable C s' txnId decision)
    (hsequence : ∀ txnId ∈ allocated, ∃ last,
      s'.get distTxnSequenceTable distTxnSequenceKey = some (encodeTxnId last) ∧ txnId ≤ last)
    (hnodup : allocated.Nodup) :
    ClusterInv C cfg { stores := Function.update c.stores cfg.globalShard s', allocated,
                       applied := c.applied } := by
  have hfinished : ∀ other txnId decision,
      Finished C (Function.update c.stores cfg.globalShard s' other) txnId decision ↔
        Finished C (c.stores other) txnId decision := by
    intro other txnId decision
    rw [Function.update_apply]
    split
    · rename_i heq
      rw [heq, Finished, hputs.plain.get_distTxn (by decide), Finished]
    · rfl
  constructor
  case locks =>
    intro other
    simp only [Function.update_apply]
    split
    · exact (h.locks _).plain hputs.plain
    · exact h.locks other
  case decisions => simpa using hdecisions
  case elsewhere =>
    intro other hne k
    simp only [Function.update_of_ne hne]
    exact h.elsewhere other hne k
  case finished =>
    intro other txnId decision hother
    simp only [Function.update_self]
    exact hdurable _ _ (h.finished other txnId decision ((hfinished _ _ _).mp hother))
  case applied =>
    exact fun other txnId hmem => (hfinished _ _ _).mpr (h.applied other txnId hmem)
  case sequence => simpa using hsequence
  case nodup => exact hnodup

theorem ClusterInv.decision (h : ClusterInv C cfg c) (hdecode : decodeDecision C bytes = .ok record)
    (hmissing : (c.stores cfg.globalShard).get distTxnCoordinatorTable
      (encodeTxnId record.txnId) = none)
    (hputs : PutsRow C (c.stores cfg.globalShard) distTxnCoordinatorTable
      (encodeTxnId record.txnId) bytes s') :
    ClusterInv C cfg { stores := Function.update c.stores cfg.globalShard s',
                       allocated := c.allocated, applied := c.applied } ∧
      (∀ txnId decision, Durable C (c.stores cfg.globalShard) txnId decision →
        Durable C s' txnId decision) ∧
      Durable C s' record.txnId record.decision := by
  have hother : ∀ k, k ≠ encodeTxnId record.txnId → s'.get distTxnCoordinatorTable k =
      (c.stores cfg.globalShard).get distTxnCoordinatorTable k :=
    fun k hk => hputs.coordinator (by decide) fun _ => hk
  have hdurable : ∀ txnId decision, Durable C (c.stores cfg.globalShard) txnId decision →
      Durable C s' txnId decision := by
    intro txnId decision hd
    refine hd.of_get_eq (hother _ fun heq => ?_)
    obtain ⟨_, _, hget, -⟩ := hd
    rw [heq, hmissing] at hget
    contradiction
  refine ⟨h.puts hputs ?_ hdurable ?_ h.nodup, hdurable,
    ⟨bytes, record, hputs.row, hdecode, rfl, rfl⟩⟩
  · intro k bytes' hget
    by_cases hk : k = encodeTxnId record.txnId
    · rw [hk, hputs.row] at hget
      cases hget
      exact ⟨record, hdecode, hk⟩
    · rw [hother k hk] at hget
      exact h.decisions k bytes' hget
  · intro txnId hmem
    rw [hputs.coordinator (by decide) fun ht => absurd ht (by decide)]
    exact h.sequence txnId hmem

theorem ClusterInv.allocation (h : ClusterInv C cfg c) {previous : Option Bytes} {next : TxnId}
    (hnext : ∀ bytes, previous = some bytes → ∃ last, decodeTxnId bytes = .ok last ∧
      next.toNat = last.toNat + 1)
    (hprevious : (c.stores cfg.globalShard).get distTxnSequenceTable distTxnSequenceKey =
      previous)
    (hputs : PutsRow C (c.stores cfg.globalShard) distTxnSequenceTable distTxnSequenceKey
      (encodeTxnId next) s') :
    ClusterInv C cfg { stores := Function.update c.stores cfg.globalShard s',
                       allocated := next :: c.allocated, applied := c.applied } ∧
      ∀ txnId decision, Durable C (c.stores cfg.globalShard) txnId decision →
        Durable C s' txnId decision := by
  have hbelow : ∀ txnId ∈ c.allocated, txnId < next := by
    intro txnId hmem
    obtain ⟨last, hlast, hle⟩ := h.sequence txnId hmem
    obtain ⟨last', hlast', hsucc⟩ := hnext _ (hprevious.symm.trans hlast)
    cases (decodeTxnId_encodeTxnId last).symm.trans hlast'
    rw [UInt64.le_iff_toNat_le] at hle
    rw [UInt64.lt_iff_toNat_lt]
    omega
  have hsame : ∀ k, s'.get distTxnCoordinatorTable k =
      (c.stores cfg.globalShard).get distTxnCoordinatorTable k :=
    fun k => hputs.coordinator (by decide) fun ht => absurd ht (by decide)
  have hdurable : ∀ txnId decision, Durable C (c.stores cfg.globalShard) txnId decision →
      Durable C s' txnId decision := fun _ _ hd => hd.of_get_eq (hsame _)
  refine ⟨h.puts hputs ?_ hdurable ?_ ?_, hdurable⟩
  · intro k bytes hget
    rw [hsame] at hget
    exact h.decisions k bytes hget
  · intro txnId hmem
    refine ⟨next, hputs.row, ?_⟩
    rcases List.mem_cons.mp hmem with rfl | hmem
    · exact le_rfl
    · exact (hbelow txnId hmem).le
  · exact List.nodup_cons.mpr ⟨fun hmem => lt_irrefl _ (hbelow next hmem), h.nodup⟩

end Update

/-! ## One call -/

/-- What a call may do to the cluster, and what its reply may teach. -/
structure CallSound (C : Codecs) (cfg : RouterConfig) (c : Cluster) (call : Call)
    (result : call.Reply × Cluster) : Prop where
  inv : ClusterInv C cfg result.2
  stable : durableDecisions C cfg c ⊆ durableDecisions C cfg result.2
  learned : call.request.learns C result.1 ⊆ durableDecisions C cfg result.2

theorem ClusterInv.durable_of_get (h : ClusterInv C cfg c) {shard : ShardId}
    (hget : (c.stores shard).get distTxnCoordinatorTable key = some bytes)
    (hdecode : decodeDecision C bytes = .ok record) :
    key = encodeTxnId record.txnId ∧
      Durable C (c.stores cfg.globalShard) record.txnId record.decision := by
  by_cases hshard : shard = cfg.globalShard
  · subst hshard
    obtain ⟨record', hdecode', rfl⟩ := h.decisions key bytes hget
    cases hdecode.symm.trans hdecode'
    exact ⟨rfl, bytes, record, hget, hdecode, rfl, rfl⟩
  · rw [h.elsewhere shard hshard key] at hget
    contradiction

theorem ClusterInv.durable_of_row (h : ClusterInv C cfg c) {shard : ShardId}
    (hget : (c.stores shard).get distTxnCoordinatorTable key = some bytes) {fact : TxnId × Decision}
    (hfact : fact ∈ rowDecisions C bytes) : fact ∈ durableDecisions C cfg c := by
  obtain ⟨record, hdecode, hid, hdecision⟩ := hfact
  have hdurable := (h.durable_of_get hget hdecode).2
  rwa [hid, hdecision] at hdurable

theorem ClusterInv.durable_of_load (h : ClusterInv C cfg c) {shard : ShardId}
    {decision : Decision}
    (hload : SingleNode.loadDistTxnDecision C (c.stores shard) txnId = .ok (some decision)) :
    Durable C (c.stores cfg.globalShard) txnId decision := by
  rw [SingleNode.loadDistTxnDecision] at hload
  split at hload
  · simp at hload
  · rename_i bytes hget
    obtain ⟨record, hdecode, hdecision⟩ := map_eq_ok_iff.mp hload
    obtain ⟨hkey, hdurable⟩ := h.durable_of_get hget (mapError_eq_ok_iff.mp hdecode)
    rwa [← encodeTxnId_inj.mp hkey, Option.some.inj hdecision] at hdurable

section Calls

variable {env : Env} {shard : ShardId}
variable {s' : Store}

variable {request : Request}

theorem Cluster.exec_same {reply : ReplResult request.Answer}
    (hexec : request.exec C env (c.stores shard) = (reply, c.stores shard))
    (hallocates : request.allocates reply = [])
    (happlies : request.applies (c.stores shard) reply = none) :
    Cluster.exec C env c ⟨shard, request⟩ = (reply, c) := by
  simp only [Cluster.exec, hexec, hallocates, happlies, Function.update_eq_self]
  rfl

theorem ClusterInv.callSound_same (h : ClusterInv C cfg c)
    {reply : ReplResult request.Answer}
    (hexec : request.exec C env (c.stores shard) = (reply, c.stores shard))
    (hallocates : request.allocates reply = [])
    (happlies : request.applies (c.stores shard) reply = none)
    (hlearned : request.learns C reply ⊆ durableDecisions C cfg c) :
    CallSound C cfg c ⟨shard, request⟩ (Cluster.exec C env c ⟨shard, request⟩) := by
  rw [Cluster.exec_same hexec hallocates happlies]
  exact ⟨h, subset_rfl, hlearned⟩

theorem ClusterInv.callSound_read (h : ClusterInv C cfg c) (table : String) (key : Bytes) :
    CallSound C cfg c ⟨shard, .read table key⟩
      (Cluster.exec C env c ⟨shard, .read table key⟩) := by
  refine h.callSound_same rfl rfl rfl ?_
  cases hread : SingleNode.read (c.stores shard) table key with
  | error e => exact Set.empty_subset _
  | ok value =>
    rintro fact ⟨rfl, bytes, rfl, hfact⟩
    simp only [SingleNode.read, bind_eq_ok_iff, pure_eq_ok_iff] at hread
    obtain ⟨_, -, hget⟩ := hread
    exact h.durable_of_row hget hfact

theorem ClusterInv.callSound_range (h : ClusterInv C cfg c) (table : String) (start stop : Bytes) :
    CallSound C cfg c ⟨shard, .range table start stop⟩
      (Cluster.exec C env c ⟨shard, .range table start stop⟩) := by
  refine h.callSound_same rfl rfl rfl ?_
  cases hrange : SingleNode.range (c.stores shard) table start stop with
  | error e => exact Set.empty_subset _
  | ok rows =>
    rintro fact ⟨rfl, row, hrow, hfact⟩
    simp only [SingleNode.range, bind_eq_ok_iff, pure_eq_ok_iff] at hrange
    obtain ⟨_, -, rfl⟩ := hrange
    exact h.durable_of_row (mem_range.mp hrow).1 hfact

theorem ClusterInv.callSound_loadDistTxnDecision (h : ClusterInv C cfg c) (txnId : TxnId) :
    CallSound C cfg c ⟨shard, .loadDistTxnDecision txnId⟩
      (Cluster.exec C env c ⟨shard, .loadDistTxnDecision txnId⟩) := by
  refine h.callSound_same rfl rfl rfl ?_
  cases hload : SingleNode.loadDistTxnDecision C (c.stores shard) txnId with
  | error e => exact Set.empty_subset _
  | ok decision =>
    rintro ⟨txnId', decision'⟩ ⟨rfl, rfl⟩
    exact h.durable_of_load hload

theorem ClusterInv.callSound_error (h : ClusterInv C cfg c) {e : ReplError}
    (hexec : request.exec C env (c.stores shard) = (.error e, c.stores shard)) :
    CallSound C cfg c ⟨shard, request⟩ (Cluster.exec C env c ⟨shard, request⟩) := by
  refine h.callSound_same hexec ?_ ?_ ?_
  · cases request <;> rfl
  · cases request with
    | finishDistTxn txnId decision => cases decision <;> rfl
    | _ => rfl
  · cases request <;> exact Set.empty_subset _

/-- A call that allocates and applies nothing is sound. -/
theorem ClusterInv.callSound_quiet (h : ClusterInv C cfg c)
    (reply : ReplResult request.Answer)
    (hexec : request.exec C env (c.stores shard) = (reply, s'))
    (hallocates : request.allocates reply = []) (hlearns : request.learns C reply = ∅)
    (hlocks : LockInv C s')
    (hsame : ∀ t ∈ coordinatorTables, ∀ k, s'.get t k = (c.stores shard).get t k)
    (hnew : ∀ txnId decision, Finished C s' txnId decision →
      Finished C (c.stores shard) txnId decision ∨
        Durable C (c.stores cfg.globalShard) txnId decision)
    (hkeep : ∀ txnId decision, Finished C (c.stores shard) txnId decision →
      Finished C s' txnId decision)
    (happlied : ∀ txnId, request.applies (c.stores shard) reply = some txnId →
      Finished C s' txnId .commit) :
    CallSound C cfg c ⟨shard, request⟩ (Cluster.exec C env c ⟨shard, request⟩) := by
  obtain ⟨hinv, hstable⟩ := h.quiet (request.applies (c.stores shard) reply).toList
    hlocks hsame hnew hkeep (by simpa using happlied)
  have hresult : Cluster.exec C env c ⟨shard, request⟩ = (reply,
      { stores := Function.update c.stores shard s', allocated := c.allocated,
        applied := (request.applies (c.stores shard) reply).toList.map (shard, ·) ++
          c.applied }) := by
    simp only [Cluster.exec, hexec, hallocates, List.nil_append]
    cases request.applies (c.stores shard) reply <;> rfl
  rw [hresult]
  refine ⟨hinv, hstable, ?_⟩
  rw [hlearns]
  exact Set.empty_subset _

theorem ClusterInv.callSound_plain (h : ClusterInv C cfg c)
    (reply : ReplResult request.Answer)
    (hexec : request.exec C env (c.stores shard) = (reply, s'))
    (hallocates : request.allocates reply = []) (hlearns : request.learns C reply = ∅)
    (happlies : request.applies (c.stores shard) reply = none)
    (hstep : PlainStep C (c.stores shard) s')
    (hsame : ∀ t ∈ coordinatorTables, ∀ k, s'.get t k = (c.stores shard).get t k) :
    CallSound C cfg c ⟨shard, request⟩ (Cluster.exec C env c ⟨shard, request⟩) := by
  have hfinished : ∀ txnId decision, Finished C s' txnId decision ↔
      Finished C (c.stores shard) txnId decision := by
    intro txnId decision
    rw [Finished, hstep.get_distTxn (by decide), Finished]
  refine h.callSound_quiet reply hexec hallocates hlearns ((h.locks shard).plain hstep) hsame
    (fun _ _ hf => Or.inl ((hfinished _ _).mp hf)) (fun _ _ hf => (hfinished _ _).mpr hf) ?_
  rw [happlies]
  simp

theorem ClusterInv.callSound_proposeBatch (h : ClusterInv C cfg c) (ops : List Op) :
    CallSound C cfg c ⟨shard, .proposeBatch ops⟩
      (Cluster.exec C env c ⟨shard, .proposeBatch ops⟩) := by
  cases hresult : SingleNode.proposeBatch C env (c.stores shard) ops with
  | error e =>
    exact h.callSound_error (e := e) (by simp [Request.exec, hresult, written, Except.map])
  | ok s' =>
    have hstep := (proposeBatch_commits hresult).step
    exact h.callSound_plain (.ok ()) (by simp [Request.exec, hresult, written, Except.map])
      rfl rfl rfl hstep.plain fun t ht k => hstep.get_coordinator ht k

theorem ClusterInv.callSound_setMigration (h : ClusterInv C cfg c) (key value : Bytes) :
    CallSound C cfg c ⟨shard, .proposeAuthorizedBatch [.put shardMigrationsTable key value]⟩
      (Cluster.exec C env c
        ⟨shard, .proposeAuthorizedBatch [.put shardMigrationsTable key value]⟩) := by
  cases hresult : SingleNode.proposeAuthorizedBatch C env (c.stores shard)
      [.put shardMigrationsTable key value] with
  | error e =>
    exact h.callSound_error (e := e) (by simp [Request.exec, hresult, written, Except.map])
  | ok s' =>
    have hputs := putsRow_of_authorizedBatch (by decide) hresult
    refine h.callSound_plain (.ok ()) (by simp [Request.exec, hresult, written, Except.map])
      rfl rfl rfl hputs.plain fun t ht k => hputs.coordinator ht ?_
    rintro rfl
    exact absurd ht (by decide)

/-- A prepare is sound. -/
theorem ClusterInv.callSound_prepareDistTxn (h : ClusterInv C cfg c) (txnId : TxnId)
    (ops : List Op) :
    CallSound C cfg c ⟨shard, .prepareDistTxn txnId ops⟩
      (Cluster.exec C env c ⟨shard, .prepareDistTxn txnId ops⟩) := by
  cases hresult : SingleNode.prepareDistTxn C env (c.stores shard) txnId ops with
  | error e => exact h.callSound_error (e := e) (by simp [Request.exec, hresult, written])
  | ok result =>
    obtain ⟨vote, s'⟩ := result
    have hexec : Request.exec C env (c.stores shard) (.prepareDistTxn txnId ops) =
        (.ok vote, s') := by simp [Request.exec, hresult, written]
    rcases prepareDistTxn_cases hresult with ⟨rfl, -⟩ | ⟨record, -, -, hstep⟩
    · exact h.callSound_same hexec rfl rfl (Set.empty_subset _)
    · have hstore := hstep.preparedStore
      have hfinished : ∀ id decision, Finished C s' id decision ↔
          Finished C (c.stores shard) id decision := by
        intro id decision
        rw [Finished, hstore.get_finished, Finished]
      exact h.callSound_quiet (.ok vote) hexec rfl rfl ((h.locks shard).prepare hstore)
        (fun t ht k => hstore.get_coordinator ht k)
        (fun _ _ hf => Or.inl ((hfinished _ _).mp hf)) (fun _ _ hf => (hfinished _ _).mpr hf)
        (fun _ hap => absurd hap (by simp [Request.applies]))

theorem FinishedStore.finished_iff {s : Store} {prepared : Option PreparedTxnRecord}
    {record : FinishedTxnRecord} (h : FinishedStore C s prepared record s')
    {decision : Decision} :
    Finished C s' txnId decision ↔ Finished C s txnId decision ∨
      (txnId = record.txnId ∧ decision = record.decision) := by
  by_cases hid : txnId = record.txnId
  · subst hid
    obtain ⟨bytes, hget, hdecode⟩ := h.finished
    have hnone : ¬ Finished C s record.txnId decision := by
      rintro ⟨_, _, hget', -⟩
      rw [h.unfinished] at hget'
      contradiction
    rw [or_iff_right hnone, and_iff_right rfl]
    constructor
    · rintro ⟨bytes', record', hget', hdecode', rfl⟩
      cases hget.symm.trans hget'
      rw [Except.ok.inj (hdecode.symm.trans hdecode')]
    · rintro rfl
      exact ⟨bytes, record, hget, hdecode, rfl⟩
  · rw [Finished, h.others _ fun heq => hid (encodeTxnId_inj.mp heq), ← Finished,
      or_iff_left fun hsame => hid hsame.1]

theorem applies_finishDistTxn {s : Store} {id : TxnId} {decision : Decision}
    (h : (Request.finishDistTxn txnId decision).applies s (.ok ()) = some id) :
    decision = .commit ∧ id = txnId := by
  cases decision with
  | abort => contradiction
  | commit =>
    simp only [Request.applies] at h
    split at h
    · exact ⟨rfl, (Option.some.inj h).symm⟩
    · contradiction

/-- A finish is sound when its decision is durable. -/
theorem ClusterInv.callSound_finishDistTxn (h : ClusterInv C cfg c)
    {decision : Decision} (hdurable : Durable C (c.stores cfg.globalShard) txnId decision) :
    CallSound C cfg c ⟨shard, .finishDistTxn txnId decision⟩
      (Cluster.exec C env c ⟨shard, .finishDistTxn txnId decision⟩) := by
  cases hresult : SingleNode.finishDistTxn C env (c.stores shard) txnId decision with
  | error e =>
    exact h.callSound_error (e := e) (by simp [Request.exec, hresult, written, Except.map])
  | ok s' =>
    have hexec : Request.exec C env (c.stores shard) (.finishDistTxn txnId decision) =
        (.ok (), s') := by simp [Request.exec, hresult, written, Except.map]
    rcases finishDistTxn_cases hresult with
      ⟨rfl, bytes, record, hget, hdecode, rfl⟩ | ⟨prepared, record, rfl, rfl, hstep⟩
    · refine h.callSound_quiet (.ok ()) hexec rfl rfl (h.locks shard) (fun _ _ _ => rfl)
        (fun _ _ hf => Or.inl hf) (fun _ _ hf => hf) fun id hap => ?_
      obtain ⟨hcommit, rfl⟩ := applies_finishDistTxn hap
      exact ⟨bytes, record, hget, hdecode, hcommit⟩
    · have hstore := hstep.finishedStore
      refine h.callSound_quiet (.ok ()) hexec rfl rfl ((h.locks shard).finish hstore)
        (fun t ht k => hstore.get_coordinator ht k) (fun id d hf => ?_)
        (fun id d hf => hstore.finished_iff.mpr (Or.inl hf)) fun id hap => ?_
      · rcases hstore.finished_iff.mp hf with hf | ⟨rfl, rfl⟩
        · exact Or.inl hf
        · exact Or.inr hdurable
      · obtain ⟨hcommit, rfl⟩ := applies_finishDistTxn hap
        exact hstore.finished_iff.mpr (Or.inr ⟨rfl, hcommit.symm⟩)

theorem ClusterInv.callSound_decision (h : ClusterInv C cfg c)
    (hbatch : IsDecision C batch) :
    CallSound C cfg c ⟨cfg.globalShard, .proposeAuthorizedConditionalBatch batch⟩
      (Cluster.exec C env c ⟨cfg.globalShard, .proposeAuthorizedConditionalBatch batch⟩) := by
  obtain ⟨record, bytes, hencode, hversion, rfl⟩ := hbatch
  cases hresult : SingleNode.proposeAuthorizedConditionalBatch C env (c.stores cfg.globalShard)
      (decisionBatch record.txnId bytes) with
  | error e =>
    exact h.callSound_error (e := e) (by simp [Request.exec, hresult, written, Except.map])
  | ok s' =>
    obtain ⟨hmissing, hputs⟩ := putsRow_of_batch (by decide) hresult
    have hmissing := hmissing _ List.mem_cons_self
    have hdecode := decodeDecision_of_encode hencode hversion
    obtain ⟨hinv, hstable, hnew⟩ := h.decision hdecode (by simpa [conditionMatches] using hmissing)
      hputs
    have hexec : Cluster.exec C env c ⟨cfg.globalShard, .proposeAuthorizedConditionalBatch
        (decisionBatch record.txnId bytes)⟩ = (.ok (),
        { stores := Function.update c.stores cfg.globalShard s', allocated := c.allocated,
          applied := c.applied }) := by
      simp only [Cluster.exec, Request.exec, hresult, written, Except.map]
      rfl
    rw [hexec]
    refine ⟨hinv, fun fact hfact => ?_, ?_⟩
    · simpa [durableDecisions] using hstable fact.1 fact.2 hfact
    · rintro ⟨txnId, decision⟩ ⟨bytes', hbatch, record', hdecode', hid, hdecision⟩
      have hops := congrArg ConditionalBatch.ops hbatch
      simp only [decisionBatch, List.cons.injEq, Op.put.injEq, true_and, and_true,
        encodeTxnId_inj] at hops
      obtain ⟨rfl, rfl⟩ := hops
      cases hdecode.symm.trans hdecode'
      simp only at hdecision
      simpa [durableDecisions, hdecision] using hnew

theorem ClusterInv.callSound_allocation (h : ClusterInv C cfg c)
    (hbatch : IsAllocation batch) :
    CallSound C cfg c ⟨cfg.globalShard, .proposeAuthorizedConditionalBatch batch⟩
      (Cluster.exec C env c ⟨cfg.globalShard, .proposeAuthorizedConditionalBatch batch⟩) := by
  obtain ⟨previous, next, rfl, hnext⟩ := hbatch
  cases hresult : SingleNode.proposeAuthorizedConditionalBatch C env (c.stores cfg.globalShard)
      (allocationBatch previous next) with
  | error e =>
    exact h.callSound_error (e := e) (by simp [Request.exec, hresult, written, Except.map])
  | ok s' =>
    obtain ⟨hprevious, hputs⟩ := putsRow_of_batch (by decide) hresult
    have hprevious := hprevious _ List.mem_cons_self
    obtain ⟨hinv, hstable⟩ := h.allocation hnext (by simpa [conditionMatches] using hprevious)
      hputs
    have hexec : Cluster.exec C env c ⟨cfg.globalShard, .proposeAuthorizedConditionalBatch
        (allocationBatch previous next)⟩ = (.ok (),
        { stores := Function.update c.stores cfg.globalShard s',
          allocated := next :: c.allocated, applied := c.applied }) := by
      simp only [Cluster.exec, Request.exec, hresult, written, Except.map]
      simp [Request.allocates, allocationBatch, Op.sequenceId, encodeTxnId, Request.applies]
    rw [hexec]
    refine ⟨hinv, fun fact hfact => ?_, ?_⟩
    · simpa [durableDecisions] using hstable fact.1 fact.2 hfact
    · rintro fact ⟨bytes', hbatch, -⟩
      have hops := congrArg ConditionalBatch.ops hbatch
      simp only [decisionBatch, allocationBatch, List.cons.injEq, Op.put.injEq, and_true] at hops
      exact absurd hops.1 (by decide)

end Calls

/-- Every permitted call is sound. -/
theorem ClusterInv.callSound (h : ClusterInv C cfg c) {call : Call} (env : Env)
    (hmay : Permitted C cfg (durableDecisions C cfg c) call) :
    CallSound C cfg c call (Cluster.exec C env c call) := by
  obtain ⟨shard, request⟩ := call
  cases request with
  | read table key => exact h.callSound_read table key
  | range table start stop => exact h.callSound_range table start stop
  | proposeBatch ops => exact h.callSound_proposeBatch ops
  | proposeAuthorizedBatch ops =>
    obtain ⟨key, value, rfl⟩ := hmay
    exact h.callSound_setMigration key value
  | proposeAuthorizedConditionalBatch batch =>
    obtain ⟨rfl, hbatch | hbatch⟩ := hmay
    · exact h.callSound_decision hbatch
    · exact h.callSound_allocation hbatch
  | prepareDistTxn txnId ops => exact h.callSound_prepareDistTxn txnId ops
  | finishDistTxn txnId decision => exact h.callSound_finishDistTxn hmay
  | localPreparedDistTxns => exact h.callSound_same rfl (by rfl) rfl (Set.empty_subset _)
  | loadDistTxnDecision txnId => exact h.callSound_loadDistTxnDecision txnId
  | registeredKeyspaces => exact h.callSound_same rfl (by rfl) rfl (Set.empty_subset _)

end MultiDb
