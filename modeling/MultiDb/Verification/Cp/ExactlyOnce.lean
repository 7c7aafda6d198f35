import MultiDb.Verification.Cp.Agreement

/-!
# Exactly-once apply

A node may stop between any two storage commits, also during an apply; a restart continues behind
the stored position of the log.
-/

namespace MultiDb

open Shared Tables

variable {r : ReplApplyResponse}
variable {logId : LogId} {membership : Option StoredMembership} {conflict : Bool} {next : Option ℕ}

/-- A log whose entries are numbered from zero. -/
structure CommittedLog where
  entries : List CpEntry
  indexed : ∀ i (entry : CpEntry), entries[i]? = some entry → entry.logId.index.toNat = i

/-- The same environments, with commits that the engine acknowledges. -/
def Env.acknowledged (env : Env) : Env :=
  { env with commit := .ok () }

def ApplyEnv.acknowledged (env : ApplyEnv) : ApplyEnv where
  write := env.write.acknowledged
  retry := env.retry.acknowledged
  commit_ne_conflict := by simp [Env.acknowledged]

/-- The store, where the process continues (nowhere while it is down), and the entry behind each
storage commit that became durable. -/
structure CpNode where
  store : Store := .empty
  next : Option ℕ := none
  applied : List (ApplyEnv × CpEntry) := []

/-- What can happen to a replica that applies the log. -/
inductive CpEvent
  /-- The process starts and reads the applied position. -/
  | start
  /-- An apply of the next entry, or one that ends with the process after `kept` storage commits. -/
  | apply (env : ApplyEnv) (kept : Option ℕ)
  | crash

/-- The index of the first entry not yet applied. -/
def resumeAt : Option LogId → ℕ
  | none => 0
  | some logId => logId.index.toNat + 1

variable (C : CpCodecs)

/-- The node after storage commits of an apply became durable. -/
def CpNode.keep (node : CpNode) (env : ApplyEnv) (entry : CpEntry) (commits : List Store)
    (next : Option ℕ) : CpNode where
  store := Durable.after node.store commits
  next := next
  applied := node.applied ++ commits.map fun _ => (env.acknowledged, entry)

/-- An apply of the next entry.  It ends the process when it is cut or fails; a commit that failed
may have become durable. -/
def CpNode.applyNext (log : CommittedLog) (node : CpNode) (env : ApplyEnv) (kept : Option ℕ) :
    CpNode :=
  match node.next with
  | none => node
  | some i =>
    match log.entries[i]? with
    | none => node
    | some entry =>
      let call := applyOneTxns C env entry node.store
      match kept, call.2 with
      | none, .ok _ => node.keep env entry call.1 (some (i + 1))
      | none, .error _ => node.keep env entry call.1 none
      | some kept, _ => node.keep env entry (call.1.take kept) none

/-- One event: only an apply whose commits all land counts as done. -/
def CpNode.step (log : CommittedLog) (node : CpNode) : CpEvent → CpNode
  | .start =>
    match node.next, appliedState C node.store with
    | none, .ok (applied, _) => { node with next := some (resumeAt applied) }
    | _, _ => node
  | .apply env kept => node.applyNext C log env kept
  | .crash => { node with next := none }

/-- A replica after a list of events. -/
def runCp (log : CommittedLog) (events : List CpEvent) : CpNode :=
  events.foldl (CpNode.step C log) {}

/-! ## The applied position -/

variable {C} {s t : Store}

theorem readLogId_writeApplyMetadata
    {txnId : TxnId} (h : writeApplyMetadata C s logId membership txnId = .ok t) :
    readLogId C t lastAppliedLogIdKey = .ok (some logId) := by
  simp only [writeApplyMetadata, writeOptionalLogId, bind_eq_ok_iff, pure_eq_ok_iff] at h
  obtain ⟨_, ⟨id, hid, rfl⟩, h⟩ := h
  have hdecoded : decodeIo C.logId id = .ok logId := by
    rw [decodeIo, C.logId.from_toVec (mapError_eq_ok_iff.mp hid)]
    rfl
  have hget : t.get raftStateTable lastAppliedLogIdKey = some id := by
    cases membership with
    | none =>
      obtain rfl := pure_eq_ok_iff.mp h
      rw [get_put_of_ne fun _ => by decide, get_put_of_ne fun _ => by decide,
        get_put_of_ne fun _ => by decide, get_put_self]
    | some membership =>
      simp only [bind_eq_ok_iff, pure_eq_ok_iff] at h
      obtain ⟨bytes, -, rfl⟩ := h
      rw [get_put_of_ne fun _ => by decide, get_put_of_ne fun _ => by decide,
        get_put_of_ne fun _ => by decide, get_put_of_ne fun _ => by decide, get_put_self]
  simp [readLogId, hget, hdecoded, Functor.map, Except.map]

theorem commitMetadata_metadata {env : Env} (h : commitMetadata C env s logId membership conflict = .ok (r, t)) :
    currentTxnIdFrom s = .ok r.txnId ∧ r.conflict = conflict ∧
      writeApplyMetadata C s logId membership r.txnId = .ok t := by
  simp only [commitMetadata, bind_eq_ok_iff, pure_eq_ok_iff, Prod.mk.injEq] at h
  obtain ⟨txnId, hid, s₁, hs₁, _, -, rfl, rfl⟩ := h
  exact ⟨hid, rfl, hs₁⟩

theorem readLogId_applyOne {env : ApplyEnv} {entry : CpEntry}
    (h : applyOne C env s entry = .ok (r, t)) :
    readLogId C t lastAppliedLogIdKey = .ok (some entry.logId) := by
  have hmeta : ∀ {env membership conflict},
      commitMetadata C env s entry.logId membership conflict = .ok (r, t) →
      readLogId C t lastAppliedLogIdKey = .ok (some entry.logId) := fun h =>
    readLogId_writeApplyMetadata (commitMetadata_metadata h).2.2
  cases hpayload : entry.payload with
  | blank =>
    simp only [applyOne, hpayload, applyMetadataOnly, bind_eq_ok_iff] at h
    obtain ⟨_, -, h⟩ := h
    exact hmeta h
  | membership membership =>
    simp only [applyOne, hpayload, applyMetadataOnly, bind_eq_ok_iff] at h
    obtain ⟨_, -, h⟩ := h
    exact hmeta h
  | normal command =>
    simp only [applyOne, hpayload] at h
    cases applyCommand_outcome h with
    | condition _ h => exact hmeta h
    | writeSet _ _ h => exact hmeta h
    | conflict _ _ _ _ h => exact hmeta h
    | committed _ _ _ h =>
      obtain ⟨-, -, _, _, _, -, -, -, h⟩ := commitCommand_eq_ok h
      exact readLogId_writeApplyMetadata h

open Durable

variable {env : ApplyEnv} {entry : CpEntry} {committed : Store}

theorem commitMetadataTxn_eq (env : Env) (logId : LogId) (membership : Option StoredMembership)
    (conflict : Bool) :
    commitMetadataTxn C env s logId membership conflict committed =
      transaction env.commit (commitMetadata C env.acknowledged s logId membership conflict) := by
  apply lift_bind_eq_transaction
  intro txnId
  apply lift_bind_eq_transaction
  intro t
  exact commit_bind_pure

theorem commitCommandTxn_eq (env : Env) (logId : LogId) (snapshotId : TxnId) (writes : WriteSet) :
    commitCommandTxn C env s logId snapshotId writes committed =
      transaction env.commit (commitCommand C env.acknowledged s logId snapshotId writes) := by
  apply lift_bind_eq_transaction
  intro _
  apply lift_bind_eq_transaction
  intro _
  apply lift_bind_eq_transaction
  intro current
  cases checkedSucc current with
  | none => rfl
  | some nextTxnId =>
    apply lift_bind_eq_transaction
    intro hlc
    apply lift_bind_eq_transaction
    intro applied
    apply lift_bind_eq_transaction
    intro t
    exact commit_bind_pure

/-! ## Transactions -/

/-- What an apply hands to the engine: nothing, when it fails, or one store, with the effect of the
entry and its position. -/
inductive CommitsOnce (C : CpCodecs) (env : ApplyEnv) (entry : CpEntry) (s : Store) :
    List Store × Result ReplApplyResponse → Prop
  | failed (e : StorageError) : CommitsOnce C env entry s ([], .error e)
  | committed {r : ReplApplyResponse} {t : Store} (reply : Result Unit)
      (h : applyOne C env.acknowledged s entry = .ok (r, t)) :
      CommitsOnce C env entry s ([t], reply.map fun _ => r)

theorem commitsOnce_transaction {reply : Result Unit} {staged : Result (ReplApplyResponse × Store)}
    (h : ∀ result, staged = .ok result → applyOne C env.acknowledged s entry = .ok result) :
    CommitsOnce C env entry s (transaction reply staged) := by
  cases hstaged : staged with
  | error e => exact .failed e
  | ok result => exact .committed reply (h result hstaged)

theorem commitsOnce_commitMetadataTxn {env' : Env}
    (h : applyOne C env.acknowledged s entry =
      commitMetadata C env'.acknowledged s entry.logId membership conflict) :
    CommitsOnce C env entry s
      (commitMetadataTxn C env' s entry.logId membership conflict committed) := by
  rw [commitMetadataTxn_eq]
  exact commitsOnce_transaction fun result hresult => h.trans hresult

/-- The transaction with a command: a conflict in it commits nothing and leads to a second one. -/
theorem commitCommandTxn_commitsOnce {snapshotId : TxnId} {writes : WriteSet}
    (h : applyOne C env.acknowledged s entry =
      match commitCommand C env.write.acknowledged s entry.logId snapshotId writes with
      | .ok (txnId, s) => .ok ({ txnId, conflict := false }, s)
      | .error .conflict => do
        env.retry.beginWrite
        commitMetadata C env.retry.acknowledged s entry.logId none true
      | .error error => .error error) :
    CommitsOnce C env entry s
    ((commitCommandTxn C env.write s entry.logId snapshotId writes).andThen
      (fun
        | .ok txnId => return { txnId, conflict := false }
        | .error .conflict => do
          let s ← beginWrite env.retry.beginWrite
          commitMetadataTxn C env.retry s entry.logId none true
        | .error error => lift (.error error)) s) := by
  rw [andThen, commitCommandTxn_eq]
  cases hcommit : commitCommand C env.write.acknowledged s entry.logId snapshotId writes with
  | ok result =>
    obtain ⟨txnId, t⟩ := result
    rw [hcommit] at h
    have hreply := env.commit_ne_conflict
    cases hwrite : env.write.commit with
    | ok => exact .committed (.ok ()) h
    | error e =>
      rw [hwrite] at hreply
      cases e with
      | conflict => contradiction
      | _ => exact .committed (.error _) h
  | error e =>
    rw [hcommit] at h
    cases e with
    | conflict =>
      cases hretry : env.retry.beginWrite with
      | error e => exact .failed e
      | ok =>
        rw [hretry] at h
        exact commitsOnce_commitMetadataTxn h
    | _ => exact .failed _

/-- A command is committed once, or fails without a trace. -/
theorem applyCommandTxns_commitsOnce {command : ReplCommand}
    (hentry : entry.payload = .normal command) :
    CommitsOnce C env entry s (applyCommandTxns C env entry.logId command s) := by
  have happly : applyOne C env.acknowledged s entry =
      applyCommand C env.acknowledged s entry.logId command := by
    rw [applyOne, hentry]
  rw [applyCommand] at happly
  rw [applyCommandTxns]
  cases hwrite : env.write.beginWrite with
  | error e => exact .failed e
  | ok =>
    have hbegin : env.acknowledged.write.beginWrite = .ok () := hwrite
    rw [hbegin] at happly
    rw [beginWrite_bind]
    cases hall : command.conditions.all (conditionMatches s) with
    | false =>
      rw [hall] at happly
      exact commitsOnce_commitMetadataTxn happly
    | true =>
      rw [hall] at happly
      cases hwrites : commandWriteSet C s command with
      | error e =>
        rw [hwrites] at happly
        cases e with
        | conflict => exact commitsOnce_commitMetadataTxn happly
        | _ => exact .failed _
      | ok writes =>
        rw [hwrites] at happly
        cases hsnapshot : commandSnapshot s command with
        | error e => exact .failed e
        | ok snapshotId =>
          rw [hsnapshot] at happly
          exact commitCommandTxn_commitsOnce happly

/-- Every apply commits once, whatever the entry is. -/
theorem applyOneTxns_commitsOnce (env : ApplyEnv) (entry : CpEntry) (s : Store) :
    CommitsOnce C env entry s (applyOneTxns C env entry s) := by
  have hmeta {membership : Option StoredMembership}
      (h : applyOne C env.acknowledged s entry =
        applyMetadataOnly C env.acknowledged.write s entry.logId membership) :
      CommitsOnce C env entry s ((beginWrite env.write.beginWrite >>= fun s =>
        commitMetadataTxn C env.write s entry.logId membership false) s) := by
    rw [applyMetadataOnly] at h
    cases hwrite : env.write.beginWrite with
    | error e => exact .failed e
    | ok =>
      have hbegin : env.acknowledged.write.beginWrite = .ok () := hwrite
      rw [hbegin] at h
      exact commitsOnce_commitMetadataTxn h
  cases hpayload : entry.payload with
  | blank =>
    rw [applyOneTxns, hpayload]
    exact hmeta (by rw [applyOne, hpayload])
  | membership membership =>
    rw [applyOneTxns, hpayload]
    exact hmeta (by rw [applyOne, hpayload])
  | normal command =>
    rw [applyOneTxns, hpayload]
    exact applyCommandTxns_commitsOnce hpayload

theorem applyEntries_concat {run : List (ApplyEnv × CpEntry)} {env : ApplyEnv} {entry : CpEntry}
    {s' : Store} {rs : List ReplApplyResponse}
    (hrun : applyEntries C s run = .ok (rs, s')) (hone : applyOne C env s' entry = .ok (r, t)) :
    applyEntries C s (run ++ [(env, entry)]) = .ok (rs ++ [r], t) := by
  induction run generalizing s rs with
  | nil =>
    simp only [applyEntries, Except.ok.injEq, Prod.mk.injEq] at hrun
    obtain ⟨rfl, rfl⟩ := hrun
    simp [applyEntries, hone, bind, Except.bind, pure, Except.pure]
  | cons step run ih =>
    simp only [applyEntries, bind_eq_ok_iff, pure_eq_ok_iff, Prod.mk.injEq] at hrun
    obtain ⟨⟨r₁, s₁⟩, hone₁, ⟨rest, s₂⟩, hrest, rfl, rfl⟩ := hrun
    simp [applyEntries, hone₁, ih hrest, bind, Except.bind, pure, Except.pure]

/-! ## Runs -/

/-- The applied entries are the first of the log, and the store is that of their run. -/
structure CpInv (C : CpCodecs) (log : CommittedLog) (node : CpNode) : Prop where
  entries : node.applied.map Prod.snd = log.entries.take node.applied.length
  run : ∃ responses, applyEntries C .empty node.applied = .ok (responses, node.store)
  position : ∃ applied, readLogId C node.store lastAppliedLogIdKey = .ok applied ∧
    resumeAt applied = node.applied.length
  next : ∀ i, node.next = some i → i = node.applied.length

variable {log : CommittedLog} {node : CpNode}

theorem cpInv_empty (C : CpCodecs) (log : CommittedLog) : CpInv C log {} where
  entries := by simp
  run := ⟨[], rfl⟩
  position := ⟨none, by simp [readLogId], rfl⟩
  next := by simp

theorem CpInv.moves (hinv : CpInv C log node)
    (hnext : ∀ i, next = some i → i = node.applied.length) :
    CpInv C log (node.keep env entry [] next) := by
  have hkeep : node.keep env entry [] next = { node with next } := by
    simp [CpNode.keep, after]
  rw [hkeep]
  exact ⟨hinv.entries, hinv.run, hinv.position, hnext⟩

/-- Whatever part of the storage commits of an apply is durable, the invariant holds. -/
theorem CpInv.keep (hinv : CpInv C log node)
    (hentry : log.entries[node.applied.length]? = some entry)
    {call : List Store × Result ReplApplyResponse} (hcall : CommitsOnce C env entry node.store call)
    {commits : List Store} (hcommits : commits <+: call.1)
    (hnext : ∀ i, next = some i → i = node.applied.length + commits.length) :
    CpInv C log (node.keep env entry commits next) := by
  cases hcall with
  | failed e =>
    obtain rfl := List.prefix_nil.mp hcommits
    exact hinv.moves hnext
  | committed reply hone =>
    simp only [List.prefix_cons_iff, List.prefix_nil] at hcommits
    rcases hcommits with rfl | ⟨_, rfl, rfl⟩
    · exact hinv.moves hnext
    · obtain ⟨responses, hrun⟩ := hinv.run
      refine ⟨?_, ⟨_, applyEntries_concat hrun hone⟩, ⟨_, readLogId_applyOne hone, ?_⟩, ?_⟩
      · simp [CpNode.keep, hinv.entries, List.take_add_one, hentry]
      · simp [CpNode.keep, resumeAt, log.indexed _ _ hentry]
      · intro i hi
        simpa [CpNode.keep] using hnext i hi

/-- An apply, even one cut short, keeps the invariant. -/
theorem CpInv.applyNext (hinv : CpInv C log node) (env : ApplyEnv) (kept : Option ℕ) :
    CpInv C log (node.applyNext C log env kept) := by
  cases hup : node.next with
  | none => simpa only [CpNode.applyNext, hup] using hinv
  | some i =>
    obtain rfl := hinv.next i hup
    cases hentry : log.entries[node.applied.length]? with
    | none => simpa only [CpNode.applyNext, hup, hentry] using hinv
    | some entry =>
      have hcall := applyOneTxns_commitsOnce (C := C) env entry node.store
      simp only [CpNode.applyNext, hup, hentry]
      generalize applyOneTxns C env entry node.store = call at hcall
      split
      · rename_i hok
        refine hinv.keep hentry hcall List.prefix_rfl fun i hi => ?_
        cases hcall with
        | failed e => contradiction
        | committed reply hone => exact (Option.some.inj hi).symm
      · exact hinv.keep hentry hcall List.prefix_rfl fun i hi => by simp at hi
      · exact hinv.keep hentry hcall (List.take_prefix _ _) fun i hi => by simp at hi

theorem CpInv.step (hinv : CpInv C log node) (event : CpEvent) :
    CpInv C log (node.step C log event) := by
  cases event with
  | start =>
    rw [CpNode.step]
    split
    · next _ applied _ _ hstate =>
        obtain ⟨position, hposition, hlength⟩ := hinv.position
        obtain ⟨_, hread, _, -, heq⟩ := by
          simpa only [appliedState, bind_eq_ok_iff, pure_eq_ok_iff] using hstate
        rw [hposition] at hread
        cases hread
        obtain ⟨rfl, -⟩ := Prod.mk.inj heq
        refine ⟨hinv.entries, hinv.run, ⟨position, hposition, hlength⟩, ?_⟩
        intro i hi
        rw [← hlength]
        exact (Option.some.inj hi).symm
    · exact hinv
  | apply env kept => exact hinv.applyNext env kept
  | crash => exact ⟨hinv.entries, hinv.run, hinv.position, by simp [CpNode.step]⟩

theorem runCp_inv (C : CpCodecs) (log : CommittedLog) (events : List CpEvent) :
    CpInv C log (runCp C log events) :=
  List.foldlRecOn _ _ (cpInv_empty C log) fun _ hinv event _ => hinv.step event

def clockTables : List String :=
  [hlcTable, commitLogTable]

theorem hides_clockTables : Hides clockTables where
  hlc := by decide
  log := by decide
  visible := by decide

/-- Each entry took effect once, and other clocks give the same rows and versions. -/
structure ExactlyOnce (C : CpCodecs) (log : CommittedLog) (node : CpNode) : Prop where
  once : node.applied.map Prod.snd = log.entries.take node.applied.length
  resumes : ∀ i, node.next = some i → i = node.applied.length
  replayed : ∃ responses, applyEntries C .empty node.applied = .ok (responses, node.store)
  clocks : (∀ entry ∈ log.entries, entry.ReadsOff clockTables) →
    ∀ run responses s, run.map Prod.snd = log.entries.take node.applied.length →
      applyEntries C .empty run = .ok (responses, s) →
      ∀ t ∉ clockTables, ∀ k, node.store.get t k = s.get t k

/-- In every run with restarts, every entry takes effect exactly once. -/
theorem exactlyOnce_runCp (C : CpCodecs) (log : CommittedLog) (events : List CpEvent) :
    ExactlyOnce C log (runCp C log events) := by
  have hinv := runCp_inv C log events
  obtain ⟨responses, hrun⟩ := hinv.run
  refine ⟨hinv.entries, hinv.next, hinv.run, ?_⟩
  intro hreads run responses' s hentries hrun'
  have hsame := hinv.entries.trans hentries.symm
  have hreads' : ∀ step ∈ (runCp C log events).applied, step.2.ReadsOff clockTables := by
    intro step hstep
    apply hreads
    have hmem := List.mem_map_of_mem (f := Prod.snd) hstep
    rw [hinv.entries] at hmem
    exact List.mem_of_mem_take hmem
  exact (applyEntries_agree hides_clockTables hsame hreads' (.refl _ _) hrun hrun').2

end MultiDb
