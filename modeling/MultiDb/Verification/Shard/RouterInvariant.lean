import MultiDb.Verification.DistTxn.Rows
import MultiDb.Verification.Shard.Inventory

/-!
# The invariant of a router's runs

A public row holds its last committed write on the shard that owns it, unless a transaction
with a durable commit is still in doubt there.
-/

namespace MultiDb

open Shared

variable {C : Codecs} {cfg : RouterConfig} {c c' : Cluster}

/-- A transaction with a durable commit is in doubt on the row and writes `v`. -/
def InDoubt (C : Codecs) (cfg : RouterConfig) (c : Cluster) (shard : ShardId) (t : String)
    (k : Bytes) (v : Option Bytes) : Prop :=
  ∃ record, Prepared C (c.stores shard) record ∧
    Durable C (c.stores cfg.globalShard) record.txnId .commit ∧ record.rows.get t k = some v

/-- The cluster agrees with the committed writes; `pending` may be prepared without a decision. -/
structure RouterInv (C : Codecs) (cfg : RouterConfig) (map : ShardMap) (committed : WriteSet)
    (pending : Option TxnId) (ids : List TxnId) (c : Cluster) : Prop where
  cluster : ClusterInv C cfg c
  inventoried : ∀ shard, Inventoried (c.stores shard)
  known : ∀ txnId decision, Durable C (c.stores cfg.globalShard) txnId decision → txnId ∈ ids
  decided : ∀ shard record, Prepared C (c.stores shard) record → pending = some record.txnId ∨
    ∃ decision, Durable C (c.stores cfg.globalShard) record.txnId decision
  in_doubt : ∀ shard t k v, InDoubt C cfg c shard t k v →
    map.shardFor C cfg t k = .ok shard ∧ committed.get t k = some v
  settled : ∀ shard t k, tableIsReserved t = false → map.shardFor C cfg t k = .ok shard →
    (∀ v, ¬ InDoubt C cfg c shard t k v) →
    (c.stores shard).get t k = (committed.get t k).join
  routed : ∀ shard t k, tableIsReserved t = false → (c.stores shard).get t k ≠ none →
    ∃ owner, map.shardFor C cfg t k = .ok owner
  committed_row : ∀ t k v, committed.get t k = some v → tableIsReserved t = false ∧
    (∃ lock, versionKey t k = .ok lock) ∧ ∃ owner, map.shardFor C cfg t k = .ok owner

theorem routerInv_init (C : Codecs) (cfg : RouterConfig) (map : ShardMap) :
    RouterInv C cfg map .empty none [] .empty := by
  constructor
  case cluster => exact clusterInv_empty C cfg
  all_goals simp [Cluster.empty, Inventoried, Durable, Prepared, InDoubt]

/-! ## One shard changes -/

/-- The shard has the store `s'`, the others are as before. -/
structure Updates (c : Cluster) (shard : ShardId) (s' : Store) (c' : Cluster) : Prop where
  self : c'.stores shard = s'
  others : ∀ other ≠ shard, c'.stores other = c.stores other

section Updates

variable {shard : ShardId} {s' : Store}

theorem Updates.forall (h : Updates c shard s' c') {P : ShardId → Store → Prop}
    (hself : P shard s') (hothers : ∀ other ≠ shard, P other (c.stores other)) (other : ShardId) :
    P other (c'.stores other) := by
  by_cases heq : other = shard
  · rw [heq, h.self]
    exact hself
  · rw [h.others other heq]
    exact hothers other heq

theorem Updates.inventoried (h : Updates c shard s' c')
    (hinv : ∀ other, Inventoried (c.stores other)) (hcommits : Commits C (c.stores shard) s')
    (other : ShardId) : Inventoried (c'.stores other) :=
  h.forall (P := fun _ s => Inventoried s) (hcommits.inventoried (hinv shard))
    (fun other _ => hinv other) other

theorem Updates.durable_iff (h : Updates c shard s' c')
    (hsame : ∀ k, s'.get distTxnCoordinatorTable k = (c.stores shard).get distTxnCoordinatorTable k)
    {txnId : TxnId} {decision : Decision} :
    Durable C (c'.stores cfg.globalShard) txnId decision ↔
      Durable C (c.stores cfg.globalShard) txnId decision := by
  have hget : (c'.stores cfg.globalShard).get distTxnCoordinatorTable (encodeTxnId txnId) =
      (c.stores cfg.globalShard).get distTxnCoordinatorTable (encodeTxnId txnId) := by
    by_cases heq : cfg.globalShard = shard
    · rw [heq, h.self, hsame]
    · rw [h.others _ heq]
  rw [Durable, hget, Durable]

theorem Updates.prepared_iff (h : Updates c shard s' c')
    (hprepared : ∀ record, Prepared C s' record ↔ Prepared C (c.stores shard) record)
    (other : ShardId) (record : PreparedTxnRecord) :
    Prepared C (c'.stores other) record ↔ Prepared C (c.stores other) record :=
  h.forall (P := fun other s => ∀ record, Prepared C s record ↔ Prepared C (c.stores other) record)
    hprepared (fun _ _ _ => Iff.rfl) other record

theorem Updates.public_rows (h : Updates c shard s' c')
    (hrows : ∀ t k, tableIsReserved t = false → s'.get t k = (c.stores shard).get t k)
    (other : ShardId) (t : String) (k : Bytes) (ht : tableIsReserved t = false) :
    (c'.stores other).get t k = (c.stores other).get t k :=
  h.forall (P := fun other s => ∀ t k, tableIsReserved t = false →
    s.get t k = (c.stores other).get t k) hrows (fun _ _ _ _ _ => rfl) other t k ht

end Updates

/-! ## The steps of a router -/

section Steps

variable {map : ShardMap} {committed : WriteSet} {pending : Option TxnId} {ids : List TxnId}
  {shard : ShardId} {s' : Store}

/-- A step that changes no public row and no row in doubt; what it prepares is pending. -/
theorem RouterInv.keeps (h : RouterInv C cfg map committed pending ids c)
    (hcluster : ClusterInv C cfg c') (hinventoried : ∀ shard, Inventoried (c'.stores shard))
    (hdurable : ∀ txnId decision, Durable C (c'.stores cfg.globalShard) txnId decision ↔
      Durable C (c.stores cfg.globalShard) txnId decision)
    (hprepared : ∀ other record, Prepared C (c'.stores other) record →
      Prepared C (c.stores other) record ∨ pending = some record.txnId)
    (hdoubt : ∀ other t k v, InDoubt C cfg c' other t k v ↔ InDoubt C cfg c other t k v)
    (hrows : ∀ other t k, tableIsReserved t = false →
      (c'.stores other).get t k = (c.stores other).get t k) :
    RouterInv C cfg map committed pending ids c' := by
  constructor
  case cluster => exact hcluster
  case inventoried => exact hinventoried
  case known => simpa only [hdurable] using h.known
  case decided =>
    intro other record hr
    rcases hprepared other record hr with hr | hpending
    · simpa only [hdurable] using h.decided other record hr
    · exact Or.inl hpending
  case in_doubt => simpa only [hdoubt] using h.in_doubt
  case settled =>
    intro other t k ht howner hnone
    rw [hrows other t k ht]
    exact h.settled other t k ht howner (by simpa only [hdoubt] using hnone)
  case routed =>
    intro other t k ht hrow
    exact h.routed other t k ht (hrows other t k ht ▸ hrow)
  case committed_row => exact h.committed_row

/-- A commit that touches neither public rows nor distributed transactions. -/
theorem RouterInv.quiet (h : RouterInv C cfg map committed pending ids c)
    (hcluster : ClusterInv C cfg c') (hupdates : Updates c shard s' c')
    (hcommits : Commits C (c.stores shard) s')
    (hrows : ∀ t k, tableIsReserved t = false → s'.get t k = (c.stores shard).get t k)
    (hprepared : ∀ record, Prepared C s' record ↔ Prepared C (c.stores shard) record)
    (hcoordinator : ∀ k, s'.get distTxnCoordinatorTable k =
      (c.stores shard).get distTxnCoordinatorTable k) :
    RouterInv C cfg map committed pending ids c' := by
  have hprepared := hupdates.prepared_iff hprepared
  refine h.keeps hcluster (hupdates.inventoried h.inventoried hcommits)
    (fun _ _ => hupdates.durable_iff hcoordinator) (fun other r hr => .inl ((hprepared other r).mp hr))
    ?_ (hupdates.public_rows hrows)
  simp only [InDoubt, hprepared, hupdates.durable_iff hcoordinator, implies_true]

/-- A vote; the new record has no decision yet. -/
theorem RouterInv.prepare (h : RouterInv C cfg map committed pending ids c)
    (hcluster : ClusterInv C cfg c') (hupdates : Updates c shard s' c')
    {record : PreparedTxnRecord} (hpending : pending = some record.txnId)
    (hfresh : record.txnId ∉ ids) (hstep : PrepareStep C (c.stores shard) record s') :
    RouterInv C cfg map committed pending ids c' := by
  have hstore := hstep.preparedStore
  have hdurable : ∀ txnId decision, Durable C (c'.stores cfg.globalShard) txnId decision ↔
      Durable C (c.stores cfg.globalShard) txnId decision :=
    fun _ _ => hupdates.durable_iff fun k => hstore.get_coordinator (by decide) k
  have hprepared : ∀ other r, (Prepared C (c'.stores other) r →
      Prepared C (c.stores other) r ∨ r = record) ∧
      (Prepared C (c.stores other) r → Prepared C (c'.stores other) r) :=
    hupdates.forall (P := fun other s => ∀ r, (Prepared C s r →
      Prepared C (c.stores other) r ∨ r = record) ∧ (Prepared C (c.stores other) r → Prepared C s r))
      (fun r => ⟨hstore.prepared_iff.mp, fun hr => hstore.prepared_iff.mpr (Or.inl hr)⟩)
      fun _ _ _ => ⟨Or.inl, id⟩
  refine h.keeps hcluster (hupdates.inventoried h.inventoried hstep.commits) hdurable
    (fun other r hr => ((hprepared other r).1 hr).imp_right fun (heq : r = record) => heq ▸ hpending) ?_
    (hupdates.public_rows fun t k ht => hstore.get_public ht)
  intro other t k v
  simp only [InDoubt, hdurable]
  constructor
  · rintro ⟨r, hr, hcommit, hrow⟩
    rcases (hprepared other r).1 hr with hr | rfl
    · exact ⟨r, hr, hcommit, hrow⟩
    · exact absurd (h.known _ _ hcommit) hfresh
  · rintro ⟨r, hr, hrest⟩
    exact ⟨r, (hprepared other r).2 hr, hrest⟩

/-- The end of a transaction on a shard, with its durable decision. -/
theorem RouterInv.finish (h : RouterInv C cfg map committed pending ids c)
    (hcluster : ClusterInv C cfg c') (hupdates : Updates c shard s' c')
    {prepared : Option PreparedTxnRecord} {record : FinishedTxnRecord}
    (hdecision : Durable C (c.stores cfg.globalShard) record.txnId record.decision)
    (hstep : FinishStep C (c.stores shard) prepared record s') :
    RouterInv C cfg map committed pending ids c' := by
  have hstore := hstep.finishedStore
  have hdurable : ∀ txnId decision, Durable C (c'.stores cfg.globalShard) txnId decision ↔
      Durable C (c.stores cfg.globalShard) txnId decision :=
    fun _ _ => hupdates.durable_iff fun k => hstore.get_coordinator (by decide) k
  have hprepared : ∀ other r, Prepared C (c'.stores other) r → Prepared C (c.stores other) r :=
    hupdates.forall (P := fun other s => ∀ r, Prepared C s r → Prepared C (c.stores other) r)
      (fun _ hr => (hstore.prepared_iff.mp hr).1) fun _ _ _ hr => hr
  have hdoubt : ∀ other t k v, InDoubt C cfg c' other t k v → InDoubt C cfg c other t k v := by
    rintro other t k v ⟨r, hr, hcommit, hrow⟩
    exact ⟨r, hprepared other r hr, (hdurable _ _).mp hcommit, hrow⟩
  -- a row changes only to the write of the finished transaction
  have hrow : ∀ t k, tableIsReserved t = false →
      s'.get t k = (c.stores shard).get t k ∨
        ∃ v, InDoubt C cfg c shard t k v ∧ s'.get t k = v := by
    intro t k ht
    rw [hstore.rows t k (not_bookkeeping_of_public ht k) (not_mem_distTxnTables_of_public ht)]
    split
    · rename_i hcommit
      cases hget : (preparedRows prepared).get t k with
      | none => exact Or.inl rfl
      | some v =>
        cases prepared with
        | none => simp [preparedRows, opsToWriteSet] at hget
        | some p =>
          obtain ⟨hid, hp⟩ := hstore.found p rfl
          exact Or.inr ⟨v, ⟨p, hp, by rwa [hid, ← hcommit], hget⟩, rfl⟩
    · exact Or.inl rfl
  have hleft : ∀ t k v, InDoubt C cfg c shard t k v →
      tableIsReserved t = false → (∀ v, ¬ InDoubt C cfg c' shard t k v) → s'.get t k = v := by
    rintro t k v ⟨r, hr, hcommit, hrow⟩ ht hnone
    have hid : r.txnId = record.txnId := by
      by_contra hne
      have hr' : Prepared C (c'.stores shard) r :=
        hupdates.self ▸ hstore.prepared_iff.mpr ⟨hr, hne⟩
      exact hnone v ⟨r, hr', (hdurable _ _).mpr hcommit, hrow⟩
    have hdecided : record.decision = .commit := hdecision.unique (hid ▸ hcommit)
    have hget : (preparedRows prepared).get t k = some v := by
      rw [hstore.prepared_eq hr hid]
      exact hrow
    rw [hstore.rows t k (not_bookkeeping_of_public ht k) (not_mem_distTxnTables_of_public ht),
      if_pos hdecided, hget]
    rfl
  constructor
  case cluster => exact hcluster
  case inventoried => exact hupdates.inventoried h.inventoried hstep.commits
  case known => simpa only [hdurable] using h.known
  case decided =>
    intro other r hr
    simpa only [hdurable] using h.decided other r (hprepared other r hr)
  case in_doubt => exact fun other t k v hd => h.in_doubt other t k v (hdoubt other t k v hd)
  case settled =>
    intro other t k ht howner hnone
    by_cases heq : other = shard
    · subst heq
      rw [hupdates.self]
      by_cases hd : ∃ v, InDoubt C cfg c other t k v
      · obtain ⟨v, hd⟩ := hd
        rw [hleft t k v hd ht hnone, (h.in_doubt other t k v hd).2]
        rfl
      · rcases hrow t k ht with hsame | ⟨v, hv, -⟩
        · rw [hsame]
          exact h.settled other t k ht howner fun v hv => hd ⟨v, hv⟩
        · exact absurd ⟨v, hv⟩ hd
    · rw [hupdates.others other heq]
      refine h.settled other t k ht howner ?_
      rintro v ⟨r, hr, hcommit, hr'⟩
      refine hnone v ⟨r, ?_, ?_, hr'⟩
      · rwa [hupdates.others other heq]
      · exact (hdurable _ _).mpr hcommit
  case routed =>
    intro other t k ht hpresent
    by_cases heq : other = shard
    · subst heq
      rw [hupdates.self] at hpresent
      rcases hrow t k ht with hsame | ⟨v, hv, -⟩
      · exact h.routed other t k ht (hsame ▸ hpresent)
      · exact ⟨other, (h.in_doubt other t k v hv).1⟩
    · rw [hupdates.others other heq] at hpresent
      exact h.routed other t k ht hpresent
  case committed_row => exact h.committed_row

/-- The pending transaction is decided; the decision commits `writes` or nothing. -/
theorem RouterInv.decide {txnId : TxnId} {bytes : Bytes} {decision : Decision} {writes : WriteSet}
    (h : RouterInv C cfg map committed (some txnId) ids c) (hcluster : ClusterInv C cfg c')
    (hupdates : Updates c cfg.globalShard s' c') (hfresh : txnId ∉ ids)
    (hputs : PutsRow C (c.stores cfg.globalShard) distTxnCoordinatorTable (encodeTxnId txnId)
      bytes s')
    (hdurable : ∀ id d, Durable C s' id d ↔
      Durable C (c.stores cfg.globalShard) id d ∨ id = txnId ∧ d = decision)
    (hrecords : decision = .commit → ∀ shard record, Prepared C (c.stores shard) record →
      record.txnId = txnId → ∀ t k v, record.rows.get t k = some v →
        map.shardFor C cfg t k = .ok shard ∧ writes.get t k = some v)
    (hcovered : ∀ t k v, writes.get t k = some v → decision = .commit ∧
      tableIsReserved t = false ∧ ∃ shard record, map.shardFor C cfg t k = .ok shard ∧
        Prepared C (c.stores shard) record ∧ record.txnId = txnId ∧
        record.rows.get t k = some v) :
    RouterInv C cfg map (committed.extend writes) none (txnId :: ids) c' := by
  have hprepared := hupdates.prepared_iff fun _ => hputs.plain.prepared_iff
  have hrows := hupdates.public_rows fun t k ht => hputs.get_public (by decide) ht
  rw [← hupdates.self] at hdurable
  -- rows in doubt are the old ones and, after a commit, those of the transaction
  have hdoubt : ∀ other t k v, InDoubt C cfg c' other t k v ↔ InDoubt C cfg c other t k v ∨
      decision = .commit ∧ ∃ r, Prepared C (c.stores other) r ∧ r.txnId = txnId ∧
        r.rows.get t k = some v := by
    intro other t k v
    simp only [InDoubt, hprepared, hdurable]
    constructor
    · rintro ⟨r, hr, hcommit | ⟨hid, hcommit⟩, hrow⟩
      · exact Or.inl ⟨r, hr, hcommit, hrow⟩
      · exact Or.inr ⟨hcommit.symm, r, hr, hid, hrow⟩
    · rintro (⟨r, hr, hcommit, hrow⟩ | ⟨hcommit, r, hr, hid, hrow⟩)
      · exact ⟨r, hr, Or.inl hcommit, hrow⟩
      · exact ⟨r, hr, Or.inr ⟨hid, hcommit.symm⟩, hrow⟩
  -- locks keep the transaction away from rows that were in doubt before
  have hdisjoint : ∀ other t k v, InDoubt C cfg c other t k v → writes.get t k = none := by
    rintro other t k v hd
    by_contra hwritten
    obtain ⟨v', hv'⟩ := Option.ne_none_iff_exists'.mp hwritten
    obtain ⟨-, -, owner, r', howner, hr', hid, hrow'⟩ := hcovered t k v' hv'
    obtain rfl : owner = other :=
      Except.ok.inj (howner.symm.trans (h.in_doubt other t k v hd).1)
    obtain ⟨r, hr, hcommit, hrow⟩ := hd
    obtain ⟨lock, hlock⟩ := (h.cluster.locks owner).address r t k v hr hrow
    obtain rfl := (h.cluster.locks owner).disjoint hr hr' ⟨t, k, v, hrow, hlock⟩
      ⟨t, k, v', hrow', hlock⟩
    exact hfresh (hid ▸ h.known _ _ hcommit)
  constructor
  case cluster => exact hcluster
  case inventoried => exact hupdates.inventoried h.inventoried hputs.plain.commits
  case known =>
    intro id d hd
    rcases (hdurable id d).mp hd with hd | ⟨rfl, -⟩
    · exact List.mem_cons_of_mem _ (h.known id d hd)
    · exact List.mem_cons_self
  case decided =>
    intro other r hr
    right
    rcases h.decided other r ((hprepared other r).mp hr) with hid | ⟨d, hd⟩
    · exact ⟨decision, (hdurable _ _).mpr (Or.inr ⟨(Option.some.inj hid).symm, rfl⟩)⟩
    · exact ⟨d, (hdurable _ _).mpr (Or.inl hd)⟩
  case in_doubt =>
    intro other t k v hd
    rw [get_extend]
    rcases (hdoubt other t k v).mp hd with hd | ⟨hcommit, r, hr, hid, hrow⟩
    · rw [hdisjoint other t k v hd]
      exact h.in_doubt other t k v hd
    · obtain ⟨howner, hwrite⟩ := hrecords hcommit other r hr hid t k v hrow
      rw [hwrite]
      exact ⟨howner, rfl⟩
  case settled =>
    intro other t k ht howner hnone
    simp only [hdoubt] at hnone
    have hwrite : writes.get t k = none := by
      by_contra hwritten
      obtain ⟨v, hv⟩ := Option.ne_none_iff_exists'.mp hwritten
      obtain ⟨hcommit, -, owner, r, howner', hrecord⟩ := hcovered t k v hv
      obtain rfl : owner = other := Except.ok.inj (howner'.symm.trans howner)
      exact hnone v (Or.inr ⟨hcommit, r, hrecord⟩)
    rw [get_extend, hwrite, hrows other t k ht, Option.none_or]
    exact h.settled other t k ht howner fun v hv => hnone v (Or.inl hv)
  case routed =>
    intro other t k ht hrow
    exact h.routed other t k ht (hrows other t k ht ▸ hrow)
  case committed_row =>
    intro t k v hget
    rw [get_extend] at hget
    cases hwrite : writes.get t k with
    | none => exact h.committed_row t k v (by simpa [hwrite] using hget)
    | some v' =>
      obtain ⟨-, ht, owner, r, howner, hr, -, hrow⟩ := hcovered t k v' hwrite
      exact ⟨ht, (h.cluster.locks owner).address r t k v' hr hrow, owner, howner⟩

/-- A batch on one shard commits the rows that it owns; the others are copies. -/
theorem RouterInv.write {writes committed' : WriteSet}
    (h : RouterInv C cfg map committed pending ids c) (hcluster : ClusterInv C cfg c')
    (hupdates : Updates c shard s' c') (hwrites : WritesRows C (c.stores shard) writes s')
    (hrouted : ∀ t k v, writes.get t k = some v → ∃ owner, map.shardFor C cfg t k = .ok owner)
    (howned : ∀ t k, map.shardFor C cfg t k = .ok shard →
      committed'.get t k = (writes.get t k).or (committed.get t k))
    (hother : ∀ t k, map.shardFor C cfg t k ≠ .ok shard →
      committed'.get t k = committed.get t k) :
    RouterInv C cfg map committed' pending ids c' := by
  have hdurable : ∀ txnId decision, Durable C (c'.stores cfg.globalShard) txnId decision ↔
      Durable C (c.stores cfg.globalShard) txnId decision :=
    fun _ _ => hupdates.durable_iff fun k => hwrites.step.get_coordinator (by decide) k
  have hprepared := hupdates.prepared_iff fun _ => hwrites.step.plain.prepared_iff
  have hdoubt : ∀ other t k v, InDoubt C cfg c' other t k v ↔ InDoubt C cfg c other t k v := by
    simp only [InDoubt, hprepared, hdurable, implies_true]
  -- the rows of the batch are free, so none of them is in doubt
  have hdisjoint : ∀ t k v, InDoubt C cfg c shard t k v → writes.get t k = none := by
    rintro t k v ⟨r, hr, -, hrow⟩
    by_contra hwritten
    obtain ⟨v', hv'⟩ := Option.ne_none_iff_exists'.mp hwritten
    obtain ⟨lock, hlock, hfree⟩ := hwrites.free t k v' hv' (hwrites.public_rows t k v' hv')
    have hheld := ((h.cluster.locks shard).lock lock _).mpr ⟨r, hr, rfl, t, k, v, hrow, hlock⟩
    rw [hfree] at hheld
    contradiction
  constructor
  case cluster => exact hcluster
  case inventoried => exact hupdates.inventoried h.inventoried hwrites.step.commits
  case known => simpa only [hdurable] using h.known
  case decided => simpa only [hprepared, hdurable] using h.decided
  case in_doubt =>
    intro other t k v hd
    rw [hdoubt] at hd
    obtain ⟨howner, hcommitted⟩ := h.in_doubt other t k v hd
    refine ⟨howner, ?_⟩
    by_cases heq : other = shard
    · subst heq
      rw [howned t k howner, hdisjoint t k v hd, Option.none_or, hcommitted]
    · rw [hother t k (by simpa [howner] using heq), hcommitted]
  case settled =>
    intro other t k ht howner hnone
    simp only [hdoubt] at hnone
    have hrow := h.settled other t k ht howner hnone
    by_cases heq : other = shard
    · subst heq
      rw [hupdates.self, hwrites.row t k ht, howned t k howner, hrow]
      cases writes.get t k <;> rfl
    · rw [hupdates.others other heq, hother t k (by simpa [howner] using heq), hrow]
  case routed =>
    intro other t k ht hpresent
    by_cases heq : other = shard
    · subst heq
      rw [hupdates.self, hwrites.row t k ht] at hpresent
      cases hget : writes.get t k with
      | some v => exact hrouted t k v hget
      | none => exact h.routed other t k ht (by simpa [hget] using hpresent)
    · rw [hupdates.others other heq] at hpresent
      exact h.routed other t k ht hpresent
  case committed_row =>
    intro t k v hget
    by_cases howner : map.shardFor C cfg t k = .ok shard
    · rw [howned t k howner] at hget
      cases hwrite : writes.get t k with
      | none => exact h.committed_row t k v (by simpa [hwrite] using hget)
      | some v' =>
        have ht := hwrites.public_rows t k v' hwrite
        obtain ⟨lock, hlock, -⟩ := hwrites.free t k v' hwrite ht
        exact ⟨ht, ⟨lock, hlock⟩, shard, howner⟩
    · rw [hother t k howner] at hget
      exact h.committed_row t k v hget

end Steps

end MultiDb
