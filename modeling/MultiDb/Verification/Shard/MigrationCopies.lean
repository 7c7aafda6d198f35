import MultiDb.Verification.Shard.CopyPasses

/-!
# Copies of a partition

A migration changes only rows of its partition on the target, which does not own them yet.
-/

namespace MultiDb

open Shared

/-! ### Locks -/

variable {C : Codecs} {s s' : Store} {t : String} {k : Bytes}

/-- What reads depend on besides the rows themselves. -/
structure SameLocks (s s' : Store) : Prop where
  locks : ∀ k, s'.get locksTable k = s.get locksTable k
  participants : ∀ k, s'.get distTxnParticipantTable k = s.get distTxnParticipantTable k
  format : s'.get txnMetaTable lockFormatKey = s.get txnMetaTable lockFormatKey

theorem SameLocks.refl (s : Store) : SameLocks s s :=
  ⟨fun _ => rfl, fun _ => rfl, rfl⟩

theorem SameLocks.trans {s s₁ s₂ : Store} (h : SameLocks s s₁) (h' : SameLocks s₁ s₂) :
    SameLocks s s₂ :=
  ⟨fun k => (h'.locks k).trans (h.locks k),
    fun k => (h'.participants k).trans (h.participants k), h'.format.trans h.format⟩

theorem PlainStep.sameLocks (h : PlainStep C s s') : SameLocks s s' := by
  cases h with
  | same => exact .refl s
  | @commit writes id s' hwrites hfree heffect =>
    have hnone : ∀ t k, t = txnMetaTable ∨ t ∈ distTxnTables → writes.get t k = none := by
      intro t k ht
      by_contra hwritten
      obtain ⟨v, hv⟩ := Option.ne_none_iff_exists'.mp hwritten
      obtain ⟨-, hmeta, hdist⟩ := hwrites t k v hv
      rcases ht with ht | ht
      · exact hmeta ht
      · exact hdist ht
    have hrow : ∀ t k, ¬ Bookkeeping t k → t = txnMetaTable ∨ t ∈ distTxnTables →
        s'.get t k = s.get t k := by
      intro t k hbook ht
      rw [heffect.row t k hbook, hnone t k ht]
      rfl
    exact ⟨fun k => hrow _ k (not_bookkeeping_of_mem (by decide) k) (Or.inr (by decide)),
      fun k => hrow _ k (not_bookkeeping_of_mem (by decide) k) (Or.inr (by decide)),
      hrow _ _ (by decide) (Or.inl rfl)⟩

theorem SameLocks.rejectLegacyPrepares (h : SameLocks s s') :
    rejectLegacyPrepares s' = rejectLegacyPrepares s := by
  have hrange : range s' distTxnParticipantTable [] [] = range s distTxnParticipantTable [] [] :=
    Tables.scan_congr fun k _ => h.participants k
  rw [MultiDb.rejectLegacyPrepares, MultiDb.rejectLegacyPrepares, lockFormat, lockFormat, h.format,
    hrange]

theorem SameLocks.read (h : SameLocks s s')
    (hrow : s'.get t k = s.get t k) : SingleNode.read s' t k = SingleNode.read s t k := by
  simp only [SingleNode.read, validateReadKey, h.rejectLegacyPrepares, h.locks, hrow]

theorem SameLocks.hasRangeLocks (h : SameLocks s s') (t : String)
    (start stop : Bytes) : hasRangeLocks s' t start stop = hasRangeLocks s t start stop := by
  have hrange : ∀ first last, range s' locksTable first last = range s locksTable first last :=
    fun first last => Tables.scan_congr fun k _ => h.locks k
  simp only [MultiDb.hasRangeLocks, h.rejectLegacyPrepares, hrange]

/-! ### Failing calls -/

variable {α : Type} {shard : ShardId} {c c' c₁ c₂ : Cluster}

/-- Every run of a router program from `c` ends as stated, whichever calls fail. -/
abbrev Faulty (C : Codecs) (ok : α → Cluster → Prop) (error : Cluster → Prop)
    (program : Router α) (c : Cluster) : Prop :=
  program.Always (serveFaulty C) ok error c

/-- A call has its effect, or fails without one, or fails after it. -/
theorem faulty_ask (request : Request) {ok : request.Answer → Cluster → Prop}
    {error : Cluster → Prop}
    (hok : ∀ env answer c', c.exec C env ⟨shard, request⟩ = (.ok answer, c') →
      ok answer c' ∧ error c') (herror : error c) :
    Faulty C ok error (Router.ask shard request) c := by
  intro input
  rw [serveFaulty]
  cases hexec : c.exec C input.env ⟨shard, request⟩ with
  | mk reply c' =>
    have hfailed : error c' := by
      cases reply with
      | ok answer => exact (hok input.env answer c' hexec).2
      | error e => exact Cluster.exec_error hexec ▸ herror
    cases input.fault with
    | none =>
      cases reply with
      | ok answer => exact (hok input.env answer c' hexec).1
      | error e => exact hfailed
    | some fault =>
      cases fault with
      | lost e => exact herror
      | unanswered e => exact hfailed

theorem faulty_readOnly (request : Request) (answer : ReplResult request.Answer)
    {ok : request.Answer → Cluster → Prop} {error : Cluster → Prop}
    (hok : ∀ a, answer = .ok a → ok a c) (herror : error c)
    (hexec : ∀ env, request.exec C env (c.stores shard) = (answer, c.stores shard))
    (hallocates : request.allocates answer = [])
    (happlies : request.applies (c.stores shard) answer = none) :
    Faulty C ok error (Router.ask shard request) c := by
  refine faulty_ask request (fun env a c' h => ?_) herror
  rw [Cluster.exec_same (hexec env) hallocates happlies] at h
  obtain ⟨hanswer, rfl⟩ := Prod.mk.inj h
  exact ⟨hok a hanswer, herror⟩

theorem Cluster.exec_stores {env : Env} {request : Request}
    {reply : ReplResult request.Answer} (h : c.exec C env ⟨shard, request⟩ = (reply, c')) :
    ∃ s', request.exec C env (c.stores shard) = (reply, s') ∧
      c'.stores = Function.update c.stores shard s' := by
  cases h
  exact ⟨_, rfl, rfl⟩

/-! ### Rows that a migration leaves alone -/

variable {cfg : RouterConfig} {map : ShardMap} {partition : PartitionId}
  {source target : ShardId} {table : String} {tables : List String}

/-- No user row and no lock has changed. -/
structure SameRows (c c' : Cluster) : Prop where
  locks : ∀ shard, SameLocks (c.stores shard) (c'.stores shard)
  rows : ∀ shard t k, tableIsReserved t = false →
    (c'.stores shard).get t k = (c.stores shard).get t k

theorem SameRows.refl (c : Cluster) : SameRows c c :=
  ⟨fun _ => .refl _, fun _ _ _ _ => rfl⟩

/-- The public rows that the shards own and all locks are as they were. -/
structure KeepsOwned (C : Codecs) (cfg : RouterConfig) (map : ShardMap) (c c' : Cluster) :
    Prop where
  locks : ∀ shard, SameLocks (c.stores shard) (c'.stores shard)
  rows : ∀ shard t k, tableIsReserved t = false → map.shardFor C cfg t k = .ok shard →
    (c'.stores shard).get t k = (c.stores shard).get t k

theorem KeepsOwned.trans (h : KeepsOwned C cfg map c c₁)
    (h' : KeepsOwned C cfg map c₁ c₂) : KeepsOwned C cfg map c c₂ :=
  ⟨fun shard => (h.locks shard).trans (h'.locks shard), fun shard t k ht howner =>
    (h'.rows shard t k ht howner).trans (h.rows shard t k ht howner)⟩

theorem SameRows.keepsOwned (h : SameRows c c') : KeepsOwned C cfg map c c' :=
  ⟨h.locks, fun shard t k ht _ => h.rows shard t k ht⟩

theorem faulty_setMigration (cfg : RouterConfig) (migration : ShardMigration) :
    Faulty C (fun _ c' => SameRows c c') (fun c' => SameRows c c') (setMigration C cfg migration)
      c := by
  refine .bind (fun _ c' => c' = c) (always_compute (fun _ _ => rfl) (.refl c)) ?_
  rintro bytes c₁ rfl
  refine faulty_ask (.proposeAuthorizedBatch _) (fun env u c' h => ?_) (SameRows.refl c₁)
  obtain ⟨s', hexec, hstores⟩ := Cluster.exec_stores h
  have hputs := putsRow_of_authorizedBatch (by decide) (written_map_ok hexec)
  have hsame : SameRows c₁ c' := by
    constructor
    · intro shard
      rw [hstores]
      by_cases heq : shard = cfg.globalShard
      · rw [heq, Function.update_self]
        exact hputs.plain.sameLocks
      · rw [Function.update_of_ne heq]
        exact .refl _
    · intro shard t k ht
      rw [hstores]
      by_cases heq : shard = cfg.globalShard
      · rw [heq, Function.update_self]
        exact hputs.get_public (by decide) ht
      · rw [Function.update_of_ne heq]
  exact ⟨hsame, hsame⟩

/-- Operations on the target, all of them on rows of the partition. -/
structure CopiedRows (C : Codecs) (map : ShardMap) (partition : PartitionId) (target : ShardId)
    (c : Cluster) (ops : List Op) (c' : Cluster) : Prop where
  others : ∀ shard ≠ target, c'.stores shard = c.stores shard
  locks : SameLocks (c.stores target) (c'.stores target)
  rows : ∀ t k, tableIsReserved t = false → (c'.stores target).get t k =
    ((opsToWriteSet ops).get t k).getD ((c.stores target).get t k)
  inside : ∀ t k v, (opsToWriteSet ops).get t k = some v → InPartition C map partition t k

theorem CopiedRows.refl (c : Cluster) : CopiedRows C map partition target c [] c :=
  ⟨fun _ _ => rfl, .refl _, fun _ _ _ => rfl, by simp [opsToWriteSet]⟩

/-- The target does not own the rows of the partition yet. -/
theorem CopiedRows.keepsOwned (cfg : RouterConfig) {ops : List Op}
    (h : CopiedRows C map partition target c ops c')
    (hsource : map.shardForPartition partition = .ok source) (hne : source ≠ target) :
    KeepsOwned C cfg map c c' := by
  constructor
  · intro shard
    by_cases heq : shard = target
    · exact heq ▸ h.locks
    · rw [h.others shard heq]
      exact .refl _
  · intro shard t k ht howner
    by_cases heq : shard = target
    · subst heq
      have hnone : (opsToWriteSet ops).get t k = none := by
        by_contra hwritten
        obtain ⟨v, hv⟩ := Option.ne_none_iff_exists'.mp hwritten
        rw [ShardMap.shardFor, h.inside t k v hv] at howner
        exact hne (Except.ok.inj (hsource.symm.trans howner))
      rw [h.rows t k ht, hnone]
      rfl
    · rw [h.others shard heq]

/-- A batch of a copy pass, under faults. -/
theorem faulty_copyBatch {op : Bytes × Bytes → Op}
    (hsource : map.shardForPartition partition = .ok source) (hne : source ≠ target)
    (htable : ∀ row, (op row).table = table) (hkey : ∀ row, (op row).key = row.1)
    {done rows : List (Bytes × Bytes)} (h : CopiedRows C map partition target c (done.map op) c₁)
    (hrows : ∀ row ∈ rows, InPartition C map partition table row.1) :
    Faulty C (fun _ c' => CopiedRows C map partition target c ((done ++ rows).map op) c')
      (fun c' => KeepsOwned C cfg map c c')
      (Router.ask target (.proposeBatch (rows.map op))) c₁ := by
  refine faulty_ask (.proposeBatch _) (fun env u c' hexec => ?_) (h.keepsOwned cfg hsource hne)
  obtain ⟨s', hresult, hstores⟩ := Cluster.exec_stores hexec
  have hwrites := (proposeBatch_commits (written_map_ok hresult)).writesRows
  have hcopied : CopiedRows C map partition target c ((done ++ rows).map op) c' := by
    constructor
    case others =>
      intro shard hshard
      rw [hstores, Function.update_of_ne hshard, h.others shard hshard]
    case locks =>
      rw [hstores, Function.update_self]
      exact h.locks.trans hwrites.step.plain.sameLocks
    case rows =>
      intro t k ht
      rw [hstores, Function.update_self, hwrites.row t k ht, h.rows t k ht, List.map_append,
        opsToWriteSet_append]
      cases (opsToWriteSet (rows.map op)).get t k <;> rfl
    case inside =>
      intro t k v hget
      rw [List.map_append, opsToWriteSet_append] at hget
      cases hlater : (opsToWriteSet (rows.map op)).get t k with
      | some v' =>
        obtain ⟨rfl, row, hrow, rfl, -⟩ := get_opsToWriteSet_map htable hkey hlater
        exact hrows row hrow
      | none =>
        rw [hlater] at hget
        exact h.inside t k v hget
  exact ⟨hcopied, hcopied.keepsOwned cfg hsource hne⟩

theorem faulty_copyPass {scanned : ShardId} (op : Bytes × Bytes → Op)
    (hsource : map.shardForPartition partition = .ok source) (hne : source ≠ target)
    (htable : ∀ row, (op row).table = table) (hkey : ∀ row, (op row).key = row.1) :
    Faulty C (fun _ c' => ∃ rows : List (Bytes × Bytes),
        CopiedRows C map partition target c (rows.map op) c' ∧
        SingleNode.range (c.stores scanned) table [] [] =
          .ok (range (c.stores scanned) table [] []) ∧
        ∀ row, row ∈ rows ↔ (c.stores scanned).get table row.1 = some row.2 ∧
          InPartition C map partition table row.1)
      (fun c' => KeepsOwned C cfg map c c') (copyPass C cfg map partition scanned target table op)
      c := by
  have hstart : KeepsOwned C cfg map c c := (SameRows.refl c).keepsOwned
  refine always_copyPass (CopiedRows C map partition target c) (.refl c)
    (fun _ _ hcopied => hcopied.keepsOwned cfg hsource hne) ?_
    fun done rows c' hcopied hrows => faulty_copyBatch hsource hne htable hkey hcopied hrows
  exact faulty_readOnly (.range table [] []) (SingleNode.range (c.stores scanned) table [] [])
    (fun _ hrows => ⟨rfl, hrows⟩) hstart (fun _ => rfl) rfl rfl

/-- The rows of the partition are on the target as on the source, and none is locked. -/
structure MovedRows (C : Codecs) (cfg : RouterConfig) (map : ShardMap) (partition : PartitionId)
    (source target : ShardId) (c : Cluster) (tables : List String) (c' : Cluster) : Prop where
  keeps : KeepsOwned C cfg map c c'
  copied : ∀ t ∈ tables, ∀ k, InPartition C map partition t k →
    (c'.stores target).get t k = (c.stores source).get t k
  kept : ∀ t k, tableIsReserved t = false → (t ∈ tables → ¬ InPartition C map partition t k) →
    (c'.stores target).get t k = (c.stores target).get t k
  free : ∀ t ∈ tables, hasRangeLocks (c.stores source) t [] [] = .ok false ∧
    hasRangeLocks (c.stores target) t [] [] = .ok false

theorem SameRows.movedRows (h : SameRows c c') :
    MovedRows C cfg map partition source target c [] c' :=
  ⟨h.keepsOwned, by simp, fun t k ht _ => h.rows target t k ht, by simp⟩

theorem MovedRows.sameRows (h : MovedRows C cfg map partition source target c tables c₁)
    (h' : SameRows c₁ c₂) : MovedRows C cfg map partition source target c tables c₂ where
  keeps := h.keeps.trans h'.keepsOwned
  copied t ht k hin := by
    rw [h'.rows target t k (public_of_inPartition hin), h.copied t ht k hin]
  kept t k ht hout := by rw [h'.rows target t k ht, h.kept t k ht hout]
  free := h.free

/-- Copying one more table, under faults. -/
theorem faulty_copyTable (h : MovedRows C cfg map partition source target c tables c₁)
    (hsource : map.shardForPartition partition = .ok source) (hne : source ≠ target)
    (ht : tableIsReserved table = false) :
    Faulty C (fun _ c' => MovedRows C cfg map partition source target c (table :: tables) c')
      (fun c' => KeepsOwned C cfg map c c')
      (do
        copyPass C cfg map partition target target table fun row => .delete table row.1
        copyPass C cfg map partition source target table fun row => .put table row.1 row.2) c₁ := by
  refine .bind _ ((faulty_copyPass (fun row => .delete table row.1) hsource hne (fun _ => rfl)
    fun _ => rfl).mono (fun _ _ hpass => hpass) fun _ hkeeps => h.keeps.trans hkeeps) ?_
  rintro _ c₂ ⟨stale, hdelete, hscanned, hstale⟩
  have hdeleted := hdelete.keepsOwned cfg hsource hne
  refine (faulty_copyPass (fun row => .put table row.1 row.2) hsource hne (fun _ => rfl)
    fun _ => rfl).mono ?_ fun _ hkeeps => h.keeps.trans (hdeleted.trans hkeeps)
  rintro _ c₃ ⟨fresh, hput, hscanned', hfresh⟩
  obtain ⟨hcopied, hother⟩ := rows_of_passes ht hstale hdelete.rows hfresh hput.rows
  have howner : ∀ t k, InPartition C map partition t k → map.shardFor C cfg t k = .ok source := by
    intro t k hin
    rw [ShardMap.shardFor, hin]
    exact hsource
  constructor
  case keeps => exact h.keeps.trans (hdeleted.trans (hput.keepsOwned cfg hsource hne))
  case copied =>
    intro t hmem k hin
    have hpublic := public_of_inPartition hin
    by_cases htable : t = table
    · subst htable
      rw [hcopied k hin, hdelete.others source hne, h.keeps.rows source t k ht (howner t k hin)]
    · rw [hother t k hpublic fun heq => absurd heq htable]
      exact h.copied t ((List.mem_cons.mp hmem).resolve_left htable) k hin
  case kept =>
    intro t k hpublic hout
    rw [hother t k hpublic fun heq => hout (heq ▸ List.mem_cons_self)]
    exact h.kept t k hpublic fun hmem => hout (List.mem_cons_of_mem _ hmem)
  case free =>
    intro t hmem
    rcases List.mem_cons.mp hmem with rfl | hmem
    · rw [← (h.keeps.locks source).hasRangeLocks, ← (h.keeps.locks target).hasRangeLocks]
      rw [hdelete.others source hne] at hscanned'
      exact ⟨(singleNode_range_eq_ok_iff.mp hscanned').1,
        (singleNode_range_eq_ok_iff.mp hscanned).1⟩
    · exact h.free t hmem

theorem faulty_copyPartition (tables : List String)
    (h : MovedRows C cfg map partition source target c [] c₁)
    (hsource : map.shardForPartition partition = .ok source) (hne : source ≠ target)
    (ht : ∀ table ∈ tables, tableIsReserved table = false) :
    Faulty C (fun _ c' => ∃ done : List String, (∀ table, table ∈ done ↔ table ∈ tables) ∧
        MovedRows C cfg map partition source target c done c')
      (fun c' => KeepsOwned C cfg map c c') (copyPartition C cfg map partition source target tables)
      c₁ := by
  refine Prog.Always.mono (.forM (fun left c' => ∃ done : List String,
      (∀ table, table ∈ done ∨ table ∈ left ↔ table ∈ tables) ∧
      MovedRows C cfg map partition source target c done c')
    ⟨[], by simp, h⟩ ?_) ?_ fun _ he => he
  · rintro table left c₂ ⟨done, hdone, hmoved⟩
    have htable := ht table ((hdone table).mp (Or.inr List.mem_cons_self))
    refine (faulty_copyTable hmoved hsource hne htable).mono (fun _ c' hc' => ?_) fun _ he => he
    refine ⟨table :: done, fun t => ?_, hc'⟩
    rw [← hdone, List.mem_cons, List.mem_cons, or_assoc, or_left_comm]
  · rintro _ c' ⟨done, hdone, hmoved⟩
    exact ⟨done, by simpa using hdone, hmoved⟩

/-- A migration before the change of the placement. -/
inductive FaultyStart (C : Codecs) (cfg : RouterConfig) (map : ShardMap) (partition : PartitionId)
    (target : ShardId) (c : Cluster) (migration : ShardMigration) (c' : Cluster) : Prop
  | placed (hstate : migration.state = .done) (hsame : SameRows c c')
      (hplaced : migration.source = migration.target)
  | copied (source : ShardId) (tables : List String) (hstate : migration.state = .switching)
      (hfrom : migration.source = source) (hto : migration.target = target)
      (hsource : map.shardForPartition partition = .ok source) (hne : source ≠ target)
      (htarget : target ∈ cfg.shards)
      (hmoved : MovedRows C cfg map partition source target c tables c')
      (htables : ∀ t, t ∈ tables ↔
        (Registered (c.stores source) t ∨ Registered (c.stores target) t) ∧
          tableIsReserved t = false)

theorem faulty_startMigration (C : Codecs) (cfg : RouterConfig) (map : ShardMap)
    (partition : PartitionId) (target : ShardId) (c : Cluster) :
    Faulty C (fun migration c' => FaultyStart C cfg map partition target c migration c')
      (fun c' => KeepsOwned C cfg map c c') (startMigration C cfg map partition target) c := by
  have hstart : KeepsOwned C cfg map c c := (SameRows.refl c).keepsOwned
  refine .bind (fun shard c' => target ∈ cfg.shards ∧ shard = target ∧ c' = c)
    (always_compute (fun _ hs => ⟨(RouterConfig.shard_eq_ok_iff.mp hs).1,
      (RouterConfig.shard_eq_ok_iff.mp hs).2, rfl⟩) hstart) ?_
  rintro shard c₁ ⟨htarget, rfl, rfl⟩
  refine .bind (fun source c' => map.shardForPartition partition = .ok source ∧ c' = c₁)
    (always_compute (fun _ hs => ⟨hs, rfl⟩) hstart) ?_
  rintro source c₂ ⟨hsource, rfl⟩
  by_cases hsame : source = shard
  · simp only [if_pos hsame]
    refine .bind _ ((faulty_setMigration cfg _).mono (fun _ _ h => h) fun _ h => h.keepsOwned)
      fun _ c' hc' => ?_
    exact .placed rfl hc' hsame
  · simp only [if_neg hsame]
    refine .bind _ (always_migrationTables hstart fun shard =>
      faulty_readOnly .registeredKeyspaces (SingleNode.registeredKeyspaces C (c₂.stores shard))
        (fun _ h => ⟨rfl, h⟩) hstart (fun _ => rfl) rfl rfl) ?_
    rintro tables c₃ ⟨rfl, htables⟩
    refine .bind _ ((faulty_setMigration cfg _).mono (fun _ _ h => h) fun _ h => h.keepsOwned)
      fun _ c₄ hc₄ => ?_
    have hpublic : ∀ table ∈ tables, tableIsReserved table = false := fun table hmem =>
      ((htables table).mp hmem).2
    refine .bind (fun result c' => KeepsOwned C cfg map c₃ c' ∧ ∀ u, result = .ok u →
        ∃ done : List String, (∀ table, table ∈ done ↔ table ∈ tables) ∧
          MovedRows C cfg map partition source shard c₃ done c')
      (.attempt ((faulty_copyPartition tables hc₄.movedRows hsource hsame hpublic).mono
        (fun _ c' hc' => ?_) fun c' hc' e => ⟨hc', fun u hu => by contradiction⟩)) ?_
    · obtain ⟨done, hdone, hmoved⟩ := hc'
      exact ⟨hmoved.keeps, fun _ _ => ⟨done, hdone, hmoved⟩⟩
    rintro result c₅ ⟨hkeeps, hcopied⟩
    cases result with
    | error e =>
      refine .bind (fun _ c' => KeepsOwned C cfg map c₃ c')
        (.attempt ((faulty_setMigration cfg _).mono
        (fun _ _ h => hkeeps.trans h.keepsOwned) fun _ h _ => hkeeps.trans h.keepsOwned)) ?_
      exact fun _ _ h => h
    | ok u =>
      obtain ⟨done, hdone, hmoved⟩ := hcopied u rfl
      refine .bind _ ((faulty_setMigration cfg _).mono (fun _ _ h => h)
        fun _ h => hkeeps.trans h.keepsOwned) fun _ c' hc' => ?_
      refine .copied source done rfl rfl rfl hsource hsame htarget (hmoved.sameRows hc') fun t => ?_
      rw [hdone, htables]

end MultiDb
